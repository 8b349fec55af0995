/-
  Connections as steps of the system (`thread_httpd` with the callbacks of http.c).

  A connection brings bytes; the request that is read from them is answered by a page, and the
  pages `/wifidog/auth` and `/wifidog/disconnect` are where a request takes a step of the system.
  The other pages leave clients and their rules alone; what the page for unknown paths does for a
  host of the whitelist concerns another chain and is in `callback404Lines`.

  Two things are assumed of a run. No request overruns its buffers: a connection whose request is
  read over the end of one has no step. And the lookups of two requests do not overlap: a page is
  looked up in one step, although `_httpd_findContentDir` walks with `strtok`, whose static
  pointer the worker threads share, so that a lookup can be led astray by another one that begins
  before it has ended. `Model.Lookups` takes the lookups apart, one call of `strtok` after the
  other.
-/
import Wifidog.Model.Content

namespace Wifidog

open CText

/-- The step that the callback for a request takes; `arp` is the result of `arp_get`. -/
def requestAction (addr : Text) (arp : Option Text) (now : Int64) (r : HttpReq) :
    Served Callback → Option Action
  | .call .auth =>
    some (.httpCallbackAuth addr arp (httpdGetVariableByName r.vars "token".toList)
      (httpdGetVariableByName r.vars "logout".toList).isSome now)
  | .call .disconnect =>
    some (.httpCallbackDisconnect (httpdGetVariableByName r.vars "mac".toList)
      (httpdGetVariableByName r.vars "token".toList) r.authUser r.authPassword)
  | _ => none

/-- The action is one of the two callbacks. -/
def Action.ofWeb : Action → Bool
  | .httpCallbackAuth _ _ _ _ _ => true
  | .httpCallbackDisconnect _ _ _ _ => true
  | _ => false

/-- What happens to the gateway: a connection from `addr`, or a step of a thread. -/
inductive WebAction where
  | connection (addr : Text) (arp : Option Text) (now : Int64) (junk : Text)
      (reads : List HttpChunk)
  | other (a : Action)

/-- One step of the gateway. A connection is read, its page is looked up and the callback takes
    its lock section, with no other lookup in between. -/
def webStep (cfg : Config) (s : State) : WebAction → Option State
  | .connection addr arp now junk reads =>
    match threadHttpd junk reads with
    | none => none
    | some none => some s
    | some (some (r, served)) =>
      match requestAction addr arp now r served with
      | none => some s
      | some a => step cfg s a
  | .other a => if a.ofWeb then none else step cfg s a

end Wifidog
