/-
  The online status of the gateway and of the auth server (`wd_util.c`).

  Four static times remember when the gateway and the auth server were last marked online and
  offline. `mark_auth_online` ends in a call of `mark_online` and `mark_offline` in one of
  `mark_auth_offline`, each with a clock reading of its own; a `Mark` is a call together with
  the readings it makes, `nested` being that of the call inside. What the functions compute
  before and after only goes into a debug message.

  `connectMarks` lists the calls that one `connect_auth_server` makes.
-/
import Wifidog.Model.CentralServer

namespace Wifidog

/-- `last_online_time` and the other static times. -/
structure Times where
  lastOnline : Int64
  lastOffline : Int64
  lastAuthOnline : Int64
  lastAuthOffline : Int64
  deriving DecidableEq, Repr

/-- The times of a process that has just started. -/
def Times.init : Times := ⟨0, 0, 0, 0⟩

/-- The test that `is_online` and `is_auth_online` share: the product is an `int`, the
    difference a `time_t`. -/
def probablyOnline (cfg : Config) (online offline : Int64) : Bool :=
  !(online == 0 || decide ((cfg.checkinterval * 2).toInt64 ≤ offline - online))

/-- `is_online` -/
def isOnline (cfg : Config) (t : Times) : Bool :=
  probablyOnline cfg t.lastOnline t.lastOffline

/-- `is_auth_online` -/
def isAuthOnline (cfg : Config) (t : Times) : Bool :=
  if !isOnline cfg t then false
  else probablyOnline cfg t.lastAuthOnline t.lastAuthOffline

/-- `mark_online` -/
def markOnline (t : Times) (now : Int64) : Times := { t with lastOnline := now }

/-- `mark_auth_offline` -/
def markAuthOffline (t : Times) (now : Int64) : Times := { t with lastAuthOffline := now }

/-- `mark_offline` -/
def markOffline (t : Times) (now nested : Int64) : Times :=
  markAuthOffline { t with lastOffline := now } nested

/-- `mark_auth_online` -/
def markAuthOnline (t : Times) (now nested : Int64) : Times :=
  markOnline { t with lastAuthOnline := now } nested

inductive MarkCall where
  | markOnline | markOffline | markAuthOnline | markAuthOffline
  deriving DecidableEq, Repr

/-- A call and the clock readings it makes. -/
structure Mark where
  call : MarkCall
  time : Int64
  nested : Int64
  deriving DecidableEq, Repr

def Mark.apply (t : Times) (m : Mark) : Times :=
  match m.call with
  | .markOnline => markOnline t m.time
  | .markOffline => markOffline t m.time m.nested
  | .markAuthOnline => markAuthOnline t m.time m.nested
  | .markAuthOffline => markAuthOffline t m.time

/-- The readings in the order they are made. -/
def Mark.reads (m : Mark) : List Int64 :=
  match m.call with
  | .markOnline => [m.time]
  | .markOffline => [m.time, m.nested]
  | .markAuthOnline => [m.time, m.nested]
  | .markAuthOffline => [m.time]

/-- A sequence of calls. -/
def markAll (t : Times) (ms : List Mark) : Times := ms.foldl Mark.apply t

/-! ## `connect_auth_server` -/

/-- The calls that `_connect_auth_server` makes, as `connectAuthServerAt` goes on. -/
def connectMarksAt (c : Central) (net : Net) (level : Nat) (servers : List AuthServer) :
    List MarkCall :=
  match servers with
  | [] => []
  | server :: rest =>
    if level + 1 > (server :: rest).length then []
    else
      match net.gethostbyname level 0 server.hostname with
      | none =>
        if resolvePopular net level 1 c.popularServers then
          connectMarksAt c net (level + 1)
            (markAuthServerBad ({ server with lastIp := none } :: rest))
        else [.markOffline]
      | some ip =>
        let updated := { server with lastIp := some ip }
        if !net.socket level then [.markOnline]
        else if net.connect level ip (c.port server) then [.markOnline]
        else .markOnline :: connectMarksAt c net (level + 1) (markAuthServerBad (updated :: rest))
  termination_by servers.length - level
  decreasing_by
    all_goals
      rw [length_markAuthServerBad]
      simp only [List.length_cons, gt_iff_lt] at *
      omega

/-- The calls that `connect_auth_server` makes. -/
def connectMarks (c : Central) (net : Net) (servers : List AuthServer)
    (t : Netfilter.Tables Chain) : List MarkCall :=
  connectMarksAt c net 0 servers ++
    [match (connectAuthServer c net servers t).sockfd with
      | none => .markAuthOffline
      | some _ => .markAuthOnline]

end Wifidog
