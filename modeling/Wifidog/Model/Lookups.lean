/-
  Lookups of pages that overlap (`thread_httpd`, `httpdProcessRequest`, `_httpd_findContentDir`).

  Every connection has a worker thread of its own, and every worker thread walks through the
  directories with `strtok`, which keeps its place in a static pointer. There is one such pointer
  for all of them: a call goes on where the last call of any thread has left it, and takes names out
  of that thread's path.

  A call of `strtok` and the search for the child that it names are one step here; so is the
  reading of a request with the first call. The path that the pointer is in lies on the stack of
  the walk that it was made for: a call that finds it in the path of a walk that has ended has no
  step, and neither has a request that overruns its buffers.
-/
import Mathlib.Logic.Function.Basic
import Wifidog.Model.Web

namespace Wifidog

open CText

/-- `_httpd_findContentDir`: at a directory, or ended with its result. -/
inductive Walk (φ : Type) where
  | walking (curItem : HttpDir φ)
  | found (dir : Option (HttpDir φ))

/-- What `while (curDir)` makes of a name that `strtok` gave. -/
def Walk.go {φ : Type} (curItem : HttpDir φ) : Option Text → Walk φ
  | none => .found (some curItem)
  | some curDir =>
    match Trie.child? curDir curItem.children with
    | none => .found none
    | some curChild => .walking curChild

/-- `httpdProcessRequest` behind the walk. -/
def serveFound {φ : Type} (preload : φ → Int) (server : Httpd φ) (dir : Option (HttpDir φ))
    (entryName : Text) : Served φ :=
  match dir with
  | none => httpdSend404 server
  | some dir =>
    match httpdFindContentEntry dir entryName with
    | none => httpdSend404 server
    | some entry => serveEntry preload entryName entry

/-- A worker thread in `httpdProcessRequest`. -/
structure Lookup where
  clientAddr : Text
  request : HttpReq
  entryName : Text
  walk : Walk Callback

/-- The system with the worker threads of its web server. -/
structure Workers where
  state : State
  /-- the pointer of `strtok`: the thread whose path it is in, and what stands there from it on -/
  olds : Option (Nat × Text)
  lookups : Nat → Option Lookup

/-- The thread is in `_httpd_findContentDir`. -/
def Workers.walks (w : Workers) (i : Nat) : Bool :=
  match w.lookups i with
  | some l =>
    match l.walk with
    | .walking _ => true
    | .found _ => false
  | none => false

/-- Thread `i`, at `curItem`, calls `strtok` on what stands in the path of thread `j`. -/
def Workers.call (w : Workers) (i : Nat) (l : Lookup) (curItem : HttpDir Callback) (j : Nat)
    (s : Text) : Workers :=
  let curDir := strtok '/' s
  { w with
    olds := some (j, (curDir.map Prod.snd).getD [])
    lookups := Function.update w.lookups i
      (some { l with walk := .go curItem (curDir.map Prod.fst) }) }

inductive WorkerAction where
  /-- a connection is accepted: its request is read and the walk begins -/
  | connection (i : Nat) (addr junk : Text) (reads : List HttpChunk)
  /-- "strtok(NULL, "/")" -/
  | next (i : Nat)
  /-- the page that was found answers the request -/
  | serve (i : Nat) (arp : Option Text) (now : Int64)
  | other (a : Action)

/-- One step of the system with its worker threads. -/
def workerStep (cfg : Config) (w : Workers) : WorkerAction → Option Workers
  | .connection i addr junk reads =>
    match w.lookups i, httpdReadRequest junk reads with
    | some _, _ => none
    | none, .outside => none
    | none, .invalid => some w
    | none, .request r =>
      match splitPath r.path with
      | none => some w
      | some (dirName, entryName) =>
        some (w.call i ⟨addr, r, entryName, .walking webserver.content⟩ webserver.content i
          (dirName.take (httpMaxUrl - 1)))
  | .next i =>
    match w.lookups i, w.olds with
    | some l, some (j, s) =>
      match l.walk with
      | .walking curItem => if w.walks j then some (w.call i l curItem j s) else none
      | .found _ => none
    | _, _ => none
  | .serve i arp now =>
    match w.lookups i with
    | none => none
    | some l =>
      match l.walk with
      | .walking _ => none
      | .found dir =>
        let served := serveFound (fun _ => 0) webserver dir l.entryName
        let lookups := Function.update w.lookups i none
        match requestAction l.clientAddr arp now l.request served with
        | none => some { w with lookups := lookups }
        | some a => (step cfg w.state a).map fun s => ⟨s, w.olds, lookups⟩
  | .other a => if a.ofWeb then none else (step cfg w.state a).map fun s => { w with state := s }

/-- No worker thread is at work. -/
def Workers.Idle (w : Workers) : Prop := ∀ i, w.lookups i = none

/-- A call that goes on with a walk finds the pointer in the thread's own path. -/
def Undisturbed (w : Workers) : WorkerAction → Prop
  | .next i => w.olds.map Prod.fst = some i
  | _ => True

instance decidableUndisturbed (w : Workers) : (a : WorkerAction) → Decidable (Undisturbed w a)
  | .connection _ _ _ _ => isTrue trivial
  | .next i => inferInstanceAs (Decidable (w.olds.map Prod.fst = some i))
  | .serve _ _ _ => isTrue trivial
  | .other _ => isTrue trivial

end Wifidog
