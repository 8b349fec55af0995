/-
  The control socket (`thread_wdctl_handler`).

  The handler reads into a buffer of `MAX_BUF` bytes until a read has brought a CR or LF, or
  the buffer is full but for one byte. `len`, the result of `read`, is signed; the position and
  the bound of the inner loop are a `size_t`, to which it is cast. A `ReadResult` is what `read`
  would give with room for all of it; the call takes what its size allows.

  `scanRequest` is the inner loop. It gives nothing when it would look outside of the buffer.
-/
import Wifidog.Lib.CBuffer
import Wifidog.Model.Conf

namespace Wifidog

open CText

/-- The result of one `read`: bytes, with none at the end of file, or -1. -/
inductive ReadResult where
  | data (bytes : Text)
  | error
  deriving DecidableEq, Repr

/-- `SIZE_MAX + 1` -/
def sizeModulus : Nat := 2 ^ 64

/-- The local variables of the loop. -/
structure WdctlRead where
  request : Text
  readBytes : Nat
  done : Bool
  deriving DecidableEq, Repr

def WdctlRead.init : WdctlRead := ⟨List.replicate maxBuf '\x00', 0, false⟩

/-- `request[i] == '\r' || request[i] == '\n'` -/
def isLineEnd (c : Char) : Bool := c == '\r' || c == '\n'

/-- `for (i = read_bytes; i < read_bytes + (size_t) len; i++)`, with `n` rounds to go. -/
def scanRequest : (n i : Nat) → (request : Text) → (done : Bool) → Option (Text × Bool)
  | 0, _, request, done => some (request, done)
  | n + 1, i, request, done =>
    match request[i]? with
    | none => none
    | some c =>
      if isLineEnd c then scanRequest n (i + 1) (request.set i '\x00') true
      else scanRequest n (i + 1) request done

/-- The bytes at `pos` are replaced by those given. -/
def writeAt (request : Text) (pos : Nat) (bytes : Text) : Text :=
  request.take pos ++ bytes ++ request.drop (pos + bytes.length)

/-- The buffer after `read (fd, request + read_bytes, sizeof (request) - read_bytes)`, and
    `(size_t) len`. -/
def WdctlRead.read (r : WdctlRead) : ReadResult → Text × Nat
  | .data bytes =>
    let got := bytes.take (maxBuf - r.readBytes)
    (writeAt r.request r.readBytes got, got.length)
  | .error => (r.request, sizeModulus - 1)

/-- One round of the loop. -/
def WdctlRead.step (r : WdctlRead) (result : ReadResult) : Option WdctlRead :=
  let (request, len) := r.read result
  let bound := (r.readBytes + len) % sizeModulus
  (scanRequest (bound - r.readBytes) r.readBytes request r.done).map fun (request, done) =>
    ⟨request, bound, done⟩

/-- How far the loop gets with the results of the reads so far. -/
inductive LoopState where
  /-- it waits for the next read -/
  | waiting (r : WdctlRead)
  | ended (r : WdctlRead)
  /-- it has looked outside of the buffer -/
  | outside
  deriving DecidableEq, Repr

/-- `while (!done && read_bytes < (sizeof (request) - 1))` -/
def readLoop (r : WdctlRead) : List ReadResult → LoopState
  | [] => if !r.done && decide (r.readBytes < maxBuf - 1) then .waiting r else .ended r
  | result :: results =>
    if !r.done && decide (r.readBytes < maxBuf - 1) then
      match r.step result with
      | none => .outside
      | some r => readLoop r results
    else .ended r

/-! ## Commands -/

inductive WdctlCommand where
  | status
  | stop
  | reset (arg : Text)
  | restart
  deriving DecidableEq, Repr

/-- The tests of the request, in order. -/
def wdctlDispatch (request : Text) : Option WdctlCommand :=
  if "status".toList.isPrefixOf request then some .status
  else if "stop".toList.isPrefixOf request then some .stop
  else if "reset".toList.isPrefixOf request then some (.reset (cstrAt request 6))
  else if "restart".toList.isPrefixOf request then some .restart
  else none

/-- What the handler makes of a connection. -/
inductive Handled where
  | waiting
  | outside
  /-- "Invalid wdctl request." -/
  | invalid
  /-- "Request was not understood!" -/
  | notUnderstood
  | dispatched (command : WdctlCommand)
  deriving DecidableEq, Repr

/-- `thread_wdctl_handler`, given what its reads give. -/
def threadWdctlHandler (results : List ReadResult) : Handled :=
  match readLoop .init results with
  | .waiting _ => .waiting
  | .outside => .outside
  | .ended r =>
    if !r.done then .invalid
    else
      match wdctlDispatch r.request with
      | none => .notUnderstood
      | some command => .dispatched command

end Wifidog
