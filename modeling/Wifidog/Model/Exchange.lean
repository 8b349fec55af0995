/-
  wdctl and the gateway (`send_request`, `wdctl_status` and `wdctl_reset` of wdctl.c on one side,
  `thread_wdctl_handler` with what it calls on the other).

  Two programs and the bytes under way between them. A `write` may take fewer bytes than it is
  given, and a `read` may bring fewer than are there; both wait when there is nothing to do. A
  write to a connection that the gateway has closed ends wdctl. While the two talk, the other
  threads of the gateway take their steps.

  `wdctl reset` puts its request together in 64 bytes, with a NUL at the end: an argument of 57
  characters leaves no room for the line end behind it, and a longer one is cut.

  `handled` records the command the gateway carried out, with the state it found and the one it
  left; no step reads it. Before it answers a reset the gateway reports the logout to its auth
  server, and the time that takes is not part of this model. `wdctl stop` and `wdctl restart` end
  the gateway and are left out.
-/
import Wifidog.Model.System
import Wifidog.Model.Wdctl

namespace Wifidog

open CText

/-! ## wdctl -/

inductive CtlCommand where
  | status
  | reset (param : Text)
  deriving DecidableEq, Repr

/-- `request` of `wdctl_reset`: two calls of `strncat` behind "reset ". -/
def resetRequest (param : Text) : Text :=
  let request := "reset ".toList ++ param.take (64 - "reset ".toList.length - 1)
  request ++ "\r\n\r\n".toList.take (64 - request.length - 1)

def CtlCommand.request : CtlCommand → Text
  | .status => "status\r\n\r\n".toList
  | .reset param => resetRequest param

/-- What wdctl prints. -/
inductive CtlReport where
  /-- "Connection %s successfully reset." -/
  | reset
  /-- "Connection %s was not active." -/
  | notActive
  /-- "WiFiDog sent an abnormal reply." -/
  | abnormal
  | printed (text : Text)
  deriving DecidableEq, Repr

inductive CtlClient where
  /-- in `send_request`, with what is left of the request -/
  | sending (rest : Text)
  /-- in the loop over `read`, with what it has read, or printed -/
  | reading (buffer : Text)
  | reported (r : CtlReport)
  /-- "Write to wifidog failed" -/
  | killed
  deriving DecidableEq, Repr

/-- `sizeof (buffer)` -/
def ctlBufferSize : Nat := 4096

/-- The size that the next `read` is called with. -/
def CtlCommand.room : CtlCommand → (buffer : Text) → Nat
  | .status, _ => ctlBufferSize - 1
  | .reset _, buffer => ctlBufferSize - buffer.length

/-- What a read adds: the bytes, or what is printed of them. -/
def CtlCommand.take : CtlCommand → Text → Text
  | .status, bytes => cstrAt bytes 0
  | .reset _, bytes => bytes

/-- What is reported at the end. -/
def CtlCommand.report : CtlCommand → (buffer : Text) → CtlReport
  | .status, buffer => .printed buffer
  | .reset _, buffer =>
    if cstrAt buffer 0 = "Yes".toList then .reset
    else if cstrAt buffer 0 = "No".toList then .notActive
    else .abnormal

/-! ## The gateway -/

inductive CtlServer where
  /-- in the read loop -/
  | reading (r : WdctlRead)
  /-- in `write_to_socket`, with what is left of the reply -/
  | replying (rest : Text)
  | closed
  deriving DecidableEq, Repr

/-- The client that `wdctl_reset` finds. -/
def resetNode (l : ClientList) (arg : Text) : Option Client :=
  (clientListFindByIp l arg).orElse fun _ => clientListFindByMac l arg

/-- A command that was carried out: the gateway before and after it, and the reply. -/
structure Handling where
  command : WdctlCommand
  before : State
  after : State
  reply : Text
  deriving DecidableEq, Repr

/-- `wdctl_status` and `wdctl_reset`; `status` is what `get_status_text` returns. -/
def handleCommand (cfg : Config) (s : State) (status : Text) : WdctlCommand → Option (State × Text)
  | .status => some (s, cstrAt status 0)
  | .reset arg =>
    some (wdctlReset cfg s arg,
      if (resetNode s.list arg).isSome then "Yes".toList else "No".toList)
  | _ => none

/-! ## Both together -/

structure Exchange where
  gateway : State
  client : CtlClient
  server : CtlServer
  toServer : Text
  toClient : Text
  handled : Option Handling
  deriving DecidableEq, Repr

def Exchange.start (s : State) (cmd : CtlCommand) : Exchange :=
  ⟨s, .sending cmd.request, .reading .init, [], [], none⟩

inductive ExchangeAction where
  | clientWrite (n : Nat)
  | serverRead (n : Nat)
  | serverHandle (status : Text)
  | serverWrite (n : Nat)
  | serverClose
  | clientRead (n : Nat)
  | clientEnd
  /-- a step of another thread of the gateway -/
  | other (a : Action)

/-- `while (!done && read_bytes < (sizeof (request) - 1))` -/
def WdctlRead.goesOn (r : WdctlRead) : Bool := !r.done && decide (r.readBytes < maxBuf - 1)

/-- One step; `none` when the program waits or is not at that point. -/
def exchangeStep (cfg : Config) (cmd : CtlCommand) (x : Exchange) :
    ExchangeAction → Option Exchange
  | .clientWrite n =>
    match x.client with
    | .sending rest =>
      if x.server = .closed then some { x with client := .killed }
      else if 1 ≤ n ∧ n ≤ rest.length then
        some { x with
          client := if n = rest.length then .reading [] else .sending (rest.drop n)
          toServer := x.toServer ++ rest.take n }
      else none
    | _ => none
  | .serverRead n =>
    match x.server with
    | .reading r =>
      if r.goesOn ∧ 1 ≤ n ∧ n ≤ x.toServer.length ∧ n ≤ maxBuf - r.readBytes then
        (r.step (.data (x.toServer.take n))).map fun r =>
          { x with server := .reading r, toServer := x.toServer.drop n }
      else none
    | _ => none
  | .serverHandle status =>
    match x.server with
    | .reading r =>
      if r.goesOn then none
      else if !r.done then some { x with server := .closed }
      else
        match wdctlDispatch r.request with
        | none => some { x with server := .closed }
        | some command =>
          (handleCommand cfg x.gateway status command).map fun (s, reply) =>
            { x with
              gateway := s
              server := .replying reply
              handled := some ⟨command, x.gateway, s, reply⟩ }
    | _ => none
  | .serverWrite n =>
    match x.server with
    | .replying rest =>
      if 1 ≤ n ∧ n ≤ rest.length then
        some { x with server := .replying (rest.drop n), toClient := x.toClient ++ rest.take n }
      else none
    | _ => none
  | .serverClose =>
    if x.server = .replying [] then some { x with server := .closed } else none
  | .clientRead n =>
    match x.client with
    | .reading buffer =>
      if 1 ≤ n ∧ n ≤ x.toClient.length ∧ n ≤ cmd.room buffer then
        some { x with
          client := .reading (buffer ++ cmd.take (x.toClient.take n))
          toClient := x.toClient.drop n }
      else none
    | _ => none
  | .clientEnd =>
    match x.client with
    | .reading buffer =>
      if (x.toClient = [] ∧ x.server = .closed) ∨ cmd.room buffer = 0 then
        some { x with client := .reported (cmd.report buffer) }
      else none
    | _ => none
  | .other a => (step cfg x.gateway a).map fun s => { x with gateway := s }

end Wifidog
