/-
  Handing the client list to a restarted process.

  `wdctl_restart` forks, and the parent writes one line for each client to the internal socket.
  The new process reads them in `get_clients_from_parent`, byte by byte into a line buffer, and
  splits each line in the buffer with `strsep`: at `|` into the command and its fields, and each
  field at `=` into key and value. The pointers `key` and `value` keep what they were set to by
  the line before until the first field of a line sets them again, so the first token of a line
  is looked at together with whatever the buffer now holds at the old places.

  A write behind the end of the line buffer makes the reader `none`. `client_get_new` returns
  zeroed memory, so the strings of a new client are NULL until a field sets them.
-/
import Wifidog.Lib.CBuffer
import Wifidog.Lib.Runs
import Wifidog.Model.ClientList
import Wifidog.Model.Conf

namespace Wifidog

open CText Runs

/-! ## The parent -/

/-- The line for a client. -/
def clientLine (c : Client) : Text :=
  "CLIENT|ip=".toList ++ c.ip ++ "|mac=".toList ++ c.mac ++ "|token=".toList ++ c.token ++
    "|fw_connection_state=".toList ++ dec (c.fwConnectionState % 2 ^ 32).toNat ++
    "|fd=".toList ++ decInt c.fd ++
    "|counters_incoming=".toList ++ dec c.counters.incoming.toNat ++
    "|counters_outgoing=".toList ++ dec c.counters.outgoing.toNat ++
    "|counters_last_updated=".toList ++ dec c.counters.lastUpdated.toUInt64.toNat ++ "\n".toList

/-- What `wdctl_restart` writes to the socket. -/
def wdctlRestart (l : ClientList) : Text := l.clients.flatMap clientLine

/-! ## The child -/

/-- A `t_client` whose strings may be NULL. -/
structure RawClient where
  id : Nat
  ip : Option Text
  mac : Option Text
  token : Option Text
  fwConnectionState : Int
  fd : Int
  counters : Counters
  deriving DecidableEq, Repr

/-- `client_get_new` -/
def clientGetNew : RawClient := ⟨0, none, none, none, 0, 0, ⟨0, 0, 0, 0, 0, 0, 0⟩⟩

structure RawList where
  clients : List RawClient
  clientId : Nat
  deriving DecidableEq, Repr

/-- `client_list_insert_client` -/
def RawList.insertClient (l : RawList) (c : RawClient) : RawList :=
  ⟨{ c with id := l.clientId } :: l.clients, l.clientId + 1⟩

/-- End of a line: insert the client if there is one. -/
def RawList.insertParsed (l : RawList) : Option RawClient → RawList
  | none => l
  | some client => l.insertClient client

/-- Assign the value to the slot that the key names. -/
def RawClient.assign (c : RawClient) (key value : Text) : RawClient :=
  if key = "ip".toList then { c with ip := some value }
  else if key = "mac".toList then { c with mac := some value }
  else if key = "token".toList then { c with token := some value }
  else if key = "fw_connection_state".toList then { c with fwConnectionState := atoi value }
  else if key = "fd".toList then { c with fd := atoi value }
  else if key = "counters_incoming".toList then
    { c with counters := { c.counters with
        incomingHistory := UInt64.ofInt (atol value)
        incoming := UInt64.ofInt (atol value)
        incomingDelta := 0 } }
  else if key = "counters_outgoing".toList then
    { c with counters := { c.counters with
        outgoingHistory := UInt64.ofInt (atol value)
        outgoing := UInt64.ofInt (atol value)
        outgoingDelta := 0 } }
  else if key = "counters_last_updated".toList then
    { c with counters := { c.counters with lastUpdated := Int64.ofInt (atol value) } }
  else c

/-- The variables that the parsing of a line uses; the pointers are offsets into the buffer. -/
structure LineParse where
  command : Option Nat
  key : Option Nat
  value : Option Nat
  client : Option RawClient
  deriving DecidableEq, Repr

def clientWord : Text := "CLIENT".toList

/-- The body of the loop that splits a field at `=`. -/
def keyValueBody (token2 : Nat) (buf : Text) (kv : Option Nat × Option Nat) :
    Text × (Option Nat × Option Nat) :=
  match kv with
  | (none, value) => (buf, some token2, value)
  | (some key, none) => (buf, some key, some token2)
  | (some key, some value) => (buf, some key, some value)

/-- The first token of a line is the command, the others are fields. -/
def splitToken (token1 : Nat) (buf : Text) (p : LineParse) : Text × LineParse :=
  match p.command with
  | none => (buf, { p with command := some token1 })
  | some _ =>
    let (buf', key, value) :=
      strsepLoop '=' keyValueBody (buf.length + 1) (some token1) buf (none, none)
    (buf', { p with key := key, value := value })

/-- Make the client if there is none, and assign the key to it. -/
def applyToken (buf : Text) (p : LineParse) : LineParse :=
  if p.command.map (cstrAt buf) = some clientWord then
    let client := p.client.getD clientGetNew
    match p.key, p.value with
    | some key, some value =>
      { p with client := some (client.assign (cstrAt buf key) (cstrAt buf value)) }
    | _, _ => { p with client := some client }
  else p

/-- The body of the loop that splits a line at `|`. -/
def tokenBody (token1 : Nat) (buf : Text) (p : LineParse) : Text × LineParse :=
  let (buf', p') := splitToken token1 buf p
  (buf', applyToken buf' p')

/-- The variables of `get_clients_from_parent`, and the client list. -/
structure Inherit where
  linebuffer : Text
  len : Nat
  parse : LineParse
  list : RawList
  deriving DecidableEq, Repr

def emptyBuffer : Text := List.replicate maxBuf '\x00'

/-- A complete entry is in the buffer: parse it, insert the client and clean up. -/
def Inherit.endLine (s : Inherit) : Inherit :=
  let p := (strsepLoop '|' tokenBody (s.linebuffer.length + 1) (some 0) s.linebuffer s.parse).2
  { linebuffer := emptyBuffer
    len := 0
    parse := { p with command := none, client := none }
    list := s.list.insertParsed p.client }

/-- One round of the loop that reads from the socket. -/
def Inherit.readChar (s : Inherit) (onechar : Char) : Option Inherit :=
  let onechar := if onechar = '\n' then '\x00' else onechar
  if s.len < maxBuf then
    let s' := { s with linebuffer := s.linebuffer.set s.len onechar, len := s.len + 1 }
    some (if onechar = '\x00' then s'.endLine else s')
  else none

/-- The state before the first byte. -/
def Inherit.start : Inherit := ⟨emptyBuffer, 0, ⟨none, none, none, none⟩, ⟨[], 1⟩⟩

/-- `get_clients_from_parent`, for the bytes that arrive. -/
def getClientsFromParent (bytes : Text) : Option RawList :=
  (run Inherit.readChar Inherit.start bytes).map Inherit.list

end Wifidog
