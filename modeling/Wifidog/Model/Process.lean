/-
  The gateway over restarts.

  A restart replaces the process: the new one reads its configuration, gets the clients from
  the parent (`wdctl_restart`, `get_clients_from_parent`), waits until the parent has removed
  its rules and exited, and calls `fw_init`. No request handler and no round of
  `fw_sync_with_authserver` is carried over. What the parent leaves in the tables is free.

  The rest of the program compares and prints the strings of a client, so the new process can
  only go on when none of them is NULL.
-/
import Wifidog.Model.Handover
import Wifidog.Model.System

namespace Wifidog

open CText Netfilter Runs

/-- The record, if no string is NULL. -/
def RawClient.client? (c : RawClient) : Option Client :=
  match c.ip, c.mac, c.token with
  | some ip, some mac, some token =>
    some ⟨c.id, ip, mac, token, c.fwConnectionState, c.fd, c.counters⟩
  | _, _, _ => none

def RawList.clientList? (l : RawList) : Option ClientList :=
  if l.clients.all fun c => c.client?.isSome then
    some ⟨l.clients.filterMap RawClient.client?, l.clientId⟩
  else none

structure Process where
  cfg : Config
  state : State
  deriving DecidableEq, Repr

/-- The new process; `t` is what it finds in the tables. -/
def Process.restart (p : Process) (cfg : Config) (getExtIface : Option Text) (t : Tables Chain) :
    Option Process :=
  (getClientsFromParent (wdctlRestart p.state.list)).bind fun raw =>
    raw.clientList?.map fun l =>
      let (t, l, _) := fwInit cfg getExtIface true t l
      ⟨cfg, { list := l, tables := t, threads := [], sync := .idle, asked := p.state.asked }⟩

inductive ProcessAction where
  | sys (a : Action)
  | restart (cfg : Config) (getExtIface : Option Text) (t : Tables Chain)

def processStep (p : Process) : ProcessAction → Option Process
  | .sys a => (step p.cfg p.state a).map fun s => { p with state := s }
  | .restart cfg getExtIface t => p.restart cfg getExtIface t

end Wifidog
