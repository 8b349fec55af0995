/-
  Granting and revoking access (`firewall.c`), and the pings that open the firewall while no
  auth server answers (`ping_thread.c`).

  `fwAllow` and `fwDeny` return the tables, the client record as they leave it and the return
  code. A client's access is one MARK rule in the mangle Outgoing chain and one ACCEPT rule in
  the mangle Incoming chain; `fwAllow` adds the new pair first and then deletes the old one,
  and the exit statuses of the four commands are not looked at.

  Proved: what each function does to the rules of every chain (`view_fwAllow_outgoing`,
  `view_fwDeny_outgoing`, their Incoming forms, and `view_fwAllow_other`, `view_fwDeny_other`
  for the rest), and the same for `ping`.
-/
import Wifidog.Model.FwIptables

namespace Wifidog

open CText Netfilter

/-- `_fw_deny_raw` -/
def fwDenyRaw (t : Tables Chain) (ip mac : Text) (mark : Int) : Tables Chain × Int :=
  iptablesFwAccess t .deny ip mac mark

/-- `fw_allow`: grant first, deny after if needed. -/
def fwAllow (t : Tables Chain) (client : Client) (newState : Int) : Tables Chain × Client × Int :=
  let oldState := client.fwConnectionState
  let (t, result) := iptablesFwAccess t .allow client.ip client.mac newState
  let t := if oldState ≠ fwMarkNone then (fwDenyRaw t client.ip client.mac oldState).1 else t
  (t, { client with fwConnectionState := newState }, result)

/-- `fw_deny` -/
def fwDeny (t : Tables Chain) (client : Client) : Tables Chain × Client × Int :=
  let (t, result) := fwDenyRaw t client.ip client.mac client.fwConnectionState
  (t, { client with fwConnectionState := fwMarkNone }, result)

/-- `fw_set_authdown` -/
def fwSetAuthdown (cfg : Config) (t : Tables Chain) : Tables Chain :=
  t.execAll (iptablesFwAuthUnreachable cfg fwMarkAuthIsDown)

/-- `fw_set_authup` -/
def fwSetAuthup (cfg : Config) (t : Tables Chain) : Tables Chain :=
  t.execAll (iptablesFwAuthReachable cfg)

/-- The loop of `fw_init` over the clients inherited from the parent. -/
def restoreClients (t : Tables Chain) : List Client → Tables Chain × List Client
  | [] => (t, [])
  | client :: cs =>
    let newFwState := client.fwConnectionState
    let (t, client, _) := fwAllow t { client with fwConnectionState := fwMarkNone } newFwState
    let (t, cs) := restoreClients t cs
    (t, client :: cs)

/-- `fw_init`, once the ICMP socket is open: the tables, the client list and the return code.
    `restarted` says whether `restart_orig_pid` is set. -/
def fwInit (cfg : Config) (getExtIface : Option Text) (restarted : Bool) (t : Tables Chain)
    (l : ClientList) : Tables Chain × ClientList × Int :=
  let (t, result) :=
    match iptablesFwInit cfg getExtIface with
    | some cs => (t.execAll cs, 1)
    | none => (t, 0)
  if restarted then
    let (t, cs) := restoreClients t l.clients
    (t, { l with clients := cs }, result)
  else (t, l, result)

/-! ## Pings -/

/-- How far a `ping` gets. -/
inductive PingOutcome where
  /-- `connect_auth_server` returned -1 -/
  | noSocket
  /-- the request or the answer failed -/
  | noResponse
  | response (res : Text)
  deriving DecidableEq, Repr

/-- The auth server answered "Pong". -/
def PingOutcome.pong : PingOutcome → Bool
  | .noSocket => false
  | .noResponse => false
  | .response res => (strstr res "Pong".toList).isSome

/-- `ping`: the tables and the static flag `authdown`. -/
def ping (cfg : Config) (t : Tables Chain) (authdown : Bool) (o : PingOutcome) :
    Tables Chain × Bool :=
  if o.pong then
    if authdown then (fwSetAuthup cfg t, false) else (t, authdown)
  else
    if !authdown then (fwSetAuthdown cfg t, true) else (t, authdown)

/-! ## What grants and revocations do to the chains -/

section Views
variable (t : Tables Chain) (c : Client) (new : Int)

theorem view_fwDenyRaw_outgoing (ip mac : Text) (mark : Int) :
    (fwDenyRaw t ip mac mark).1.view .mangle .outgoing =
      (t.view .mangle .outgoing).map (·.erase (markRule ip mac mark)) := by
  unfold fwDenyRaw
  rw [view_iptablesFwAccess]
  rfl

theorem view_fwDenyRaw_incoming (ip mac : Text) (mark : Int) :
    (fwDenyRaw t ip mac mark).1.view .mangle .incoming =
      (t.view .mangle .incoming).map (·.erase (acceptRule ip)) := by
  unfold fwDenyRaw
  rw [view_iptablesFwAccess]
  rfl

/-- The Outgoing chain after a grant. -/
def allowOutgoing (c : Client) (new : Int) (rs : List (Rule Chain)) : List (Rule Chain) :=
  if c.fwConnectionState ≠ fwMarkNone then
    (rs ++ [markRule c.ip c.mac new]).erase (markRule c.ip c.mac c.fwConnectionState)
  else rs ++ [markRule c.ip c.mac new]

/-- The Incoming chain after a grant. -/
def allowIncoming (c : Client) (rs : List (Rule Chain)) : List (Rule Chain) :=
  if c.fwConnectionState ≠ fwMarkNone then (rs ++ [acceptRule c.ip]).erase (acceptRule c.ip)
  else rs ++ [acceptRule c.ip]

theorem view_fwAllow_outgoing :
    (fwAllow t c new).1.view .mangle .outgoing =
      (t.view .mangle .outgoing).map (allowOutgoing c new) := by
  have hgrant : (iptablesFwAccess t .allow c.ip c.mac new).1.view .mangle .outgoing =
      (t.view .mangle .outgoing).map (· ++ [markRule c.ip c.mac new]) := by
    rw [view_iptablesFwAccess]
    rfl
  unfold fwAllow allowOutgoing
  by_cases hold : c.fwConnectionState ≠ fwMarkNone
  · simp only [hold, if_true, ne_eq, not_false_eq_true]
    rw [view_fwDenyRaw_outgoing, hgrant, Option.map_map]
    rfl
  · simp only [hold, if_false]
    exact hgrant

theorem view_fwAllow_incoming :
    (fwAllow t c new).1.view .mangle .incoming =
      (t.view .mangle .incoming).map (allowIncoming c) := by
  have hgrant : (iptablesFwAccess t .allow c.ip c.mac new).1.view .mangle .incoming =
      (t.view .mangle .incoming).map (· ++ [acceptRule c.ip]) := by
    rw [view_iptablesFwAccess]
    rfl
  unfold fwAllow allowIncoming
  by_cases hold : c.fwConnectionState ≠ fwMarkNone
  · simp only [hold, if_true, ne_eq, not_false_eq_true]
    rw [view_fwDenyRaw_incoming, hgrant, Option.map_map]
    rfl
  · simp only [hold, if_false]
    exact hgrant

theorem view_fwDeny_outgoing :
    (fwDeny t c).1.view .mangle .outgoing =
      (t.view .mangle .outgoing).map (·.erase (markRule c.ip c.mac c.fwConnectionState)) :=
  view_fwDenyRaw_outgoing t c.ip c.mac c.fwConnectionState

theorem view_fwDeny_incoming :
    (fwDeny t c).1.view .mangle .incoming =
      (t.view .mangle .incoming).map (·.erase (acceptRule c.ip)) :=
  view_fwDenyRaw_incoming t c.ip c.mac c.fwConnectionState

/-- A chain that holds no client rules. -/
def Foreign (tb : Table) (ch : Chain) : Prop :=
  tb = .mangle → ch ≠ .outgoing ∧ ch ≠ .incoming

instance (tb : Table) (ch : Chain) : Decidable (Foreign tb ch) :=
  inferInstanceAs (Decidable (tb = .mangle → ch ≠ .outgoing ∧ ch ≠ .incoming))

theorem view_iptablesFwAccess_other {tb : Table} {ch : Chain} (h : Foreign tb ch)
    (type : FwAccess) (ip mac : Text) (tag : Int) :
    (iptablesFwAccess t type ip mac tag).1.view tb ch = t.view tb ch := by
  have hno : (accessCommands type ip mac tag).filter (Command.touches tb ch) = [] := by
    refine List.filter_eq_nil_iff.mpr fun cmd hcmd => ?_
    have hmangle : cmd.table = .mangle ∧ (cmd.op.chain = .outgoing ∨ cmd.op.chain = .incoming) := by
      cases type with
      | allow =>
        simp only [accessCommands, List.mem_cons, List.not_mem_nil, or_false] at hcmd
        rcases hcmd with rfl | rfl <;> simp [Op.chain]
      | deny =>
        simp only [accessCommands, List.mem_cons, List.not_mem_nil, or_false] at hcmd
        rcases hcmd with rfl | rfl <;> simp [Op.chain]
    simp only [Command.touches, Bool.and_eq_true, decide_eq_true_eq]
    rintro ⟨rfl, rfl⟩
    have := h hmangle.1
    rcases hmangle.2 with h1 | h1
    · exact this.1 h1
    · exact this.2 h1
  rw [view_iptablesFwAccess]
  unfold Tables.viewAfter
  rw [hno]
  rfl

theorem view_fwAllow_other {tb : Table} {ch : Chain} (h : Foreign tb ch) :
    (fwAllow t c new).1.view tb ch = t.view tb ch := by
  unfold fwAllow fwDenyRaw
  by_cases hold : c.fwConnectionState ≠ fwMarkNone
  · simp only [hold, if_true, ne_eq, not_false_eq_true]
    rw [view_iptablesFwAccess_other _ h, view_iptablesFwAccess_other _ h]
  · simp only [hold, if_false]
    rw [view_iptablesFwAccess_other _ h]

theorem view_fwDeny_other {tb : Table} {ch : Chain} (h : Foreign tb ch) :
    (fwDeny t c).1.view tb ch = t.view tb ch :=
  view_iptablesFwAccess_other t h .deny c.ip c.mac c.fwConnectionState

@[simp] theorem fwAllow_client :
    (fwAllow t c new).2.1 = { c with fwConnectionState := new } := rfl

@[simp] theorem fwDeny_client :
    (fwDeny t c).2.1 = { c with fwConnectionState := fwMarkNone } := rfl

end Views

end Wifidog
