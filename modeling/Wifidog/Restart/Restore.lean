/-
  `fw_init` in a restarted process.

  The loop over the inherited clients sets each client's state to NONE and then calls
  `fw_allow` with the inherited state. The result is exact when every inherited client has
  access (`restore_exact`). A client whose state is NONE gets rules as well: a MARK rule with
  mark 0 and an ACCEPT rule, which nothing deletes later since its state says it has none
  (`restore_adds_rules_for_none`).
-/
import Wifidog.Access.Coherence
import Wifidog.Policy.Setup

namespace Wifidog

open CText Netfilter

/-- The ACCEPT rules that a client list calls for. -/
def acceptGrants (cs : List Client) : Multiset (Rule Chain) :=
  ↑((cs.filter Client.granted).map fun c => acceptRule c.ip)

/-- The tables and the list after the restart are those that the inherited list calls for. -/
structure Restored (l : ClientList) (t' : Tables Chain) (l' : ClientList) : Prop where
  outgoing : ∃ rs, t'.view .mangle .outgoing = some rs ∧
    (↑rs : Multiset (Rule Chain)) = grants l.clients
  incoming : ∃ rs, t'.view .mangle .incoming = some rs ∧
    (↑rs : Multiset (Rule Chain)) = acceptGrants l.clients
  states : l' = l

/-! ## The loop over the clients -/

theorem restoreClients_outgoing (t : Tables Chain) (cs : List Client) :
    (restoreClients t cs).1.view .mangle .outgoing =
      (t.view .mangle .outgoing).map (· ++ cs.map Client.rule) := by
  induction cs generalizing t with
  | nil => simp [restoreClients]
  | cons c cs ih =>
    unfold restoreClients
    dsimp only
    rw [ih, view_fwAllow_outgoing, Option.map_map]
    refine congrArg (fun f => Option.map f (t.view .mangle .outgoing)) (funext fun rs => ?_)
    simp [allowOutgoing, Client.rule]

theorem restoreClients_incoming (t : Tables Chain) (cs : List Client) :
    (restoreClients t cs).1.view .mangle .incoming =
      (t.view .mangle .incoming).map (· ++ cs.map fun c => acceptRule c.ip) := by
  induction cs generalizing t with
  | nil => simp [restoreClients]
  | cons c cs ih =>
    unfold restoreClients
    dsimp only
    rw [ih, view_fwAllow_incoming, Option.map_map]
    refine congrArg (fun f => Option.map f (t.view .mangle .incoming)) (funext fun rs => ?_)
    simp [allowIncoming]

theorem restoreClients_clients (t : Tables Chain) (cs : List Client) :
    (restoreClients t cs).2 = cs := by
  induction cs generalizing t with
  | nil => rfl
  | cons c cs ih =>
    unfold restoreClients
    dsimp only
    rw [ih, fwAllow_client]

/-! ## The whole of `fw_init` -/

section Accepted
variable {cfg : Config} {getExtIface : Option Text} {cmds : List (Command Chain)}
  {t t0 : Tables Chain} (hcmds : iptablesFwInit cfg getExtIface = some cmds)
  (hacc : Tables.runAll cmds t = some t0) (l : ClientList)
include hcmds hacc

theorem fwInit_restarted :
    fwInit cfg getExtIface true t l =
      ((restoreClients t0 l.clients).1, l, 1) := by
  unfold fwInit
  rw [hcmds]
  dsimp only
  rw [if_pos rfl, Tables.execAll_of_runAll hacc, restoreClients_clients]
  rfl

/-- Every inherited client gets a MARK rule and an ACCEPT rule, in list order. -/
theorem fwInit_chains :
    (fwInit cfg getExtIface true t l).1.view .mangle .outgoing =
        some (l.clients.map Client.rule) ∧
      (fwInit cfg getExtIface true t l).1.view .mangle .incoming =
        some (l.clients.map fun c => acceptRule c.ip) := by
  rw [fwInit_restarted hcmds hacc]
  obtain ⟨ext, _, rfl⟩ := Option.map_eq_some_iff.mp hcmds
  have hset := setup_of_accepted hacc
  dsimp only
  rw [restoreClients_outgoing, restoreClients_incoming, hset.mangle .outgoing [] rfl,
    hset.mangle .incoming [] rfl]
  simp

/-- After a restart the chains and the list are those the inherited list calls for if and only
    if no inherited client has state NONE. -/
theorem restore_exact :
    Restored l (fwInit cfg getExtIface true t l).1 (fwInit cfg getExtIface true t l).2.1 ↔
      ∀ c ∈ l.clients, c.fwConnectionState ≠ fwMarkNone := by
  obtain ⟨hout, hin⟩ := fwInit_chains hcmds hacc l
  have hgranted : ∀ c : Client, c.granted = true ↔ c.fwConnectionState ≠ fwMarkNone := by
    simp [Client.granted]
  constructor
  · rintro ⟨⟨rs, hrs, heq⟩, _, _⟩ c hc
    rw [hout] at hrs
    obtain rfl := Option.some.inj hrs
    -- as many rules as clients, and as many as clients with access
    have hcard := congrArg Multiset.card heq
    simp only [grants, Multiset.coe_card, List.length_map] at hcard
    have hall := List.length_filter_eq_length_iff.mp hcard.symm
    exact (hgranted c).mp (hall c hc)
  · intro hall
    have hfilter : l.clients.filter Client.granted = l.clients :=
      List.filter_eq_self.mpr fun c hc => (hgranted c).mpr (hall c hc)
    refine ⟨⟨_, hout, ?_⟩, ⟨_, hin, ?_⟩, ?_⟩
    · rw [grants, hfilter]
    · rw [acceptGrants, hfilter]
    · rw [fwInit_restarted hcmds hacc]

end Accepted

/-- Two inherited clients: one KNOWN, the other in a given state. -/
def inherited (state : Int) : ClientList :=
  ⟨[⟨2, "10.0.0.6".toList, "00:16:3e:00:00:0b".toList, "u".toList, state, 0, .fresh 0⟩,
    ⟨1, smallIp, smallMac, "t".toList, fwMarkKnown, 0, .fresh 0⟩], 3⟩

def smallCommands : List (Command Chain) :=
  initMangle smallConfig ++ initNat smallConfig ++ initFilter smallConfig "eth0".toList

theorem smallCommands_accepted :
    Tables.runAll smallCommands builtinTables = some (builtinTables.execAll smallCommands) := by
  decide +kernel

theorem restore_exact_inherited :
    Restored (inherited fwMarkProbation)
      (fwInit smallConfig none true builtinTables (inherited fwMarkProbation)).1
      (fwInit smallConfig none true builtinTables (inherited fwMarkProbation)).2.1 :=
  (@restore_exact smallConfig none smallCommands builtinTables
    (builtinTables.execAll smallCommands) rfl smallCommands_accepted
    (inherited fwMarkProbation)).mpr (by decide)

/-- A client inherited with state NONE gets a MARK rule and an ACCEPT rule. -/
theorem restore_adds_rules_for_none :
    Tables.runAll smallCommands builtinTables = some (builtinTables.execAll smallCommands) ∧
    (fwInit smallConfig none true builtinTables (inherited fwMarkNone)).1.view .mangle .outgoing =
      some [markRule "10.0.0.6".toList "00:16:3e:00:00:0b".toList 0,
        markRule smallIp smallMac fwMarkKnown] ∧
    (fwInit smallConfig none true builtinTables (inherited fwMarkNone)).1.view .mangle .incoming =
      some [acceptRule "10.0.0.6".toList, acceptRule smallIp] ∧
    ¬ Restored (inherited fwMarkNone)
      (fwInit smallConfig none true builtinTables (inherited fwMarkNone)).1
      (fwInit smallConfig none true builtinTables (inherited fwMarkNone)).2.1 := by
  have hout : (fwInit smallConfig none true builtinTables (inherited fwMarkNone)).1.view
      .mangle .outgoing = some [markRule "10.0.0.6".toList "00:16:3e:00:00:0b".toList 0,
        markRule smallIp smallMac fwMarkKnown] := by decide +kernel
  refine ⟨smallCommands_accepted, hout, by decide +kernel, ?_⟩
  rintro ⟨⟨rs, hrs, heq⟩, _, _⟩
  rw [hout] at hrs
  obtain rfl := Option.some.inj hrs
  exact absurd (congrArg Multiset.card heq) (by decide +kernel)

end Wifidog
