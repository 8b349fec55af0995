/-
  Packets and restarts.

  The parent hands its clients over, the child sets up the chains anew and calls `fw_allow` for
  each of them. `restart_transparent_iff`: when the tokens have no separator, the child marks every
  packet as the parent's client list says, if and only if no client without access has a trusted
  MAC. Such a client gets a rule that sets mark 0, behind the jump to the Trusted chain, and its
  packets lose the mark of the trusted.

  What the parent's ping had found out is not handed over. As in `Policy.Gateway`, mangle PREROUTING
  holds no rules of others at either start, MACs are as the kernel prints them, and the parent is
  one that the steps of `Gateway` reach.
-/
import Wifidog.Policy.Gateway
import Wifidog.Restart.Handover
import Wifidog.Restart.Restore
import Wifidog.Model.Process

namespace Wifidog

open CText Netfilter Runs

/-! ## The rules of the child -/

theorem rule_of_handed {r : RawClient} {c : Client} (h : r.handed = c.readBack) :
    ∃ d, r.client? = some d ∧ d.rule = c.rule := by
  obtain ⟨id, ip, mac, token, state, fd, counters⟩ := r
  simp only [RawClient.handed, Client.readBack, Handed.mk.injEq] at h
  obtain ⟨rfl, rfl, rfl, rfl, -⟩ := h
  exact ⟨_, rfl, rfl⟩

theorem rules_of_handed {rs : List RawClient} {cs : List Client}
    (h : rs.map RawClient.handed = cs.map Client.readBack) :
    (∀ r ∈ rs, r.client?.isSome = true) ∧
      (rs.filterMap RawClient.client?).map Client.rule = cs.map Client.rule := by
  induction rs generalizing cs with
  | nil =>
    obtain rfl : cs = [] := List.map_eq_nil_iff.mp h.symm
    exact ⟨fun r hr => absurd hr List.not_mem_nil, rfl⟩
  | cons r rs ih =>
    cases cs with
    | nil => cases h
    | cons c cs =>
      rw [List.map_cons, List.map_cons, List.cons.injEq] at h
      obtain ⟨d, hd, hrule⟩ := rule_of_handed h.1
      obtain ⟨hall, hrules⟩ := ih h.2
      constructor
      · intro r' hr'
        rcases List.mem_cons.mp hr' with rfl | hr'
        · rw [hd]
          rfl
        · exact hall r' hr'
      · rw [List.filterMap_cons_some hd, List.map_cons, List.map_cons, hrule, hrules]

theorem view_restoreClients_other {tb : Table} {ch : Chain} (h : Foreign tb ch)
    (t : Tables Chain) (cs : List Client) :
    (restoreClients t cs).1.view tb ch = t.view tb ch := by
  induction cs generalizing t with
  | nil => rfl
  | cons c cs ih =>
    unfold restoreClients
    dsimp only
    rw [ih, view_fwAllow_other _ _ _ h]

section Restart
variable {p : Process} (hsend : ∀ d ∈ p.state.list.clients, d.Sendable ∧ Separated d.token)
  {cfg : Config} {getExtIface : Option Text} {cmds : List (Command Chain)} {t t0 : Tables Chain}
  (hcmds : iptablesFwInit cfg getExtIface = some cmds) (hacc : Tables.runAll cmds t = some t0)
include hsend hcmds hacc

/-- The child has a rule for each client of the parent, and the other chains as they were set
    up. -/
theorem restart_tables : ∃ p', p.restart cfg getExtIface t = some p' ∧
    p'.state.tables.view .mangle .outgoing =
      some (p.state.list.clients.reverse.map Client.rule) ∧
    ∀ tb ch, Foreign tb ch → p'.state.tables.view tb ch = t0.view tb ch := by
  obtain ⟨s, hread, -, hlist⟩ := read_clients (fun c hc => (hsend c hc).1)
    (fun c hc => (hsend c hc).2) reading_start
  have hraw : getClientsFromParent (wdctlRestart p.state.list) = some s.list := by
    unfold getClientsFromParent wdctlRestart
    rw [hread]
    rfl
  have hhanded : s.list.clients.map RawClient.handed =
      p.state.list.clients.reverse.map Client.readBack := by
    rw [hlist, List.map_reverse]
    exact List.append_nil _
  obtain ⟨hall, hrules⟩ := rules_of_handed hhanded
  have hclients : s.list.clientList? =
      some ⟨s.list.clients.filterMap RawClient.client?, s.list.clientId⟩ :=
    if_pos (List.all_eq_true.mpr hall)
  let inherited : ClientList := ⟨s.list.clients.filterMap RawClient.client?, s.list.clientId⟩
  have hrestart : p.restart cfg getExtIface t =
      some ⟨cfg, ⟨(fwInit cfg getExtIface true t inherited).2.1,
        (fwInit cfg getExtIface true t inherited).1, [], .idle, p.state.asked⟩⟩ := by
    unfold Process.restart
    rw [hraw, Option.bind_some, hclients]
    rfl
  refine ⟨_, hrestart, ?_, fun tb ch hf => ?_⟩
  · rw [← hrules]
    exact (fwInit_chains hcmds hacc inherited).1
  · show (fwInit cfg getExtIface true t inherited).1.view tb ch = _
    rw [fwInit_restarted hcmds hacc]
    exact view_restoreClients_other hf t0 _

end Restart

/-! ## The marks of the child -/

section Marks
variable {env : Env} {call : Chain → Nat → Outcome} {p : Packet}

theorem readMark_ranged {c : Client} (h : c.Ranged) :
    readMark (decInt c.fwConnectionState) = some c.fwConnectionState.toNat := by
  rcases h with h0 | h1 | h2
  · rw [h0]
    decide
  · rw [h1]
    decide
  · rw [h2]
    decide

/-- A rule for each client, with access or without: the client that sends the packet decides. -/
theorem walk_rules {cs : List Client} (hsenders : DistinctSenders cs)
    (hranged : ∀ c ∈ cs, c.Ranged) (m : Nat) :
    walk env call p (cs.map Client.rule) m =
      .fall (match cs.find? (·.sends p) with
        | some c => c.fwConnectionState.toNat
        | none => m) := by
  have hany : (cs.map Client.rule).any (Rule.applies env p 0) = cs.any (·.sends p) := by
    rw [List.any_map]
    exact congrArg _ (funext fun c => applies_rule c 0)
  cases hfind : cs.find? (·.sends p) with
  | none =>
    have hno : cs.any (·.sends p) = false :=
      List.any_eq_false.mpr (List.find?_eq_none.mp hfind)
    rw [walk_of_marks (v := 0) ?_ m, hany, hno]
    · rfl
    · intro r hr
      obtain ⟨c, hc, rfl⟩ := List.mem_map.mp hr
      refine ⟨rule_markBlind c, _, rfl, fun happ => ?_⟩
      rw [applies_rule] at happ
      exact absurd happ (List.find?_eq_none.mp hfind c hc)
  | some c =>
    have hc := List.mem_of_find?_eq_some hfind
    have hcp : c.sends p = true := List.find?_some hfind
    have hyes : cs.any (·.sends p) = true := List.any_eq_true.mpr ⟨c, hc, hcp⟩
    rw [walk_of_marks (v := c.fwConnectionState.toNat) ?_ m, hany, hyes]
    · rfl
    · intro r hr
      obtain ⟨d, hd, rfl⟩ := List.mem_map.mp hr
      refine ⟨rule_markBlind d, _, rfl, fun happ => ?_⟩
      rw [applies_rule] at happ
      obtain rfl := hsenders.unique hd hc happ hcp
      exact readMark_ranged (hranged d hd)

end Marks

/-- The mark that the child gives a packet. -/
def restartedMark (cfg : Config) (clients : List Client) (p : Packet) : Nat :=
  match clients.find? (·.sends p) with
  | some c => c.fwConnectionState.toNat
  | none => if cfg.trustedmaclist.any (sameMac · p.mac) then 2 else 0

/-- The way through mangle PREROUTING, when the Outgoing chain has a rule for each client. -/
theorem walk_restarted {cfg : Config} {ext : Text} {t t0 t' : Tables Chain} {clients : List Client}
    (hset : Setup cfg ext t t0) (hforeign : t.view .mangle .prerouting = some [])
    (hout : t'.view .mangle .outgoing = some (clients.map Client.rule))
    (hother : ∀ tb ch, Foreign tb ch → t'.view tb ch = t0.view tb ch)
    (hsenders : DistinctSenders clients) (hranged : ∀ c ∈ clients, c.Ranged) (env : Env)
    {p : Packet} (hin : ifaceMatches cfg.gwInterface p.iif = true) :
    traverse env t'.mangle p .prerouting 0 = .fall (restartedMark cfg clients p) := by
  obtain ⟨foreign, hforeign', hpre0⟩ := hset.prerouting
  obtain rfl : [] = foreign := Option.some.inj (hforeign.symm.trans hforeign')
  have hpre : t'.mangle.get .prerouting = some (preroutingJumps cfg ++ []) :=
    (hother .mangle .prerouting (by intro _; decide)).trans hpre0
  have htrusted : t'.mangle.get .trusted = some (trustedRules cfg) :=
    (hother .mangle .trusted (by intro _; decide)).trans (hset.mangle _ _ rfl)
  have houtgoing : t'.mangle.get .outgoing = some (clients.map Client.rule) := hout
  have hdown (hgot : cfg.gotAuthdownRuleset = true) :
      t'.mangle.get .authIsDown = some (downRules false) :=
    (hother .mangle .authIsDown (by intro _; decide)).trans
      (hset.mangle .authIsDown [] (if_pos hgot))
  have hlen : 2 ≤ t'.mangle.length := by
    have hnames : ∀ c ∈ [Chain.prerouting, Chain.trusted], (t'.mangle.get c).isSome := by
      simp [hpre, htrusted]
    exact Chains.length_ge (by decide) hnames
  obtain ⟨k, hk⟩ : ∃ k, t'.mangle.length = k + 2 := ⟨_, (Nat.sub_add_cancel hlen).symm⟩
  have hgw (ch : Chain) (m : Nat) : Rule.applies env p m
      (⟨[.inInterface cfg.gwInterface], .jump ch⟩ : Rule Chain) = true := by
    simp [Rule.applies, Cond.holds, hin]
  have htail : walk env (callChain env t'.mangle p (k + 1)) p
      [⟨[.inInterface cfg.gwInterface], .jump .trusted⟩,
        ⟨[.inInterface cfg.gwInterface], .jump .outgoing⟩] 0 =
      .fall (restartedMark cfg clients p) := by
    rw [walk_jump _ (hgw _ _), callChain_succ htrusted, walk_trustedRules, Outcome.fall_andThen,
      walk_jump _ (hgw _ _), callChain_succ houtgoing, walk_rules hsenders hranged,
      Outcome.fall_andThen]
    rfl
  unfold Netfilter.traverse
  rw [hk, callChain_succ hpre, List.append_nil]
  unfold preroutingJumps
  by_cases hgot : cfg.gotAuthdownRuleset = true
  · rw [if_pos hgot, List.singleton_append, walk_jump _ (hgw _ _), callChain_succ (hdown hgot),
      walk_downRules, Outcome.fall_andThen]
    exact htail
  · rw [if_neg hgot, List.nil_append]
    exact htail

theorem exists_iface (pat : Text) : ∃ name, ifaceMatches pat name = true := by
  unfold ifaceMatches
  split
  · exact ⟨pat.dropLast, List.isPrefixOf_iff_prefix.mpr (List.prefix_refl _)⟩
  · exact ⟨pat, by simp⟩

theorem find?_sends {cs : List Client} (hsenders : DistinctSenders cs) {p : Packet} {c : Client}
    (hc : c ∈ cs) (hcp : c.sends p = true) : cs.find? (·.sends p) = some c := by
  cases hfind : cs.find? (·.sends p) with
  | none => exact absurd hcp (List.find?_eq_none.mp hfind c hc)
  | some d =>
    have hdp : d.sends p = true := List.find?_some hfind
    rw [hsenders.unique (List.mem_of_find?_eq_some hfind) hc hdp hcp]

theorem DistinctSenders.reverse {cs : List Client} (h : DistinctSenders cs) :
    DistinctSenders cs.reverse := by
  refine List.pairwise_reverse.mpr (List.Pairwise.imp (fun hne hsame => hne ⟨hsame.1.symm, ?_⟩) h)
  exact strcaseEq_iff.mpr (strcaseEq_iff.mp hsame.2).symm

theorem sameMac_congr {a b : Text} (h : sameMac a b = true) (mac : Text) :
    sameMac mac a = sameMac mac b := by
  rw [Bool.eq_iff_iff]
  unfold sameMac at h ⊢
  rw [strcaseEq_iff] at h
  rw [strcaseEq_iff, strcaseEq_iff, h]

/-- The child's mark is the one of the list, unless a client without access has a trusted MAC. -/
theorem restartedMark_eq_iff (cfg : Config) {clients : List Client}
    (hsenders : DistinctSenders clients) (p : Packet) :
    restartedMark cfg clients.reverse p = expectedMark cfg clients false p ↔
      ∀ d ∈ clients, d.fwConnectionState = fwMarkNone → d.sends p = true →
        cfg.trustedmaclist.any (sameMac · d.mac) = false := by
  have hdefault : (if cfg.gotAuthdownRuleset && false then authDownMark else 0) = 0 := by simp
  unfold restartedMark expectedMark
  rw [hdefault]
  by_cases hsome : ∃ d ∈ clients, d.sends p = true
  · obtain ⟨d, hd, hdp⟩ := hsome
    have honly {e : Client} (he : e ∈ clients) (hep : e.sends p = true) : e = d :=
      hsenders.unique he hd hep hdp
    have hmac : sameMac d.mac p.mac = true := (Bool.and_eq_true_iff.mp hdp).2
    have htrusted : cfg.trustedmaclist.any (sameMac · p.mac) =
        cfg.trustedmaclist.any (sameMac · d.mac) :=
      congrArg _ (funext fun mac => (sameMac_congr hmac mac).symm)
    rw [find?_sends hsenders.reverse (List.mem_reverse.mpr hd) hdp, htrusted]
    by_cases hnone : d.fwConnectionState = fwMarkNone
    · have hfind : clients.find? (fun c => c.sends p && c.granted) = none := by
        refine List.find?_eq_none.mpr fun e he hep => ?_
        obtain ⟨hsends, hgranted⟩ := Bool.and_eq_true_iff.mp hep
        rw [honly he hsends] at hgranted
        simp [Client.granted, hnone] at hgranted
      rw [hfind]
      show d.fwConnectionState.toNat = (if _ then 2 else 0) ↔ _
      rw [hnone]
      constructor
      · intro heq e he _ hep
        rw [honly he hep]
        by_contra hyes
        rw [if_pos (by simpa using hyes)] at heq
        cases heq
      · intro hall
        rw [hall d hd hnone hdp]
        rfl
    · have hgranted : d.granted = true := bne_iff_ne.mpr hnone
      have hfind : clients.find? (fun c => c.sends p && c.granted) = some d := by
        cases hfound : clients.find? (fun c => c.sends p && c.granted) with
        | none =>
          have hno := List.find?_eq_none.mp hfound d hd
          simp [hdp, hgranted] at hno
        | some e =>
          have hep := List.find?_some hfound
          rw [honly (List.mem_of_find?_eq_some hfound) (Bool.and_eq_true_iff.mp hep).1]
      rw [hfind]
      refine iff_of_true rfl fun e he hstate hep => ?_
      rw [honly he hep] at hstate
      exact absurd hstate hnone
  · have hno (c : Client) (hc : c ∈ clients) : ¬ c.sends p = true := fun h => hsome ⟨c, hc, h⟩
    have hrev : clients.reverse.find? (·.sends p) = none :=
      List.find?_eq_none.mpr fun c hc => hno c (List.mem_reverse.mp hc)
    have hfind : clients.find? (fun c => c.sends p && c.granted) = none :=
      List.find?_eq_none.mpr fun c hc h => hno c hc (Bool.and_eq_true_iff.mp h).1
    rw [hrev, hfind]
    exact iff_of_true rfl fun d hd _ hdp => absurd hdp (hno d hd)

/-! ## The result -/

/-- For every reachable parent whose tokens have no separator: the restarted gateway marks every
    packet as the parent's list says if and only if no client without access has a trusted MAC. -/
theorem restart_transparent_iff (c : Central) {servers : List AuthServer} {t : Tables Chain}
    {g0 g : Gateway} {acts : List GatewayAction} (h0 : Started c servers t g0)
    (hrun : run (gatewayStep c) g0 acts = some g) (harp : ∀ a ∈ acts, a.LowerArp)
    (hsend : ∀ d ∈ g.state.list.clients, d.Sendable ∧ Separated d.token) {cfg : Config}
    {getExtIface : Option Text} {cmds : List (Command Chain)} {t1 t2 : Tables Chain}
    (hcmds : iptablesFwInit cfg getExtIface = some cmds) (hacc : Tables.runAll cmds t1 = some t2)
    (hforeign : t1.view .mangle .prerouting = some []) (env : Env) :
    ∃ p', (Process.mk (g.config c) g.state).restart cfg getExtIface t1 = some p' ∧
      ((∀ p : Packet, ifaceMatches cfg.gwInterface p.iif = true →
          traverse env p'.state.tables.mangle p .prerouting 0 =
            .fall (expectedMark cfg g.state.list.clients false p)) ↔
        ∀ d ∈ g.state.list.clients, d.fwConnectionState = fwMarkNone →
          cfg.trustedmaclist.any (sameMac · d.mac) = false) := by
  have hserves := h0.serves_le hrun harp
  have hsenders := distinctSenders_of_lower hserves.wf hserves.lower
  obtain ⟨p', hrestart, hout, hother⟩ :=
    @restart_tables ⟨g.config c, g.state⟩ hsend cfg getExtIface cmds t1 t2 hcmds hacc
  obtain ⟨ext, -, rfl⟩ := Option.map_eq_some_iff.mp hcmds
  have hwalk {p : Packet} (hin : ifaceMatches cfg.gwInterface p.iif = true) :=
    walk_restarted (setup_of_accepted hacc) hforeign hout hother hsenders.reverse
      (fun d hd => hserves.ranged d (List.mem_reverse.mp hd)) env hin
  refine ⟨p', hrestart, ?_⟩
  constructor
  · intro hall d hd hnone
    obtain ⟨iif, hin⟩ := exists_iface cfg.gwInterface
    -- a packet that the client sends
    let p : Packet := ⟨iif, [], d.ip, [], d.mac, [], 0, [], .new⟩
    have hdp : d.sends p = true := by simp [Client.sends, p, sameMac, strcaseEq]
    have hmark := (hwalk hin).symm.trans (hall p hin)
    exact (restartedMark_eq_iff cfg hsenders p).mp (Outcome.fall.inj hmark) d hd hnone hdp
  · intro hnone p hin
    rw [hwalk hin, (restartedMark_eq_iff cfg hsenders p).mpr fun d hd hstate _ =>
      hnone d hd hstate]

/-- The client of the session can be handed over, whatever state it is in. -/
theorem sessionClient_sendable {state : Int}
    (hstate : state ∈ [fwMarkNone, fwMarkProbation, fwMarkKnown]) :
    Client.Sendable { sessionClient with fwConnectionState := state } ∧
      Separated sessionClient.token := by
  have hknown : sessionClient.Sendable := ⟨by decide, by decide, by decide, by decide, by decide⟩
  refine ⟨⟨hknown.ip, hknown.mac, hknown.token, hstate, hknown.fd⟩, ?_⟩
  unfold Separated
  decide

/-- The link has been followed, the auth server has not answered yet. -/
def pendingSession : List GatewayAction := smallSession.take 2

theorem exists_pendingSession :
    ∃ g, run (gatewayStep smallCentral) smallGateway pendingSession = some g ∧
      g.state.list.clients = [{ sessionClient with fwConnectionState := fwMarkNone }] := by
  have hclients : ((run (gatewayStep smallCentral) smallGateway pendingSession).map fun g =>
      g.state.list.clients) = some [{ sessionClient with fwConnectionState := fwMarkNone }] := by
    decide +kernel
  exact Option.map_eq_some_iff.mp hclients

/-- The configuration is read anew, and the client's MAC is now among the trusted. -/
def trustingConfig : Config := { smallConfig with trustedmaclist := [smallMac] }

def trustingCommands : List (Command Chain) := (iptablesFwInit trustingConfig none).getD []

/-- A session goes on after a restart; a client that waits for the auth server is not treated as
    trusted although its MAC is. -/
theorem restart_transparent_small :
    (∃ g p', run (gatewayStep smallCentral) smallGateway smallSession = some g ∧
      (Process.mk (g.config smallCentral) g.state).restart smallConfig none builtinTables =
        some p' ∧
      traverse coverAll p'.state.tables.mangle smallPacket .prerouting 0 = .fall 2) ∧
    ∃ g p', run (gatewayStep smallCentral) smallGateway pendingSession = some g ∧
      (Process.mk (g.config smallCentral) g.state).restart trustingConfig none builtinTables =
        some p' ∧
      ¬ ∀ p : Packet, ifaceMatches trustingConfig.gwInterface p.iif = true →
        traverse coverAll p'.state.tables.mangle p .prerouting 0 =
          .fall (expectedMark trustingConfig g.state.list.clients false p) := by
  constructor
  · obtain ⟨g, hrun, hclients⟩ := exists_smallSession
    have hsend : ∀ d ∈ g.state.list.clients, d.Sendable ∧ Separated d.token := by
      intro d hd
      rw [hclients, List.mem_singleton] at hd
      subst hd
      exact sessionClient_sendable (by decide)
    obtain ⟨p', hrestart, hiff⟩ := restart_transparent_iff smallCentral smallGateway_started hrun
      smallSession_lower hsend (show iptablesFwInit smallConfig none = some smallCommands from rfl)
      smallCommands_accepted rfl coverAll
    refine ⟨g, p', hrun, hrestart, ?_⟩
    rw [hiff.mpr (fun d _ _ => rfl) smallPacket (by decide), hclients]
    rfl
  · obtain ⟨g, hrun, hclients⟩ := exists_pendingSession
    have hsend : ∀ d ∈ g.state.list.clients, d.Sendable ∧ Separated d.token := by
      intro d hd
      rw [hclients, List.mem_singleton] at hd
      subst hd
      exact sessionClient_sendable (by decide)
    have hacc : Tables.runAll trustingCommands builtinTables =
        some (builtinTables.execAll trustingCommands) := by decide +kernel
    obtain ⟨p', hrestart, hiff⟩ := restart_transparent_iff smallCentral smallGateway_started hrun
      (fun a ha => smallSession_lower a (List.mem_of_mem_take ha)) hsend
      (show iptablesFwInit trustingConfig none = some trustingCommands from rfl) hacc rfl coverAll
    refine ⟨g, p', hrun, hrestart, fun hall => ?_⟩
    have hno := hiff.mp hall _ (by rw [hclients]; exact List.mem_singleton_self _) rfl
    exact absurd hno (by decide)

end Wifidog
