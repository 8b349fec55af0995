/-
  The filter policy of the gateway.

  `expectedMark` and `policy` say, without chains or commands, which mark a packet from the
  gateway interface gets and what becomes of it when it is forwarded. `filter_policy`: after
  `iptables_fw_init` and any sequence of grants, revocations and pings, walking the chains
  gives that mark and that verdict, for every packet.

  Rules that were in PREROUTING before come after the gateway's jumps: they start from the
  expected mark. Rules that were in FORWARD before are never reached.
-/
import Wifidog.Policy.Events

namespace Wifidog

open CText Netfilter

/-! ## The policy -/

/-- The number that `0x%u` spells for the auth-is-down mark. -/
def authDownMark : Nat := 0x253

/-- The number that `0x%u` spells for the locked mark. -/
def lockedMark : Nat := 0x254

/-- The configured rule is about this packet. -/
def FirewallRule.holds (env : Env) (p : Packet) (r : FirewallRule) : Bool :=
  (if r.maskIsIpset then env.inSet r.mask p.dst else env.covers r.mask p.dst) &&
    r.protocol.all (· == p.proto) && r.port.all (env.inPort · p.dport)

/-- The verdict of a target; `log` and `ulog` have none. -/
def FirewallTarget.verdict : FirewallTarget → Option Verdict
  | .drop => some .drop
  | .reject => some .reject
  | .accept => some .accept
  | .log => none
  | .ulog => none

/-- The verdict of the first rule of a ruleset that is about the packet and has one. -/
def rulesetVerdict (cfg : Config) (env : Env) (p : Packet) (name : Text) : Option Verdict :=
  ((getRuleset cfg.rulesets name).filter (·.holds env p)).findSome? (·.target.verdict)

/-- What becomes of a forwarded packet with mark `m`: the first of these that has a verdict. -/
def policy (cfg : Config) (env : Env) (p : Packet) (m : Nat) : Verdict :=
  if p.ct = .invalid then .drop
  else if (cfg.authServers.filterMap AuthServ.exempt).any (env.covers · p.dst) then .accept
  else
    ((if m = lockedMark then rulesetVerdict cfg env p fwrulesetLockedUsers else none).or
      ((rulesetVerdict cfg env p fwrulesetGlobal).or
        ((if m = 1 then rulesetVerdict cfg env p fwrulesetValidatingUsers else none).or
          ((if m = 2 then rulesetVerdict cfg env p fwrulesetKnownUsers else none).or
            ((if m = authDownMark then rulesetVerdict cfg env p fwrulesetAuthIsDown else none).or
              (rulesetVerdict cfg env p fwrulesetUnknownUsers)))))).getD .reject

/-- The packet comes from the client's ip and mac. -/
def Client.sends (p : Packet) (c : Client) : Bool := c.ip == p.src && sameMac c.mac p.mac

/-- The mark of a packet from the gateway interface. -/
def expectedMark (cfg : Config) (clients : List Client) (authdown : Bool) (p : Packet) : Nat :=
  match clients.find? fun c => c.sends p && c.granted with
  | some c => c.fwConnectionState.toNat
  | none =>
    if cfg.trustedmaclist.any (sameMac · p.mac) then 2
    else if cfg.gotAuthdownRuleset && authdown then authDownMark
    else 0

/-! ## Marks -/

section Marks
variable {env : Env} {call : Chain → Nat → Outcome} {p : Packet}

theorem walk_downRules (authdown : Bool) (m : Nat) :
    walk env call p (downRules authdown) m = .fall (if authdown then authDownMark else m) := by
  have hread : readMark (hexMark fwMarkAuthIsDown) = some authDownMark := by decide
  cases authdown with
  | false => rfl
  | true => simp [downRules, downRule, walk, Rule.applies, hread]

theorem walk_trustedRules (cfg : Config) (m : Nat) :
    walk env call p (trustedRules cfg) m =
      .fall (if cfg.trustedmaclist.any (sameMac · p.mac) then 2 else m) := by
  have hread : readMark (decInt fwMarkKnown) = some 2 := by decide
  have hany : (trustedRules cfg).any (Rule.applies env p 0) =
      cfg.trustedmaclist.any (sameMac · p.mac) := by
    simp [trustedRules, List.any_map, Function.comp_def, Rule.applies, Cond.holds]
  rw [walk_of_marks (v := 2) ?_ m, hany]
  intro r hr
  obtain ⟨mac, _, rfl⟩ := List.mem_map.mp hr
  exact ⟨by simp [Rule.MarkBlind], _, rfl, fun _ => hread⟩

/-- At most one client sends a given packet. -/
theorem DistinctSenders.unique {cs : List Client} (h : DistinctSenders cs) {c d : Client}
    (hc : c ∈ cs) (hd : d ∈ cs) (hcp : c.sends p = true) (hdp : d.sends p = true) : c = d := by
  have hsame : ∀ {a b : Client}, a.sends p = true → b.sends p = true →
      a.ip = b.ip ∧ sameMac a.mac b.mac = true := by
    intro a b ha hb
    simp only [Client.sends, Bool.and_eq_true, beq_iff_eq, sameMac, strcaseEq_iff] at ha hb ⊢
    exact ⟨ha.1.trans hb.1.symm, ha.2.trans hb.2.symm⟩
  have hp : cs.Pairwise fun a b => a.sends p = true → b.sends p = true → a = b :=
    List.Pairwise.imp (fun hne ha hb => absurd (hsame ha hb) hne) h
  have hflip : cs.Pairwise (flip fun a b : Client => a.sends p = true → b.sends p = true → a = b) :=
    List.Pairwise.imp (fun hne hb ha => absurd (hsame ha hb) hne) h
  exact hp.forall_of_forall_of_flip (fun _ _ _ _ => rfl) hflip hc hd hcp hdp

theorem applies_rule (c : Client) (m : Nat) : c.rule.applies env p m = c.sends p := by
  simp [Client.rule, markRule, Rule.applies, Cond.holds, Client.sends]

theorem rule_markBlind (c : Client) : c.rule.MarkBlind := by
  simp [Client.rule, markRule, Rule.MarkBlind]

/-- The rules of the chain are those of the clients with access. -/
theorem mem_rules_iff {cs : List Client} {rs : List (Rule Chain)}
    (heq : (↑rs : Multiset (Rule Chain)) = grants cs) (r : Rule Chain) :
    r ∈ rs ↔ ∃ c ∈ cs, c.granted = true ∧ c.rule = r := by
  rw [← Multiset.mem_coe, heq, grants, Multiset.mem_coe, List.mem_map]
  simp [and_assoc]

/-- The mark that a rule sets is the state of its client. -/
theorem readMark_state {c : Client} (hg : c.granted = true)
    (hstate : c.fwConnectionState = 0 ∨ c.fwConnectionState = 1 ∨ c.fwConnectionState = 2) :
    readMark (decInt c.fwConnectionState) = some c.fwConnectionState.toNat := by
  rcases hstate with h0 | h1 | h2
  · simp [Client.granted, h0, fwMarkNone] at hg
  · rw [h1]; decide
  · rw [h2]; decide

theorem walk_outgoing {cs : List Client} {rs : List (Rule Chain)}
    (heq : (↑rs : Multiset (Rule Chain)) = grants cs) (hsenders : DistinctSenders cs)
    (hstates : ∀ c ∈ cs, c.fwConnectionState = 0 ∨ c.fwConnectionState = 1 ∨
      c.fwConnectionState = 2) (m : Nat) :
    walk env call p rs m =
      .fall (match cs.find? fun c => c.sends p && c.granted with
        | some c => c.fwConnectionState.toNat
        | none => m) := by
  have hmem := mem_rules_iff heq
  cases hfind : cs.find? fun c => c.sends p && c.granted with
  | none =>
    have hno : ∀ r ∈ rs, r.applies env p 0 = false := by
      intro r hr
      obtain ⟨c, hc, hg, rfl⟩ := (hmem r).mp hr
      have := List.find?_eq_none.mp hfind c hc
      rw [applies_rule]
      simpa [hg] using this
    have hany : rs.any (Rule.applies env p 0) = false :=
      List.any_eq_false.mpr fun r hr => by simp [hno r hr]
    rw [walk_of_marks (v := 0) ?_ m, hany]
    · rfl
    · intro r hr
      obtain ⟨c, hc, hg, rfl⟩ := (hmem r).mp hr
      exact ⟨rule_markBlind c, _, rfl, fun happ => absurd happ (by simp [hno _ hr])⟩
  | some c =>
    have hc := List.mem_of_find?_eq_some hfind
    have hcp := List.find?_some hfind
    simp only [Bool.and_eq_true] at hcp
    have hany : rs.any (Rule.applies env p 0) = true :=
      List.any_eq_true.mpr ⟨c.rule, (hmem _).mpr ⟨c, hc, hcp.2, rfl⟩,
        (applies_rule c 0).trans hcp.1⟩
    rw [walk_of_marks (v := c.fwConnectionState.toNat) ?_ m, hany]
    · rfl
    · intro r hr
      obtain ⟨d, hd, hg, rfl⟩ := (hmem r).mp hr
      refine ⟨rule_markBlind d, _, rfl, fun happ => ?_⟩
      rw [applies_rule] at happ
      obtain rfl := hsenders.unique hd hc happ hcp.1
      exact readMark_state hg (hstates d hd)

end Marks

/-! ## Verdicts -/

section Verdicts
variable {env : Env} {call : Chain → Nat → Outcome} {p : Packet}

theorem applies_toRule (r : FirewallRule) (m : Nat) :
    r.toRule.applies env p m = r.holds env p := by
  obtain ⟨target, protocol, port, mask, maskIsIpset⟩ := r
  cases protocol <;> cases port <;> cases maskIsIpset <;>
    simp [FirewallRule.toRule, Rule.applies, FirewallRule.conds, FirewallRule.holds, Cond.holds,
      Bool.and_assoc]

theorem verdict_mode (target : FirewallTarget) : target.mode.verdict = target.verdict := by
  cases target <;> rfl

theorem firstVerdict_rulesetRules (cfg : Config) (name : Text) (m : Nat) :
    firstVerdict env p m (rulesetRules cfg name) = rulesetVerdict cfg env p name := by
  unfold rulesetRules rulesetVerdict
  induction getRuleset cfg.rulesets name with
  | nil => rfl
  | cons r rs ih =>
    rw [List.map_cons, firstVerdict, applies_toRule, ih]
    cases hr : r.holds env p with
    | false => simp [hr]
    | true =>
      have hv : r.toRule.target.verdict = r.target.verdict := verdict_mode r.target
      rw [hv]
      cases hv' : r.target.verdict <;> simp [hr, hv']

theorem plain_rulesetRules (cfg : Config) (name : Text) :
    ∀ r ∈ rulesetRules cfg name, r.target.Plain := by
  intro r hr
  obtain ⟨r', _, rfl⟩ := List.mem_map.mp hr
  cases h : r'.target <;> simp [FirewallRule.toRule, h, FirewallTarget.mode, Target.Plain]

theorem walk_rulesetRules (cfg : Config) (name : Text) (m : Nat) :
    walk env call p (rulesetRules cfg name) m = .ofVerdict (rulesetVerdict cfg env p name) m := by
  rw [walk_of_plain (plain_rulesetRules cfg name), firstVerdict_rulesetRules]

theorem walk_unknownRules (cfg : Config) (m : Nat) :
    walk env call p (unknownRules cfg) m =
      .done ((rulesetVerdict cfg env p fwrulesetUnknownUsers).getD .reject) m := by
  unfold unknownRules
  rw [walk_append, walk_rulesetRules]
  cases rulesetVerdict cfg env p fwrulesetUnknownUsers <;>
    simp [Outcome.ofVerdict, walk, Rule.applies]

theorem walk_authserverRules (cfg : Config) (m : Nat) :
    walk env call p (authserverRules cfg) m =
      .ofVerdict (if (cfg.authServers.filterMap AuthServ.exempt).any (env.covers · p.dst)
        then some .accept else none) m := by
  unfold authserverRules
  induction cfg.authServers.filterMap AuthServ.exempt with
  | nil => rfl
  | cons ip ips ih =>
    rw [List.map_cons, List.any_cons]
    cases hip : env.covers ip p.dst with
    | false => simpa [walk, Rule.applies, Cond.holds, hip] using ih
    | true => simp [walk, Rule.applies, Cond.holds, hip, Outcome.ofVerdict]

/-- A jump to a chain that can only end by a verdict. -/
theorem walk_jump_ofVerdict {conds : List Cond} {c : Chain} {m : Nat} {v : Option Verdict}
    (hcall : call c m = .ofVerdict v m) (rs : List (Rule Chain)) :
    walk env call p (⟨conds, .jump c⟩ :: rs) m =
      (if conds.all (·.holds env p m) then v else none).elim (walk env call p rs m)
        fun v => .done v m := by
  cases happ : conds.all (·.holds env p m) with
  | false =>
    have hskip : Rule.applies env p m (⟨conds, .jump c⟩ : Rule Chain) = false := happ
    exact walk_skip hskip rs
  | true =>
    rw [walk_jump rs happ, hcall]
    cases v <;> rfl

/-- One more place to look for a verdict. -/
theorem elim_done (o o' : Option Verdict) (d : Verdict) (m : Nat) :
    o.elim (.done (o'.getD d) m) (fun v => Outcome.done v m) = .done ((o.or o').getD d) m := by
  cases o <;> rfl

theorem holds_markCond {mark : Int} {n : Nat} (h : readMark (hexMark mark) = some n) (m : Nat) :
    [markCond mark].all (·.holds env p m) = decide (m = n) := by
  by_cases hm : m = n
  · simp [markCond, Cond.holds, h, hm]
  · simp [markCond, Cond.holds, h, hm, Ne.symm hm]

end Verdicts

/-! ## Walking the chains -/

theorem callChain_succ {env : Env} {cs : Chains Chain} {p : Packet} {ch : Chain}
    {rs : List (Rule Chain)} (h : cs.get ch = some rs) (k m : Nat) :
    callChain env cs p (k + 1) ch m = walk env (callChain env cs p k) p rs m := by
  rw [callChain, h]
  rfl

section Walks
variable {cfg : Config} {ext : Text} {t t0 : Tables Chain} {s : FwState}
  (hset : Setup cfg ext t t0) (hrun : Running cfg t0 s) (env : Env) {p : Packet}

include hset hrun in
theorem walk_prerouting (hin : ifaceMatches cfg.gwInterface p.iif = true) :
    ∃ foreign, t.view .mangle .prerouting = some foreign ∧
      traverse env s.tables.mangle p .prerouting 0 =
        walk env (callChain env s.tables.mangle p (s.tables.mangle.length - 1)) p foreign
          (expectedMark cfg s.clients s.authdown p) := by
  obtain ⟨foreign, hforeign, hpre0⟩ := hset.prerouting
  refine ⟨foreign, hforeign, ?_⟩
  have hpre : s.tables.mangle.get .prerouting = some (preroutingJumps cfg ++ foreign) :=
    (hrun.other .mangle .prerouting (by decide) (by decide)).trans hpre0
  have htrusted : s.tables.mangle.get .trusted = some (trustedRules cfg) :=
    (hrun.other .mangle .trusted (by decide) (by decide)).trans (hset.mangle _ _ rfl)
  obtain ⟨rs, hout0, hgrants⟩ := hrun.outgoing
  have hout : s.tables.mangle.get .outgoing = some rs := hout0
  have hdown : cfg.gotAuthdownRuleset = true →
      s.tables.mangle.get .authIsDown = some (downRules s.authdown) := hrun.authdown
  -- the gateway's own jumps nest two deep
  have hlen : 2 ≤ s.tables.mangle.length := by
    have hnames : ∀ c ∈ [Chain.prerouting, Chain.trusted], (s.tables.mangle.get c).isSome := by
      simp [hpre, htrusted]
    exact Chains.length_ge (by decide) hnames
  obtain ⟨k, hk⟩ : ∃ k, s.tables.mangle.length = k + 2 := ⟨_, (Nat.sub_add_cancel hlen).symm⟩
  have hgw : ∀ (ch : Chain) (m : Nat), Rule.applies env p m
      (⟨[.inInterface cfg.gwInterface], .jump ch⟩ : Rule Chain) = true := by
    intro ch m
    simp [Rule.applies, Cond.holds, hin]
  -- trusted MACs, then clients, then whatever was there
  have htail : ∀ m, walk env (callChain env s.tables.mangle p (k + 1)) p
      (⟨[.inInterface cfg.gwInterface], .jump .trusted⟩ ::
        ⟨[.inInterface cfg.gwInterface], .jump .outgoing⟩ :: foreign) m =
      walk env (callChain env s.tables.mangle p (k + 1)) p foreign
        (match s.clients.find? fun c => c.sends p && c.granted with
          | some c => c.fwConnectionState.toNat
          | none => if cfg.trustedmaclist.any (sameMac · p.mac) then 2 else m) := by
    intro m
    rw [walk_jump _ (hgw _ _), callChain_succ htrusted, walk_trustedRules, Outcome.fall_andThen,
      walk_jump _ (hgw _ _), callChain_succ hout, walk_outgoing hgrants hrun.senders hrun.states,
      Outcome.fall_andThen]
  unfold Netfilter.traverse
  rw [hk, callChain_succ hpre]
  unfold preroutingJumps expectedMark
  by_cases hgot : cfg.gotAuthdownRuleset = true
  · rw [if_pos hgot]
    simp only [List.cons_append, List.nil_append]
    rw [walk_jump _ (hgw _ _), callChain_succ (hdown hgot), walk_downRules,
      Outcome.fall_andThen, htail]
    simp [hgot]
  · rw [if_neg hgot]
    simp only [List.cons_append, List.nil_append]
    rw [htail]
    simp [hgot]

include hset hrun in
theorem get_filterRules {ch : Chain} {rs : List (Rule Chain)}
    (hrs : filterRules cfg ext ch = some rs) : s.tables.filter.get ch = some rs :=
  (hrun.other .filter ch (by intro h; cases h) (by simp)).trans (hset.filter ch rs hrs)

include hset hrun in
theorem callChain_ruleset {ch : Chain} {name : Text}
    (hrs : filterRules cfg ext ch = some (rulesetRules cfg name)) (k m : Nat) :
    callChain env s.tables.filter p (k + 1) ch m =
      .ofVerdict (rulesetVerdict cfg env p name) m := by
  rw [callChain_succ (get_filterRules hset hrun hrs), walk_rulesetRules]

include hset hrun in
/-- From the auth-is-down jump on; without that ruleset there is no jump and no verdict. -/
theorem walk_internet_tail (k m : Nat) :
    walk env (callChain env s.tables.filter p (k + 1)) p
      ((if cfg.gotAuthdownRuleset then
          [(⟨[markCond fwMarkAuthIsDown], .jump .authIsDown⟩ : Rule Chain)] else []) ++
        [⟨[], .jump .unknown⟩]) m =
      .done (((if m = authDownMark then rulesetVerdict cfg env p fwrulesetAuthIsDown else none).or
        (rulesetVerdict cfg env p fwrulesetUnknownUsers)).getD .reject) m := by
  have hunknown : callChain env s.tables.filter p (k + 1) .unknown m =
      .ofVerdict (some ((rulesetVerdict cfg env p fwrulesetUnknownUsers).getD .reject)) m := by
    rw [callChain_succ (get_filterRules hset hrun rfl), walk_unknownRules]
    rfl
  have hlast : walk env (callChain env s.tables.filter p (k + 1)) p
      [(⟨[], .jump .unknown⟩ : Rule Chain)] m =
      .done ((rulesetVerdict cfg env p fwrulesetUnknownUsers).getD .reject) m := by
    rw [walk_jump_ofVerdict hunknown]
    rfl
  by_cases hgot : cfg.gotAuthdownRuleset = true
  · have hrs : filterRules cfg ext .authIsDown = some (rulesetRules cfg fwrulesetAuthIsDown) := by
      simp [filterRules, hgot]
    rw [if_pos hgot, List.singleton_append,
      walk_jump_ofVerdict (callChain_ruleset hset hrun env hrs k m),
      holds_markCond (n := authDownMark) (by decide), hlast, elim_done]
    simp
  · have hempty : rulesetVerdict cfg env p fwrulesetAuthIsDown = none := by
      have : getRuleset cfg.rulesets fwrulesetAuthIsDown = [] := by
        simpa [Config.gotAuthdownRuleset] using hgot
      simp [rulesetVerdict, this]
    rw [if_neg hgot, List.nil_append, hlast, hempty]
    simp

include hset hrun in
theorem walk_internet (k m : Nat) :
    walk env (callChain env s.tables.filter p (k + 1)) p (internetRules cfg ext) m =
      .done (policy cfg env p m) m := by
  have hservers : callChain env s.tables.filter p (k + 1) .authservers m =
      .ofVerdict (if (cfg.authServers.filterMap AuthServ.exempt).any (env.covers · p.dst)
        then some .accept else none) m := by
    rw [callChain_succ (get_filterRules hset hrun rfl), walk_authserverRules]
  have hruleset (ch : Chain) (name : Text)
      (hrs : filterRules cfg ext ch = some (rulesetRules cfg name)) :=
    @callChain_ruleset cfg ext t t0 s hset hrun env p ch name hrs k m
  unfold internetRules policy
  rw [List.append_assoc]
  simp only [List.cons_append, List.nil_append]
  by_cases hct : p.ct = .invalid
  · simp [walk, Rule.applies, Cond.holds, hct]
  · have hinvalid : Rule.applies env p m (⟨[.state .invalid], .drop⟩ : Rule Chain) = false := by
      simp [Rule.applies, Cond.holds, Ne.symm hct]
    rw [if_neg hct, walk_skip hinvalid]
    have htcpmss : ∀ conds rs, walk env (callChain env s.tables.filter p (k + 1)) p
        ((⟨conds, .tcpmss⟩ : Rule Chain) :: rs) m =
        walk env (callChain env s.tables.filter p (k + 1)) p rs m := by
      intro conds rs
      simp [walk]
    rw [htcpmss, walk_jump_ofVerdict hservers,
      walk_jump_ofVerdict (hruleset .locked fwrulesetLockedUsers rfl),
      walk_jump_ofVerdict (hruleset .global fwrulesetGlobal rfl),
      walk_jump_ofVerdict (hruleset .validate fwrulesetValidatingUsers rfl),
      walk_jump_ofVerdict (hruleset .known fwrulesetKnownUsers rfl),
      holds_markCond (n := lockedMark) (by decide), holds_markCond (n := 1) (by decide),
      holds_markCond (n := 2) (by decide), walk_internet_tail hset hrun env k m, elim_done,
      elim_done, elim_done, elim_done]
    by_cases hany : (cfg.authServers.filterMap AuthServ.exempt).any (env.covers · p.dst) = true <;>
      simp [hany]

include hset hrun in
theorem walk_forward (hin : ifaceMatches cfg.gwInterface p.iif = true) (m : Nat) :
    traverse env s.tables.filter p .forward m = .done (policy cfg env p m) m := by
  obtain ⟨foreign, _, hfwd0⟩ := hset.forward
  have hfwd : s.tables.filter.get .forward =
      some (⟨[.inInterface cfg.gwInterface], .jump .toInternet⟩ :: foreign) :=
    (hrun.other .filter .forward (by decide) (by decide)).trans hfwd0
  have hget : ∀ ch rs, filterRules cfg ext ch = some rs → s.tables.filter.get ch = some rs := by
    intro ch rs hrs
    exact (hrun.other .filter ch (by intro h; cases h) (by simp)).trans (hset.filter ch rs hrs)
  have hlen : 3 ≤ s.tables.filter.length := by
    have hnames : ∀ c ∈ [Chain.forward, Chain.toInternet, Chain.unknown],
        (s.tables.filter.get c).isSome := by
      simp [hfwd, hget .toInternet _ rfl, hget .unknown _ rfl]
    exact Chains.length_ge (by decide) hnames
  obtain ⟨k, hk⟩ : ∃ k, s.tables.filter.length = k + 3 := ⟨_, (Nat.sub_add_cancel hlen).symm⟩
  have hgw : Rule.applies env p m
      (⟨[.inInterface cfg.gwInterface], .jump .toInternet⟩ : Rule Chain) = true := by
    simp [Rule.applies, Cond.holds, hin]
  unfold Netfilter.traverse
  rw [hk, callChain_succ hfwd, walk_jump _ hgw, callChain_succ (hget .toInternet _ rfl),
    walk_internet hset hrun env k m]
  rfl

end Walks

/-! ## The result -/

theorem grants_of_none {cs : List Client} (h : ∀ c ∈ cs, c.fwConnectionState = fwMarkNone) :
    grants cs = 0 := by
  unfold grants
  have hfilter : cs.filter Client.granted = [] :=
    List.filter_eq_nil_iff.mpr fun c hc => by simp [Client.granted, h c hc]
  rw [hfilter]
  rfl

theorem Setup.running {cfg : Config} {ext : Text} {t t0 : Tables Chain}
    (h : Setup cfg ext t t0) {clients : List Client} (hsenders : DistinctSenders clients)
    (hnone : ∀ c ∈ clients, c.fwConnectionState = fwMarkNone) :
    Running cfg t0 ⟨clients, t0, false⟩ where
  outgoing := ⟨[], h.mangle .outgoing [] rfl, (grants_of_none hnone).symm⟩
  authdown hgot := h.mangle .authIsDown [] (by simp [mangleRules, hgot])
  other _ _ _ _ := rfl
  senders := hsenders
  states c hc := Or.inl (hnone c hc)

/-- After `iptables_fw_init` with every command accepted, and any grants, revocations and pings
    after it, every packet from the gateway interface gets the expected mark in mangle
    PREROUTING (from which the rules `foreign` go on that were there before), and when it is
    forwarded the gateway's chains give it the verdict of the policy. -/
theorem filter_policy (cfg : Config) (getExtIface : Option Text) {cmds : List (Command Chain)}
    {t t0 : Tables Chain} (hcmds : iptablesFwInit cfg getExtIface = some cmds)
    (hacc : Tables.runAll cmds t = some t0) {clients : List Client}
    (hsenders : DistinctSenders clients)
    (hnone : ∀ c ∈ clients, c.fwConnectionState = fwMarkNone) {es : List Event}
    (hes : ∀ e ∈ es, e.Ok) (env : Env) {p : Packet}
    (hin : ifaceMatches cfg.gwInterface p.iif = true) {s : FwState}
    (hs : s = FwState.run cfg ⟨clients, t0, false⟩ es) :
    ∃ foreign, t.view .mangle .prerouting = some foreign ∧
      traverse env s.tables.mangle p .prerouting 0 =
        walk env (callChain env s.tables.mangle p (s.tables.mangle.length - 1)) p foreign
          (expectedMark cfg s.clients (latestPingFailed es) p) ∧
      (foreign = [] → traverse env s.tables.mangle p .prerouting 0 =
        .fall (expectedMark cfg s.clients (latestPingFailed es) p)) ∧
      ∀ m, traverse env s.tables.filter p .forward m = .done (policy cfg env p m) m := by
  obtain ⟨ext, _, rfl⟩ := Option.map_eq_some_iff.mp hcmds
  have hset := setup_of_accepted hacc
  have hrun : Running cfg t0 s := by
    rw [hs]
    exact (hset.running hsenders hnone).run hes
  have hflag : s.authdown = latestPingFailed es := by
    rw [hs, authdown_run]
    rfl
  obtain ⟨foreign, hforeign, hwalk⟩ := walk_prerouting hset hrun env hin
  rw [hflag] at hwalk
  refine ⟨foreign, hforeign, hwalk, ?_, walk_forward hset hrun env hin⟩
  rintro rfl
  exact hwalk

/-- A small configuration with an auth-is-down ruleset and a trusted MAC. -/
def policyConfig : Config :=
  { smallConfig with
    rulesets := [(fwrulesetKnownUsers, [⟨.accept, none, none, defaultMask, false⟩]),
      (fwrulesetAuthIsDown, [⟨.drop, none, none, defaultMask, false⟩])]
    trustedmaclist := ["00:16:3e:00:00:0c".toList] }

def policyCommands : List (Command Chain) :=
  initMangle policyConfig ++ initNat policyConfig ++ initFilter policyConfig "eth0".toList

def smallPacket : Packet :=
  ⟨"br0".toList, "eth0".toList, smallIp, "192.0.2.1".toList, smallMac, "tcp".toList, 80, [], .new⟩

/-- An environment in which every destination operand covers every address. -/
def coverAll : Env := ⟨fun _ _ => true, fun _ _ => true, fun _ _ => false⟩

def policyClients : List Client := [⟨1, smallIp, smallMac, "t".toList, fwMarkNone, 0, .fresh 0⟩]

/-- The auth server is lost, then the client is granted access. -/
def policyEvents : List Event := [.ping .noSocket, .allow 0 fwMarkKnown]

def policyState : FwState :=
  FwState.run policyConfig ⟨policyClients, builtinTables.execAll policyCommands, false⟩ policyEvents

theorem filter_policy_granted :
    traverse coverAll policyState.tables.mangle smallPacket .prerouting 0 = .fall 2 ∧
      traverse coverAll policyState.tables.filter smallPacket .forward 2 = .done .accept 2 := by
  have hacc : Tables.runAll policyCommands builtinTables =
      some (builtinTables.execAll policyCommands) := by decide +kernel
  obtain ⟨foreign, hforeign, _, hmark, hverdict⟩ :=
    @filter_policy policyConfig none policyCommands builtinTables
      (builtinTables.execAll policyCommands) rfl hacc policyClients
      (by simp [DistinctSenders, policyClients]) (by simp [policyClients]) policyEvents
      (by simp [policyEvents, Event.Ok]) coverAll smallPacket (by decide +kernel) policyState rfl
  have hempty : builtinTables.view .mangle .prerouting = some [] := rfl
  have hexpected : expectedMark policyConfig policyState.clients (latestPingFailed policyEvents)
      smallPacket = 2 := by decide +kernel
  have haccept : policy policyConfig coverAll smallPacket 2 = .accept := by decide +kernel
  rw [hempty] at hforeign
  refine ⟨?_, ?_⟩
  · rw [hmark (Option.some.inj hforeign).symm, hexpected]
  · rw [hverdict 2, haccept]

end Wifidog
