/-
  The chains that `iptables_fw_init` leaves behind, when every command is accepted.

  Each chain of the gateway holds exactly the rules listed here (`internetRules`,
  `unknownRules` and so on); PREROUTING and FORWARD get their jumps in front of what was there,
  in the reverse order of the `-I` commands.
-/
import Wifidog.Lib.Traverse
import Wifidog.Model.Firewall

namespace Wifidog

open CText Netfilter

/-! ## Rules -/

/-- A configured rule as `iptables_compile` writes it. -/
def FirewallRule.toRule (r : FirewallRule) : Rule Chain := ⟨r.conds, r.target.mode⟩

def rulesetRules (cfg : Config) (name : Text) : List (Rule Chain) :=
  (getRuleset cfg.rulesets name).map FirewallRule.toRule

/-- The chain CHAIN_AUTHSERVERS. -/
def authserverRules (cfg : Config) : List (Rule Chain) :=
  (cfg.authServers.filterMap AuthServ.exempt).map fun ip => ⟨[.destination ip], .accept⟩

def unknownRules (cfg : Config) : List (Rule Chain) :=
  rulesetRules cfg fwrulesetUnknownUsers ++
    [⟨[], .reject (some "icmp-port-unreachable".toList)⟩]

/-- The chain CHAIN_TO_INTERNET of the filter table. -/
def internetRules (cfg : Config) (ext : Text) : List (Rule Chain) :=
  [⟨[.state .invalid], .drop⟩,
   ⟨[.outInterface ext, .protocol "tcp".toList,
     .tcpFlags ["SYN".toList, "RST".toList] ["SYN".toList]], .tcpmss⟩,
   ⟨[], .jump .authservers⟩, ⟨[markCond fwMarkLocked], .jump .locked⟩, ⟨[], .jump .global⟩,
   ⟨[markCond fwMarkProbation], .jump .validate⟩, ⟨[markCond fwMarkKnown], .jump .known⟩] ++
  (if cfg.gotAuthdownRuleset then [⟨[markCond fwMarkAuthIsDown], .jump .authIsDown⟩] else []) ++
  [⟨[], .jump .unknown⟩]

/-- The chain CHAIN_TRUSTED. -/
def trustedRules (cfg : Config) : List (Rule Chain) :=
  cfg.trustedmaclist.map fun mac => ⟨[.macSource mac], .mark (decInt fwMarkKnown)⟩

/-- What is put in front of mangle PREROUTING. -/
def preroutingJumps (cfg : Config) : List (Rule Chain) :=
  (if cfg.gotAuthdownRuleset then [⟨[.inInterface cfg.gwInterface], .jump .authIsDown⟩] else []) ++
  [⟨[.inInterface cfg.gwInterface], .jump .trusted⟩,
   ⟨[.inInterface cfg.gwInterface], .jump .outgoing⟩]

/-- The gateway's chains of the mangle table. -/
def mangleRules (cfg : Config) : Chain → Option (List (Rule Chain))
  | .outgoing => some []
  | .incoming => some []
  | .trusted => some (trustedRules cfg)
  | .authIsDown => if cfg.gotAuthdownRuleset then some [] else none
  | _ => none

/-- The gateway's chains of the filter table. -/
def filterRules (cfg : Config) (ext : Text) : Chain → Option (List (Rule Chain))
  | .toInternet => some (internetRules cfg ext)
  | .authservers => some (authserverRules cfg)
  | .locked => some (rulesetRules cfg fwrulesetLockedUsers)
  | .global => some (rulesetRules cfg fwrulesetGlobal)
  | .validate => some (rulesetRules cfg fwrulesetValidatingUsers)
  | .known => some (rulesetRules cfg fwrulesetKnownUsers)
  | .unknown => some (unknownRules cfg)
  | .authIsDown =>
    if cfg.gotAuthdownRuleset then some (rulesetRules cfg fwrulesetAuthIsDown) else none
  | _ => none

/-! ## Which commands name which chain -/

theorem filter_touches_of_table {cs : List (Command Chain)} {tb : Table}
    (h : ∀ c ∈ cs, c.table ≠ tb) (ch : Chain) : cs.filter (Command.touches tb ch) = [] := by
  refine List.filter_eq_nil_iff.mpr fun c hc => ?_
  simp [Command.touches, h c hc]

theorem iptablesLoadRuleset_filter (cfg : Config) (name : Text) (ch : Chain) :
    iptablesLoadRuleset cfg .filter name ch =
      (rulesetRules cfg name).map fun r => ⟨.filter, .append ch r⟩ := by
  unfold iptablesLoadRuleset rulesetRules
  rw [List.map_map]
  induction getRuleset cfg.rulesets name with
  | nil => rfl
  | cons r rs ih =>
    rw [List.filterMap_cons, List.map_cons, ← ih]
    rfl

theorem table_iptablesLoadRuleset {cfg : Config} {tb : Table} {name : Text} {ch : Chain}
    {c : Command Chain} (h : c ∈ iptablesLoadRuleset cfg tb name ch) : c.table = tb := by
  obtain ⟨r, _, hr⟩ := List.mem_filterMap.mp h
  unfold iptablesCompile at hr
  split at hr
  · cases hr
  · obtain rfl := Option.some.inj hr
    rfl

/-- The appends to one chain, seen from another or from itself. -/
theorem filter_appends (tb : Table) (ch ch' : Chain) (rs : List (Rule Chain)) :
    (rs.map fun r => (⟨tb, .append ch' r⟩ : Command Chain)).filter (Command.touches tb ch) =
      if ch' = ch then rs.map fun r => ⟨tb, .append ch' r⟩ else [] := by
  rw [List.filter_map]
  split
  · next h => simp [Function.comp_def, Command.touches, Op.chain, h]
  · next h => simp [Function.comp_def, Command.touches, Op.chain, h]

theorem foldl_appends (tb : Table) (ch : Chain) (rules rs : List (Rule Chain)) :
    (rules.map fun r => (⟨tb, .append ch r⟩ : Command Chain)).foldl (fun rs c => c.op.apply rs)
      (some rs) = some (rs ++ rules) := by
  induction rules generalizing rs with
  | nil => simp
  | cons r rules ih =>
    rw [List.map_cons, List.foldl_cons]
    exact (ih (rs ++ [r])).trans (by simp)

theorem foldl_inserts (tb : Table) (ch : Chain) (rules : List (Rule Chain))
    (rs : Option (List (Rule Chain))) :
    (rules.map fun r => (⟨tb, .insert ch r⟩ : Command Chain)).foldl (fun rs c => c.op.apply rs)
      rs = rs.map (rules.reverse ++ ·) := by
  induction rules generalizing rs with
  | nil => simp
  | cons r rules ih =>
    rw [List.map_cons, List.foldl_cons]
    refine (ih _).trans ?_
    cases rs <;> simp [Op.apply]

theorem loadRuleset_other {tb tb' : Table} (h : tb' ≠ tb) (cfg : Config) (name : Text)
    (ch ch' : Chain) :
    (iptablesLoadRuleset cfg tb' name ch').filter (Command.touches tb ch) = [] :=
  filter_touches_of_table (fun c hc => by rw [table_iptablesLoadRuleset hc]; exact h) ch

/-- The exemptions, seen from the filter or from the nat table. -/
theorem setAuthservers_touches {tb : Table} (htb : tb ≠ .mangle) (cfg : Config) (ch : Chain) :
    (iptablesFwSetAuthservers cfg).filter (Command.touches tb ch) =
      if Chain.authservers = ch then
        (authserverRules cfg).map fun r => ⟨tb, .append .authservers r⟩
      else [] := by
  unfold iptablesFwSetAuthservers authserverRules
  induction cfg.authServers.filterMap AuthServ.exempt with
  | nil => simp
  | cons ip ips ih =>
    rw [List.flatMap_cons, List.filter_append, ih]
    by_cases h : Chain.authservers = ch <;> cases tb <;>
      first
      | exact absurd rfl htb
      | simp [Command.touches, Op.chain, h]

theorem setAuthservers_filter (cfg : Config) (ch : Chain) :
    (iptablesFwSetAuthservers cfg).filter (Command.touches .filter ch) =
      if Chain.authservers = ch then
        (authserverRules cfg).map fun r => ⟨.filter, .append .authservers r⟩
      else [] :=
  setAuthservers_touches (by decide) cfg ch

theorem setAuthservers_mangle (cfg : Config) (ch : Chain) :
    (iptablesFwSetAuthservers cfg).filter (Command.touches .mangle ch) = [] := by
  refine filter_touches_of_table (fun c hc => ?_) ch
  obtain ⟨ip, _, hc⟩ := List.mem_flatMap.mp hc
  simp only [List.mem_cons, List.not_mem_nil, or_false] at hc
  rcases hc with rfl | rfl <;> simp

theorem initMangle_other {tb : Table} (h : tb ≠ .mangle) (cfg : Config) (ch : Chain) :
    (initMangle cfg).filter (Command.touches tb ch) = [] := by
  unfold initMangle
  rw [List.filter_append, List.filter_map]
  by_cases hdown : cfg.gotAuthdownRuleset = true <;>
    simp [hdown, Command.touches, Function.comp_def, Ne.symm h]

theorem initNat_other {tb : Table} (h : tb ≠ .nat) (cfg : Config) (ch : Chain) :
    (initNat cfg).filter (Command.touches tb ch) = [] := by
  unfold initNat
  by_cases hdown : cfg.gotAuthdownRuleset = true <;> by_cases hproxy : cfg.proxyPort = 0 <;>
    simp [hdown, hproxy, Command.touches, Ne.symm h]

theorem initFilter_mangle (cfg : Config) (ext : Text) (ch : Chain) :
    (initFilter cfg ext).filter (Command.touches .mangle ch) = [] := by
  unfold initFilter
  by_cases hdown : cfg.gotAuthdownRuleset = true <;>
    simp [hdown, Command.touches, setAuthservers_mangle,
      loadRuleset_other (show Table.filter ≠ .mangle by decide),
      loadRuleset_other (show Table.nat ≠ .mangle by decide)]

/-- The commands of `iptables_fw_init`, seen from the mangle table. -/
theorem init_mangle (cfg : Config) (ext : Text) (ch : Chain) :
    (initMangle cfg ++ initNat cfg ++ initFilter cfg ext).filter (Command.touches .mangle ch) =
      (initMangle cfg).filter (Command.touches .mangle ch) := by
  rw [List.filter_append, List.filter_append, initNat_other (by decide), initFilter_mangle,
    List.append_nil, List.append_nil]

/-- The same seen from the filter table. -/
theorem init_filter (cfg : Config) (ext : Text) (ch : Chain) :
    (initMangle cfg ++ initNat cfg ++ initFilter cfg ext).filter (Command.touches .filter ch) =
      (initFilter cfg ext).filter (Command.touches .filter ch) := by
  rw [List.filter_append, List.filter_append, initNat_other (by decide),
    initMangle_other (by decide), List.append_nil, List.nil_append]

/-! ## The chains -/

theorem view_of_appends {cs : List (Command Chain)} {t t' : Tables Chain} {tb : Table}
    {ch : Chain} {rules : List (Rule Chain)} (h : Tables.runAll cs t = some t')
    (hcs : cs.filter (Command.touches tb ch) =
      ⟨tb, .new ch⟩ :: rules.map fun r => ⟨tb, .append ch r⟩) :
    t'.view tb ch = some rules := by
  rw [Tables.view_runAll_new h hcs, foldl_appends, List.nil_append]

/-- What `iptables_fw_init` leaves in the tables `t0`, starting from `t`. -/
structure Setup (cfg : Config) (ext : Text) (t t0 : Tables Chain) : Prop where
  mangle : ∀ ch rs, mangleRules cfg ch = some rs → t0.view .mangle ch = some rs
  filter : ∀ ch rs, filterRules cfg ext ch = some rs → t0.view .filter ch = some rs
  prerouting : ∃ foreign, t.view .mangle .prerouting = some foreign ∧
    t0.view .mangle .prerouting = some (preroutingJumps cfg ++ foreign)
  forward : ∃ foreign, t.view .filter .forward = some foreign ∧
    t0.view .filter .forward =
      some (⟨[.inInterface cfg.gwInterface], .jump .toInternet⟩ :: foreign)

section Accepted
variable {cfg : Config} {ext : Text} {t t0 : Tables Chain}
  (h : Tables.runAll (initMangle cfg ++ initNat cfg ++ initFilter cfg ext) t = some t0)
include h

theorem setup_mangle {ch : Chain} {rs : List (Rule Chain)} (hrs : mangleRules cfg ch = some rs) :
    t0.view .mangle ch = some rs := by
  refine view_of_appends h ?_
  rw [init_mangle]
  unfold initMangle
  by_cases hdown : cfg.gotAuthdownRuleset = true <;>
    cases ch <;>
      simp only [mangleRules, hdown, if_true, if_false, Option.some.injEq, reduceCtorEq] at hrs <;>
      subst hrs <;>
      simp [hdown, Command.touches, Op.chain, trustedRules, List.filter_map, Function.comp_def]

theorem setup_filter {ch : Chain} {rs : List (Rule Chain)}
    (hrs : filterRules cfg ext ch = some rs) : t0.view .filter ch = some rs := by
  refine view_of_appends h ?_
  rw [init_filter]
  unfold initFilter
  simp only [iptablesLoadRuleset_filter, List.filter_append, setAuthservers_filter, filter_appends,
    loadRuleset_other (show Table.nat ≠ .filter by decide)]
  by_cases hdown : cfg.gotAuthdownRuleset = true <;>
    cases ch <;>
      simp only [filterRules, hdown, if_true, if_false, Option.some.injEq, reduceCtorEq] at hrs <;>
      subst hrs <;>
      simp [hdown, Command.touches, Op.chain, filter_appends, internetRules, unknownRules]

/-- The exemptions are in the nat table too. -/
theorem setup_nat_authservers : t0.view .nat .authservers = some (authserverRules cfg) := by
  refine view_of_appends h ?_
  have hmangle : (initMangle cfg).filter (Command.touches .nat .authservers) = [] := by
    unfold initMangle
    rw [List.filter_append, List.filter_map]
    by_cases hdown : cfg.gotAuthdownRuleset = true <;>
      simp [hdown, Command.touches, Function.comp_def]
  have hglobal : (iptablesLoadRuleset cfg .nat fwrulesetGlobal .global).filter
      (Command.touches .nat .authservers) = [] := by
    refine List.filter_eq_nil_iff.mpr fun cmd hcmd => ?_
    obtain ⟨r, _, hr⟩ := List.mem_filterMap.mp hcmd
    unfold iptablesCompile at hr
    split at hr
    · cases hr
    · obtain rfl := Option.some.inj hr
      simp [Command.touches, Op.chain]
  rw [List.filter_append, List.filter_append, hmangle, List.nil_append]
  unfold initNat initFilter
  simp only [List.filter_append, setAuthservers_touches (show Table.nat ≠ .mangle by decide),
    hglobal, loadRuleset_other (show Table.filter ≠ .nat by decide)]
  by_cases hdown : cfg.gotAuthdownRuleset = true <;> by_cases hproxy : cfg.proxyPort = 0 <;>
    simp [hdown, hproxy, Command.touches, Op.chain,
      loadRuleset_other (show Table.filter ≠ .nat by decide)]

/-- The jumps go in front of what a built-in chain held. -/
theorem view_of_inserts {tb : Table} {ch : Chain} {rules : List (Rule Chain)}
    (hcs : (initMangle cfg ++ initNat cfg ++ initFilter cfg ext).filter (Command.touches tb ch) =
      rules.map fun r => ⟨tb, .insert ch r⟩) (hne : rules ≠ []) :
    ∃ foreign, t.view tb ch = some foreign ∧ t0.view tb ch = some (rules.reverse ++ foreign) := by
  have hview : t0.view tb ch = (t.view tb ch).map (rules.reverse ++ ·) := by
    rw [Tables.view_runAll h]
    unfold Tables.viewAfter
    rw [hcs, foldl_inserts]
  have hsome : (t0.view tb ch).isSome := by
    obtain ⟨r, rules', rfl⟩ := List.exists_cons_of_ne_nil hne
    have hmem : ⟨tb, .insert ch r⟩ ∈ (initMangle cfg ++ initNat cfg ++ initFilter cfg ext).filter
        (Command.touches tb ch) := by
      rw [hcs]
      exact List.mem_cons_self
    exact Tables.isSome_view_runAll h (Or.inr ⟨_, (List.mem_filter.mp hmem).1, rfl, rfl⟩)
  rw [hview, Option.isSome_map] at hsome
  obtain ⟨foreign, hf⟩ := Option.isSome_iff_exists.mp hsome
  exact ⟨foreign, hf, by rw [hview, hf]; rfl⟩

theorem setup_prerouting :
    ∃ foreign, t.view .mangle .prerouting = some foreign ∧
      t0.view .mangle .prerouting = some (preroutingJumps cfg ++ foreign) := by
  have hrev : preroutingJumps cfg = (preroutingJumps cfg).reverse.reverse := by simp
  rw [hrev]
  refine view_of_inserts h ?_ ?_
  · rw [init_mangle]
    unfold initMangle preroutingJumps
    by_cases hdown : cfg.gotAuthdownRuleset = true <;>
      simp [hdown, Command.touches, Op.chain, List.filter_map, Function.comp_def]
  · simp [preroutingJumps]

theorem setup_forward :
    ∃ foreign, t.view .filter .forward = some foreign ∧
      t0.view .filter .forward =
        some (⟨[.inInterface cfg.gwInterface], .jump .toInternet⟩ :: foreign) := by
  refine @view_of_inserts cfg ext t t0 h .filter .forward
    [⟨[.inInterface cfg.gwInterface], .jump .toInternet⟩] ?_ ?_
  · rw [init_filter]
    unfold initFilter
    simp only [iptablesLoadRuleset_filter, List.filter_append, setAuthservers_filter,
      filter_appends, loadRuleset_other (show Table.nat ≠ .filter by decide)]
    by_cases hdown : cfg.gotAuthdownRuleset = true <;>
      simp [hdown, Command.touches, Op.chain, filter_appends]
  · simp

/-- The chains after `iptables_fw_init`. -/
theorem setup_of_accepted : Setup cfg ext t t0 where
  mangle _ _ hrs := setup_mangle h hrs
  filter _ _ hrs := setup_filter h hrs
  prerouting := setup_prerouting h
  forward := setup_forward h

end Accepted

/-- The built-in chains that the commands need, empty. -/
def builtinTables : Tables Chain :=
  ⟨[(.forward, [])], [(.prerouting, [])], [(.prerouting, []), (.postrouting, [])]⟩

end Wifidog
