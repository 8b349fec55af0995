/-
  `iptables_fw_destroy` undoes `iptables_fw_init`.

  The commands of `iptables_fw_init` and of every later call stay inside `gatewayBound`: they make
  chains that `iptables_fw_destroy` removes, write rules into these only, and jump to them from the
  built-in chains that `iptables_fw_destroy` searches. What the search deletes are the gateway's
  jumps, since every jump prints the name of its chain and no rule that was there mentions one.
  With the jumps gone and all chains flushed, every `-X` is accepted.

  iptables may refuse any of the gateway's commands for its operands (`accepts`); the result does
  not depend on it.
-/
import Wifidog.Model.Destroy

namespace Wifidog

open CText Netfilter

/-! ## The gateway's chains -/

/-- A `WD_$ID$_...` chain. -/
def Chain.ofGateway : Chain → Bool
  | .prerouting => false
  | .postrouting => false
  | .forward => false
  | .other _ => false
  | _ => true

/-- What the gateway may put into the tables. -/
def gatewayBound (cfg : Config) : Bound Chain where
  names tb c := c ∈ destroyChains cfg tb
  full tb c := c ∈ destroyChains cfg tb
  jumps tb c d := (c, d) ∈ destroyMentions cfg tb

theorem ofGateway_destroyChains {cfg : Config} {tb : Table} {c : Chain}
    (h : c ∈ destroyChains cfg tb) : c.ofGateway = true := by
  cases tb <;> simp only [destroyChains] at h <;> split at h <;> revert c <;> decide

theorem ofGateway_destroyMentions {cfg : Config} {tb : Table} {c d : Chain}
    (h : (c, d) ∈ destroyMentions cfg tb) : c.ofGateway = false ∧ d.ofGateway = true := by
  have hall : ∀ m ∈ destroyMentions cfg tb, m.1.ofGateway = false ∧ m.2.ofGateway = true := by
    cases tb
    · exact (by decide : ∀ m ∈ [(Chain.forward, Chain.toInternet)],
        m.1.ofGateway = false ∧ m.2.ofGateway = true)
    · exact (by decide : ∀ m ∈ [(Chain.prerouting, Chain.outgoing)],
        m.1.ofGateway = false ∧ m.2.ofGateway = true)
    · simp only [destroyMentions]
      split <;> decide
  exact hall (c, d) h

/-! ## The gateway's commands -/

/-- The command is about a chain of the gateway, or it adds a jump to one from a built-in chain. -/
def Command.Ours (cfg : Config) (c : Command Chain) : Prop :=
  c.op.chain ∈ destroyChains cfg c.table ∨
    ∃ d conds, (c.op.chain, d) ∈ destroyMentions cfg c.table ∧
      (c.op = .insert c.op.chain ⟨conds, .jump d⟩ ∨ c.op = .append c.op.chain ⟨conds, .jump d⟩)

theorem Command.Ours.within {cfg : Config} {c : Command Chain} (h : Command.Ours cfg c) :
    c.op.Within Chain.ofGateway (gatewayBound cfg) c.table := by
  obtain ⟨tb, op⟩ := c
  rcases h with h | ⟨d, conds, hmem, hop⟩
  · have hown := ofGateway_destroyChains h
    cases op with
    | new ch => exact ⟨hown, h⟩
    | append ch r => exact Or.inl ⟨hown, h⟩
    | insert ch r => exact Or.inl ⟨hown, h⟩
    | delete ch r => exact hown
    | deleteAt ch n => exact hown
    | flush ch => exact hown
  · have hown := ofGateway_destroyMentions hmem
    have hjump : ∃ e, (⟨conds, .jump d⟩ : Rule Chain).target = .jump e ∧ e.ofGateway = true ∧
        (op.chain, e) ∈ destroyMentions cfg tb := ⟨d, rfl, hown.2, hmem⟩
    dsimp only at hop hown ⊢
    rcases hop with hop | hop
    · rw [hop]
      exact Or.inr ⟨hown.1, hjump⟩
    · rw [hop]
      exact Or.inr ⟨hown.1, hjump⟩

theorem loadRuleset_ours {cfg : Config} {tb : Table} {ch : Chain}
    (h : ch ∈ destroyChains cfg tb) (ruleset : Text) :
    ∀ c ∈ iptablesLoadRuleset cfg tb ruleset ch, Command.Ours cfg c := by
  intro c hc
  obtain ⟨r, _, hr⟩ := List.mem_filterMap.mp hc
  unfold iptablesCompile at hr
  split at hr
  · cases hr
  · obtain rfl := Option.some.inj hr
    exact Or.inl h

theorem setAuthservers_ours (cfg : Config) (servers : List AuthServ) :
    ∀ c ∈ iptablesFwSetAuthservers { cfg with authServers := servers }, Command.Ours cfg c := by
  intro c hc
  obtain ⟨ip, _, hc⟩ := List.mem_flatMap.mp hc
  simp only [List.mem_cons, List.not_mem_nil, or_false] at hc
  rcases hc with rfl | rfl
  · exact Or.inl (by simp [destroyChains, Op.chain])
  · exact Or.inl (by simp [destroyChains, Op.chain])

theorem initMangle_ours (cfg : Config) : ∀ c ∈ initMangle cfg, Command.Ours cfg c := by
  by_cases hdown : cfg.gotAuthdownRuleset = true <;>
    simp [initMangle, hdown, Command.Ours, destroyChains, destroyMentions, Op.chain]

theorem initNat_ours (cfg : Config) : ∀ c ∈ initNat cfg, Command.Ours cfg c := by
  by_cases hdown : cfg.gotAuthdownRuleset = true <;> by_cases hproxy : cfg.proxyPort = 0 <;>
    simp [initNat, hdown, hproxy, Command.Ours, destroyChains, destroyMentions, Op.chain]

theorem initFilter_ours (cfg : Config) (ext : Text) :
    ∀ c ∈ initFilter cfg ext, Command.Ours cfg c := by
  have hload : ∀ (tb : Table) (ch : Chain), ch ∈ destroyChains cfg tb → ∀ ruleset,
      ∀ c ∈ iptablesLoadRuleset cfg tb ruleset ch, Command.Ours cfg c :=
    fun _ _ h ruleset => loadRuleset_ours h ruleset
  have hservers : ∀ c ∈ iptablesFwSetAuthservers cfg, Command.Ours cfg c :=
    setAuthservers_ours cfg cfg.authServers
  unfold initFilter
  simp only [List.forall_mem_append]
  by_cases hdown : cfg.gotAuthdownRuleset = true
  · simp only [hdown, if_true, List.forall_mem_cons]
    constructorm* _ ∧ _
    all_goals
      first
      | exact hservers
      | exact hload _ _ (by simp [destroyChains, hdown]) _
      | simp [Command.Ours, destroyChains, destroyMentions, Op.chain, hdown]
  · simp only [hdown, List.forall_mem_cons]
    constructorm* _ ∧ _
    all_goals
      first
      | exact hservers
      | exact hload _ _ (by simp [destroyChains]) _
      | simp [Command.Ours, destroyChains, destroyMentions, Op.chain]

theorem accessCommands_ours (cfg : Config) (type : FwAccess) (ip mac : Text) (tag : Int) :
    ∀ c ∈ accessCommands type ip mac tag, Command.Ours cfg c := by
  cases type <;> simp [accessCommands, Command.Ours, destroyChains, Op.chain]

theorem FwCall.ours (cfg : Config) (call : FwCall) :
    ∀ c ∈ call.commands cfg, Command.Ours cfg c := by
  cases call with
  | allow client mark =>
    refine List.forall_mem_append.mpr
      ⟨accessCommands_ours cfg .allow client.ip client.mac mark, ?_⟩
    split
    · exact accessCommands_ours cfg .deny client.ip client.mac client.fwConnectionState
    · simp
  | deny client =>
    exact accessCommands_ours cfg .deny client.ip client.mac client.fwConnectionState
  | allowHost host =>
    simp [FwCall.commands, accessHostCommands, Command.Ours, destroyChains, Op.chain]
  | setAuthdown =>
    change ∀ c ∈ iptablesFwAuthUnreachable cfg fwMarkAuthIsDown, Command.Ours cfg c
    unfold iptablesFwAuthUnreachable
    split
    · next hdown => simp [Command.Ours, destroyChains, Op.chain, hdown]
    · simp
  | setAuthup =>
    change ∀ c ∈ iptablesFwAuthReachable cfg, Command.Ours cfg c
    unfold iptablesFwAuthReachable
    split
    · next hdown => simp [Command.Ours, destroyChains, Op.chain, hdown]
    · simp
  | clearAuthservers =>
    simp [FwCall.commands, iptablesFwClearAuthservers, Command.Ours, destroyChains, Op.chain]
  | setAuthservers servers => exact setAuthservers_ours cfg servers

theorem init_ours (cfg : Config) (getExtIface : Option Text) :
    ∀ c ∈ (iptablesFwInit cfg getExtIface).getD [], Command.Ours cfg c := by
  unfold iptablesFwInit
  cases cfg.externalInterface.orElse fun _ => getExtIface with
  | none => simp
  | some ext =>
    exact List.forall_mem_append.mpr ⟨List.forall_mem_append.mpr
      ⟨initMangle_ours cfg, initNat_ours cfg⟩, initFilter_ours cfg ext⟩

/-! ## Names in listings -/

/-- A listing prints the name of the chain that a rule jumps to. -/
def PrintsTargets (cfg : Config) (print : Rule Chain → Text) : Prop :=
  ∀ conds (c : Chain), c.name cfg <:+: print ⟨conds, .jump c⟩

/-- Nothing in the tables is named like a chain of the gateway, and no rule mentions one. -/
structure Clean (cfg : Config) (print : Rule Chain → Text) (t : Tables Chain) : Prop where
  unique : ∀ tb, (t.chains tb).Unique
  names : ∀ tb c rs, t.view tb c = some rs → ∀ w : Chain, w.ofGateway = true →
    c.name cfg ≠ w.name cfg
  rules : ∀ tb c rs, t.view tb c = some rs → ∀ r ∈ rs, ∀ w : Chain, w.ofGateway = true →
    ¬ w.name cfg <:+: print r

theorem name_eq_cons (cfg : Config) {c : Chain} (h : c.ofGateway = true) :
    ∃ rest, c.name cfg = 'W' :: 'D' :: '_' :: rest := by
  have hmark : ∀ post : Text, '$' ∉ post → '%' ∉ post → c.text = "WD_".toList ++ (idMark ++ post) →
      ∃ rest, c.name cfg = 'W' :: 'D' :: '_' :: rest := by
    intro post hdollar hpercent htext
    refine ⟨cfg.chainId ++ post, ?_⟩
    unfold Chain.name
    rw [htext, iptablesInsertGatewayId_mark cfg (by decide) hdollar (by decide) hpercent]
    rfl
  have hsuffix : c.text = "WD_".toList ++ (idMark ++ c.text.drop 7) ∧ '$' ∉ c.text.drop 7 ∧
      '%' ∉ c.text.drop 7 := by
    cases c <;> first | decide | cases h
  exact hmark _ hsuffix.2.1 hsuffix.2.2 hsuffix.1

/-- The number in front of a line does not matter. -/
theorem strstr_name (cfg : Config) {c : Chain} (h : c.ofGateway = true)
    (print : Rule Chain → Text) (r : Rule Chain) (num : Nat) :
    (strstr (listingLine print num r) (c.name cfg)).isSome =
      (strstr (print r) (c.name cfg)).isSome := by
  obtain ⟨rest, hname⟩ := name_eq_cons cfg h
  have hdigits : 'W' ∉ dec num ++ [' '] := by
    intro hmem
    rcases List.mem_append.mp hmem with hmem | hmem
    · exact absurd (isDigit_of_mem_dec hmem) (by decide)
    · exact absurd hmem (by decide)
  have hline : listingLine print num r = (dec num ++ [' ']) ++ print r := by simp [listingLine]
  rw [hname, hline, strstr_skip hdigits, Option.isSome_map]

/-! ## Sizes -/

theorem FewRules.setRules {t : Tables Chain} (h : FewRules t) {tb : Table} {c : Chain}
    {rs new : List (Rule Chain)} (hview : t.view tb c = some rs) (hle : new.length ≤ rs.length) :
    FewRules (t.setRules tb c new) := by
  intro tb' d rs' hd
  rw [Tables.view_setRules hview] at hd
  split at hd
  · obtain rfl := Option.some.inj hd
    exact Nat.lt_of_le_of_lt hle (h tb c rs hview)
  · exact h tb' d rs' hd

theorem FewRules.flush {t : Tables Chain} (h : FewRules t) (tb : Table) (c : Chain) :
    FewRules (t.exec ⟨tb, .flush c⟩) := by
  intro tb' d rs hd
  rw [Tables.view_exec t (by simp [Command.NoJump])] at hd
  split at hd
  · obtain ⟨_, _, rfl⟩ := Option.map_eq_some_iff.mp hd
    exact Nat.pow_pos (by decide)
  · exact h tb' d rs hd

theorem FewRules.deleteChain {t : Tables Chain} (h : FewRules t) (tb : Table) (c : Chain) :
    FewRules (t.deleteChain tb c) := by
  unfold Tables.deleteChain
  split
  · next cs hcs =>
    intro tb' d rs hd
    unfold Tables.view at hd
    rw [Tables.chains_setChains] at hd
    split at hd
    · next htb =>
      subst htb
      unfold Chains.remove at hcs
      split at hcs
      · split at hcs
        · cases hcs
        · obtain rfl := Option.some.inj hcs
          rw [Chains.get_filter_ne] at hd
          split at hd
          · cases hd
          · exact h tb' d rs hd
      · cases hcs
    · exact h tb' d rs hd
  · exact h

theorem fewRules_foldl {α : Type} {f : Tables Chain → α → Tables Chain}
    (hf : ∀ t a, FewRules t → FewRules (f t a)) (as : List α) {t : Tables Chain}
    (h : FewRules t) : FewRules (as.foldl f t) := by
  induction as generalizing t with
  | nil => exact h
  | cons a as ih => exact ih (hf t a h)

/-! ## One table -/

section Destroy
variable {cfg : Config} {print : Rule Chain → Text} (hprint : PrintsTargets cfg print)
  {t0 : Tables Chain} (hclean : Clean cfg print t0)
include hprint hclean

/-- Deleting the mentions of `d` in the built-in chain `c` takes jumps of the gateway only, and
    all those to `d`. -/
theorem within_destroyMention {b : Bound Chain} {t : Tables Chain}
    (h : Within Chain.ofGateway b t0 t) (hfew : FewRules t) (tb : Table) {c d : Chain}
    (hc : c.ofGateway = false) (hd : d.ofGateway = true) :
    Within Chain.ofGateway (b.withoutJump tb c d) t0
        (iptablesFwDestroyMention print t tb c (d.name cfg)) ∧
      FewRules (iptablesFwDestroyMention print t tb c (d.name cfg)) := by
  cases hview : t.view tb c with
  | none =>
    rw [iptablesFwDestroyMention_absent hview]
    refine ⟨⟨h.strip, h.unique, h.names, h.full, fun tb' e es he hown r hr f hf hownf => ?_⟩, hfew⟩
    refine ⟨h.jumps tb' e es he hown r hr f hf hownf, ?_⟩
    rintro ⟨rfl, rfl, _⟩
    rw [hview] at he
    cases he
  | some rs =>
    have hhit : ∀ r ∈ rs, ∀ num, (strstr (listingLine print num r) (d.name cfg)).isSome =
        (strstr (print r) (d.name cfg)).isSome :=
      fun r _ num => strstr_name cfg hd print r num
    -- a rule that is not the gateway's was there before
    have hinto : ∀ r ∈ rs, (strstr (print r) (d.name cfg)).isSome = true →
        r.jumpsInto Chain.ofGateway = true := by
      intro r hr hmention
      by_contra hforeign
      have hentry : (c, foreignRules Chain.ofGateway rs) ∈ t0.chains tb := by
        rw [← h.strip tb]
        refine List.mem_map.mpr ⟨(c, rs), List.mem_filter.mpr ⟨?_, by simp [hc]⟩, rfl⟩
        exact Chains.mem_of_get_eq hview
      have hview0 : t0.view tb c = some (foreignRules Chain.ofGateway rs) :=
        Chains.get_of_mem (hclean.unique tb) hentry
      have hmem : r ∈ foreignRules Chain.ofGateway rs :=
        List.mem_filter.mpr ⟨hr, by simpa using hforeign⟩
      exact hclean.rules tb c _ hview0 r hmem d hd (strstr_isSome_iff.mp hmention)
    have hall : ∀ r ∈ rs, r.target = .jump d → (strstr (print r) (d.name cfg)).isSome = true := by
      rintro ⟨conds, target⟩ _ htarget
      obtain rfl : target = .jump d := htarget
      exact strstr_isSome_iff.mpr (hprint conds d)
    rw [iptablesFwDestroyMention_eq hview hhit (hfew tb c rs hview)]
    exact ⟨h.dropRules hview hc hinto hall, hfew.setRules hview (List.length_filter_le _ _)⟩

theorem within_destroyMentions {ms : List (Chain × Chain)}
    (hms : ∀ m ∈ ms, m.1.ofGateway = false ∧ m.2.ofGateway = true) {b : Bound Chain}
    {t : Tables Chain} (h : Within Chain.ofGateway b t0 t) (hfew : FewRules t) (tb : Table) :
    Within Chain.ofGateway
        { b with jumps := fun tb' c d => b.jumps tb' c d ∧ ¬ (tb' = tb ∧ (c, d) ∈ ms) } t0
        (ms.foldl (fun t m => iptablesFwDestroyMention print t tb m.1 (m.2.name cfg)) t) ∧
      FewRules
        (ms.foldl (fun t m => iptablesFwDestroyMention print t tb m.1 (m.2.name cfg)) t) := by
  induction ms generalizing b t with
  | nil =>
    refine ⟨⟨h.strip, h.unique, h.names, h.full, fun tb' e es he hown r hr f hf hownf => ?_⟩, hfew⟩
    exact ⟨h.jumps tb' e es he hown r hr f hf hownf, by simp⟩
  | cons m ms ih =>
    have hm := hms m List.mem_cons_self
    obtain ⟨hfirst, hfew'⟩ := within_destroyMention hprint hclean h hfew tb hm.1 hm.2
    obtain ⟨hrest, hfew''⟩ := ih (fun n hn => hms n (List.mem_cons_of_mem m hn)) hfirst hfew'
    refine ⟨⟨hrest.strip, hrest.unique, hrest.names, hrest.full, ?_⟩, hfew''⟩
    intro tb' e es he hown r hr f hf hownf
    obtain ⟨⟨hjump, hnotm⟩, hnotms⟩ := hrest.jumps tb' e es he hown r hr f hf hownf
    refine ⟨hjump, ?_⟩
    rintro ⟨htb, hmem⟩
    rcases List.mem_cons.mp hmem with rfl | hmem
    · exact hnotm ⟨htb, rfl, rfl⟩
    · exact hnotms ⟨htb, hmem⟩

/-- After `iptables_fw_destroy` has worked on a table, nothing of the gateway is left in it. -/
theorem within_destroyTable {b : Bound Chain} {t : Tables Chain}
    (h : Within Chain.ofGateway b t0 t) (hfew : FewRules t) (tb : Table)
    (hnames : ∀ c, b.names tb c → c ∈ destroyChains cfg tb)
    (hfull : ∀ c, b.full tb c → c ∈ destroyChains cfg tb)
    (hjumps : ∀ c d, b.jumps tb c d → (c, d) ∈ destroyMentions cfg tb) :
    Within Chain.ofGateway (b.withoutTable tb) t0
        (destroyTable print cfg tb (destroyMentions cfg tb) (destroyChains cfg tb) t) ∧
      FewRules (destroyTable print cfg tb (destroyMentions cfg tb) (destroyChains cfg tb) t) := by
  have hown : ∀ c ∈ destroyChains cfg tb, c.ofGateway = true := fun c => ofGateway_destroyChains
  obtain ⟨h1, hfew1⟩ := within_destroyMentions hprint hclean
    (fun m hm => ofGateway_destroyMentions (c := m.1) (d := m.2) hm) h hfew tb
  have h2 := h1.flushAll tb hown
  have h3 := h2.deleteAll hown
    (fun c hc => hc.2 ⟨rfl, hfull c hc.1⟩)
    (fun c d _ hcd => hcd.2 ⟨rfl, hjumps c d hcd.1⟩)
  refine ⟨⟨h3.strip, h3.unique, fun tb' c rs hc hownc => ?_, fun tb' c rs hc hownc hne => ?_,
    fun tb' c rs hc hownc r hr d hd hownd => ?_⟩, ?_⟩
  · obtain ⟨hname, hnot⟩ := h3.names tb' c rs hc hownc
    refine ⟨?_, hname⟩
    rintro rfl
    exact hnot ⟨rfl, hnames c hname⟩
  · obtain ⟨hf, hnot⟩ := h3.full tb' c rs hc hownc hne
    refine ⟨?_, hf⟩
    rintro rfl
    exact hnot ⟨rfl, hfull c hf⟩
  · obtain ⟨hj, hnot⟩ := h3.jumps tb' c rs hc hownc r hr d hd hownd
    refine ⟨?_, hj⟩
    rintro rfl
    exact hnot ⟨rfl, hjumps c d hj⟩
  · exact fewRules_foldl (fun t c ht => ht.deleteChain tb c) _
      (fewRules_foldl (fun t c ht => ht.flush tb c) _ hfew1)

/-- Whatever the gateway has put into the tables, `iptables_fw_destroy` takes it out. -/
theorem iptablesFwDestroy_restores {t : Tables Chain}
    (h : Within Chain.ofGateway (gatewayBound cfg) t0 t) (hfew : FewRules t) :
    iptablesFwDestroy print cfg t = t0 := by
  obtain ⟨h1, hfew1⟩ := within_destroyTable hprint hclean h hfew .mangle
    (fun _ hc => hc) (fun _ hc => hc) (fun _ _ hcd => hcd)
  obtain ⟨h2, hfew2⟩ := within_destroyTable hprint hclean h1 hfew1 .nat
    (fun _ hc => hc.2) (fun _ hc => hc.2) (fun _ _ hcd => hcd.2)
  obtain ⟨h3, _⟩ := within_destroyTable hprint hclean h2 hfew2 .filter
    (fun _ hc => hc.2.2) (fun _ hc => hc.2.2) (fun _ _ hcd => hcd.2.2)
  refine h3.restored (fun tb c hc => ?_) (fun tb c d hcd => ?_)
  · obtain ⟨hf, hn, hm, _⟩ := hc
    cases tb
    · exact hf rfl
    · exact hn rfl
    · exact hm rfl
  · obtain ⟨hf, hn, hm, _⟩ := hcd
    cases tb
    · exact hf rfl
    · exact hn rfl
    · exact hm rfl

end Destroy

/-! ## The result -/

/-- `iptables_fw_init` and the calls after it, in tables where iptables accepts a command when
    `accepts` says so of its operands and the table lets it. Without an external interface
    `iptables_fw_init` issues no command. -/
def gatewayTables (cfg : Config) (getExtIface : Option Text) (accepts : Command Chain → Bool)
    (calls : List FwCall) (t : Tables Chain) : Tables Chain :=
  t.execAll (((iptablesFwInit cfg getExtIface).getD [] ++
    calls.flatMap (FwCall.commands cfg)).filter accepts)

/-- After `iptables_fw_init` and any calls, `iptables_fw_destroy` leads back to the tables as they
    were before; without `iptables_fw_init` it changes nothing. -/
theorem destroy_undoes_init (cfg : Config) (getExtIface : Option Text)
    (accepts : Command Chain → Bool) {print : Rule Chain → Text} (hprint : PrintsTargets cfg print)
    {t : Tables Chain} (hclean : Clean cfg print t) (calls : List FwCall)
    (hfew : FewRules t) (hfew' : FewRules (gatewayTables cfg getExtIface accepts calls t)) :
    iptablesFwDestroy print cfg (gatewayTables cfg getExtIface accepts calls t) = t ∧
      iptablesFwDestroy print cfg t = t := by
  have hstart : Within Chain.ofGateway (gatewayBound cfg) t t := by
    refine within_start _ hclean.unique (fun tb c rs hv => ?_) fun tb c rs hv r hr => ?_
    · by_contra hown
      exact hclean.names tb c rs hv c (by simpa using hown) rfl
    · by_contra hinto
      obtain ⟨conds, target⟩ := r
      unfold Rule.jumpsInto at hinto
      split at hinto
      · next w hw =>
        obtain rfl : target = .jump w := hw
        exact hclean.rules tb c rs hv _ hr w (by simpa using hinto) (hprint conds w)
      · exact hinto rfl
  have hours : ∀ c ∈ ((iptablesFwInit cfg getExtIface).getD [] ++
      calls.flatMap (FwCall.commands cfg)).filter accepts,
      c.op.Within Chain.ofGateway (gatewayBound cfg) c.table := by
    intro c hc
    rcases List.mem_append.mp (List.mem_of_mem_filter hc) with hc | hc
    · exact (init_ours cfg getExtIface c hc).within
    · obtain ⟨call, _, hc⟩ := List.mem_flatMap.mp hc
      exact (call.ours cfg c hc).within
  exact ⟨iptablesFwDestroy_restores hprint hclean (hstart.execAll hours) hfew',
    iptablesFwDestroy_restores hprint hclean hstart hfew⟩

/-! ## A gateway that is stopped again -/

/-- The columns of a listing up to the interfaces. -/
def printTarget (cfg : Config) (r : Rule Chain) : Text :=
  let target := match r.target with
    | .jump c => c.name cfg
    | .accept => "ACCEPT".toList
    | .drop => "DROP".toList
    | _ => "MARK".toList
  let iif := r.conds.findSome? fun | .inInterface name => some name | _ => none
  "0 0 ".toList ++ target ++ " all -- ".toList ++ iif.getD "*".toList ++ " * ".toList

theorem printTarget_targets (cfg : Config) : PrintsTargets cfg (printTarget cfg) := by
  intro conds c
  unfold printTarget
  exact ⟨"0 0 ".toList, _, by simp only [List.append_assoc]; rfl⟩

/-- Tables that do not even have the beginning of the gateway's names in them. -/
theorem clean_of_beginning {cfg : Config} {print : Rule Chain → Text} {t : Tables Chain}
    (h : ∀ tb ∈ [Table.filter, .nat, .mangle], (t.chains tb).Unique ∧ ∀ d ∈ t.chains tb,
      ¬ "WD_".toList <:+: d.1.name cfg ∧ ∀ r ∈ d.2, ¬ "WD_".toList <:+: print r) :
    Clean cfg print t := by
  have hall : ∀ tb, (t.chains tb).Unique ∧ ∀ d ∈ t.chains tb,
      ¬ "WD_".toList <:+: d.1.name cfg ∧ ∀ r ∈ d.2, ¬ "WD_".toList <:+: print r := by
    intro tb
    exact h tb (by cases tb <;> decide)
  have hbegin : ∀ w : Chain, w.ofGateway = true → "WD_".toList <:+: w.name cfg := by
    intro w hw
    obtain ⟨rest, hrest⟩ := name_eq_cons cfg hw
    rw [hrest]
    exact ⟨[], rest, rfl⟩
  refine ⟨fun tb => (hall tb).1, fun tb c rs hv w hw heq => ?_, fun tb c rs hv r hr w hw hin => ?_⟩
  · exact ((hall tb).2 (c, rs) (Chains.mem_of_get_eq hv)).1 (heq ▸ hbegin w hw)
  · exact ((hall tb).2 (c, rs) (Chains.mem_of_get_eq hv)).2 r hr ((hbegin w hw).trans hin)

/-- A router with rules of its own. -/
def routerTables : Tables Chain where
  filter := [(.forward, [⟨[.inInterface "ppp0".toList], .jump (.other "from-ppp".toList)⟩]),
    (.other "from-ppp".toList, [⟨[.protocol "tcp".toList], .drop⟩])]
  nat := [(.prerouting, [⟨[.inInterface "ppp0".toList], .accept⟩])]
  mangle := [(.prerouting, []), (.postrouting, [⟨[.outInterface "ppp0".toList], .accept⟩])]

def stoppedConfig : Config :=
  { smallConfig with
    rulesets := [(fwrulesetGlobal, [⟨.accept, some "udp".toList, some "53".toList,
      defaultMask, false⟩]), (fwrulesetAuthIsDown, [⟨.drop, none, none, defaultMask, false⟩])] }

/-- A client comes and goes while the auth server is away for a time. -/
def dayCalls : List FwCall :=
  [.setAuthdown, .allowHost "192.0.2.7".toList,
    .allow ⟨1, "10.0.0.5".toList, "00:16:3e:00:00:05".toList, [], 0, 0, .fresh 0⟩ fwMarkKnown,
    .setAuthup, .clearAuthservers, .setAuthservers []]

theorem destroy_undoes_day :
    gatewayTables stoppedConfig none (fun _ => true) dayCalls routerTables ≠ routerTables ∧
      iptablesFwDestroy (printTarget stoppedConfig) stoppedConfig
        (gatewayTables stoppedConfig none (fun _ => true) dayCalls routerTables) = routerTables ∧
      iptablesFwDestroy (printTarget stoppedConfig) stoppedConfig routerTables = routerTables := by
  have hsize : gatewayTables stoppedConfig none (fun _ => true) dayCalls routerTables ≠
      routerTables ∧
      (∀ tb ∈ [Table.filter, .nat, .mangle], ∀ d ∈ routerTables.chains tb,
        d.2.length < 10 ^ 9) ∧
      ∀ tb ∈ [Table.filter, .nat, .mangle], ∀ d ∈
        (gatewayTables stoppedConfig none (fun _ => true) dayCalls routerTables).chains tb,
        d.2.length < 10 ^ 9 := by decide +kernel
  have hclean : Clean stoppedConfig (printTarget stoppedConfig) routerTables :=
    clean_of_beginning (by unfold Chains.Unique; decide +kernel)
  exact ⟨hsize.1, destroy_undoes_init stoppedConfig none (fun _ => true)
    (printTarget_targets stoppedConfig) hclean dayCalls (fewRules_of_chains hsize.2.1)
    (fewRules_of_chains hsize.2.2)⟩

end Wifidog
