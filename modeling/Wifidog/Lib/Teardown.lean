/-
  Chains that a program adds to the tables, and taking them out again.

  `own` tells the program's chains from those that were there. `Chains.strip own` forgets the
  program's chains and every rule that jumps into one of them. `Within own b t0 t` says that
  forgetting leads from `t` back to `t0` and bounds what is left to forget: which of the program's
  chains may be there, which of them may hold rules, and which other chains may jump to which of
  them. Adding only moves inside the bound; each kind of removal makes the bound smaller, and an
  empty bound means that `t` is `t0` (`Within.restored`).

  `-X` is refused for a chain that holds rules or that some rule jumps to.

  Proved: `Within.exec` and `Within.execAll` for the commands of the program, `Within.dropRules`,
  `Within.flushAll` and `Within.deleteAll` for its removal.
-/
import Wifidog.Lib.Netfilter

namespace Wifidog.Netfilter

variable {κ : Type} [DecidableEq κ]

/-! ## Removing a chain -/

/-- Some rule of the table jumps to the chain. -/
def Chains.referenced (cs : Chains κ) (c : κ) : Bool :=
  cs.any fun d => d.2.any fun r => r.target == .jump c

/-- `-X chain` -/
def Chains.remove (cs : Chains κ) (c : κ) : Option (Chains κ) :=
  match cs.get c with
  | some [] => if cs.referenced c then none else some (cs.filter fun d => d.1 != c)
  | _ => none

/-- `-X chain`, the exit status is ignored. -/
def Tables.deleteChain (t : Tables κ) (tb : Table) (c : κ) : Tables κ :=
  match (t.chains tb).remove c with
  | some cs => t.setChains tb cs
  | none => t

/-- Other rules for a chain that is there. -/
def Tables.setRules (t : Tables κ) (tb : Table) (c : κ) (rs : List (Rule κ)) : Tables κ :=
  t.setChains tb ((t.chains tb).set c rs)

theorem Tables.view_setRules {t : Tables κ} {tb : Table} {c : κ} {rs : List (Rule κ)}
    (h : t.view tb c = some rs) (new : List (Rule κ)) (tb' : Table) (d : κ) :
    (t.setRules tb c new).view tb' d = if tb' = tb ∧ d = c then some new else t.view tb' d := by
  unfold setRules view
  rw [chains_setChains]
  by_cases htb : tb' = tb
  · subst htb
    rw [if_pos rfl, Chains.get_set h]
    simp
  · simp [htb]

theorem Chains.set_set (cs : Chains κ) (c : κ) (rs rs' : List (Rule κ)) :
    (cs.set c rs).set c rs' = cs.set c rs' := by
  induction cs with
  | nil => rfl
  | cons p cs ih =>
    obtain ⟨d, ds⟩ := p
    by_cases hd : d = c
    · simp [Chains.set, hd]
    · simp [Chains.set, hd, ih]

theorem Chains.set_get {cs : Chains κ} {c : κ} {rs : List (Rule κ)} (h : cs.get c = some rs) :
    cs.set c rs = cs := by
  induction cs with
  | nil => cases h
  | cons p cs ih =>
    obtain ⟨d, ds⟩ := p
    by_cases hd : d = c
    · simp only [Chains.get, hd, if_true, Option.some.injEq] at h
      simp [Chains.set, hd, h]
    · simp only [Chains.get, hd, if_false] at h
      simp [Chains.set, hd, ih h]

omit [DecidableEq κ] in
theorem Tables.setChains_chains (t : Tables κ) (tb : Table) : t.setChains tb (t.chains tb) = t := by
  cases tb <;> rfl

omit [DecidableEq κ] in
theorem Tables.setChains_setChains (t : Tables κ) (tb : Table) (cs cs' : Chains κ) :
    (t.setChains tb cs).setChains tb cs' = t.setChains tb cs' := by
  cases tb <;> rfl

theorem Tables.setRules_setRules (t : Tables κ) (tb : Table) (c : κ) (rs rs' : List (Rule κ)) :
    (t.setRules tb c rs).setRules tb c rs' = t.setRules tb c rs' := by
  unfold setRules
  rw [setChains_setChains, chains_setChains, if_pos rfl, Chains.set_set]

theorem Tables.setRules_view {t : Tables κ} {tb : Table} {c : κ} {rs : List (Rule κ)}
    (h : t.view tb c = some rs) : t.setRules tb c rs = t := by
  unfold setRules
  rw [Chains.set_get h, setChains_chains]

/-- `-D chain num` takes that rule out. -/
theorem Tables.exec_deleteAt {t : Tables κ} {tb : Table} {c : κ} {rs : List (Rule κ)}
    (h : t.view tb c = some rs) {num : Nat} (h1 : 1 ≤ num) (hle : num ≤ rs.length) :
    t.exec ⟨tb, .deleteAt c num⟩ = t.setRules tb c (rs.eraseIdx (num - 1)) := by
  have hget : (t.chains tb).get c = some rs := h
  simp [exec, Command.run, Op.run, hget, h1, hle, setRules]

/-! ## Forgetting the program's chains -/

/-- The rule jumps to a chain of the program. -/
def Rule.jumpsInto (own : κ → Bool) (r : Rule κ) : Bool :=
  match r.target with
  | .jump c => own c
  | _ => false

/-- The rules that do not jump into the program's chains. -/
def foreignRules (own : κ → Bool) (rs : List (Rule κ)) : List (Rule κ) :=
  rs.filter fun r => !r.jumpsInto own

/-- The chains that are not the program's, without the jumps into the program's. -/
def Chains.strip (own : κ → Bool) (cs : Chains κ) : Chains κ :=
  (cs.filter fun d => !own d.1).map fun d => (d.1, foreignRules own d.2)

section Strip
variable {own : κ → Bool}

theorem strip_set {cs : Chains κ} {c : κ} {rs new : List (Rule κ)} (h : cs.get c = some rs)
    (hnew : own c = true ∨ foreignRules own new = foreignRules own rs) :
    (cs.set c new).strip own = cs.strip own := by
  induction cs with
  | nil => cases h
  | cons p cs ih =>
    obtain ⟨d, ds⟩ := p
    by_cases hd : d = c
    · subst hd
      simp only [Chains.get, if_true, Option.some.injEq] at h
      subst h
      rcases hnew with hown | hsame
      · simp [Chains.set, Chains.strip, hown]
      · cases hown : own d <;> simp [Chains.set, Chains.strip, hown, hsame]
    · simp only [Chains.get, hd, if_false] at h
      have ih' := ih h
      unfold Chains.strip at ih' ⊢
      cases hown : own d <;> simp [Chains.set, hd, hown, ih']

omit [DecidableEq κ] in
theorem strip_append_own {c : κ} (h : own c = true) (cs : Chains κ) (rs : List (Rule κ)) :
    Chains.strip own (cs ++ [(c, rs)]) = cs.strip own := by
  simp [Chains.strip, h]

theorem strip_filter_own {c : κ} (h : own c = true) (cs : Chains κ) :
    Chains.strip own (cs.filter fun d => d.1 != c) = cs.strip own := by
  unfold Chains.strip
  rw [List.filter_filter]
  congr 1
  refine List.filter_congr fun d _ => ?_
  by_cases hd : d.1 = c
  · simp [hd, h]
  · simp [hd]

omit [DecidableEq κ] in
theorem strip_of_foreign {cs : Chains κ} (hnames : ∀ d ∈ cs, own d.1 = false)
    (hjumps : ∀ d ∈ cs, ∀ r ∈ d.2, r.jumpsInto own = false) : cs.strip own = cs := by
  have hrules : ∀ d ∈ cs, foreignRules own d.2 = d.2 := by
    intro d hd
    exact List.filter_eq_self.mpr fun r hr => by simp [hjumps d hd r hr]
  unfold Chains.strip
  rw [List.filter_eq_self.mpr fun d hd => by simp [hnames d hd]]
  refine (List.map_congr_left fun d hd => ?_).trans (List.map_id cs)
  rw [hrules d hd]
  rfl

end Strip

/-! ## Names -/

/-- Chain names are unique in a table. -/
def Chains.Unique (cs : Chains κ) : Prop := (cs.map Prod.fst).Nodup

section Unique

theorem Chains.names_set (cs : Chains κ) (c : κ) (rs : List (Rule κ)) :
    (cs.set c rs).map Prod.fst = cs.map Prod.fst := by
  induction cs with
  | nil => rfl
  | cons p cs ih =>
    obtain ⟨d, ds⟩ := p
    by_cases hd : d = c <;> simp [Chains.set, hd, ih]

theorem Chains.get_of_mem {cs : Chains κ} (h : cs.Unique) {c : κ} {rs : List (Rule κ)}
    (hmem : (c, rs) ∈ cs) : cs.get c = some rs := by
  unfold Chains.Unique at h
  induction cs with
  | nil => cases hmem
  | cons p cs ih =>
    obtain ⟨d, ds⟩ := p
    rw [List.map_cons, List.nodup_cons] at h
    rcases List.mem_cons.mp hmem with heq | hmem
    · obtain ⟨rfl, rfl⟩ := Prod.mk.inj heq
      simp [Chains.get]
    · have hin : c ∈ cs.map Prod.fst := List.mem_map_of_mem (f := Prod.fst) hmem
      have hne : d ≠ c := fun heq => h.1 (heq ▸ hin)
      simp [Chains.get, hne, ih h.2 hmem]

theorem Chains.mem_of_get_eq {cs : Chains κ} {c : κ} {rs : List (Rule κ)}
    (h : cs.get c = some rs) : (c, rs) ∈ cs := by
  induction cs with
  | nil => cases h
  | cons p cs ih =>
    obtain ⟨d, ds⟩ := p
    by_cases hd : d = c
    · simp only [Chains.get, hd, if_true, Option.some.injEq] at h
      simp [hd, h]
    · simp only [Chains.get, hd, if_false] at h
      exact List.mem_cons_of_mem _ (ih h)

theorem Chains.not_mem_of_get {cs : Chains κ} {c : κ} (h : cs.get c = none) :
    c ∉ cs.map Prod.fst := by
  induction cs with
  | nil => simp
  | cons p cs ih =>
    obtain ⟨d, ds⟩ := p
    by_cases hd : d = c
    · simp [Chains.get, hd] at h
    · simp only [Chains.get, hd, if_false] at h
      simp only [List.map_cons, List.mem_cons, not_or]
      exact ⟨Ne.symm hd, ih h⟩

theorem Chains.get_filter_ne (cs : Chains κ) (c d : κ) :
    Chains.get (cs.filter fun e => e.1 != c) d = if d = c then none else cs.get d := by
  induction cs with
  | nil => simp [Chains.get]
  | cons p cs ih =>
    obtain ⟨e, es⟩ := p
    by_cases hec : e = c
    · rw [List.filter_cons_of_neg (by simp [hec]), ih]
      by_cases hdc : d = c
      · rw [if_pos hdc, if_pos hdc]
      · have hed : e ≠ d := fun heq => hdc (heq.symm.trans hec)
        simp [Chains.get, hed, hdc]
    · by_cases hed : e = d
      · subst hed
        simp [Chains.get, hec]
      · simp [Chains.get, hec, hed, ih]

end Unique

/-! ## Bounds -/

/-- What may be there of the program. -/
structure Bound (κ : Type) where
  /-- a chain of the program -/
  names : Table → κ → Prop
  /-- a chain of the program that holds rules -/
  full : Table → κ → Prop
  /-- a jump from another chain to one of the program -/
  jumps : Table → κ → κ → Prop

structure Within (own : κ → Bool) (b : Bound κ) (t0 t : Tables κ) : Prop where
  strip : ∀ tb, (t.chains tb).strip own = t0.chains tb
  unique : ∀ tb, (t.chains tb).Unique
  names : ∀ tb c rs, t.view tb c = some rs → own c = true → b.names tb c
  full : ∀ tb c rs, t.view tb c = some rs → own c = true → rs ≠ [] → b.full tb c
  jumps : ∀ tb c rs, t.view tb c = some rs → own c = false → ∀ r ∈ rs, ∀ d,
    r.target = .jump d → own d = true → b.jumps tb c d

/-- The operation stays inside the bound. -/
def Op.Within (own : κ → Bool) (b : Bound κ) (tb : Table) : Op κ → Prop
  | .new c => own c = true ∧ b.names tb c
  | .append c r => own c = true ∧ b.full tb c ∨
      own c = false ∧ ∃ d, r.target = .jump d ∧ own d = true ∧ b.jumps tb c d
  | .insert c r => own c = true ∧ b.full tb c ∨
      own c = false ∧ ∃ d, r.target = .jump d ∧ own d = true ∧ b.jumps tb c d
  | .delete c _ => own c = true
  | .deleteAt c _ => own c = true
  | .flush c => own c = true

section Within
variable {own : κ → Bool} {b : Bound κ} {t0 t : Tables κ}

/-- Other rules for one chain: what the new rules have to meet. -/
theorem Within.setRules (h : Within own b t0 t) {tb : Table} {c : κ} {rs new : List (Rule κ)}
    (hview : t.view tb c = some rs)
    (hstrip : own c = true ∨ foreignRules own new = foreignRules own rs)
    (hfull : own c = true → new ≠ [] → b.full tb c)
    (hjumps : own c = false → ∀ r ∈ new, ∀ d, r.target = .jump d → own d = true →
      b.jumps tb c d) : Within own b t0 (t.setRules tb c new) := by
  -- the chains are the old ones, except for the changed one
  have hcases : ∀ tb' d rs', (t.setRules tb c new).view tb' d = some rs' →
      t.view tb' d = some rs' ∨ tb' = tb ∧ d = c ∧ rs' = new := by
    intro tb' d rs' hd
    rw [Tables.view_setRules hview] at hd
    split at hd
    · next heq => exact Or.inr ⟨heq.1, heq.2, (Option.some.inj hd).symm⟩
    · exact Or.inl hd
  refine ⟨fun tb' => ?_, fun tb' => ?_, fun tb' d rs' hd hown => ?_,
    fun tb' d rs' hd hown hne => ?_, fun tb' d rs' hd hown r hr e he hown' => ?_⟩
  · unfold Tables.setRules
    rw [Tables.chains_setChains]
    by_cases htb : tb' = tb
    · rw [if_pos htb, strip_set hview hstrip, ← htb, h.strip]
    · rw [if_neg htb, h.strip]
  · unfold Tables.setRules Chains.Unique
    rw [Tables.chains_setChains]
    split
    · rw [Chains.names_set]
      exact h.unique tb
    · exact h.unique tb'
  · rcases hcases tb' d rs' hd with hd | ⟨rfl, rfl, rfl⟩
    · exact h.names tb' d rs' hd hown
    · exact h.names tb' d rs hview hown
  · rcases hcases tb' d rs' hd with hd | ⟨rfl, rfl, rfl⟩
    · exact h.full tb' d rs' hd hown hne
    · exact hfull hown hne
  · rcases hcases tb' d rs' hd with hd | ⟨rfl, rfl, rfl⟩
    · exact h.jumps tb' d rs' hd hown r hr e he hown'
    · exact hjumps hown r hr e he hown'

/-- Fewer rules in a chain of the program. -/
theorem Within.setRules_sublist (h : Within own b t0 t) {tb : Table} {c : κ}
    {rs new : List (Rule κ)} (hview : t.view tb c = some rs) (hown : own c = true)
    (hsub : new.Sublist rs) : Within own b t0 (t.setRules tb c new) := by
  refine h.setRules hview (Or.inl hown) (fun _ hne => ?_) fun hfalse => ?_
  · refine h.full tb c rs hview hown fun hnil => hne ?_
    rw [hnil] at hsub
    exact List.sublist_nil.mp hsub
  · rw [hown] at hfalse
    cases hfalse

/-- A rule more in a chain of the program, or a jump into its chains from elsewhere. -/
theorem Within.setRules_add (h : Within own b t0 t) {tb : Table} {c : κ}
    {rs new : List (Rule κ)} {r : Rule κ} (hview : t.view tb c = some rs)
    (hnew : new = rs ++ [r] ∨ new = r :: rs)
    (hok : own c = true ∧ b.full tb c ∨
      own c = false ∧ ∃ d, r.target = .jump d ∧ own d = true ∧ b.jumps tb c d) :
    Within own b t0 (t.setRules tb c new) := by
  have hmem : ∀ q ∈ new, q ∈ rs ∨ q = r := by
    rcases hnew with rfl | rfl
    · simp
    · intro q hq
      exact (List.mem_cons.mp hq).symm
  rcases hok with ⟨hown, hfull⟩ | ⟨hown, d, htarget, hd, hjump⟩
  · refine h.setRules hview (Or.inl hown) (fun _ _ => hfull) fun hfalse => ?_
    rw [hown] at hfalse
    cases hfalse
  · have hinto : r.jumpsInto own = true := by simp [Rule.jumpsInto, htarget, hd]
    refine h.setRules hview (Or.inr ?_) (fun htrue => ?_) fun _ q hq e he hown' => ?_
    · rcases hnew with rfl | rfl <;> simp [foreignRules, hinto]
    · rw [hown] at htrue
      cases htrue
    · rcases hmem q hq with hq | rfl
      · exact h.jumps tb c rs hview hown q hq e he hown'
      · rw [htarget] at he
        obtain rfl := Target.jump.inj he
        exact hjump

/-- A new chain of the program. -/
theorem Within.newChain (h : Within own b t0 t) {tb : Table} {c : κ}
    (hnone : t.view tb c = none) (hown : own c = true) (hname : b.names tb c) :
    Within own b t0 (t.setChains tb (t.chains tb ++ [(c, [])])) := by
  have hcases : ∀ tb' d rs, (t.setChains tb (t.chains tb ++ [(c, [])])).view tb' d = some rs →
      t.view tb' d = some rs ∨ tb' = tb ∧ d = c ∧ rs = [] := by
    intro tb' d rs hd
    unfold Tables.view at hd
    rw [Tables.chains_setChains] at hd
    by_cases htb : tb' = tb
    · subst htb
      rw [if_pos rfl, Chains.get_append_new hnone] at hd
      split at hd
      · next hdc => exact Or.inr ⟨rfl, hdc, (Option.some.inj hd).symm⟩
      · exact Or.inl hd
    · rw [if_neg htb] at hd
      exact Or.inl hd
  refine ⟨fun tb' => ?_, fun tb' => ?_, fun tb' d rs hd hown' => ?_,
    fun tb' d rs hd hown' hne => ?_, fun tb' d rs hd hown' r hr e he hown'' => ?_⟩
  · rw [Tables.chains_setChains]
    by_cases htb : tb' = tb
    · rw [if_pos htb, strip_append_own hown, ← htb, h.strip]
    · rw [if_neg htb, h.strip]
  · unfold Chains.Unique
    rw [Tables.chains_setChains]
    split
    · rw [List.map_append, List.nodup_append]
      refine ⟨h.unique tb, by simp, fun d hd e he => ?_⟩
      simp only [List.map_cons, List.map_nil, List.mem_singleton] at he
      rw [he]
      rintro rfl
      exact Chains.not_mem_of_get hnone hd
    · exact h.unique tb'
  · rcases hcases tb' d rs hd with hd | ⟨rfl, rfl, rfl⟩
    · exact h.names tb' d rs hd hown'
    · exact hname
  · rcases hcases tb' d rs hd with hd | ⟨rfl, rfl, rfl⟩
    · exact h.full tb' d rs hd hown' hne
    · exact absurd rfl hne
  · rcases hcases tb' d rs hd with hd | ⟨rfl, rfl, rfl⟩
    · exact h.jumps tb' d rs hd hown' r hr e he hown''
    · cases hr

/-- A command inside the bound leads to tables inside the bound. -/
theorem Within.exec (h : Within own b t0 t) {c : Command κ} (hc : c.op.Within own b c.table) :
    Within own b t0 (t.exec c) := by
  obtain ⟨tb, op⟩ := c
  unfold Tables.exec
  cases hrun : Command.run t ⟨tb, op⟩ with
  | none => exact h
  | some t' =>
    obtain ⟨cs, hcs, rfl⟩ := Option.map_eq_some_iff.mp hrun
    rw [Option.getD_some]
    cases op with
    | new c =>
      simp only [Op.run] at hcs
      split at hcs
      · cases hcs
      · next hn =>
        obtain rfl := Option.some.inj hcs
        exact h.newChain (by simpa [Tables.view] using hn) hc.1 hc.2
    | append c r =>
      obtain ⟨rs, hrs, hif⟩ := Option.bind_eq_some_iff.mp hcs
      split at hif
      · obtain rfl := Option.some.inj hif
        exact h.setRules_add hrs (Or.inl rfl) hc
      · cases hif
    | insert c r =>
      obtain ⟨rs, hrs, hif⟩ := Option.bind_eq_some_iff.mp hcs
      split at hif
      · obtain rfl := Option.some.inj hif
        exact h.setRules_add hrs (Or.inr rfl) hc
      · cases hif
    | delete c r =>
      obtain ⟨rs, hrs, hif⟩ := Option.bind_eq_some_iff.mp hcs
      split at hif
      · obtain rfl := Option.some.inj hif
        exact h.setRules_sublist hrs hc List.erase_sublist
      · cases hif
    | deleteAt c n =>
      obtain ⟨rs, hrs, hif⟩ := Option.bind_eq_some_iff.mp hcs
      split at hif
      · obtain rfl := Option.some.inj hif
        exact h.setRules_sublist hrs hc (List.eraseIdx_sublist rs (n - 1))
      · cases hif
    | flush c =>
      obtain ⟨rs, hrs, rfl⟩ := Option.map_eq_some_iff.mp hcs
      exact h.setRules_sublist hrs hc (List.nil_sublist rs)

theorem Within.execAll (h : Within own b t0 t) {cs : List (Command κ)}
    (hcs : ∀ c ∈ cs, c.op.Within own b c.table) : Within own b t0 (t.execAll cs) := by
  unfold Tables.execAll
  induction cs generalizing t with
  | nil => exact h
  | cons c cs ih =>
    exact ih (h.exec (hcs c List.mem_cons_self)) fun d hd => hcs d (List.mem_cons_of_mem c hd)

/-! ## Removal -/

/-- Without the jumps from `c` to `d`. -/
def Bound.withoutJump (b : Bound κ) (tb : Table) (c d : κ) : Bound κ :=
  { b with jumps := fun tb' e f => b.jumps tb' e f ∧ ¬ (tb' = tb ∧ e = c ∧ f = d) }

/-- Nothing in the chains `cs`. -/
def Bound.withoutRules (b : Bound κ) (tb : Table) (cs : List κ) : Bound κ :=
  { b with full := fun tb' e => b.full tb' e ∧ ¬ (tb' = tb ∧ e ∈ cs) }

/-- Without the chains `cs`. -/
def Bound.withoutChains (b : Bound κ) (tb : Table) (cs : List κ) : Bound κ :=
  { b with names := fun tb' e => b.names tb' e ∧ ¬ (tb' = tb ∧ e ∈ cs) }

/-- Without anything in one table. -/
def Bound.withoutTable (b : Bound κ) (tb : Table) : Bound κ where
  names tb' c := tb' ≠ tb ∧ b.names tb' c
  full tb' c := tb' ≠ tb ∧ b.full tb' c
  jumps tb' c d := tb' ≠ tb ∧ b.jumps tb' c d

/-- Rules of another chain are deleted, all of them jumps into the program's chains; among them
    every jump to `d`. -/
theorem Within.dropRules (h : Within own b t0 t) {tb : Table} {c d : κ} {rs : List (Rule κ)}
    (hview : t.view tb c = some rs) (hown : own c = false) {hit : Rule κ → Bool}
    (hinto : ∀ r ∈ rs, hit r = true → r.jumpsInto own = true)
    (hall : ∀ r ∈ rs, r.target = .jump d → hit r = true) :
    Within own (b.withoutJump tb c d) t0 (t.setRules tb c (rs.filter fun r => !hit r)) := by
  have hkept : foreignRules own (rs.filter fun r => !hit r) = foreignRules own rs := by
    unfold foreignRules
    rw [List.filter_filter]
    refine List.filter_congr fun r hr => ?_
    cases hh : hit r with
    | false => simp
    | true => simp [hinto r hr hh]
  have hw : Within own b t0 (t.setRules tb c (rs.filter fun r => !hit r)) :=
    h.setRules hview (Or.inr hkept) (fun htrue => by rw [hown] at htrue; cases htrue)
      fun _ r hr e he hown' => h.jumps tb c rs hview hown r (List.mem_of_mem_filter hr) e he hown'
  refine ⟨hw.strip, hw.unique, hw.names, hw.full, fun tb' e es he hown' r hr f hf hown'' => ?_⟩
  refine ⟨hw.jumps tb' e es he hown' r hr f hf hown'', ?_⟩
  rintro ⟨rfl, rfl, rfl⟩
  rw [Tables.view_setRules hview, if_pos ⟨rfl, rfl⟩] at he
  obtain rfl := Option.some.inj he
  obtain ⟨hr, hmiss⟩ := List.mem_filter.mp hr
  rw [hall r hr hf] at hmiss
  cases hmiss

theorem Within.flush (h : Within own b t0 t) (tb : Table) {c : κ} (hown : own c = true) :
    Within own (b.withoutRules tb [c]) t0 (t.exec ⟨tb, .flush c⟩) := by
  have hw : Within own b t0 (t.exec ⟨tb, .flush c⟩) := h.exec hown
  refine ⟨hw.strip, hw.unique, hw.names, fun tb' d rs hd hown' hne => ?_, hw.jumps⟩
  refine ⟨hw.full tb' d rs hd hown' hne, ?_⟩
  rintro ⟨rfl, hd'⟩
  obtain rfl := List.mem_singleton.mp hd'
  rw [Tables.view_exec t (by simp [Command.NoJump]),
    if_pos (by simp [Command.touches, Op.chain])] at hd
  obtain ⟨_, _, rfl⟩ := Option.map_eq_some_iff.mp hd
  exact hne rfl

theorem Within.flushAll (h : Within own b t0 t) (tb : Table) {cs : List κ}
    (hown : ∀ c ∈ cs, own c = true) :
    Within own (b.withoutRules tb cs) t0
      (cs.foldl (fun t c => t.exec ⟨tb, .flush c⟩) t) := by
  induction cs generalizing t b with
  | nil =>
    refine ⟨h.strip, h.unique, h.names, fun tb' d rs hd hown' hne => ?_, h.jumps⟩
    exact ⟨h.full tb' d rs hd hown' hne, by simp⟩
  | cons c cs ih =>
    have hfirst := h.flush tb (hown c List.mem_cons_self)
    have hrest := ih hfirst fun d hd => hown d (List.mem_cons_of_mem c hd)
    refine ⟨hrest.strip, hrest.unique, hrest.names, fun tb' d rs hd hown' hne => ?_, hrest.jumps⟩
    obtain ⟨⟨hfull, hnotc⟩, hnotcs⟩ := hrest.full tb' d rs hd hown' hne
    refine ⟨hfull, ?_⟩
    rintro ⟨htb, hd'⟩
    rcases List.mem_cons.mp hd' with rfl | hd'
    · exact hnotc ⟨htb, List.mem_singleton.mpr rfl⟩
    · exact hnotcs ⟨htb, hd'⟩

/-- Then a chain of the program is referred to by none. -/
theorem Within.unreferenced (h : Within own b t0 t) {tb : Table} {c : κ} (hown : own c = true)
    (hfull : ∀ d, ¬ b.full tb d) (hjumps : ∀ d, ¬ b.jumps tb d c) :
    (t.chains tb).referenced c = false := by
  unfold Chains.referenced
  rw [List.any_eq_false]
  rintro ⟨d, ds⟩ hd
  have hview : t.view tb d = some ds := Chains.get_of_mem (h.unique tb) hd
  rw [List.any_eq_true]
  rintro ⟨r, hr, hjump⟩
  have htarget : r.target = .jump c := by simpa using hjump
  cases hownd : own d with
  | true =>
    have hne : ds ≠ [] := List.ne_nil_of_mem hr
    exact hfull d (h.full tb d ds hview hownd hne)
  | false => exact hjumps d (h.jumps tb d ds hview hownd r hr c htarget hown)

theorem Tables.deleteChain_of_none {tb : Table} {c : κ} (h : t.view tb c = none) :
    t.deleteChain tb c = t := by
  have hget : (t.chains tb).get c = none := h
  simp [Tables.deleteChain, Chains.remove, hget]

theorem Tables.deleteChain_of_empty {tb : Table} {c : κ} (h : t.view tb c = some [])
    (hunref : (t.chains tb).referenced c = false) :
    t.deleteChain tb c = t.setChains tb ((t.chains tb).filter fun d => d.1 != c) := by
  have hget : (t.chains tb).get c = some [] := h
  simp [Tables.deleteChain, Chains.remove, hget, hunref]

/-- What is there without a chain was there with it, and is another chain. -/
theorem Tables.view_without {tb tb' : Table} {c d : κ} {rs : List (Rule κ)}
    (h : (t.setChains tb ((t.chains tb).filter fun e => e.1 != c)).view tb' d = some rs) :
    t.view tb' d = some rs ∧ ¬ (tb' = tb ∧ d = c) := by
  unfold Tables.view at h ⊢
  rw [Tables.chains_setChains] at h
  by_cases htb : tb' = tb
  · subst htb
    rw [if_pos rfl, Chains.get_filter_ne] at h
    split at h
    · cases h
    · next hne => exact ⟨h, fun heq => hne heq.2⟩
  · rw [if_neg htb] at h
    exact ⟨h, fun heq => htb heq.1⟩

/-- Once the program's chains hold no rules and nobody else jumps to them, `-X` works. -/
theorem Within.deleteChain (h : Within own b t0 t) {tb : Table} {c : κ} (hown : own c = true)
    (hfull : ∀ d, ¬ b.full tb d) (hjumps : ∀ d, ¬ b.jumps tb d c) :
    Within own (b.withoutChains tb [c]) t0 (t.deleteChain tb c) := by
  cases hview : t.view tb c with
  | none =>
    rw [Tables.deleteChain_of_none hview]
    refine ⟨h.strip, h.unique, fun tb' d rs hd hown' => ⟨h.names tb' d rs hd hown', ?_⟩, h.full,
      h.jumps⟩
    rintro ⟨rfl, hdc⟩
    rw [List.mem_singleton.mp hdc, hview] at hd
    cases hd
  | some rs =>
    obtain rfl : rs = [] := by
      by_contra hne
      exact hfull c (h.full tb c rs hview hown hne)
    rw [Tables.deleteChain_of_empty hview (h.unreferenced hown hfull hjumps)]
    refine ⟨fun tb' => ?_, fun tb' => ?_, fun tb' d rs hd hown' => ?_,
      fun tb' d rs hd hown' hne => ?_, fun tb' d rs hd hown' r hr e he hown'' => ?_⟩
    · rw [Tables.chains_setChains]
      by_cases htb : tb' = tb
      · rw [if_pos htb, strip_filter_own hown, ← htb, h.strip]
      · rw [if_neg htb, h.strip]
    · unfold Chains.Unique
      rw [Tables.chains_setChains]
      split
      · exact (h.unique tb).sublist (List.filter_sublist.map _)
      · exact h.unique tb'
    · obtain ⟨hold, hne⟩ := Tables.view_without hd
      exact ⟨h.names tb' d rs hold hown', fun heq => hne ⟨heq.1, List.mem_singleton.mp heq.2⟩⟩
    · exact h.full tb' d rs (Tables.view_without hd).1 hown' hne
    · exact h.jumps tb' d rs (Tables.view_without hd).1 hown' r hr e he hown''

theorem Within.deleteAll (h : Within own b t0 t) {tb : Table} {cs : List κ}
    (hown : ∀ c ∈ cs, own c = true) (hfull : ∀ d, ¬ b.full tb d)
    (hjumps : ∀ d, ∀ c ∈ cs, ¬ b.jumps tb d c) :
    Within own (b.withoutChains tb cs) t0 (cs.foldl (fun t c => t.deleteChain tb c) t) := by
  induction cs generalizing t b with
  | nil =>
    refine ⟨h.strip, h.unique, fun tb' d rs hd hown' => ?_, h.full, h.jumps⟩
    exact ⟨h.names tb' d rs hd hown', by simp⟩
  | cons c cs ih =>
    have hfirst := h.deleteChain (hown c List.mem_cons_self) hfull
      fun d => hjumps d c List.mem_cons_self
    have hrest := ih hfirst (fun d hd => hown d (List.mem_cons_of_mem c hd)) hfull
      fun d e he => hjumps d e (List.mem_cons_of_mem c he)
    refine ⟨hrest.strip, hrest.unique, fun tb' d rs hd hown' => ?_, hrest.full, hrest.jumps⟩
    obtain ⟨⟨hname, hnotc⟩, hnotcs⟩ := hrest.names tb' d rs hd hown'
    refine ⟨hname, ?_⟩
    rintro ⟨htb, hd'⟩
    rcases List.mem_cons.mp hd' with rfl | hd'
    · exact hnotc ⟨htb, List.mem_singleton.mpr rfl⟩
    · exact hnotcs ⟨htb, hd'⟩

/-- When nothing of the program may be left, everything is as it was. -/
theorem Within.restored (h : Within own b t0 t) (hnames : ∀ tb c, ¬ b.names tb c)
    (hjumps : ∀ tb c d, ¬ b.jumps tb c d) : t = t0 := by
  have hchains : ∀ tb, t.chains tb = t0.chains tb := by
    intro tb
    rw [← h.strip tb]
    refine (strip_of_foreign ?_ ?_).symm
    · rintro ⟨c, rs⟩ hmem
      by_contra hown
      have hview : t.view tb c = some rs := Chains.get_of_mem (h.unique tb) hmem
      exact hnames tb c (h.names tb c rs hview (by simpa using hown))
    · rintro ⟨c, rs⟩ hmem r hr
      have hview : t.view tb c = some rs := Chains.get_of_mem (h.unique tb) hmem
      have hown : own c = false := by
        by_contra hown
        exact hnames tb c (h.names tb c rs hview (by simpa using hown))
      by_contra hinto
      unfold Rule.jumpsInto at hinto
      split at hinto
      · next d hd =>
        exact hjumps tb c d (h.jumps tb c rs hview hown r hr d hd (by simpa using hinto))
      · exact hinto rfl
  have hf := hchains .filter
  have hn := hchains .nat
  have hm := hchains .mangle
  cases t
  cases t0
  simp only [Tables.chains] at hf hn hm
  rw [hf, hn, hm]

/-- Tables without anything of the program, as a start. -/
theorem within_start (b : Bound κ) (hunique : ∀ tb, (t.chains tb).Unique)
    (hnames : ∀ tb c rs, t.view tb c = some rs → own c = false)
    (hjumps : ∀ tb c rs, t.view tb c = some rs → ∀ r ∈ rs, r.jumpsInto own = false) :
    Within own b t t := by
  refine ⟨fun tb => ?_, hunique, fun tb c rs hv hown => ?_, fun tb c rs hv hown => ?_,
    fun tb c rs hv _ r hr d hd hown => ?_⟩
  · refine strip_of_foreign ?_ ?_
    · rintro ⟨c, rs⟩ hmem
      exact hnames tb c rs (Chains.get_of_mem (hunique tb) hmem)
    · rintro ⟨c, rs⟩ hmem
      exact hjumps tb c rs (Chains.get_of_mem (hunique tb) hmem)
  · rw [hnames tb c rs hv] at hown
    cases hown
  · rw [hnames tb c rs hv] at hown
    cases hown
  · have hinto := hjumps tb c rs hv r hr
    simp only [Rule.jumpsInto, hd] at hinto
    rw [hinto] at hown
    cases hown

end Within

end Wifidog.Netfilter
