/-
  Runs of a partial, labelled step function.

  `step s a = none` means that action `a` cannot be taken in `s`. `run step s as` takes the
  actions `as` in order. `Along step P s as` says that every action of the run is taken in a
  state where `P` allows it; it is how an assumption on single steps is put on a whole run.

  `recorded step out` carries a record of what is observed at each step; assumptions and
  invariants may then speak of the past.

  Proved: `run_append_iff` (a run splits at any point), `run_inv_along` (an invariant kept by
  every allowed step holds at the end of every allowed run) and its form without an
  assumption on the steps, `run_inv`; what holds wherever a run comes to holds along it
  (`along_of_reached`); every run has its record (`exists_run_recorded`).
-/
import Mathlib.Data.Option.Basic

namespace Wifidog.Runs

variable {σ α : Type} {step : σ → α → Option σ}

/-- Take the actions in order. -/
def run (step : σ → α → Option σ) : σ → List α → Option σ
  | s, [] => some s
  | s, a :: as => (step s a).bind fun s' => run step s' as

@[simp] theorem run_nil (s : σ) : run step s [] = some s := rfl

theorem run_cons_iff {s t : σ} {a : α} {as : List α} :
    run step s (a :: as) = some t ↔ ∃ s', step s a = some s' ∧ run step s' as = some t := by
  simp [run, Option.bind_eq_some_iff]

theorem run_append_iff {s t : σ} {as bs : List α} :
    run step s (as ++ bs) = some t ↔ ∃ s', run step s as = some s' ∧ run step s' bs = some t := by
  induction as generalizing s with
  | nil => simp
  | cons a as ih =>
    simp only [List.cons_append, run_cons_iff, ih]
    constructor
    · rintro ⟨s1, h1, s2, h2, h3⟩
      exact ⟨s2, ⟨s1, h1, h2⟩, h3⟩
    · rintro ⟨s2, ⟨s1, h1, h2⟩, h3⟩
      exact ⟨s1, h1, s2, h2, h3⟩

/-- Every action of the run is taken in a state where `P` allows it. -/
def Along (step : σ → α → Option σ) (P : σ → α → Prop) : σ → List α → Prop
  | _, [] => True
  | s, a :: as => P s a ∧ ∀ s', step s a = some s' → Along step P s' as

/-- On a given run it can be checked step by step. -/
def decidableAlong (step : σ → α → Option σ) (P : σ → α → Prop) [∀ s a, Decidable (P s a)] :
    (s : σ) → (as : List α) → Decidable (Along step P s as)
  | _, [] => isTrue trivial
  | s, a :: as =>
    have : ∀ s', Decidable (Along step P s' as) := fun s' => decidableAlong step P s' as
    inferInstanceAs (Decidable (P s a ∧ ∀ s' ∈ step s a, Along step P s' as))

instance (P : σ → α → Prop) [∀ s a, Decidable (P s a)] (s : σ) (as : List α) :
    Decidable (Along step P s as) := decidableAlong step P s as

theorem along_append_of {P : σ → α → Prop} {s t : σ} {as bs : List α}
    (hrun : run step s as = some t) (has : Along step P s as) (hbs : Along step P t bs) :
    Along step P s (as ++ bs) := by
  induction as generalizing s with
  | nil =>
    obtain rfl : s = t := by simpa using hrun
    exact hbs
  | cons a as ih =>
    obtain ⟨s', hs, hr⟩ := run_cons_iff.mp hrun
    refine ⟨has.1, fun s'' hs'' => ?_⟩
    obtain rfl : s' = s'' := by rw [hs] at hs''; exact Option.some.inj hs''
    exact ih hr (has.2 s' hs)

/-- An invariant that every allowed step keeps holds at the end of every allowed run. -/
theorem run_inv_along {P : σ → α → Prop} (Inv : σ → Prop)
    (hstep : ∀ s a s', Inv s → P s a → step s a = some s' → Inv s')
    {s t : σ} {as : List α} (hs : Inv s) (hp : Along step P s as)
    (hrun : run step s as = some t) : Inv t := by
  induction as generalizing s with
  | nil =>
    obtain rfl : s = t := by simpa using hrun
    exact hs
  | cons a as ih =>
    obtain ⟨s', h1, h2⟩ := run_cons_iff.mp hrun
    exact ih (hstep s a s' hs hp.1 h1) (hp.2 s' h1) h2

theorem along_of_forall {P : σ → α → Prop} (h : ∀ s a, P s a) (s : σ) (as : List α) :
    Along step P s as := by
  induction as generalizing s with
  | nil => trivial
  | cons a as ih => exact ⟨h s a, fun s' _ => ih s'⟩

theorem along_mono {P Q : σ → α → Prop} (hPQ : ∀ s a, P s a → Q s a) {s : σ} {as : List α}
    (h : Along step P s as) : Along step Q s as := by
  induction as generalizing s with
  | nil => trivial
  | cons a as ih => exact ⟨hPQ s a h.1, fun s' hs => ih (h.2 s' hs)⟩

/-- An assumption on the actions alone. -/
theorem along_of_mem {P : α → Prop} {as : List α} (h : ∀ a ∈ as, P a) (s : σ) :
    Along step (fun _ a => P a) s as := by
  induction as generalizing s with
  | nil => trivial
  | cons a as ih =>
    exact ⟨h a List.mem_cons_self, fun s' _ => ih (fun b hb => h b (List.mem_cons_of_mem a hb)) s'⟩

/-- What holds wherever the run comes to holds along it. -/
theorem along_of_reached {P : σ → α → Prop} {s : σ} {as : List α}
    (h : ∀ past a rest t, as = past ++ a :: rest → run step s past = some t → P t a) :
    Along step P s as := by
  induction as generalizing s with
  | nil => trivial
  | cons a as ih =>
    refine ⟨h [] a as s rfl rfl, fun s' hs => ih fun past b rest t heq hrun => ?_⟩
    exact h (a :: past) b rest t (by rw [heq]; rfl) (run_cons_iff.mpr ⟨s', hs, hrun⟩)

/-- Two assumptions on the steps of a run are one. -/
theorem along_and {P Q : σ → α → Prop} {s : σ} {as : List α} (hp : Along step P s as)
    (hq : Along step Q s as) : Along step (fun s a => P s a ∧ Q s a) s as := by
  induction as generalizing s with
  | nil => trivial
  | cons a as ih => exact ⟨⟨hp.1, hq.1⟩, fun s' hs => ih (hp.2 s' hs) (hq.2 s' hs)⟩

/-- An invariant that every step keeps holds at the end of every run. -/
theorem run_inv (Inv : σ → Prop) (hstep : ∀ s a s', Inv s → step s a = some s' → Inv s')
    {s t : σ} {as : List α} (hs : Inv s) (hrun : run step s as = some t) : Inv t :=
  run_inv_along Inv (fun s a s' h _ => hstep s a s' h) hs
    (along_of_forall (fun _ _ => trivial) s as) hrun

/-! ## Records -/

variable {β : Type}

/-- A step that appends what is observed to a record. -/
def recorded (step : σ → α → Option σ) (out : σ → α → List β) (p : σ × List β) (a : α) :
    Option (σ × List β) :=
  (step p.1 a).map fun s => (s, p.2 ++ out p.1 a)

theorem recorded_eq_some_iff {out : σ → α → List β} {p q : σ × List β} {a : α} :
    recorded step out p a = some q ↔ step p.1 a = some q.1 ∧ q.2 = p.2 ++ out p.1 a := by
  unfold recorded
  rw [Option.map_eq_some_iff]
  constructor
  · rintro ⟨s, hs, rfl⟩
    exact ⟨hs, rfl⟩
  · rintro ⟨hs, hlog⟩
    exact ⟨q.1, hs, Prod.ext rfl hlog.symm⟩

/-- Recording does not restrict the runs. -/
theorem exists_run_recorded (out : σ → α → List β) {s t : σ} {as : List α}
    (h : run step s as = some t) (log : List β) :
    ∃ log', run (recorded step out) (s, log) as = some (t, log') := by
  induction as generalizing s log with
  | nil =>
    obtain rfl : s = t := by simpa using h
    exact ⟨log, rfl⟩
  | cons a as ih =>
    obtain ⟨s', hs, hr⟩ := run_cons_iff.mp h
    obtain ⟨log', hlog⟩ := ih hr (log ++ out s a)
    exact ⟨log', run_cons_iff.mpr ⟨_, recorded_eq_some_iff.mpr ⟨hs, rfl⟩, hlog⟩⟩

end Wifidog.Runs
