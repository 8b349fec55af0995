/-
  The two halves of `t_counters`.

  The source treats the outgoing and the incoming numbers alike, except that only outgoing
  traffic moves `last_updated`. Here a direction selects the total, the history and the delta,
  so that what is proved of one half is proved of both.

  Proved: what reading a row and clearing do to them, and what any step does to the counters of
  a client (`step_counters`); the invariants about counters are derived from the latter.
-/
import Wifidog.Access.Deeds

namespace Wifidog

open CText Netfilter

namespace Counters

def total (c : Counters) : Direction → UInt64
  | .outgoing => c.outgoing
  | .incoming => c.incoming

def history (c : Counters) : Direction → UInt64
  | .outgoing => c.outgoingHistory
  | .incoming => c.incomingHistory

def delta (c : Counters) : Direction → UInt64
  | .outgoing => c.outgoingDelta
  | .incoming => c.incomingDelta

/-- A row with this count raises the total. -/
def raised (c : Counters) (dir : Direction) (counter : UInt64) : Prop :=
  c.total dir - c.history dir < counter

instance (c : Counters) (dir : Direction) (counter : UInt64) : Decidable (c.raised dir counter) :=
  inferInstanceAs (Decidable (_ < _))

section Read
variable (c : Counters) (dir : Direction) (counter : UInt64) (now : Int64)

theorem read_of_not_raised {c : Counters} {dir : Direction} {counter : UInt64}
    (h : ¬ c.raised dir counter) (now : Int64) : c.read dir counter now = c := by
  cases dir with
  | outgoing => exact if_neg h
  | incoming => exact if_neg h

theorem total_read_of_raised {c : Counters} {dir : Direction} {counter : UInt64}
    (h : c.raised dir counter) (now : Int64) :
    (c.read dir counter now).total dir = c.history dir + counter := by
  cases dir with
  | outgoing => exact congrArg Counters.outgoing (if_pos h)
  | incoming => exact congrArg Counters.incoming (if_pos h)

theorem delta_read_of_raised {c : Counters} {dir : Direction} {counter : UInt64}
    (h : c.raised dir counter) (now : Int64) :
    (c.read dir counter now).delta dir = c.history dir + counter - c.total dir := by
  cases dir with
  | outgoing => exact congrArg Counters.outgoingDelta (if_pos h)
  | incoming => exact congrArg Counters.incomingDelta (if_pos h)

/-- A row leaves the other half alone. -/
theorem read_other {dir' : Direction} (h : dir' ≠ dir) :
    (c.read dir counter now).total dir' = c.total dir' ∧
      (c.read dir counter now).delta dir' = c.delta dir' := by
  cases dir with
  | outgoing =>
    cases dir' with
    | outgoing => exact absurd rfl h
    | incoming =>
      simp only [Counters.read, Counters.readOutgoing]
      split <;> exact ⟨rfl, rfl⟩
  | incoming =>
    cases dir' with
    | incoming => exact absurd rfl h
    | outgoing =>
      simp only [Counters.read, Counters.readIncoming]
      split <;> exact ⟨rfl, rfl⟩

@[simp] theorem history_read (dir' : Direction) :
    (c.read dir counter now).history dir' = c.history dir' := by
  cases dir with
  | outgoing =>
    simp only [Counters.read, Counters.readOutgoing]
    split <;> cases dir' <;> rfl
  | incoming =>
    simp only [Counters.read, Counters.readIncoming]
    split <;> cases dir' <;> rfl

@[simp] theorem total_cleared : c.cleared.total dir = 0 := by
  cases dir <;> rfl

@[simp] theorem history_cleared : c.cleared.history dir = c.history dir := by
  cases dir <;> rfl

@[simp] theorem total_fresh : (Counters.fresh now).total dir = 0 := by
  cases dir <;> rfl

@[simp] theorem history_fresh : (Counters.fresh now).history dir = 0 := by
  cases dir <;> rfl

end Read

end Counters

/-- A row of a listing: its chain, its address and its count. -/
structure ListedRow where
  dir : Direction
  ip : Text
  counter : UInt64
  deriving DecidableEq, Repr

/-- The row that a step handles. -/
def Action.row? : Action → Option ListedRow
  | .countersRow _ dir ip counter _ => some ⟨dir, ip, counter⟩
  | _ => none

/-! ## What a step does to counters -/

/-- What became of the counters of `c'`, which is in the list after the step. -/
inductive CounterMove (cfg : Config) (s : State) (a : Action) (c' : Client) : Prop
  | fresh {now : Int64} (hid : c'.id = s.list.clientId) (h : c'.counters = .fresh now)
  | same {c : Client} (hc : c ∈ s.list.clients) (hid : c'.id = c.id)
      (hkept : (deedOf cfg s a).clears ≠ some c.id) (h : c'.counters = c.counters)
  | cleared {c : Client} (hc : c ∈ s.list.clients) (hid : c'.id = c.id)
      (hclears : (deedOf cfg s a).clears = some c.id) (h : c'.counters = c.counters.cleared)
  | read {print : Rule Chain → Text} {dir : Direction} {ip : Text} {counter : UInt64}
      {now : Int64} {c : Client} (ha : a = .countersRow print dir ip counter now)
      (hfind : clientListFindByIp s.list ip = some c) (hid : c'.id = c.id)
      (h : c'.counters = c.counters.read dir counter now)

theorem step_counters {cfg : Config} {s s' : State} {a : Action} (h : step cfg s a = some s')
    {c' : Client} (hc' : c' ∈ s'.list.clients) : CounterMove cfg s a c' := by
  have hdoes := step_deed h
  rw [hdoes.list] at hc'
  rcases Deed.members hdoes.valid hc' with ⟨now, hid, hcounters⟩ | ⟨c, hc, hid, hcounters⟩
  · exact .fresh hid hcounters
  · cases hd : deedOf cfg s a with
    | count c0 counters =>
      obtain ⟨print, dir, ip, counter, now, ha, hf, rfl⟩ := deedOf_count hd
      rw [hd] at hcounters
      simp only [Deed.onCounters] at hcounters
      split at hcounters
      · next heq => exact .read ha hf (hid.trans heq) hcounters
      · refine .same hc hid ?_ hcounters
        rw [hd]
        intro hclears
        cases hclears
    | _ =>
      rw [hd] at hcounters
      simp only [Deed.onCounters] at hcounters
      split at hcounters
      · next hclears => exact .cleared hc hid (hd ▸ hclears) hcounters
      · next hclears => exact .same hc hid (hd ▸ hclears) hcounters

/-- No step gives a client a history. -/
theorem CounterMove.history {cfg : Config} {s : State} {a : Action} {c' : Client}
    (hmove : CounterMove cfg s a c')
    (hall : ∀ c ∈ s.list.clients, ∀ dir, c.counters.history dir = 0) (dir : Direction) :
    c'.counters.history dir = 0 := by
  cases hmove with
  | fresh _ h => rw [h, Counters.history_fresh]
  | same hc _ _ h =>
    rw [h]
    exact hall _ hc dir
  | cleared hc _ _ h =>
    rw [h, Counters.history_cleared]
    exact hall _ hc dir
  | read _ hfind _ h =>
    rw [h, Counters.history_read]
    exact hall _ (mem_of_findByIp hfind).1 dir

end Wifidog
