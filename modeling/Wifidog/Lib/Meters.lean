/-
  Rules that count, and who they were installed for.

  A `Meter` is one installation of a rule: its number, the owner it was installed for, the
  bytes it has counted, the last count that was read from it, and whether the owner's account
  was cleared since. A `Ledger` is a chain of meters, in the order of the rules, together with
  the meters of rules that were deleted. Deleting a rule moves its meter to `retired`, so that
  what was read from it is not forgotten.

  `total` is what an owner was charged: the sum of the last counts read from all meters
  installed for it since its account was last cleared. `entries` is the multiset of the rules
  of the chain with their owners.

  Proved: every operation on the chain is the operation on the list of its rules
  (`rules_delete` and so on), the meters of the whole ledger survive (`all_delete`), what each
  operation does to `entries`, that the first rule of a kind is the oldest
  (`first_le_of_order`), and what reading does to `total` (`total_setRead`).
-/
import Mathlib.Algebra.BigOperators.Group.List.Basic
import Mathlib.Algebra.GroupWithZero.Nat
import Mathlib.Algebra.Order.Group.Multiset
import Mathlib.Data.List.InsertIdx
import Mathlib.Data.List.Pairwise
import Mathlib.Data.List.Perm.Basic

namespace Wifidog.Meters

structure Meter (ρ : Type) where
  serial : Nat
  owner : Nat
  rule : ρ
  bytes : UInt64
  read : UInt64
  closed : Bool
  deriving DecidableEq, Repr

structure Ledger (ρ : Type) where
  chain : List (Meter ρ)
  retired : List (Meter ρ)
  deriving DecidableEq, Repr

variable {ρ : Type}

namespace Ledger

def empty : Ledger ρ := ⟨[], []⟩

/-- All meters, of rules in the chain and of deleted ones. -/
def all (l : Ledger ρ) : List (Meter ρ) := l.chain ++ l.retired

def rules (l : Ledger ρ) : List ρ := l.chain.map Meter.rule

/-- A rule is appended. -/
def install (l : Ledger ρ) (m : Meter ρ) : Ledger ρ := { l with chain := l.chain ++ [m] }

/-- The first rule equal to `r` is deleted. -/
def delete [DecidableEq ρ] (l : Ledger ρ) (r : ρ) : Ledger ρ :=
  ⟨l.chain.eraseP (·.rule == r), l.retired ++ (l.chain.find? (·.rule == r)).toList⟩

/-- The rule at place `i` is deleted. -/
def deleteAt (l : Ledger ρ) (i : Nat) : Ledger ρ :=
  ⟨l.chain.eraseIdx i, l.retired ++ (l.chain[i]?).toList⟩

/-- Change every meter. -/
def update (l : Ledger ρ) (f : Meter ρ → Meter ρ) : Ledger ρ := ⟨l.chain.map f, l.retired.map f⟩

/-- The account of `owner` is cleared. -/
def close (l : Ledger ρ) (owner : Nat) : Ledger ρ :=
  l.update fun m => if m.owner = owner then { m with closed := true } else m

/-- The count `n` is read from meter `serial`. -/
def setRead (l : Ledger ρ) (serial : Nat) (n : UInt64) : Ledger ρ :=
  l.update fun m => if m.serial = serial then { m with read := n } else m

/-- The rule of meter `serial` counts `n` more bytes. -/
def traffic (l : Ledger ρ) (serial : Nat) (n : UInt64) : Ledger ρ :=
  l.update fun m => if m.serial = serial then { m with bytes := m.bytes + n } else m

end Ledger

/-! ## Rules -/

section Rules
variable (l : Ledger ρ)

theorem rules_install (m : Meter ρ) : (l.install m).rules = l.rules ++ [m.rule] := by
  simp [Ledger.rules, Ledger.install]

theorem rules_delete [DecidableEq ρ] (r : ρ) : (l.delete r).rules = l.rules.erase r := by
  unfold Ledger.rules Ledger.delete
  rw [List.erase_eq_eraseP', List.eraseP_map]
  rfl

theorem rules_deleteAt (i : Nat) : (l.deleteAt i).rules = l.rules.eraseIdx i := by
  unfold Ledger.rules Ledger.deleteAt
  rw [List.eraseIdx_map]

theorem rules_update {f : Meter ρ → Meter ρ} (h : ∀ m, (f m).rule = m.rule) :
    (l.update f).rules = l.rules := by
  unfold Ledger.rules Ledger.update
  rw [List.map_map]
  exact List.map_congr_left fun m _ => h m

end Rules

/-! ## The whole ledger -/

section All
variable (l : Ledger ρ)

theorem all_install (m : Meter ρ) : (l.install m).all.Perm (m :: l.all) := by
  unfold Ledger.all Ledger.install
  rw [List.append_assoc, List.singleton_append]
  exact List.perm_middle

theorem perm_eraseP {α : Type} (p : α → Bool) (xs : List α) :
    (xs.eraseP p ++ (xs.find? p).toList).Perm xs := by
  induction xs with
  | nil => simp
  | cons x xs ih =>
    cases hx : p x with
    | true =>
      simp only [List.eraseP_cons, List.find?_cons, hx, cond_true, Option.toList]
      exact List.perm_append_singleton x xs
    | false =>
      simp only [List.eraseP_cons, List.find?_cons, hx, cond_false, List.cons_append]
      exact ih.cons x

theorem all_delete [DecidableEq ρ] (r : ρ) : (l.delete r).all.Perm l.all := by
  unfold Ledger.all Ledger.delete
  have hperm := (perm_eraseP (fun m : Meter ρ => m.rule == r) l.chain).append_right l.retired
  refine List.Perm.trans ?_ hperm
  rw [List.append_assoc]
  exact List.perm_append_comm.append_left _

theorem all_deleteAt (i : Nat) : (l.deleteAt i).all.Perm l.all := by
  unfold Ledger.all Ledger.deleteAt
  have hperm : (l.chain.eraseIdx i ++ (l.chain[i]?).toList).Perm l.chain := by
    by_cases hi : i < l.chain.length
    · rw [List.getElem?_eq_getElem hi, Option.toList]
      exact (List.perm_append_singleton _ _).trans (List.getElem_cons_eraseIdx_perm hi)
    · rw [List.eraseIdx_of_length_le (by omega), List.getElem?_eq_none (by omega)]
      simp
  refine List.Perm.trans ?_ (hperm.append_right l.retired)
  rw [List.append_assoc]
  exact List.perm_append_comm.append_left _

theorem all_update (f : Meter ρ → Meter ρ) : (l.update f).all = l.all.map f := by
  simp [Ledger.all, Ledger.update]

/-- Meters with different numbers are known by their number. -/
theorem serial_inj {ms : List (Meter ρ)} (h : ms.Pairwise fun m m' => m.serial ≠ m'.serial)
    {m m' : Meter ρ} (hm : m ∈ ms) (hm' : m' ∈ ms) (heq : m.serial = m'.serial) : m = m' := by
  have hsymm : Std.Symm fun m m' : Meter ρ => m.serial ≠ m'.serial := ⟨fun _ _ hne => hne.symm⟩
  by_contra hne
  exact h.forall hm hm' hne heq

end All

/-! ## Who has which rule -/

def Meter.entry (m : Meter ρ) : Nat × ρ := (m.owner, m.rule)

/-- The rules of the chain with their owners. -/
def Ledger.entries (l : Ledger ρ) : Multiset (Nat × ρ) := ↑(l.chain.map Meter.entry)

/-- Older rules come first. -/
def Ledger.InOrder (l : Ledger ρ) : Prop := l.chain.Pairwise fun m m' => m.serial < m'.serial

section Entries
variable {l : Ledger ρ}

theorem mem_entries {e : Nat × ρ} : e ∈ l.entries ↔ ∃ m ∈ l.chain, m.entry = e := by
  simp [Ledger.entries]

theorem entries_install (l : Ledger ρ) (m : Meter ρ) :
    (l.install m).entries = l.entries + {m.entry} := by
  unfold Ledger.entries Ledger.install
  rw [List.map_append, ← Multiset.coe_add]
  rfl

theorem entries_update {f : Meter ρ → Meter ρ} (h : ∀ m, (f m).entry = m.entry) :
    (l.update f).entries = l.entries := by
  unfold Ledger.entries Ledger.update
  rw [List.map_map]
  exact congrArg _ (List.map_congr_left fun m _ => h m)

/-- The entry of the rule that is deleted is missing afterwards, and no other. -/
theorem entries_delete [DecidableEq ρ] {r : ρ} {k : Meter ρ}
    (h : l.chain.find? (·.rule == r) = some k) : l.entries = (l.delete r).entries + {k.entry} := by
  have hperm := (perm_eraseP (fun m : Meter ρ => m.rule == r) l.chain).map Meter.entry
  rw [h, Option.toList, List.map_append] at hperm
  unfold Ledger.entries
  rw [← Multiset.coe_eq_coe.mpr hperm, ← Multiset.coe_add]
  rfl

/-- A rule of the chain is still there after a deletion, unless it was the first of its kind. -/
theorem mem_delete [DecidableEq ρ] {k : Meter ρ} (h : k ∈ l.chain) (r : ρ) :
    k ∈ (l.delete r).chain ∨ l.chain.find? (·.rule == r) = some k := by
  have hmem := (perm_eraseP (fun m : Meter ρ => m.rule == r) l.chain).mem_iff.mpr h
  rcases List.mem_append.mp hmem with hkept | hfirst
  · exact Or.inl hkept
  · exact Or.inr (Option.mem_toList.mp hfirst)

/-- The first rule of its kind is the oldest. -/
theorem first_le_of_order [DecidableEq ρ] (h : l.InOrder) {r : ρ} {k k0 : Meter ρ}
    (hfirst : l.chain.find? (·.rule == r) = some k0) (hk : k ∈ l.chain) (hr : k.rule = r) :
    k0.serial ≤ k.serial := by
  obtain ⟨hk0, pre, post, hl, hpre⟩ := List.find?_eq_some_iff_append.mp hfirst
  unfold Ledger.InOrder at h
  rw [hl] at hk h
  rcases List.mem_append.mp hk with hk | hk
  · have := hpre k hk
    simp [hr] at this
  · rcases List.mem_cons.mp hk with rfl | hk
    · exact Nat.le_refl _
    · have hlt := (List.pairwise_cons.mp (List.pairwise_append.mp h).2.1).1 k hk
      omega

theorem inOrder_install (h : l.InOrder) {m : Meter ρ} (hm : ∀ k ∈ l.chain, k.serial < m.serial) :
    (l.install m).InOrder := by
  refine List.pairwise_append.mpr ⟨h, List.pairwise_singleton _ _, fun k hk m' hm' => ?_⟩
  obtain rfl := List.mem_singleton.mp hm'
  exact hm k hk

theorem inOrder_delete [DecidableEq ρ] (h : l.InOrder) (r : ρ) : (l.delete r).InOrder :=
  h.sublist List.eraseP_sublist

theorem inOrder_update (h : l.InOrder) {f : Meter ρ → Meter ρ}
    (hf : ∀ m, (f m).serial = m.serial) : (l.update f).InOrder := by
  refine List.pairwise_map.mpr (h.imp fun hlt => ?_)
  rw [hf, hf]
  exact hlt

end Entries

/-! ## Charges -/

/-- What a meter charges `owner`. -/
def Meter.charge (owner : Nat) (m : Meter ρ) : Nat :=
  if m.owner = owner ∧ m.closed = false then m.read.toNat else 0

/-- The sum of the last counts read for `owner`. -/
def chargeOf (owner : Nat) (ms : List (Meter ρ)) : Nat := (ms.map (Meter.charge owner)).sum

def Ledger.total (l : Ledger ρ) (owner : Nat) : Nat := chargeOf owner l.all

theorem chargeOf_cons (owner : Nat) (m : Meter ρ) (ms : List (Meter ρ)) :
    chargeOf owner (m :: ms) = m.charge owner + chargeOf owner ms := by
  simp [chargeOf]

theorem chargeOf_perm {ms ms' : List (Meter ρ)} (h : ms.Perm ms') (owner : Nat) :
    chargeOf owner ms = chargeOf owner ms' :=
  (h.map _).sum_eq

theorem chargeOf_eq_zero {owner : Nat} {ms : List (Meter ρ)}
    (h : ∀ m ∈ ms, m.owner = owner → m.closed = false → m.read = 0) : chargeOf owner ms = 0 := by
  unfold chargeOf
  refine List.sum_eq_zero fun n hn => ?_
  obtain ⟨m, hm, rfl⟩ := List.mem_map.mp hn
  unfold Meter.charge
  split
  · next hc => rw [h m hm hc.1 hc.2]; rfl
  · rfl

theorem chargeOf_map {f : Meter ρ → Meter ρ} {owner : Nat} {ms : List (Meter ρ)}
    (h : ∀ m ∈ ms, (f m).charge owner = m.charge owner) :
    chargeOf owner (ms.map f) = chargeOf owner ms := by
  unfold chargeOf
  rw [List.map_map]
  exact congrArg List.sum (List.map_congr_left h)

/-- Reading a meter changes the charge of its owner by the difference of the counts. -/
theorem total_setRead (l : Ledger ρ) {k : Meter ρ} (hk : k ∈ l.all)
    (hserial : l.all.Pairwise fun m m' => m.serial ≠ m'.serial) (n : UInt64) (owner : Nat) :
    ∃ others, (∀ m ∈ others, m ∈ l.all ∧ m.serial ≠ k.serial) ∧
      l.total owner = k.charge owner + chargeOf owner others ∧
      (l.setRead k.serial n).total owner =
        { k with read := n }.charge owner + chargeOf owner others := by
  obtain ⟨pre, post, hl⟩ := List.append_of_mem hk
  have hne : ∀ m ∈ pre ++ post, m.serial ≠ k.serial := by
    rw [hl, List.pairwise_append, List.pairwise_cons] at hserial
    intro m hm
    rcases List.mem_append.mp hm with hm | hm
    · exact hserial.2.2 m hm k List.mem_cons_self
    · exact (hserial.2.1.1 m hm).symm
  refine ⟨pre ++ post, fun m hm => ⟨?_, hne m hm⟩, ?_, ?_⟩
  · rw [hl]
    rcases List.mem_append.mp hm with hm | hm
    · exact List.mem_append_left _ hm
    · exact List.mem_append_right _ (List.mem_cons_of_mem _ hm)
  · unfold Ledger.total
    rw [hl, chargeOf_perm List.perm_middle, chargeOf_cons]
  · unfold Ledger.total Ledger.setRead
    have hmap := List.Perm.map (fun m : Meter ρ =>
      if m.serial = k.serial then { m with read := n } else m) (@List.perm_middle _ k pre post)
    rw [all_update, hl, chargeOf_perm hmap, List.map_cons, chargeOf_cons, if_pos rfl]
    congr 1
    refine chargeOf_map fun m hm => ?_
    rw [if_neg (hne m hm)]

end Wifidog.Meters
