/-
  Texts with variables.

  A variable is the mark and the longest run of name characters behind it. `expand` puts in the
  value of every variable that has one and leaves the others as they stand; a value is not expanded
  again. `skip` counts the characters of a name that are still to be passed over. `names` are the
  names of the variables, in order.

  Proved: two environments that give the names of a text the same meaning, where a name without a
  value stands for the mark and itself, expand it alike (`expand_congr`); and no meaning is longer
  than the expansion that it stands in (`length_meaning_le`).
-/
import Mathlib.Data.List.TakeWhile

namespace Wifidog.Template

variable {α : Type} [DecidableEq α] {mark : α} {isName : α → Bool}
  {get env : List α → Option (List α)}

def expand (mark : α) (isName : α → Bool) (get : List α → Option (List α)) :
    (skip : Nat) → List α → List α
  | _, [] => []
  | skip + 1, _ :: t => expand mark isName get skip t
  | 0, c :: t =>
    if c = mark then
      match get (t.takeWhile isName) with
      | some value => value ++ expand mark isName get (t.takeWhile isName).length t
      | none => c :: expand mark isName get 0 t
    else c :: expand mark isName get 0 t

def names (mark : α) (isName : α → Bool) : List α → List (List α)
  | [] => []
  | c :: t => if c = mark then t.takeWhile isName :: names mark isName t else names mark isName t

theorem names_mark (t : List α) :
    names mark isName (mark :: t) = t.takeWhile isName :: names mark isName t := if_pos rfl

theorem names_plain {c : α} (h : c ≠ mark) (t : List α) :
    names mark isName (c :: t) = names mark isName t := if_neg h

theorem names_tail_subset (c : α) (t : List α) :
    names mark isName t ⊆ names mark isName (c :: t) := by
  rw [names]
  split
  · exact List.subset_cons_self _ _
  · exact List.Subset.refl _

theorem expand_skip (k : Nat) (t : List α) :
    expand mark isName get k t = expand mark isName get 0 (t.drop k) := by
  induction k generalizing t with
  | zero => rfl
  | succ k ih =>
    cases t with
    | nil => rfl
    | cons c t => exact ih t

omit [DecidableEq α] in
theorem drop_takeWhile (t : List α) :
    t.drop (t.takeWhile isName).length = t.dropWhile isName := by
  rw [List.takeWhile_eq_take_findIdx_not, List.length_take,
    Nat.min_eq_left List.findIdx_le_length, List.dropWhile_eq_drop_findIdx_not]

theorem expand_plain_append {pre : List α} (h : mark ∉ pre) (t : List α) :
    expand mark isName get 0 (pre ++ t) = pre ++ expand mark isName get 0 t := by
  induction pre with
  | nil => rfl
  | cons c pre ih =>
    simp only [List.mem_cons, not_or] at h
    rw [List.cons_append, expand, if_neg (Ne.symm h.1), ih h.2, List.cons_append]

/-- What a name stands for. -/
def meaning (mark : α) (get : List α → Option (List α)) (name : List α) : List α :=
  (get name).getD (mark :: name)

section Names
variable (hmark : isName mark = false)
include hmark

omit [DecidableEq α] in
theorem mark_notMem_takeWhile (t : List α) : mark ∉ t.takeWhile isName := by
  intro hmem
  rw [List.mem_takeWhile_imp hmem] at hmark
  cases hmark

/-- The characters of a name hold no variable. -/
theorem names_dropWhile (t : List α) :
    names mark isName (t.dropWhile isName) = names mark isName t := by
  induction t with
  | nil => rfl
  | cons c t ih =>
    rw [List.dropWhile_cons]
    split
    · next hc =>
      have hne : c ≠ mark := by
        rintro rfl
        rw [hmark] at hc
        cases hc
      rw [ih, names_plain hne]
    · rfl

/-- A variable, with a value or without. -/
theorem expand_mark (t : List α) : expand mark isName get 0 (mark :: t) =
    meaning mark get (t.takeWhile isName) ++ expand mark isName get 0 (t.dropWhile isName) := by
  rw [expand, if_pos rfl]
  unfold meaning
  cases hget : get (t.takeWhile isName) with
  | some value =>
    dsimp only [Option.getD_some]
    rw [expand_skip, drop_takeWhile]
  | none =>
    have hrest := @expand_plain_append α _ mark isName get _ (mark_notMem_takeWhile hmark t)
      (t.dropWhile isName)
    rw [List.takeWhile_append_dropWhile] at hrest
    dsimp only [Option.getD_none]
    rw [hrest, List.cons_append]

theorem expand_variable {name : List α} (hname : ∀ c ∈ name, isName c = true) :
    expand mark isName get 0 (mark :: name) = meaning mark get name := by
  rw [expand_mark hmark, List.takeWhile_eq_self_iff.mpr hname,
    List.dropWhile_eq_nil_iff.mpr hname, expand, List.append_nil]

/-- Environments that agree on the names of a text expand it alike. -/
theorem expand_congr {t : List α}
    (h : ∀ name ∈ names mark isName t, meaning mark get name = meaning mark env name) :
    expand mark isName get 0 t = expand mark isName env 0 t := by
  -- by the length: behind a variable the text goes on at the end of its name
  induction hn : t.length using Nat.strong_induction_on generalizing t with
  | _ n ih =>
    cases t with
    | nil => rfl
    | cons c t =>
      rw [List.length_cons] at hn
      by_cases hc : c = mark
      · subst hc
        have hlen := List.length_dropWhile_le isName t
        rw [names_mark, List.forall_mem_cons] at h
        rw [expand_mark hmark, expand_mark hmark, h.1]
        congr 1
        exact ih _ (by omega) (by rw [names_dropWhile hmark]; exact h.2) rfl
      · rw [names_plain hc] at h
        rw [expand, expand, if_neg hc, if_neg hc, ih _ (by omega) h rfl]

theorem length_meaning_le {t name : List α} (h : name ∈ names mark isName t) :
    (meaning mark get name).length ≤ (expand mark isName get 0 t).length := by
  induction hn : t.length using Nat.strong_induction_on generalizing t with
  | _ n ih =>
    cases t with
    | nil => cases h
    | cons c t =>
      rw [List.length_cons] at hn
      by_cases hc : c = mark
      · subst hc
        have hlen := List.length_dropWhile_le isName t
        rw [expand_mark hmark, List.length_append]
        rw [names_mark] at h
        rcases List.mem_cons.mp h with rfl | h
        · exact Nat.le_add_right _ _
        · have hrest := ih (t.dropWhile isName).length (by omega)
            (by rwa [names_dropWhile hmark]) rfl
          omega
      · rw [names_plain hc] at h
        have hrest := ih t.length (by omega) h rfl
        rw [expand, if_neg hc, List.length_cons]
        omega

end Names

end Wifidog.Template
