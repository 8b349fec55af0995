/-
  Deleting from a list by numbers that shift.

  The elements of a list are numbered from `n` on, and `hit m x` says whether the element `x` is to
  go when its number is `m`. The first hit is deleted, the elements behind it move up by one, and
  the search starts again. `sieve` is one pass from the left to the right that does the same: an
  element is tested with the number it has once the hits before it are gone. `hitNumbers` are the
  numbers that are deleted, in order.

  Proved: one deletion does not change what is left in the end (`sieve_deleteNumber`), all deletions
  together leave `sieve` (`foldl_hitNumbers`), and they leave what a test of the elements under
  their first numbers would leave if and only if no element is tested otherwise under its new
  number (`foldl_hitNumbers_eq_kept_iff`).
-/
import Mathlib.Data.List.Basic
import Mathlib.Data.List.InsertIdx
import Mathlib.Data.List.Nodup

namespace Wifidog.Renumber

variable {α β : Type} {hit : Nat → α → Bool} {n : Nat} {xs : List α}

/-- What is left. -/
def sieve (hit : Nat → α → Bool) : Nat → List α → List α
  | _, [] => []
  | n, x :: xs => if hit n x then sieve hit n xs else x :: sieve hit (n + 1) xs

/-- The numbers that are deleted. -/
def hitNumbers (hit : Nat → α → Bool) : Nat → List α → List Nat
  | _, [] => []
  | n, x :: xs => if hit n x then n :: hitNumbers hit n xs else hitNumbers hit (n + 1) xs

/-- Delete the element with number `m`. -/
def deleteNumber (n : Nat) (xs : List α) (m : Nat) : List α := xs.eraseIdx (m - n)

/-! ## One deletion -/

theorem sieve_of_no_hit (h : hitNumbers hit n xs = []) : sieve hit n xs = xs := by
  induction xs generalizing n with
  | nil => rfl
  | cons x xs ih =>
    rw [hitNumbers] at h
    split at h
    · cases h
    · next hx => rw [sieve, if_neg hx, ih h]

theorem hitNumbers_bounds {m : Nat} (h : m ∈ hitNumbers hit n xs) : n ≤ m ∧ m < n + xs.length := by
  induction xs generalizing n with
  | nil => cases h
  | cons x xs ih =>
    rw [hitNumbers] at h
    rw [List.length_cons]
    split at h
    · rcases List.mem_cons.mp h with rfl | h
      · omega
      · have := ih h
        omega
    · have := ih h
      omega

/-- After the first hit is deleted, the others are the same as before. -/
theorem hitNumbers_deleteNumber {m : Nat} {ms : List Nat} (h : hitNumbers hit n xs = m :: ms) :
    hitNumbers hit n (deleteNumber n xs m) = ms := by
  induction xs generalizing n with
  | nil => cases h
  | cons x xs ih =>
    rw [hitNumbers] at h
    split at h
    · obtain ⟨rfl, rfl⟩ := List.cons.inj h
      rw [deleteNumber, Nat.sub_self, List.eraseIdx_cons_zero]
    · next hx =>
      have hm : n + 1 ≤ m := (hitNumbers_bounds (h ▸ List.mem_cons_self)).1
      have hsub : m - n = (m - (n + 1)) + 1 := by omega
      rw [deleteNumber, hsub, List.eraseIdx_cons_succ, hitNumbers, if_neg hx]
      exact ih h

theorem sieve_deleteNumber {m : Nat} {ms : List Nat} (h : hitNumbers hit n xs = m :: ms) :
    sieve hit n (deleteNumber n xs m) = sieve hit n xs := by
  induction xs generalizing n with
  | nil => cases h
  | cons x xs ih =>
    rw [hitNumbers] at h
    split at h
    · next hx =>
      obtain ⟨rfl, rfl⟩ := List.cons.inj h
      rw [deleteNumber, Nat.sub_self, List.eraseIdx_cons_zero, sieve, if_pos hx]
    · next hx =>
      have hm : n + 1 ≤ m := (hitNumbers_bounds (h ▸ List.mem_cons_self)).1
      have hsub : m - n = (m - (n + 1)) + 1 := by omega
      rw [deleteNumber, hsub, List.eraseIdx_cons_succ, sieve, if_neg hx, sieve, if_neg hx]
      exact congrArg (x :: ·) (ih h)

/-! ## All deletions -/

theorem foldl_hitNumbers (hit : Nat → α → Bool) (n : Nat) (xs : List α) :
    (hitNumbers hit n xs).foldl (deleteNumber n) xs = sieve hit n xs := by
  generalize hms : hitNumbers hit n xs = ms
  induction ms generalizing xs with
  | nil => exact (sieve_of_no_hit hms).symm
  | cons m ms ih => rw [List.foldl_cons, ih _ (hitNumbers_deleteNumber hms), sieve_deleteNumber hms]

theorem map_deleteNumber (f : α → β) (m : Nat) :
    (deleteNumber n xs m).map f = deleteNumber n (xs.map f) m :=
  (List.eraseIdx_map f xs (m - n)).symm

theorem map_foldl_deleteNumber (f : α → β) (ms : List Nat) :
    (ms.foldl (deleteNumber n) xs).map f = ms.foldl (deleteNumber n) (xs.map f) := by
  induction ms generalizing xs with
  | nil => rfl
  | cons m ms ih => rw [List.foldl_cons, List.foldl_cons, ih, map_deleteNumber]

/-- The test may look at the elements through a function. -/
theorem hitNumbers_map (hit : Nat → β → Bool) (f : α → β) (n : Nat) (xs : List α) :
    hitNumbers hit n (xs.map f) = hitNumbers (fun m x => hit m (f x)) n xs := by
  induction xs generalizing n with
  | nil => rfl
  | cons x xs ih => simp only [List.map_cons, hitNumbers, ih]

/-! ## Testing under the first numbers -/

theorem sieve_sublist (hit : Nat → α → Bool) (n : Nat) (xs : List α) :
    (sieve hit n xs).Sublist xs := by
  induction xs generalizing n with
  | nil => exact List.Sublist.refl _
  | cons x xs ih =>
    rw [sieve]
    split
    · exact (ih n).cons x
    · exact (ih (n + 1)).cons_cons x

/-- Every element is tested with the same outcome as `keep` says, under the number that it has when
    all before it are tested so. -/
def Agrees (hit : Nat → α → Bool) (keep : α → Bool) (n : Nat) (xs : List α) : Prop :=
  ∀ pre x post, xs = pre ++ x :: post → hit (n + (pre.filter keep).length) x = !keep x

theorem agrees_cons {keep : α → Bool} {x : α} :
    Agrees hit keep n (x :: xs) ↔
      hit n x = !keep x ∧ Agrees hit keep (if keep x then n + 1 else n) xs := by
  have hshift : ∀ pre, n + ((x :: pre).filter keep).length =
      (if keep x then n + 1 else n) + (pre.filter keep).length := by
    intro pre
    rw [List.filter_cons]
    split
    · rw [List.length_cons]
      omega
    · rfl
  constructor
  · intro h
    refine ⟨h [] x xs rfl, fun pre y post hxs => ?_⟩
    rw [← hshift]
    exact h (x :: pre) y post (by rw [hxs]; rfl)
  · rintro ⟨hx, hrest⟩ pre y post hxs
    cases pre with
    | nil =>
      obtain ⟨rfl, -⟩ := List.cons.inj hxs
      exact hx
    | cons z pre =>
      obtain ⟨rfl, hpost⟩ := List.cons.inj hxs
      rw [hshift]
      exact hrest pre y post hpost

/-- A test that does not look at the number. -/
theorem sieve_const (hit : α → Bool) (n : Nat) (xs : List α) :
    sieve (fun _ x => hit x) n xs = xs.filter fun x => !hit x := by
  induction xs generalizing n with
  | nil => rfl
  | cons x xs ih =>
    rw [sieve, List.filter_cons, ih, ih]
    cases hit x <;> rfl

/-- Which elements are left, when no element is there twice. -/
theorem sieve_eq_filter_iff {keep : α → Bool} (h : xs.Nodup) :
    sieve hit n xs = xs.filter keep ↔ Agrees hit keep n xs := by
  induction xs generalizing n with
  | nil => exact ⟨fun _ pre x post hxs => by simp at hxs, fun _ => rfl⟩
  | cons x xs ih =>
    obtain ⟨hx, hxs⟩ := List.nodup_cons.mp h
    rw [agrees_cons, sieve, List.filter_cons]
    cases hhit : hit n x with
    | true =>
      cases hkeep : keep x with
      | true =>
        -- a deleted element would have to be kept
        refine ⟨fun heq => absurd ?_ hx, fun hagree => absurd hagree.1 (by simp)⟩
        rw [if_pos rfl, if_pos rfl] at heq
        exact (sieve_sublist hit n xs).subset (heq ▸ List.mem_cons_self)
      | false => simpa using ih hxs
    | false =>
      cases hkeep : keep x with
      | true => simpa using ih hxs
      | false =>
        refine ⟨fun heq => absurd ?_ hx, fun hagree => absurd hagree.1 (by simp)⟩
        rw [if_neg (by simp), if_neg (by simp)] at heq
        exact List.mem_of_mem_filter (heq ▸ List.mem_cons_self)

/-- The number of a hit, when the elements are tested as `keep` says. -/
theorem exists_of_mem_hitNumbers {keep : α → Bool} {m : Nat} (h : Agrees hit keep n xs)
    (hm : m ∈ hitNumbers hit n xs) :
    ∃ pre x post, xs = pre ++ x :: post ∧ keep x = false ∧ m = n + (pre.filter keep).length := by
  induction xs generalizing n with
  | nil => cases hm
  | cons x xs ih =>
    obtain ⟨hx, hrest⟩ := agrees_cons.mp h
    rw [hitNumbers, hx] at hm
    cases hkeep : keep x with
    | true =>
      rw [hkeep, if_pos rfl] at hrest
      rw [hkeep, if_neg (by simp)] at hm
      obtain ⟨pre, y, post, rfl, hy, rfl⟩ := ih hrest hm
      refine ⟨x :: pre, y, post, rfl, hy, ?_⟩
      rw [List.filter_cons_of_pos hkeep, List.length_cons]
      omega
    | false =>
      rw [hkeep, if_neg (by simp)] at hrest
      rw [hkeep, if_pos (by simp)] at hm
      rcases List.mem_cons.mp hm with rfl | hm
      · exact ⟨[], x, xs, rfl, hkeep, rfl⟩
      · obtain ⟨pre, y, post, rfl, hy, rfl⟩ := ih hrest hm
        refine ⟨x :: pre, y, post, rfl, hy, ?_⟩
        rw [List.filter_cons_of_neg (by simp [hkeep])]

/-! ## The first numbers -/

/-- The elements with their first numbers, less those that are hit under them. -/
def kept (hit : Nat → α → Bool) (n : Nat) (xs : List α) : List (α × Nat) :=
  (xs.zipIdx n).filter fun p => !hit p.2 p.1

/-- No element is tested otherwise under the number that it has behind the kept ones. -/
def Stable (hit : Nat → α → Bool) (n : Nat) (xs : List α) : Prop :=
  ∀ pre x post, xs = pre ++ x :: post →
    hit (n + (kept hit n pre).length) x = hit (n + pre.length) x

theorem stable_of_const (h : ∀ x ∈ xs, ∀ m m', hit m x = hit m' x) (n : Nat) :
    Stable hit n xs := by
  rintro pre x post rfl
  exact h x (List.mem_append_right pre List.mem_cons_self) _ _

theorem nodup_zipIdx (n : Nat) (xs : List α) : (xs.zipIdx n).Nodup := by
  have h : ((xs.zipIdx n).map Prod.snd).Nodup := by
    rw [List.zipIdx_map_snd]
    exact List.nodup_range'
  exact List.Nodup.of_map Prod.snd h

/-- A place in the list with the first numbers is a place in the list. -/
theorem zipIdx_eq_split_iff {pre post : List (α × Nat)} {p : α × Nat} :
    xs.zipIdx n = pre ++ p :: post ↔
      ∃ pre' x post', xs = pre' ++ x :: post' ∧ pre = pre'.zipIdx n ∧
        p = (x, n + pre'.length) ∧ post = post'.zipIdx (n + pre'.length + 1) := by
  rw [List.zipIdx_eq_append_iff]
  constructor
  · rintro ⟨pre', rest, rfl, rfl, hrest⟩
    obtain ⟨x, post', rfl, rfl, rfl⟩ := List.zipIdx_eq_cons_iff.mp hrest.symm
    exact ⟨pre', x, post', rfl, rfl, rfl, rfl⟩
  · rintro ⟨pre', x, post', rfl, rfl, rfl, rfl⟩
    exact ⟨pre', x :: post', rfl, rfl, rfl⟩

theorem agrees_zipIdx_iff :
    Agrees (fun m p => hit m p.1) (fun p => !hit p.2 p.1) n (xs.zipIdx n) ↔ Stable hit n xs := by
  constructor
  · intro h pre x post hxs
    have hat := h _ _ _ (zipIdx_eq_split_iff.mpr ⟨pre, x, post, hxs, rfl, rfl, rfl⟩)
    rw [Bool.not_not] at hat
    exact hat
  · intro h pre p post hsplit
    obtain ⟨pre', x, post', hxs, rfl, rfl, rfl⟩ := zipIdx_eq_split_iff.mp hsplit
    rw [Bool.not_not]
    exact h pre' x post' hxs

/-- The deletions leave what the first numbers promise. -/
theorem foldl_hitNumbers_eq_kept_iff :
    (hitNumbers hit n xs).foldl (deleteNumber n) (xs.zipIdx n) = kept hit n xs ↔
      Stable hit n xs := by
  have hnumbers := hitNumbers_map hit Prod.fst n (xs.zipIdx n)
  rw [List.zipIdx_map_fst] at hnumbers
  rw [hnumbers, foldl_hitNumbers, kept, sieve_eq_filter_iff (nodup_zipIdx n xs), agrees_zipIdx_iff]

/-- The number of a hit. -/
theorem Stable.exists_of_mem_hitNumbers (h : Stable hit n xs) {m : Nat}
    (hm : m ∈ hitNumbers hit n xs) :
    ∃ pre x post, xs = pre ++ x :: post ∧ hit (n + pre.length) x = true ∧
      m = n + (kept hit n pre).length := by
  have hnumbers := hitNumbers_map hit Prod.fst n (xs.zipIdx n)
  rw [List.zipIdx_map_fst] at hnumbers
  rw [hnumbers] at hm
  obtain ⟨pre, p, post, hsplit, hp, hm⟩ :=
    Renumber.exists_of_mem_hitNumbers (agrees_zipIdx_iff.mpr h) hm
  obtain ⟨pre', x, post', hxs, rfl, rfl, rfl⟩ := zipIdx_eq_split_iff.mp hsplit
  exact ⟨pre', x, post', hxs, by simpa using hp, hm⟩

end Wifidog.Renumber
