/-
  Reading an integer out of a text: `strstr` for the place, `sscanf ("%d")` for the number.

  `IntegerAt s n` says what an integer at the beginning of a text is: white space, a sign or none,
  digits, and no digit behind them. `scanInt` is the conversion `%d` as glibc does it, which goes
  through a `long`; it succeeds just when there is an integer, and gives it when it fits an `int`.

  Proved: `strstr_eq_some_iff` (a hit is the first occurrence), `scanInt_isSome_iff`,
  `scanInt_eq_some`.
-/
import Wifidog.Lib.CText

namespace Wifidog.CText

/-! ## The first occurrence -/

/-- `pat` stands in `s` at position `i` and nowhere before. -/
def FirstAt (pat s : Text) (i : Nat) : Prop :=
  pat <+: s.drop i ∧ ∀ j < i, ¬ pat <+: s.drop j

theorem strstr_eq_some_iff {s pat : Text} {i : Nat} : strstr s pat = some i ↔ FirstAt pat s i := by
  unfold FirstAt
  induction s generalizing i with
  | nil =>
    unfold strstr
    cases pat with
    | nil =>
      simp only [List.isPrefixOf_nil_left, if_true, Option.some.injEq, List.nil_prefix, true_and,
        not_true_eq_false]
      constructor
      · rintro rfl
        exact fun j hj => by omega
      · intro h
        by_contra hne
        exact h 0 (by omega)
    | cons d pat => simp
  | cons c t ih =>
    unfold strstr
    by_cases hp : pat.isPrefixOf (c :: t) = true
    · have hpat := List.isPrefixOf_iff_prefix.mp hp
      rw [if_pos hp, Option.some.injEq]
      constructor
      · rintro rfl
        exact ⟨hpat, fun j hj => by omega⟩
      · rintro ⟨_, hfirst⟩
        by_contra hne
        exact hfirst 0 (by omega) hpat
    · have hpat : ¬ pat <+: c :: t := fun h => hp (List.isPrefixOf_iff_prefix.mpr h)
      rw [if_neg hp]
      simp only [Option.map_eq_some_iff, ih]
      constructor
      · rintro ⟨k, ⟨hk, hfirst⟩, rfl⟩
        refine ⟨hk, fun j hj => ?_⟩
        cases j with
        | zero => exact hpat
        | succ j => exact hfirst j (by omega)
      · rintro ⟨hi, hfirst⟩
        cases i with
        | zero => exact absurd hi hpat
        | succ k => exact ⟨k, ⟨hi, fun j hj => hfirst (j + 1) (by omega)⟩, rfl⟩

/-! ## Integers -/

/-- The text behind white space and a sign. -/
def afterSign (s : Text) : Text :=
  match s.dropWhile isSpace with
  | '-' :: t => t
  | '+' :: t => t
  | t => t

/-- `sscanf (s, "%d", &n)`: `none` when nothing is converted. -/
def scanInt (s : Text) : Option Int :=
  if (afterSign s).head?.any Char.isDigit then some (atoi s) else none

theorem scanInt_space {c : Char} (h : isSpace c = true) (s : Text) :
    scanInt (c :: s) = scanInt s := by
  unfold scanInt afterSign atoi atol
  rw [List.dropWhile_cons_of_pos h]

/-- The integer that stands at the beginning of the text, behind white space. -/
def IntegerAt (s : Text) (n : Int) : Prop :=
  ∃ blanks sign digits rest, s = blanks ++ (sign ++ (digits ++ rest)) ∧
    (∀ c ∈ blanks, isSpace c = true) ∧ digits ≠ [] ∧ (∀ c ∈ digits, c.isDigit = true) ∧
    (∀ c ∈ rest.head?, c.isDigit = false) ∧
    ((sign = [] ∨ sign = ['+']) ∧ n = Nat.ofDigitChars 10 digits 0 ∨
      sign = ['-'] ∧ n = -(Nat.ofDigitChars 10 digits 0 : Int))

theorem leadingNat_digits {digits rest : Text} (hdigits : ∀ c ∈ digits, c.isDigit = true)
    (hrest : ∀ c ∈ rest.head?, c.isDigit = false) :
    leadingNat (digits ++ rest) = Nat.ofDigitChars 10 digits 0 := by
  have htake : (digits ++ rest).takeWhile Char.isDigit = digits := by
    rw [List.takeWhile_append_of_pos hdigits]
    cases rest with
    | nil => simp
    | cons c rest => rw [List.takeWhile_cons_of_neg (by simp [hrest c rfl]), List.append_nil]
  rw [leadingNat, htake]

theorem dropWhile_isSpace {blanks s : Text} (hblanks : ∀ c ∈ blanks, isSpace c = true)
    (hs : ∀ c ∈ s.head?, isSpace c = false) : (blanks ++ s).dropWhile isSpace = s := by
  rw [List.dropWhile_append_of_pos hblanks]
  cases s with
  | nil => rfl
  | cons c s => rw [List.dropWhile_cons_of_neg (by simp [hs c rfl])]

theorem integerAt_reads {s : Text} {n : Int} (h : IntegerAt s n) :
    (afterSign s).head?.any Char.isDigit = true ∧ atol s = clamp64 n := by
  obtain ⟨blanks, sign, digits, rest, rfl, hblanks, hne, hdigits, hrest, hsign⟩ := h
  have hvalue := leadingNat_digits hdigits hrest
  obtain ⟨c, t, htail, hc⟩ : ∃ c t, digits ++ rest = c :: t ∧ c.isDigit = true := by
    obtain ⟨c, t, rfl⟩ := List.exists_cons_of_ne_nil hne
    exact ⟨c, t ++ rest, rfl, hdigits c List.mem_cons_self⟩
  rw [htail] at hvalue ⊢
  have hplus : c ≠ '+' := digit_ne hc (by decide)
  have hminus : c ≠ '-' := digit_ne hc (by decide)
  unfold afterSign atol
  rcases hsign with ⟨rfl | rfl, rfl⟩ | ⟨rfl, rfl⟩
  · rw [List.nil_append, dropWhile_isSpace hblanks fun d hd => by
      rw [← Option.some.inj hd, not_isSpace_of_isDigit hc]]
    simp [hplus, hminus, hc, hvalue]
  · rw [List.singleton_append, dropWhile_isSpace hblanks fun d hd => by
      rw [← Option.some.inj hd]; rfl]
    simp [hc, hvalue]
  · rw [List.singleton_append, dropWhile_isSpace hblanks fun d hd => by
      rw [← Option.some.inj hd]; rfl]
    simp [hc, hvalue]

theorem bmod_clamp64 {n : Int} (h : -2 ^ 31 ≤ n ∧ n < 2 ^ 31) :
    (clamp64 n).bmod (2 ^ 32) = n := by
  have hclamp : clamp64 n = n := by
    unfold clamp64
    omega
  rw [hclamp]
  exact Int.bmod_eq_of_le (by omega) (by omega)

/-- `%d` reads an integer that fits. -/
theorem scanInt_eq_some {s : Text} {n : Int} (h : IntegerAt s n)
    (hfits : -2 ^ 31 ≤ n ∧ n < 2 ^ 31) : scanInt s = some n := by
  obtain ⟨hdigit, hatol⟩ := integerAt_reads h
  rw [scanInt, if_pos hdigit, atoi, hatol, bmod_clamp64 hfits]

theorem integerAt_of_afterSign {s : Text} (h : (afterSign s).head?.any Char.isDigit = true) :
    ∃ n, IntegerAt s n := by
  have hsplit := List.takeWhile_append_dropWhile (p := isSpace) (l := s)
  have hblanks : ∀ c ∈ s.takeWhile isSpace, isSpace c = true := fun c hc =>
    List.mem_takeWhile_imp hc
  have hdigits : ∀ t : Text, t.head?.any Char.isDigit = true →
      t = t.takeWhile Char.isDigit ++ t.dropWhile Char.isDigit ∧ t.takeWhile Char.isDigit ≠ [] ∧
        (∀ c ∈ t.takeWhile Char.isDigit, c.isDigit = true) ∧
        ∀ c ∈ (t.dropWhile Char.isDigit).head?, c.isDigit = false := by
    intro t ht
    refine ⟨List.takeWhile_append_dropWhile.symm, ?_, fun c hc => List.mem_takeWhile_imp hc, ?_⟩
    · cases t with
      | nil => cases ht
      | cons c t =>
        rw [List.takeWhile_cons_of_pos (by simpa using ht)]
        exact List.cons_ne_nil _ _
    · intro c hc
      have hhead := List.head?_dropWhile_not Char.isDigit t
      rw [Option.mem_def.mp hc] at hhead
      simpa using hhead
  unfold afterSign at h
  split at h
  · rename_i t heq
    obtain ⟨ht, hne, hall, hrest⟩ := hdigits t h
    refine ⟨_, s.takeWhile isSpace, ['-'], _, _, ?_, hblanks, hne, hall, hrest, Or.inr ⟨rfl, rfl⟩⟩
    rw [List.singleton_append, ← ht, ← heq, hsplit]
  · rename_i t heq
    obtain ⟨ht, hne, hall, hrest⟩ := hdigits t h
    refine ⟨_, s.takeWhile isSpace, ['+'], _, _, ?_, hblanks, hne, hall, hrest,
      Or.inl ⟨Or.inr rfl, rfl⟩⟩
    rw [List.singleton_append, ← ht, ← heq, hsplit]
  · obtain ⟨ht, hne, hall, hrest⟩ := hdigits _ h
    refine ⟨_, s.takeWhile isSpace, [], _, _, ?_, hblanks, hne, hall, hrest,
      Or.inl ⟨Or.inl rfl, rfl⟩⟩
    rw [List.nil_append, ← ht, hsplit]

theorem scanInt_isSome_iff {s : Text} : (scanInt s).isSome ↔ ∃ n, IntegerAt s n := by
  have hiff : (scanInt s).isSome ↔ (afterSign s).head?.any Char.isDigit = true := by
    unfold scanInt
    split <;> simp [*]
  rw [hiff]
  exact ⟨integerAt_of_afterSign, fun ⟨n, hn⟩ => (integerAt_reads hn).1⟩

end Wifidog.CText
