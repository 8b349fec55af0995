/-
  C strings and the C library functions on them.

  A string is the list of its characters, one `Char` for each byte, without the terminating
  NUL. `strstr`, `strcaseEq` (`strcasecmp == 0`), `isBlank`, the decimal conversions `%u`,
  `%d` (`dec`, `decInt`) and the readers `atol`, `atoi` follow the C locale and glibc
  (`atol` is `strtol`, which stops at the ends of the 64-bit range).

  Proved: `strstr_eq_none_iff` (what a miss means) and `strstr_skip` (what a search passes over),
  the words of a line (`words_append_blank`, `mem_of_mem_words`, `infix_words_iff`) and its tokens
  (`tokens_eq_strtok`), `atol_dec` (reading back what `%u` printed, up to the clamp), `dec_inj` and
  `decInt_inj`.
-/
import Mathlib.Algebra.Group.Int.Defs
import Mathlib.Algebra.GroupWithZero.Nat
import Mathlib.Data.List.Basic
import Mathlib.Data.List.Infix
import Mathlib.Data.List.TakeWhile

namespace Wifidog.CText

/-- A C string, without its terminating NUL. -/
abbrev Text := List Char

/-- What is asked of the characters of a text is decided by going through the text, and not through
    all characters that there are. -/
instance (priority := high) decidableForallMem {P : Char → Prop} [DecidablePred P] (s : Text) :
    Decidable (∀ c ∈ s, P c) := List.decidableBAll P s

instance (priority := high) decidableForallSome {P : Char → Prop} [DecidablePred P]
    (o : Option Char) : Decidable (∀ c ∈ o, P c) := Option.decidableForallMem o

instance lawfulText : LawfulBEq Text := List.instLawfulBEq

/-- `isblank` in the C locale. -/
def isBlank (c : Char) : Bool := c == ' ' || c == '\t'

/-- `isspace` in the C locale. -/
def isSpace (c : Char) : Bool :=
  c == ' ' || c == '\t' || c == '\n' || c == '\x0b' || c == '\x0c' || c == '\r'

/-- `strcasecmp (a, b) == 0`. -/
def strcaseEq (a b : Text) : Bool := a.map Char.toLower == b.map Char.toLower

/-- `strstr (s, pat)`: the position of the first occurrence. -/
def strstr (s pat : Text) : Option Nat :=
  if pat.isPrefixOf s then some 0
  else match s with
    | [] => none
    | _ :: t => (strstr t pat).map (· + 1)

/-- The words of a line: what stands between its blanks. -/
def words (line : Text) : List Text := (line.splitOnP isBlank).filter fun w => !w.isEmpty

/-- `strtok` with one separator: the next token, and what is left behind the separator that ends
    it. -/
def strtok (d : Char) (s : Text) : Option (Text × Text) :=
  let s := s.dropWhile (· == d)
  if s = [] then none else some (s.takeWhile (· != d), (s.dropWhile (· != d)).drop 1)

/-- The tokens that `strtok` finds in a text. -/
def tokens (d : Char) (s : Text) : List Text := (s.splitOn d).filter (· ≠ [])

/-! ## Searching -/

theorem strstr_eq_none_iff {s pat : Text} : strstr s pat = none ↔ ¬ pat <:+: s := by
  induction s with
  | nil =>
    unfold strstr
    cases pat with
    | nil => simp
    | cons => simp
  | cons c t ih =>
    unfold strstr
    split
    · next hp =>
      have hpre : pat <+: c :: t := by simpa using hp
      simpa using hpre.isInfix
    · next hp =>
      have hpre : ¬ pat <+: c :: t := by simpa using hp
      simp [ih, List.infix_cons_iff, hpre]

theorem strstr_isSome_iff {s pat : Text} : (strstr s pat).isSome ↔ pat <:+: s := by
  rw [Option.isSome_iff_ne_none, ne_eq, strstr_eq_none_iff, not_not]

/-- A needle as long as the haystack is the haystack. -/
theorem strstr_eq_of_length {s pat : Text} (h : (strstr s pat).isSome)
    (hl : s.length = pat.length) : s = pat :=
  ((strstr_isSome_iff.mp h).eq_of_length hl.symm).symm

/-- A part of the haystack without the first character of the needle is passed over. -/
theorem strstr_skip {c : Char} {pre : Text} (h : c ∉ pre) (pat s : Text) :
    strstr (pre ++ s) (c :: pat) = (strstr s (c :: pat)).map (· + pre.length) := by
  induction pre with
  | nil => simp
  | cons d pre ih =>
    simp only [List.mem_cons, not_or] at h
    have hno : (c :: pat).isPrefixOf (d :: (pre ++ s)) = false := by
      simp [List.isPrefixOf, h.1]
    rw [List.cons_append, strstr, if_neg (by simp [hno]), ih h.2, Option.map_map]
    rfl

theorem strstr_of_not_mem {c : Char} {s : Text} (h : c ∉ s) (pat : Text) :
    strstr s (c :: pat) = none := by
  rw [strstr_eq_none_iff]
  intro hinside
  exact h (hinside.subset List.mem_cons_self)

theorem strstr_prefix (pat s : Text) : strstr (pat ++ s) pat = some 0 := by
  unfold strstr
  rw [if_pos (by simp)]

theorem strcaseEq_iff {a b : Text} :
    strcaseEq a b = true ↔ a.map Char.toLower = b.map Char.toLower := by
  simp [strcaseEq]

/-! ## Words -/

/-- `tolower` moves letters only. -/
theorem toLower_eq_iff {c d : Char} (hd : d.isAlpha = false) : c.toLower = d ↔ c = d := by
  have hd' : d.toNat < 65 ∨ (90 < d.toNat ∧ d.toNat < 97) ∨ 122 < d.toNat := by
    delta Char.isAlpha Char.isUpper Char.isLower at hd
    simp [UInt32.le_iff_toNat_le] at hd
    omega
  unfold Char.toLower
  split
  case isTrue h =>
    have hc : 65 ≤ c.toNat ∧ c.toNat ≤ 90 := by
      simpa [UInt32.le_iff_toNat_le] using h
    constructor
    · intro heq
      have hval := congrArg (fun x : Char => x.val.toNat) heq
      simp [UInt32.toNat_add] at hval
      omega
    · rintro rfl
      omega
  case isFalse => rfl

theorem isBlank_toLower (c : Char) : isBlank c.toLower = isBlank c := by
  simp only [isBlank, Bool.beq_eq_decide_eq, toLower_eq_iff (d := ' ') (by decide),
    toLower_eq_iff (d := '\t') (by decide)]

theorem words_append_blank {c : Char} (hc : isBlank c = true) (a b : Text) :
    words (a ++ c :: b) = words a ++ words b := by
  unfold words
  rw [List.splitOnP_append_cons a b hc, List.filter_append]

theorem words_of_not_blank {w : Text} (hne : w ≠ []) (h : ∀ c ∈ w, isBlank c = false) :
    words w = [w] := by
  unfold words
  rw [List.splitOnP_eq_singleton h]
  simp [hne]

/-- Words joined by single blanks are the words of the line. -/
theorem words_intercalate {ws : List Text} (h : ∀ w ∈ ws, w ≠ [] ∧ ∀ c ∈ w, isBlank c = false) :
    words ([' '].intercalate ws) = ws := by
  induction ws with
  | nil => rfl
  | cons w ws ih =>
    have hw := h w List.mem_cons_self
    have ih' := ih fun v hv => h v (List.mem_cons_of_mem w hv)
    cases ws with
    | nil =>
      rw [List.intercalate_singleton]
      exact words_of_not_blank hw.1 hw.2
    | cons v vs =>
      rw [List.intercalate_cons_cons, List.append_assoc, List.singleton_append,
        words_append_blank (by decide), words_of_not_blank hw.1 hw.2, ih', List.singleton_append]

/-- The pieces of a split hold characters of the text that are no separators. -/
theorem mem_of_mem_splitOnP {p : Char → Bool} {s w : Text} (h : w ∈ s.splitOnP p) {c : Char}
    (hc : c ∈ w) : p c = false ∧ c ∈ s := by
  induction s generalizing w with
  | nil =>
    rw [List.splitOnP_nil, List.mem_singleton] at h
    rw [h] at hc
    cases hc
  | cons d s ih =>
    rw [List.splitOnP_cons_eq_if_modifyHead] at h
    split at h
    · rcases List.mem_cons.mp h with rfl | hw
      · cases hc
      · exact ⟨(ih hw hc).1, List.mem_cons_of_mem d (ih hw hc).2⟩
    · next hd =>
      -- the first piece of the rest has the head in front
      obtain ⟨v, vs, hvs⟩ := List.exists_cons_of_ne_nil (List.splitOnP_ne_nil p s)
      rw [hvs] at h ih
      rcases List.mem_cons.mp h with rfl | hw
      · rcases List.mem_cons.mp hc with rfl | hc
        · exact ⟨by simpa using hd, List.mem_cons_self⟩
        · exact ⟨(ih List.mem_cons_self hc).1, List.mem_cons_of_mem d (ih List.mem_cons_self hc).2⟩
      · have hv := ih (List.mem_cons_of_mem v hw) hc
        exact ⟨hv.1, List.mem_cons_of_mem d hv.2⟩

theorem sep_not_mem_piece {d : Char} {s w : Text} (h : w ∈ s.splitOn d) : d ∉ w := by
  intro hmem
  have hsep := (mem_of_mem_splitOnP h hmem).1
  simp at hsep

theorem mem_of_mem_piece {c d : Char} {s w : Text} (h : w ∈ s.splitOn d) (hc : c ∈ w) : c ∈ s :=
  (mem_of_mem_splitOnP h hc).2

/-- A word is not empty, and its characters are characters of the line and no blanks. -/
theorem mem_of_mem_words {line w : Text} (h : w ∈ words line) :
    w ≠ [] ∧ ∀ c ∈ w, isBlank c = false ∧ c ∈ line := by
  unfold words at h
  rw [List.mem_filter] at h
  exact ⟨by simpa using h.2, fun c hc => mem_of_mem_splitOnP h.1 hc⟩

/-- Words with a blank behind each. -/
def spaced (ws : List Text) : Text := ws.flatMap (· ++ [' '])

@[simp] theorem spaced_cons (w : Text) (ws : List Text) :
    spaced (w :: ws) = w ++ ' ' :: spaced ws := by
  simp [spaced]

@[simp] theorem spaced_nil : spaced [] = [] := rfl

theorem spaced_append (ws vs : List Text) : spaced (ws ++ vs) = spaced ws ++ spaced vs :=
  List.flatMap_append

/-- A word ends at the first blank. -/
theorem prefix_word {w v s t : Text} (hw : ' ' ∉ w) (hv : ' ' ∉ v)
    (h : w ++ ' ' :: s <+: v ++ ' ' :: t) : w = v ∧ s <+: t := by
  obtain ⟨r, hr⟩ := h
  rw [List.append_assoc, List.cons_append, List.append_eq_append_iff] at hr
  rcases hr with ⟨m, rfl, hm⟩ | ⟨m, rfl, hm⟩
  · cases m with
    | nil =>
      rw [List.nil_append, List.cons.injEq] at hm
      exact ⟨by simp, r, hm.2⟩
    | cons c m =>
      rw [List.cons_append, List.cons.injEq] at hm
      exact absurd (by simp [← hm.1]) hv
  · cases m with
    | nil =>
      rw [List.nil_append, List.cons.injEq] at hm
      exact ⟨by simp, r, hm.2.symm⟩
    | cons c m =>
      rw [List.cons_append, List.cons.injEq] at hm
      exact absurd (by simp [← hm.1]) hw

/-- A text that begins with spaced words has them as its own. -/
theorem spaced_prefix {ws vs : List Text} {last end' : Text} (hws : ∀ w ∈ ws, ' ' ∉ w)
    (hvs : ∀ v ∈ vs, ' ' ∉ v) (hend : ' ' ∉ end')
    (h : spaced ws ++ last <+: spaced vs ++ end') : ws <+: vs := by
  induction ws generalizing vs with
  | nil => exact List.nil_prefix
  | cons w ws ih =>
    rw [spaced_cons, List.append_assoc, List.cons_append] at h
    cases vs with
    | nil => exact absurd (h.subset (by simp)) hend
    | cons v vs =>
      rw [spaced_cons, List.append_assoc, List.cons_append] at h
      obtain ⟨rfl, hrest⟩ := prefix_word (hws w List.mem_cons_self) (hvs v List.mem_cons_self) h
      have htail := ih (fun u hu => hws u (List.mem_cons_of_mem w hu))
        (fun u hu => hvs u (List.mem_cons_of_mem w hu)) hrest
      exact List.cons_prefix_cons.mpr ⟨rfl, htail⟩

/-- A text without the separator does not reach across it. -/
theorem infix_append_cons_iff {v a b : Text} {c : Char} (h : c ∉ v) (hne : v ≠ []) :
    v <:+: a ++ c :: b ↔ v <:+: a ∨ v <:+: b := by
  constructor
  · rintro ⟨x, y, hxy⟩
    rw [List.append_assoc] at hxy
    rcases List.append_eq_append_iff.mp hxy with ⟨m, hm, hm'⟩ | ⟨m, hm, hm'⟩
    · -- it starts in front of the separator
      rcases List.append_eq_append_iff.mp hm' with ⟨k, hk, hk'⟩ | ⟨k, hk, hk'⟩
      · exact Or.inl ⟨x, k, by rw [hm, hk, List.append_assoc]⟩
      · cases k with
        | nil =>
          exact Or.inl ⟨x, [], by rw [hm, hk]; simp⟩
        | cons d k =>
          obtain ⟨rfl, _⟩ := List.cons.inj hk'
          rw [hk] at h
          exact absurd (List.mem_append_right m List.mem_cons_self) h
    · cases m with
      | nil =>
        cases v with
        | nil => exact absurd rfl hne
        | cons d v =>
          obtain ⟨rfl, _⟩ := List.cons.inj hm'
          exact absurd List.mem_cons_self h
      | cons d m =>
        obtain ⟨_, hb⟩ := List.cons.inj hm'
        exact Or.inr ⟨m, y, by rw [hb, List.append_assoc]; rfl⟩
  · rintro (⟨x, y, rfl⟩ | ⟨x, y, rfl⟩)
    · exact ⟨x, y ++ c :: b, by simp⟩
    · exact ⟨a ++ c :: x, y, by simp⟩

/-- A text without blanks stands in a line exactly when it stands in one of its words. -/
theorem infix_words_iff {v : Text} (hne : v ≠ []) (h : ∀ c ∈ v, isBlank c = false) (line : Text) :
    v <:+: line ↔ ∃ w ∈ words line, v <:+: w := by
  have hlen : ∀ n (line : Text), line.length ≤ n → (v <:+: line ↔ ∃ w ∈ words line, v <:+: w) := by
    intro n
    induction n with
    | zero =>
      intro line hl
      obtain rfl := List.eq_nil_of_length_eq_zero (Nat.le_zero.mp hl)
      simp [words, hne]
    | succ n ih =>
      intro line hl
      by_cases hblank : ∃ c ∈ line, isBlank c = true
      · obtain ⟨c, hc, hcb⟩ := hblank
        obtain ⟨a, b, rfl⟩ := List.append_of_mem hc
        have hnot : c ∉ v := fun hmem => by rw [h c hmem] at hcb; cases hcb
        simp only [List.length_append, List.length_cons] at hl
        rw [infix_append_cons_iff hnot hne, words_append_blank hcb, ih a (by omega),
          ih b (by omega)]
        simp [or_and_right, exists_or]
      · have hall : ∀ c ∈ line, isBlank c = false := by simpa using hblank
        by_cases hnil : line = []
        · simp [hnil, words, hne]
        · simp [words_of_not_blank hnil hall]
  exact hlen line.length line (Nat.le_refl _)
/-! ## Tokens -/

theorem tokens_cons_sep (d : Char) (s : Text) : tokens d (d :: s) = tokens d s := by
  have h : (d :: s).splitOn d = [] :: s.splitOn d :=
    List.splitOnP_append_cons [] s (by simp)
  rw [tokens, h, List.filter_cons_of_neg (by simp), tokens]

theorem tokens_dropWhile (d : Char) (s : Text) :
    tokens d (s.dropWhile (· == d)) = tokens d s := by
  induction s with
  | nil => rfl
  | cons c s ih =>
    by_cases hc : c = d
    · rw [hc, List.dropWhile_cons_of_pos (by simp), ih, tokens_cons_sep]
    · rw [List.dropWhile_cons_of_neg (by simpa using hc)]

/-- One call finds the first token, and leaves the others. -/
theorem tokens_eq_strtok (d : Char) (s : Text) :
    tokens d s = match strtok d s with
      | none => []
      | some (token, rest) => token :: tokens d rest := by
  rw [← tokens_dropWhile]
  unfold strtok
  dsimp only
  have hhead : ∀ c ∈ (s.dropWhile (· == d)).head?, c ≠ d := by
    intro c hc
    have h := List.head?_dropWhile_not (· == d) s
    rw [Option.mem_def.mp hc] at h
    simpa using h
  generalize s.dropWhile (· == d) = t at hhead
  split
  · next hempty => 
    split at hempty
    · next ht => rw [ht]; rfl
    · cases hempty
  · next token rest hsome =>
    split at hsome
    · cases hsome
    · next ht =>
      obtain ⟨rfl, rfl⟩ := Prod.mk.inj (Option.some.inj hsome)
      have hfirst : t.takeWhile (· != d) ≠ [] := by
        obtain ⟨c, t', rfl⟩ := List.exists_cons_of_ne_nil ht
        rw [List.takeWhile_cons_of_pos (by simpa using hhead c rfl)]
        exact List.cons_ne_nil _ _
      have hplain : ∀ c ∈ t.takeWhile (· != d), (c == d) = false := fun c hc => by
        simpa using List.mem_takeWhile_imp hc
      conv_lhs => rw [← List.takeWhile_append_dropWhile (p := (· != d)) (l := t)]
      cases hrest : t.dropWhile (· != d) with
      | nil =>
        have hsplit : (t.takeWhile (· != d)).splitOn d = [t.takeWhile (· != d)] :=
          List.splitOnP_eq_singleton hplain
        rw [List.append_nil, tokens, hsplit]
        simp [hfirst, tokens]
      | cons c rest =>
        have hc : c = d := by
          have h := List.head?_dropWhile_not (· != d) t
          rw [hrest] at h
          simpa using h
        have hsplit : (t.takeWhile (· != d) ++ c :: rest).splitOn d =
            [t.takeWhile (· != d)] ++ rest.splitOn d := by
          rw [← List.splitOnP_eq_singleton hplain]
          exact List.splitOnP_append_cons _ rest (by simp [hc])
        rw [tokens, hsplit]
        simp [hfirst, tokens]

/-! ## Numbers -/

/-- `%u`, `%lu`, `%llu`. -/
def dec (n : Nat) : Text := Nat.toDigits 10 n

/-- `%d`. -/
def decInt : Int → Text
  | .ofNat n => dec n
  | .negSucc n => '-' :: dec (n + 1)

/-- The leading decimal digits, as a number. -/
def leadingNat (s : Text) : Nat := Nat.ofDigitChars 10 (s.takeWhile Char.isDigit) 0

/-- Keep a value inside `[-2^63, 2^63 - 1]`, as `strtol` does (`ERANGE`). -/
def clamp64 (n : Int) : Int := max (-(2 ^ 63)) (min n (2 ^ 63 - 1))

/-- `atol`, `atoll`. -/
def atol (s : Text) : Int :=
  match s.dropWhile isSpace with
  | '-' :: t => clamp64 (-(leadingNat t : Int))
  | '+' :: t => clamp64 (leadingNat t)
  | t => clamp64 (leadingNat t)

/-- `atoi`: `strtol` cut down to an `int`. -/
def atoi (s : Text) : Int := (atol s).bmod (2 ^ 32)

theorem dec_ne_nil (n : Nat) : dec n ≠ [] := Nat.toDigits_ne_nil

theorem isDigit_of_mem_dec {n : Nat} {c : Char} (h : c ∈ dec n) : c.isDigit = true :=
  Nat.isDigit_of_mem_toDigits (by decide) (by decide) h

theorem length_dec_le {n k : Nat} (hk : 0 < k) (h : n < 10 ^ k) : (dec n).length ≤ k :=
  (Nat.length_toDigits_le_iff (by decide) hk).mpr h

theorem takeWhile_isDigit_dec (n : Nat) : (dec n).takeWhile Char.isDigit = dec n :=
  List.takeWhile_eq_self_iff.mpr fun _ h => isDigit_of_mem_dec h

theorem leadingNat_dec (n : Nat) : leadingNat (dec n) = n := by
  unfold leadingNat
  rw [takeWhile_isDigit_dec]
  exact Nat.ofDigitChars_ten_toDigits

/-- The first digits of a number are a number that is not larger. -/
theorem exists_take_dec {k n : Nat} (hk : 0 < k) (hn : 1 ≤ n) :
    ∃ m, 1 ≤ m ∧ m ≤ n ∧ (dec n).take k = dec m := by
  induction n using Nat.strong_induction_on with
  | _ n ih =>
    by_cases hlen : (dec n).length ≤ k
    · exact ⟨n, hn, Nat.le_refl n, List.take_of_length_le hlen⟩
    · have hten : 10 ≤ n := by
        by_contra hlt
        exact hlen (length_dec_le hk (Nat.lt_of_lt_of_le (by omega) (Nat.pow_le_pow_right
          (by decide) hk)))
      have hdigits : dec n = dec (n / 10) ++ [(n % 10).digitChar] :=
        Nat.toDigits_of_base_le (by decide) hten
      rw [hdigits, List.length_append, List.length_singleton] at hlen
      obtain ⟨m, h1, hm, htake⟩ := ih (n / 10) (by omega) (by omega)
      exact ⟨m, h1, by omega, by rw [hdigits, List.take_append_of_le_length (by omega), htake]⟩

theorem dec_inj {m n : Nat} (h : dec m = dec n) : m = n := by
  rw [← leadingNat_dec m, h, leadingNat_dec]

theorem digit_ne {c d : Char} (hc : c.isDigit = true) (hd : d.isDigit = false) : c ≠ d := by
  rintro rfl
  rw [hc] at hd
  cases hd

/-- The first character of a printed number is a digit. -/
theorem dec_eq_cons (n : Nat) : ∃ c t, dec n = c :: t ∧ c.isDigit = true := by
  cases h : dec n with
  | nil => exact absurd h (dec_ne_nil n)
  | cons c t => exact ⟨c, t, rfl, isDigit_of_mem_dec (h ▸ List.mem_cons_self)⟩

theorem decInt_inj {m n : Int} (h : decInt m = decInt n) : m = n := by
  have hdash : ∀ k t, dec k ≠ '-' :: t := by
    intro k t hk
    exact absurd (isDigit_of_mem_dec (hk ▸ List.mem_cons_self)) (by decide)
  cases m with
  | ofNat m =>
    cases n with
    | ofNat n => rw [dec_inj h]
    | negSucc n => exact absurd h (hdash _ _)
  | negSucc m =>
    cases n with
    | ofNat n => exact absurd h.symm (hdash _ _)
    | negSucc n =>
      have := dec_inj (List.cons.inj h).2
      rw [Nat.succ.inj this]

theorem not_isAlpha_of_isDigit {c : Char} (h : c.isDigit = true) : c.isAlpha = false := by
  delta Char.isAlpha Char.isUpper Char.isLower
  simp [Char.isDigit, UInt32.le_iff_toNat_le] at h ⊢
  omega

theorem not_isSpace_of_isDigit {c : Char} (h : c.isDigit = true) : isSpace c = false := by
  unfold isSpace
  simp only [Bool.or_eq_false_iff, beq_eq_false_iff_ne]
  refine ⟨⟨⟨⟨⟨?_, ?_⟩, ?_⟩, ?_⟩, ?_⟩, ?_⟩ <;> exact digit_ne h (by decide)

/-- Reading back a printed number gives it, up to the upper end of the range. -/
theorem atol_dec (n : Nat) : atol (dec n) = min (n : Int) (2 ^ 63 - 1) := by
  obtain ⟨c, t, hct, hc⟩ := dec_eq_cons n
  have hdrop : (dec n).dropWhile isSpace = dec n := by
    rw [hct, List.dropWhile_cons_of_neg (by simp [not_isSpace_of_isDigit hc])]
  have hclamp : clamp64 (leadingNat (dec n)) = min (n : Int) (2 ^ 63 - 1) := by
    rw [leadingNat_dec]; unfold clamp64; omega
  unfold atol
  rw [hdrop]
  split
  · next t' heq =>
    exact absurd (isDigit_of_mem_dec (heq ▸ List.mem_cons_self)) (by decide)
  · next t' heq =>
    exact absurd (isDigit_of_mem_dec (heq ▸ List.mem_cons_self)) (by decide)
  · exact hclamp

/-- `atoi` reads back a printed number that fits an `int`. -/
theorem atoi_dec {n : Nat} (h : n < 2 ^ 31) : atoi (dec n) = n := by
  unfold atoi
  rw [atol_dec, Int.bmod_def]
  omega

end Wifidog.CText
