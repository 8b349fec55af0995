/-
  `fscanf` on a stream, and tables of columns.

  A stream is what is left of the text and the end-of-file flag, which is set by a read that meets
  the end and not by taking the last character. `scanDirective` is one conversion as glibc does it:
  `%s` and `%llu` pass over white space, `%[..]` does not, and a width ends a conversion without
  looking at the next character. `fscanf` gives the texts that are assigned; their number is what
  the callers compare.

  `Reads` and `Table` say what a table is without speaking of conversions: columns with white space
  before each of them, rows of columns. Proved: one call reads one row (`fscanf_of_reads`); the loop
  around it reads the table row by row (`readRows_of_table`); and a loop that goes on only after a
  call that took something, or has met the end, ends on every text (`readRows_isSome`).
-/
import Mathlib.Data.List.DropRight
import Wifidog.Lib.CScan

namespace Wifidog.Scanf

open CText

/-! ## Streams -/

/-- What is left to read, and `feof`. -/
structure Stream where
  rest : Text
  eof : Bool
  deriving DecidableEq, Repr

/-- A stream that has just been opened. -/
def Stream.open (text : Text) : Stream := ⟨text, false⟩

/-- Read on while `p` holds, at most `width` characters. -/
def Stream.take (p : Char → Bool) (width : Option Nat) (s : Stream) : Text × Stream :=
  let run := s.rest.takeWhile p
  let taken := width.elim run run.take
  let rest := s.rest.drop taken.length
  (taken, ⟨rest, s.eof || (rest.isEmpty && width.all (taken.length < ·))⟩)

def Stream.skipSpace (s : Stream) : Stream := (s.take isSpace none).2

/-- `while (!feof (s) && fgetc (s) != '\n')` -/
def Stream.skipLine (s : Stream) : Stream :=
  match s.rest.dropWhile (· != '\n') with
  | [] => ⟨[], true⟩
  | _ :: rest => ⟨rest, s.eof⟩

/-! ## Conversions -/

/-- White space in the format, `%s`, `%[..]` and `%llu`; a conversion with `*` does not keep what it
    reads. -/
inductive Directive where
  | space
  | word (keep : Bool) (width : Option Nat)
  | set (keep : Bool) (width : Nat) (ranges : List (Char × Char))
  | unsigned
  deriving DecidableEq, Repr

def inRanges (ranges : List (Char × Char)) (c : Char) : Bool :=
  ranges.any fun r => r.1 ≤ c && c ≤ r.2

/-- A sign, if there is one. -/
def Stream.takeSign (s : Stream) : Text × Stream :=
  s.take (fun c => c == '+' || c == '-') (some 1)

/-- One conversion: `none` when it fails, else what it assigns. -/
def scanDirective : Directive → Stream → Option (List Text) × Stream
  | .space, s => (some [], s.skipSpace)
  | .word keep width, s =>
    match s.skipSpace.take (fun c => !isSpace c) width with
    | ([], s) => (none, s)
    | (w, s) => (some (if keep then [w] else []), s)
  | .set keep width ranges, s =>
    match s.take (inRanges ranges) (some width) with
    | ([], s) => (none, s)
    | (w, s) => (some (if keep then [w] else []), s)
  | .unsigned, s =>
    match s.skipSpace.takeSign with
    | (sign, s) =>
      match s.take Char.isDigit none with
      | ([], s) => (none, s)
      | (digits, s) => (some [sign ++ digits], s)

/-- `fscanf`: the texts assigned, up to the first conversion that fails. -/
def fscanf : List Directive → Stream → List Text × Stream
  | [], s => ([], s)
  | d :: ds, s =>
    match scanDirective d s with
    | (none, s) => ([], s)
    | (some vs, s) =>
      match fscanf ds s with
      | (ws, s) => (vs ++ ws, s)

/-- `strtoull`: the value of what `%llu` has read. -/
def strtoull : Text → UInt64
  | '-' :: t => 0 - UInt64.ofNat (min (leadingNat t) (2 ^ 64 - 1))
  | '+' :: t => UInt64.ofNat (min (leadingNat t) (2 ^ 64 - 1))
  | t => UInt64.ofNat (min (leadingNat t) (2 ^ 64 - 1))

/-- `while (!feof (s)) { fscanf (s, format, ..); .. }`, left after a call whose result `go` does not
    accept; `none` when `fuel` calls are not enough. -/
def readRows (format : List Directive) (go : List Text → Bool) :
    (fuel : Nat) → Stream → Option (List (List Text))
  | 0, _ => none
  | fuel + 1, s =>
    if s.eof then some []
    else
      match fscanf format s with
      | (vs, s) =>
        if go vs then (readRows format go fuel s).map (vs :: ·) else some [vs]

/-! ## Tables -/

/-- White space only. -/
def Blank (t : Text) : Prop := ∀ c ∈ t, isSpace c = true

instance decidableBlank (t : Text) : Decidable (Blank t) :=
  inferInstanceAs (Decidable (∀ c ∈ t, isSpace c = true))

/-- The text goes on with white space. -/
def Breaks (t : Text) : Prop := ∃ c r, t = c :: r ∧ isSpace c = true

/-- The white space characters. -/
def spaces : Text := [' ', '\t', '\n', '\x0b', '\x0c', '\r']

/-- A word that the conversion reads as a whole when white space follows. -/
def Directive.Accepts : Directive → Text → Prop
  | .space, _ => False
  | .word _ width, w => w ≠ [] ∧ (∀ c ∈ w, isSpace c = false) ∧ ∀ n ∈ width, w.length ≤ n
  | .set _ width ranges, w =>
    w ≠ [] ∧ (∀ c ∈ w, isSpace c = false ∧ inRanges ranges c = true) ∧ w.length ≤ width ∧
      ∀ c ∈ spaces, inRanges ranges c = false
  | .unsigned, w => w ≠ [] ∧ ∀ c ∈ w, c.isDigit = true

instance decidableAccepts : (d : Directive) → (w : Text) → Decidable (d.Accepts w)
  | .space, _ => inferInstanceAs (Decidable False)
  | .word _ width, w => inferInstanceAs (Decidable
      (w ≠ [] ∧ (∀ c ∈ w, isSpace c = false) ∧ ∀ n ∈ width, w.length ≤ n))
  | .set _ width ranges, w => inferInstanceAs (Decidable
      (w ≠ [] ∧ (∀ c ∈ w, isSpace c = false ∧ inRanges ranges c = true) ∧ w.length ≤ width ∧
        ∀ c ∈ spaces, inRanges ranges c = false))
  | .unsigned, w => inferInstanceAs (Decidable (w ≠ [] ∧ ∀ c ∈ w, c.isDigit = true))

/-- What the conversion assigns for a word. -/
def Directive.kept : Directive → Text → List Text
  | .space, _ => []
  | .word keep _, w => if keep then [w] else []
  | .set keep _ _, w => if keep then [w] else []
  | .unsigned, w => [w]

/-- A text that begins with a row of these columns, with `rest` behind it. -/
inductive Reads : List Directive → (text rest : Text) → List Text → Prop
  | nil {rest : Text} (hrest : Breaks rest) : Reads [] rest rest []
  | cons {d : Directive} {ds : List Directive} {blank w text rest : Text} {ws : List Text}
      (hblank : Blank blank) (hw : d.Accepts w) (hbreak : Breaks text)
      (htail : Reads ds text rest ws) : Reads (d :: ds) (blank ++ w ++ text) rest (d.kept w ++ ws)

/-- A text of such rows. -/
inductive Table (cols : List Directive) : Text → List (List Text) → Prop
  | nil {text : Text} (hblank : Blank text) : Table cols text []
  | cons {text rest : Text} {ws : List Text} {rows : List (List Text)}
      (hrow : Reads cols text rest ws) (htail : Table cols rest rows) : Table cols text (ws :: rows)

/-- Cells, with the white space before each, and what stands behind them. -/
def row : List (Text × Text) → (tail : Text) → Text
  | [], tail => tail
  | (blank, w) :: cells, tail => blank ++ w ++ row cells tail

/-- The cells are words of these columns, with white space between them. -/
def Fits : List Directive → List (Text × Text) → Prop
  | [], [] => True
  | d :: ds, (blank, w) :: cells =>
    Blank blank ∧ d.Accepts w ∧ (∀ cell ∈ cells.head?, cell.1 ≠ []) ∧ Fits ds cells
  | _, _ => False

instance decidableFits : (ds : List Directive) → (cells : List (Text × Text)) →
    Decidable (Fits ds cells)
  | [], [] => isTrue trivial
  | [], _ :: _ => isFalse id
  | _ :: _, [] => isFalse id
  | d :: ds, (blank, w) :: cells =>
    have : Decidable (Fits ds cells) := decidableFits ds cells
    inferInstanceAs (Decidable (Blank blank ∧ d.Accepts w ∧
      (∀ cell ∈ cells.head?, cell.1 ≠ []) ∧ Fits ds cells))

/-- What a row of cells assigns. -/
def assigned : List Directive → List (Text × Text) → List Text
  | d :: ds, (_, w) :: cells => d.kept w ++ assigned ds cells
  | _, _ => []

/-- The format with white space before each conversion. -/
def spaced (cols : List Directive) : List Directive := cols.flatMap fun d => [.space, d]

/-! ## Reading on -/

/-- A run of characters with something else behind it. -/
theorem take_run {p : Char → Bool} {width : Option Nat} {w r : Text} {c : Char} (e : Bool)
    (hw : ∀ d ∈ w, p d = true) (hc : p c = false) (hwidth : ∀ n ∈ width, w.length ≤ n) :
    Stream.take p width ⟨w ++ c :: r, e⟩ = (w, ⟨c :: r, e⟩) := by
  have hrun : (w ++ c :: r).takeWhile p = w := by
    rw [List.takeWhile_append_of_pos hw, List.takeWhile_cons_of_neg (by simp [hc]), List.append_nil]
  have htaken : width.elim w w.take = w := by
    cases width with
    | none => rfl
    | some n => exact List.take_of_length_le (hwidth n rfl)
  unfold Stream.take
  simp only [hrun, htaken, List.drop_left]
  simp

theorem skipSpace_eq (s : Stream) : s.skipSpace =
    ⟨s.rest.dropWhile isSpace, s.eof || (s.rest.dropWhile isSpace).isEmpty⟩ := by
  have hdrop : s.rest.drop (s.rest.takeWhile isSpace).length = s.rest.dropWhile isSpace := by
    rw [List.takeWhile_eq_take_findIdx_not, List.length_take,
      Nat.min_eq_left List.findIdx_le_length, List.dropWhile_eq_drop_findIdx_not]
  unfold Stream.skipSpace Stream.take
  simp only [Option.elim_none, hdrop, Option.all_none, Bool.and_true]

theorem skipSpace_blank {t : Text} (h : Blank t) (e : Bool) :
    Stream.skipSpace ⟨t, e⟩ = ⟨[], true⟩ := by
  rw [skipSpace_eq]
  simp only [List.dropWhile_eq_nil_iff.mpr h]
  simp

theorem skipSpace_word {blank r : Text} {c : Char} (h : Blank blank) (hc : isSpace c = false)
    (e : Bool) : Stream.skipSpace ⟨blank ++ c :: r, e⟩ = ⟨c :: r, e⟩ := by
  have hdrop : (blank ++ c :: r).dropWhile isSpace = c :: r :=
    dropWhile_isSpace h fun d hd => by rw [← Option.some.inj hd, hc]
  rw [skipSpace_eq]
  simp [hdrop]

theorem skipSpace_skipSpace (s : Stream) : s.skipSpace.skipSpace = s.skipSpace := by
  simp only [skipSpace_eq, List.dropWhile_idempotent, Bool.or_assoc, Bool.or_self]

/-! ## One row -/

theorem isSpace_iff {c : Char} : isSpace c = true ↔ c ∈ spaces := by
  simp [isSpace, spaces, or_assoc]

theorem Breaks.append {t : Text} (h : Breaks t) (r : Text) : Breaks (t ++ r) := by
  obtain ⟨c, t, rfl, hc⟩ := h
  exact ⟨c, t ++ r, rfl, hc⟩

theorem Blank.breaks {t : Text} (h : Blank t) (hne : t ≠ []) : Breaks t := by
  obtain ⟨c, t, rfl⟩ := List.exists_cons_of_ne_nil hne
  exact ⟨c, t, rfl, h c List.mem_cons_self⟩

/-- Cells that fit the columns are a row. -/
theorem reads_row {ds : List Directive} {cells : List (Text × Text)} {tail : Text}
    (h : Fits ds cells) (htail : Breaks tail) :
    Reads ds (row cells tail) tail (assigned ds cells) := by
  induction ds generalizing cells with
  | nil =>
    cases cells with
    | nil => exact .nil htail
    | cons cell cells => exact absurd h id
  | cons d ds ih =>
    cases cells with
    | nil => exact absurd h id
    | cons cell cells =>
      obtain ⟨blank, w⟩ := cell
      obtain ⟨hblank, hw, hnext, hrest⟩ := h
      refine .cons hblank hw ?_ (ih hrest)
      cases cells with
      | nil => exact htail
      | cons cell cells =>
        cases ds with
        | nil => exact absurd hrest id
        | cons e ds =>
          have hbreak := (Blank.breaks hrest.1 (hnext cell rfl)).append (cell.2 ++ row cells tail)
          rw [← List.append_assoc] at hbreak
          exact hbreak

theorem Directive.Accepts.head {d : Directive} {w : Text} (h : d.Accepts w) :
    ∃ c r, w = c :: r ∧ isSpace c = false := by
  cases d with
  | space => exact absurd h id
  | word keep width =>
    obtain ⟨hne, hspace, -⟩ := h
    obtain ⟨c, r, rfl⟩ := List.exists_cons_of_ne_nil hne
    exact ⟨c, r, rfl, hspace c List.mem_cons_self⟩
  | set keep width ranges =>
    obtain ⟨hne, hin, -⟩ := h
    obtain ⟨c, r, rfl⟩ := List.exists_cons_of_ne_nil hne
    exact ⟨c, r, rfl, (hin c List.mem_cons_self).1⟩
  | unsigned =>
    obtain ⟨hne, hdigit⟩ := h
    obtain ⟨c, r, rfl⟩ := List.exists_cons_of_ne_nil hne
    exact ⟨c, r, rfl, not_isSpace_of_isDigit (hdigit c List.mem_cons_self)⟩

/-- A conversion reads a word that it accepts. -/
theorem scanDirective_word {d : Directive} {w text : Text} (hw : d.Accepts w)
    (hbreak : Breaks text) :
    scanDirective d ⟨w ++ text, false⟩ = (some (d.kept w), ⟨text, false⟩) := by
  obtain ⟨c, r, hcons, hc⟩ := hw.head
  obtain ⟨b, text, rfl, hb⟩ := hbreak
  have hskip : Stream.skipSpace ⟨w ++ b :: text, false⟩ = ⟨w ++ b :: text, false⟩ := by
    rw [hcons]
    exact @skipSpace_word [] _ _ (fun _ h => absurd h List.not_mem_nil) hc false
  cases d with
  | space => exact absurd hw id
  | word keep width =>
    obtain ⟨-, hspace, hwidth⟩ := hw
    rw [scanDirective, hskip, take_run false (fun d hd => by simp [hspace d hd]) (by simp [hb]) hwidth, hcons]
    rfl
  | set keep width ranges =>
    obtain ⟨-, hin, hwidth, hout⟩ := hw
    rw [scanDirective, take_run false (fun d hd => (hin d hd).2) (hout b (isSpace_iff.mp hb))
      (fun n hn => by rw [← Option.some.inj hn]; exact hwidth), hcons]
    rfl
  | unsigned =>
    obtain ⟨-, hdigit⟩ := hw
    have hsign : Stream.takeSign ⟨w ++ b :: text, false⟩ = ([], ⟨w ++ b :: text, false⟩) := by
      have hdc : c.isDigit = true := hdigit c (hcons ▸ List.mem_cons_self)
      have hno : (c == '+' || c == '-') = false := by
        simp [digit_ne hdc (d := '+') (by decide), digit_ne hdc (d := '-') (by decide)]
      rw [hcons]
      exact take_run (w := []) false (fun _ h => absurd h List.not_mem_nil) hno (by simp)
    have hbd : b.isDigit = false := by
      by_contra hdigit'
      rw [not_isSpace_of_isDigit (by simpa using hdigit')] at hb
      cases hb
    rw [scanDirective, hskip, hsign]
    dsimp only
    rw [take_run false hdigit hbd (by simp), hcons]
    rfl

/-- One call reads one row, and goes on with the rest of the format behind it. -/
theorem fscanf_of_reads {cols : List Directive} {text rest : Text} {ws : List Text}
    (h : Reads cols text rest ws) (ds : List Directive) :
    fscanf (spaced cols ++ ds) ⟨text, false⟩ =
      (ws ++ (fscanf ds ⟨rest, false⟩).1, (fscanf ds ⟨rest, false⟩).2) := by
  induction h with
  | nil hrest => rfl
  | @cons d cols blank w text rest ws hblank hw hbreak htail ih =>
    obtain ⟨c, r, rfl, hc⟩ := hw.head
    have hskip : scanDirective .space ⟨blank ++ c :: r ++ text, false⟩ =
        (some [], ⟨c :: r ++ text, false⟩) := by
      rw [List.append_assoc]
      exact congrArg _ (skipSpace_word hblank hc false)
    have hformat : spaced (d :: cols) ++ ds = .space :: d :: (spaced cols ++ ds) := rfl
    rw [hformat, fscanf, hskip]
    dsimp only
    rw [fscanf, scanDirective_word hw hbreak]
    dsimp only
    rw [ih]
    simp

/-- White space before `%s` changes nothing. -/
theorem fscanf_space_word (keep : Bool) (width : Option Nat) (ds : List Directive) (s : Stream) :
    fscanf (.space :: .word keep width :: ds) s = fscanf (.word keep width :: ds) s := by
  have hscan : scanDirective (.word keep width) s.skipSpace = scanDirective (.word keep width) s := by
    rw [scanDirective, scanDirective, skipSpace_skipSpace]
  rw [fscanf]
  show (match fscanf (.word keep width :: ds) s.skipSpace with | (ws, s) => ([] ++ ws, s)) = _
  rw [fscanf, fscanf, hscan]
  rfl

/-! ## Progress -/

theorem length_take (p : Char → Bool) (width : Option Nat) (s : Stream) :
    (s.take p width).1.length + (s.take p width).2.rest.length = s.rest.length := by
  have hle : (width.elim (s.rest.takeWhile p) (s.rest.takeWhile p).take).length ≤
      s.rest.length := by
    refine Nat.le_trans ?_ (List.takeWhile_sublist p).length_le
    cases width with
    | none => exact Nat.le_refl _
    | some n => exact List.length_take_le' n _
  unfold Stream.take
  simp only [List.length_drop]
  omega

/-- A conversion takes nothing back, and takes something when it assigns. -/
theorem length_scanDirective (d : Directive) (s : Stream) :
    (scanDirective d s).2.rest.length ≤ s.rest.length ∧
      ∀ v vs, (scanDirective d s).1 = some (v :: vs) →
        (scanDirective d s).2.rest.length < s.rest.length := by
  have hskip : s.skipSpace.rest.length ≤ s.rest.length := by
    rw [skipSpace_eq]
    exact List.length_dropWhile_le _ _
  cases d with
  | space => exact ⟨hskip, fun v vs h => by cases h⟩
  | word keep width =>
    have hlen := length_take (fun c => !isSpace c) width s.skipSpace
    rw [scanDirective]
    generalize s.skipSpace.take (fun c => !isSpace c) width = r at hlen ⊢
    obtain ⟨w, s'⟩ := r
    cases w with
    | nil => exact ⟨by simp only [List.length_nil] at hlen; dsimp only; omega, fun v vs h => by cases h⟩
    | cons c w =>
      simp only [List.length_cons] at hlen
      exact ⟨by dsimp only; omega, fun v vs _ => by dsimp only; omega⟩
  | set keep width ranges =>
    have hlen := length_take (inRanges ranges) (some width) s
    rw [scanDirective]
    generalize s.take (inRanges ranges) (some width) = r at hlen ⊢
    obtain ⟨w, s'⟩ := r
    cases w with
    | nil => exact ⟨by simp only [List.length_nil] at hlen; dsimp only; omega, fun v vs h => by cases h⟩
    | cons c w =>
      simp only [List.length_cons] at hlen
      exact ⟨by dsimp only; omega, fun v vs _ => by dsimp only; omega⟩
  | unsigned =>
    have hsign := length_take (fun c => c == '+' || c == '-') (some 1) s.skipSpace
    rw [scanDirective, Stream.takeSign]
    generalize s.skipSpace.take (fun c => c == '+' || c == '-') (some 1) = q at hsign ⊢
    obtain ⟨sign, s1⟩ := q
    have hlen := length_take Char.isDigit none s1
    dsimp only at hsign ⊢
    generalize s1.take Char.isDigit none = r at hlen ⊢
    obtain ⟨w, s'⟩ := r
    cases w with
    | nil => exact ⟨by simp only [List.length_nil] at hlen; dsimp only; omega, fun v vs h => by cases h⟩
    | cons c w =>
      simp only [List.length_cons] at hlen
      exact ⟨by dsimp only; omega, fun v vs _ => by dsimp only; omega⟩

/-- So does a whole call. -/
theorem length_fscanf (format : List Directive) (s : Stream) :
    (fscanf format s).2.rest.length ≤ s.rest.length ∧
      ((fscanf format s).1 ≠ [] → (fscanf format s).2.rest.length < s.rest.length) := by
  induction format generalizing s with
  | nil => exact ⟨Nat.le_refl _, fun h => absurd rfl h⟩
  | cons d ds ih =>
    have hone := length_scanDirective d s
    rw [fscanf]
    generalize scanDirective d s = r at hone ⊢
    obtain ⟨vs, s'⟩ := r
    cases vs with
    | none => exact ⟨hone.1, fun h => absurd rfl h⟩
    | some vs =>
      have hrest := ih s'
      dsimp only at hone ⊢
      refine ⟨Nat.le_trans hrest.1 hone.1, fun hne => ?_⟩
      cases vs with
      | nil => exact Nat.lt_of_lt_of_le (hrest.2 hne) hone.1
      | cons v vs => exact Nat.lt_of_le_of_lt hrest.1 (hone.2 v vs rfl)

/-- A call takes something or has met the end. -/
def Progresses (s s' : Stream) : Prop := s'.eof = true ∨ s'.rest.length < s.rest.length

theorem take_ne_nil {p : Char → Bool} {width : Option Nat} {c : Char} (hc : p c = true)
    (hwidth : width ≠ some 0) (r : Text) (e : Bool) :
    (Stream.take p width ⟨c :: r, e⟩).1 ≠ [] := by
  unfold Stream.take
  dsimp only
  rw [List.takeWhile_cons_of_pos hc]
  cases width with
  | none => exact List.cons_ne_nil _ _
  | some n =>
    cases n with
    | zero => exact absurd rfl hwidth
    | succ n => exact List.cons_ne_nil _ _

/-- A call whose format begins with `%s`. -/
theorem progresses_word {width : Option Nat} (hwidth : width ≠ some 0) (keep : Bool)
    (ds : List Directive) (s : Stream) :
    Progresses s (fscanf (.word keep width :: ds) s).2 := by
  have hskip : s.skipSpace.rest.length ≤ s.rest.length := by
    rw [skipSpace_eq]
    exact List.length_dropWhile_le _ _
  rw [fscanf, scanDirective]
  cases hrest : s.skipSpace.rest with
  | nil =>
    -- only white space was left
    have hdrop : s.rest.dropWhile isSpace = [] := by rw [← hrest, skipSpace_eq]
    have hend : s.skipSpace = ⟨[], true⟩ := by
      rw [skipSpace_eq, hdrop]
      simp
    have htake : Stream.take (fun c => !isSpace c) width ⟨[], true⟩ = ([], ⟨[], true⟩) := by
      unfold Stream.take
      cases width <;> simp
    rw [hend, htake]
    exact Or.inl rfl
  | cons c r =>
    have hc : (!isSpace c) = true := by
      have hhead := List.head?_dropWhile_not isSpace s.rest
      have hdrop : s.rest.dropWhile isSpace = c :: r := by rw [← hrest, skipSpace_eq]
      rw [hdrop] at hhead
      simpa using hhead
    have hlen := length_take (fun c => !isSpace c) width s.skipSpace
    have hne := take_ne_nil (p := fun c => !isSpace c) hc hwidth r s.skipSpace.eof
    rw [← hrest] at hne
    generalize s.skipSpace.take (fun c => !isSpace c) width = q at hlen hne ⊢
    obtain ⟨w, s'⟩ := q
    cases w with
    | nil => exact absurd rfl hne
    | cons d w =>
      refine Or.inr (Nat.lt_of_le_of_lt (length_fscanf ds s').1 ?_)
      simp only [List.length_cons] at hlen
      omega

/-- A loop whose calls take something, or meet the end, comes to an end. -/
theorem readRows_isSome {format : List Directive} {go : List Text → Bool}
    (hprogress : ∀ s, go (fscanf format s).1 = true → Progresses s (fscanf format s).2)
    {fuel : Nat} {s : Stream} (hfuel : s.rest.length + 1 < fuel) :
    (readRows format go fuel s).isSome = true := by
  induction fuel generalizing s with
  | zero => omega
  | succ fuel ih =>
    rw [readRows]
    split
    · rfl
    · split
      · next vs s' hcall =>
        split
        · next hgo =>
          rw [Option.isSome_map]
          have hvs : (fscanf format s).1 = vs := by rw [hcall]
          have hs' : (fscanf format s).2 = s' := by rw [hcall]
          rcases hs' ▸ hprogress s (hvs ▸ hgo) with heof | hlt
          · obtain ⟨k, rfl⟩ : ∃ k, fuel = k + 1 := ⟨fuel - 1, by omega⟩
            rw [readRows, if_pos heof]
            rfl
          · exact ih (by omega)
        · rfl

/-! ## Reading a table -/

theorem length_reads {cols : List Directive} {text rest : Text} {ws : List Text}
    (h : Reads cols text rest ws) :
    rest.length ≤ text.length ∧ (cols ≠ [] → rest.length < text.length) := by
  induction h with
  | nil hrest => exact ⟨Nat.le_refl _, fun h => absurd rfl h⟩
  | @cons d cols blank w text rest ws hblank hw hbreak htail ih =>
    obtain ⟨c, r, rfl, -⟩ := hw.head
    simp only [List.length_append, List.length_cons]
    exact ⟨by omega, fun _ => by omega⟩

/-- White space before a row is no part of it. -/
theorem Reads.dropSpace {d : Directive} {cols : List Directive} {text rest : Text}
    {ws : List Text} (h : Reads (d :: cols) text rest ws) :
    Reads (d :: cols) (text.dropWhile isSpace) rest ws ∧ text.dropWhile isSpace ≠ [] := by
  cases h with
  | @cons _ _ blank w text _ ws hblank hw hbreak htail =>
    obtain ⟨c, r, rfl, hc⟩ := hw.head
    have hdrop : (blank ++ c :: r ++ text).dropWhile isSpace = [] ++ c :: r ++ text := by
      rw [List.append_assoc]
      exact dropWhile_isSpace hblank fun e he => by rw [← Option.some.inj he, hc]
    rw [hdrop]
    exact ⟨.cons (fun _ h => absurd h List.not_mem_nil) hw hbreak htail, by simp⟩

/-- A format that reads one row in a call, perhaps with the white space behind it, and fails at the
    end of the table. -/
structure Follows (format : List Directive) (d : Directive) (cols : List Directive) : Prop where
  row : ∀ {text rest ws}, Reads (d :: cols) text rest ws →
    (fscanf format ⟨text, false⟩).1 = ws ∧
      ((fscanf format ⟨text, false⟩).2 = ⟨rest, false⟩ ∨
        (fscanf format ⟨text, false⟩).2 = Stream.skipSpace ⟨rest, false⟩)
  stop : ∀ {text}, Blank text → fscanf format ⟨text, false⟩ = ([], ⟨[], true⟩)

theorem scanDirective_end {d : Directive} (hd : d ≠ .space) :
    scanDirective d ⟨[], true⟩ = (none, ⟨[], true⟩) := by
  have htake (p : Char → Bool) (width : Option Nat) :
      Stream.take p width ⟨[], true⟩ = ([], ⟨[], true⟩) := by
    unfold Stream.take
    cases width <;> simp
  have hskip : Stream.skipSpace ⟨[], true⟩ = ⟨[], true⟩ := skipSpace_blank (by simp [Blank]) true
  cases d with
  | space => exact absurd rfl hd
  | word keep width => rw [scanDirective, hskip, htake]
  | set keep width ranges => rw [scanDirective, htake]
  | unsigned =>
    rw [scanDirective, hskip, Stream.takeSign, htake]
    dsimp only
    rw [htake]

/-- Formats that differ from the columns by white space before the first and behind the last. -/
theorem Follows.of_spaced {format : List Directive} {d : Directive} {cols tail : List Directive}
    (hd : d ≠ .space) (htail : tail = [] ∨ tail = [.space])
    (hformat : ∀ s, fscanf format s = fscanf (spaced (d :: cols) ++ tail) s) :
    Follows format d cols where
  row {text rest ws} h := by
    rw [hformat, fscanf_of_reads h]
    rcases htail with rfl | rfl
    · exact ⟨List.append_nil ws, Or.inl rfl⟩
    · exact ⟨List.append_nil ws, Or.inr rfl⟩
  stop {text} hblank := by
    rw [hformat]
    show fscanf (.space :: d :: (spaced cols ++ tail)) ⟨text, false⟩ = _
    rw [fscanf, scanDirective, skipSpace_blank hblank]
    dsimp only
    rw [fscanf, scanDirective_end hd]
    rfl

/-- The rows up to the first that `go` does not accept, and this one. -/
def upTo (go : List Text → Bool) : List (List Text) → List (List Text)
  | [] => []
  | ws :: rows => if go ws then ws :: upTo go rows else [ws]

/-- The loop reads the rows of the table one by one; the call at its end may add one without
    assignments. -/
theorem readRows_of_table {format : List Directive} {d : Directive} {cols : List Directive}
    (hformat : Follows format d cols) (go : List Text → Bool) {text : Text}
    {rows : List (List Text)} (h : Table (d :: cols) text rows) {fuel : Nat}
    (hfuel : text.length + 1 < fuel) {s : Stream}
    (hs : s = ⟨text, false⟩ ∨ s = Stream.skipSpace ⟨text, false⟩) :
    ∃ extra, (extra = [] ∨ extra = [[]]) ∧
      readRows format go fuel s = some (upTo go (rows ++ extra)) := by
  induction h generalizing fuel s with
  | @nil text hblank =>
    obtain ⟨k, rfl⟩ : ∃ k, fuel = k + 2 := ⟨fuel - 2, by omega⟩
    rcases hs with rfl | rfl
    · refine ⟨[[]], Or.inr rfl, ?_⟩
      rw [readRows, if_neg Bool.false_ne_true, hformat.stop hblank]
      dsimp only
      rw [readRows, if_pos rfl]
      show _ = some (upTo go [[]])
      rw [upTo]
      split <;> rfl
    · refine ⟨[], Or.inl rfl, ?_⟩
      rw [skipSpace_blank hblank, readRows, if_pos rfl]
      rfl
  | @cons text rest ws rows hrow htail ih =>
    obtain ⟨k, rfl⟩ : ∃ k, fuel = k + 1 := ⟨fuel - 1, by omega⟩
    have hlen := (length_reads hrow).2 (List.cons_ne_nil _ _)
    -- the row is read from its beginning, with the white space before it or without
    obtain ⟨text', rfl, hrow'⟩ : ∃ text', s = ⟨text', false⟩ ∧ Reads (d :: cols) text' rest ws := by
      rcases hs with rfl | rfl
      · exact ⟨text, rfl, hrow⟩
      · obtain ⟨hdropped, hne⟩ := hrow.dropSpace
        refine ⟨_, ?_, hdropped⟩
        rw [skipSpace_eq]
        simp [hne]
    obtain ⟨hws, hnext⟩ := hformat.row hrow'
    obtain ⟨extra, hextra, hrest⟩ := ih (show rest.length + 1 < k by omega) hnext
    refine ⟨extra, hextra, ?_⟩
    rw [readRows, if_neg Bool.false_ne_true]
    dsimp only
    rw [hws, hrest, List.cons_append, upTo]
    split <;> rfl

/-- A loop that is left only at the row it looks for finds the first such row. -/
theorem findSome?_upTo {β : Type} {f : List Text → Option β} (hf : f [] = none)
    {go : List Text → Bool} {rows extra : List (List Text)} (hextra : extra = [] ∨ extra = [[]])
    (hgo : ∀ ws ∈ rows, f ws = none → go ws = true) :
    (upTo go (rows ++ extra)).findSome? f = rows.findSome? f := by
  induction rows with
  | nil =>
    rcases hextra with rfl | rfl
    · rfl
    · show (upTo go [[]]).findSome? f = none
      unfold upTo
      split <;> simp [upTo, hf]
  | cons ws rows ih =>
    have hrest := ih fun vs hvs => hgo vs (List.mem_cons_of_mem ws hvs)
    rw [List.cons_append, upTo, List.findSome?_cons]
    cases hws : f ws with
    | none => rw [if_pos (hgo ws List.mem_cons_self hws), List.findSome?_cons, hws, hrest]
    | some b => split <;> rw [List.findSome?_cons, hws]

/-! ## What is assigned -/

/-- What a conversion can assign, on any text. -/
def Directive.Yields : Directive → Text → Prop
  | .space, _ => False
  | .word keep width, w =>
    keep = true ∧ w ≠ [] ∧ (∀ c ∈ w, isSpace c = false) ∧ ∀ n ∈ width, w.length ≤ n
  | .set keep width ranges, w =>
    keep = true ∧ w ≠ [] ∧ (∀ c ∈ w, inRanges ranges c = true) ∧ w.length ≤ width
  | .unsigned, _ => True

/-- The conversions that assign. -/
def Directive.keeps : Directive → Bool
  | .space => false
  | .word keep _ => keep
  | .set keep _ _ => keep
  | .unsigned => true

theorem take_fst (p : Char → Bool) (width : Option Nat) (s : Stream) :
    (∀ c ∈ (s.take p width).1, p c = true) ∧ ∀ n ∈ width, (s.take p width).1.length ≤ n := by
  unfold Stream.take
  dsimp only
  cases width with
  | none => exact ⟨fun c hc => List.mem_takeWhile_imp hc, by simp⟩
  | some n =>
    refine ⟨fun c hc => List.mem_takeWhile_imp (List.mem_of_mem_take hc), fun k hk => ?_⟩
    rw [← Option.some.inj hk]
    exact List.length_take_le n _

theorem scanDirective_yields {d : Directive} {s s' : Stream} {vs : List Text}
    (h : scanDirective d s = (some vs, s')) :
    (d.keeps = false ∧ vs = []) ∨ ∃ v, d.keeps = true ∧ vs = [v] ∧ d.Yields v := by
  cases d with
  | space =>
    injection h with h1 h2
    exact Or.inl ⟨rfl, (Option.some.inj h1).symm⟩
  | word keep width =>
    have htaken := take_fst (fun c => !isSpace c) width s.skipSpace
    rw [scanDirective] at h
    generalize s.skipSpace.take (fun c => !isSpace c) width = q at h htaken
    obtain ⟨w, s1⟩ := q
    cases w with
    | nil => cases h
    | cons c w =>
      injection h with h1 h2
      obtain rfl := Option.some.inj h1
      cases keep with
      | false => exact Or.inl ⟨rfl, rfl⟩
      | true =>
        refine Or.inr ⟨c :: w, rfl, rfl, rfl, List.cons_ne_nil _ _, fun e he => ?_, htaken.2⟩
        simpa using htaken.1 e he
  | set keep width ranges =>
    have htaken := take_fst (inRanges ranges) (some width) s
    rw [scanDirective] at h
    generalize s.take (inRanges ranges) (some width) = q at h htaken
    obtain ⟨w, s1⟩ := q
    cases w with
    | nil => cases h
    | cons c w =>
      injection h with h1 h2
      obtain rfl := Option.some.inj h1
      cases keep with
      | false => exact Or.inl ⟨rfl, rfl⟩
      | true =>
        exact Or.inr ⟨c :: w, rfl, rfl, rfl, List.cons_ne_nil _ _, htaken.1, htaken.2 width rfl⟩
  | unsigned =>
    rw [scanDirective] at h
    dsimp only at h
    split at h
    · cases h
    · injection h with h1 h2
      obtain rfl := Option.some.inj h1
      exact Or.inr ⟨_, rfl, rfl, trivial⟩

/-- Whatever the text, the values are what the conversions that assign can yield, in order. -/
theorem fscanf_yields (format : List Directive) (s : Stream) :
    ∃ ds, ds <+: format.filter Directive.keeps ∧
      List.Forall₂ Directive.Yields ds (fscanf format s).1 := by
  induction format generalizing s with
  | nil => exact ⟨[], List.nil_prefix, .nil⟩
  | cons d format ih =>
    rw [fscanf]
    cases hscan : scanDirective d s with
    | mk vs s' =>
      cases vs with
      | none => exact ⟨[], List.nil_prefix, .nil⟩
      | some vs =>
        obtain ⟨ds, hprefix, hyields⟩ := ih s'
        rcases scanDirective_yields hscan with ⟨hkeeps, rfl⟩ | ⟨v, hkeeps, rfl, hv⟩
        · rw [List.filter_cons_of_neg (by simp [hkeeps])]
          exact ⟨ds, hprefix, hyields⟩
        · rw [List.filter_cons_of_pos hkeeps]
          exact ⟨d :: ds, List.cons_prefix_cons.mpr ⟨rfl, hprefix⟩, .cons hv hyields⟩

/-- All rows of a loop are results of calls. -/
theorem mem_readRows {format : List Directive} {go : List Text → Bool} {fuel : Nat} {s : Stream}
    {rows : List (List Text)} (h : readRows format go fuel s = some rows) {ws : List Text}
    (hws : ws ∈ rows) : ∃ s', (fscanf format s').1 = ws := by
  induction fuel generalizing s rows with
  | zero => cases h
  | succ fuel ih =>
    rw [readRows] at h
    split at h
    · obtain rfl := Option.some.inj h
      cases hws
    · split at h
      · next vs s' hcall =>
        have hvs : (fscanf format s).1 = vs := by rw [hcall]
        split at h
        · obtain ⟨rest, hrest, rfl⟩ := Option.map_eq_some_iff.mp h
          rcases List.mem_cons.mp hws with rfl | hws
          · exact ⟨s, hvs⟩
          · exact ih hrest hws
        · obtain rfl := Option.some.inj h
          obtain rfl := List.mem_singleton.mp hws
          exact ⟨s, hvs⟩

theorem upTo_true (rows : List (List Text)) : upTo (fun _ => true) rows = rows := by
  induction rows with
  | nil => rfl
  | cons ws rows ih => rw [upTo, if_pos rfl, ih]

end Wifidog.Scanf
