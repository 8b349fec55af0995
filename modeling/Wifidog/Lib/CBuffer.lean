/-
  Splitting a C string in its buffer, as `strsep` does, and reading a line into one.

  A buffer is a list of characters with a NUL behind every string in it, a pointer into it is an
  offset. `strsep` overwrites the first separator behind the running pointer with NUL and moves
  the pointer past it. `strsepLoop` is the usual loop around it,
  `while ((tok = strsep (&running, "d")) != NULL) body`, where the body may write to the buffer
  as well. `fgets` reads up to the end of the line or until the buffer is full.

  Proved: what a call finds (`strsep_found`, `strsep_last`), and `strsepLoop_rule`: a loop over a
  text of pieces between separators runs its body once for each piece, in order, with the text
  behind the piece still untouched.
-/
import Wifidog.Lib.CText

namespace Wifidog.CText

/-- The string that starts at offset `off`. -/
def cstrAt (buf : Text) (off : Nat) : Text := (buf.drop off).takeWhile (· != '\x00')

/-- `strsep (&running, "d")`: the token, the new `running`, and the buffer. -/
def strsep (buf : Text) (running : Option Nat) (d : Char) : Option Nat × Option Nat × Text :=
  match running with
  | none => (none, none, buf)
  | some start =>
    match (cstrAt buf start).findIdx? (· == d) with
    | some i => (some start, some (start + i + 1), buf.set (start + i) '\x00')
    | none => (some start, none, buf)

/-- `while ((tok = strsep (&running, "d")) != NULL) body`, at most `fuel` rounds. -/
def strsepLoop {σ : Type} (d : Char) (body : Nat → Text → σ → Text × σ) :
    Nat → Option Nat → Text → σ → Text × σ
  | 0, _, buf, s => (buf, s)
  | fuel + 1, running, buf, s =>
    match strsep buf running d with
    | (none, _, buf') => (buf', s)
    | (some tok, running', buf') =>
      let (buf'', s') := body tok buf' s
      strsepLoop d body fuel running' buf'' s'

/-! ## Strings in a buffer -/

theorem nul_not_mem_cstrAt (buf : Text) (off : Nat) : '\x00' ∉ cstrAt buf off := by
  intro h
  simpa using List.mem_takeWhile_imp h

theorem cstrAt_of_not_mem {w : Text} (h : '\x00' ∉ w) : cstrAt w 0 = w := by
  unfold cstrAt
  rw [List.drop_zero, List.takeWhile_eq_self_iff]
  intro c hc
  have hne : c ≠ '\x00' := ne_of_mem_of_not_mem hc h
  simpa using hne

theorem cstrAt_append {w : Text} (h : '\x00' ∉ w) (pre rest : Text) :
    cstrAt (pre ++ (w ++ '\x00' :: rest)) pre.length = w := by
  unfold cstrAt
  rw [List.drop_left, List.takeWhile_append_of_pos, List.takeWhile_cons_of_neg (by simp),
    List.append_nil]
  intro c hc
  have hne : c ≠ '\x00' := ne_of_mem_of_not_mem hc h
  simpa using hne

/-- A string that reaches past the first terminator ends there. -/
theorem cstrAt_append_of_le {w : Text} (h : '\x00' ∉ w) {k : Nat} (hk : k ≤ w.length)
    (rest : Text) : cstrAt (w ++ '\x00' :: rest) k = w.drop k := by
  have hdrop : '\x00' ∉ w.drop k := fun hmem => h (List.mem_of_mem_drop hmem)
  have hat := cstrAt_append hdrop (w.take k) rest
  rwa [← List.append_assoc, List.take_append_drop, List.length_take_of_le hk] at hat

/-- A text that is filled up with NULs ends with the text. -/
theorem cstrAt_padded {w : Text} (h : '\x00' ∉ w) (n k : Nat) :
    cstrAt (w ++ List.replicate n '\x00') k = w.drop k := by
  have hall : ∀ c ∈ w.drop k, (c != '\x00') = true := by
    intro c hc
    simpa using ne_of_mem_of_not_mem (List.mem_of_mem_drop hc) h
  have hzeros : (List.drop (k - w.length) (List.replicate n '\x00')).takeWhile (· != '\x00') =
      [] := by
    rw [List.drop_replicate]
    cases n - (k - w.length) <;> simp [List.replicate_succ]
  unfold cstrAt
  rw [List.drop_append, List.takeWhile_append_of_pos hall, hzeros, List.append_nil]

/-! ## `strsep` -/

theorem findIdx?_of_not_mem {w : Text} {d : Char} (h : d ∉ w) :
    w.findIdx? (· == d) = none := by
  rw [List.findIdx?_eq_none_iff]
  intro c hc
  simpa using ne_of_mem_of_not_mem hc h

theorem strsep_found {w : Text} {d : Char} (h0 : '\x00' ∉ w) (hd : d ∉ w) (hd0 : d ≠ '\x00')
    (pre rest : Text) :
    strsep (pre ++ (w ++ d :: rest)) (some pre.length) d =
      (some pre.length, some (pre.length + w.length + 1), pre ++ (w ++ '\x00' :: rest)) := by
  have hstr : cstrAt (pre ++ (w ++ d :: rest)) pre.length =
      w ++ d :: rest.takeWhile (· != '\x00') := by
    unfold cstrAt
    rw [List.drop_left, List.takeWhile_append_of_pos,
      List.takeWhile_cons_of_pos (by simpa using hd0)]
    intro c hc
    simpa using ne_of_mem_of_not_mem hc h0
  have hfind : (w ++ d :: rest.takeWhile (· != '\x00')).findIdx? (· == d) = some w.length := by
    rw [List.findIdx?_append, findIdx?_of_not_mem hd, List.findIdx?_cons]
    simp
  have hset : (pre ++ (w ++ d :: rest)).set (pre.length + w.length) '\x00' =
      pre ++ (w ++ '\x00' :: rest) := by
    rw [← List.append_assoc, ← List.length_append, List.set_append_right _ _ (Nat.le_refl _)]
    simp
  unfold strsep
  simp only [hstr, hfind, hset]

theorem strsep_last {w : Text} {d : Char} (h0 : '\x00' ∉ w) (hd : d ∉ w) (pre rest : Text) :
    strsep (pre ++ (w ++ '\x00' :: rest)) (some pre.length) d =
      (some pre.length, none, pre ++ (w ++ '\x00' :: rest)) := by
  unfold strsep
  simp only [cstrAt_append h0, findIdx?_of_not_mem hd]

/-! ## The loop -/

theorem strsepLoop_none {σ : Type} (d : Char) (body : Nat → Text → σ → Text × σ) (fuel : Nat)
    (buf : Text) (s : σ) : strsepLoop d body fuel none buf s = (buf, s) := by
  cases fuel with
  | zero => rfl
  | succ fuel => rfl

/-- What every round keeps, the loop keeps, whatever is in the buffer. -/
theorem strsepLoop_inv {σ : Type} {d : Char} {body : Nat → Text → σ → Text × σ} (P : σ → Prop)
    (hbody : ∀ tok buf s, P s → P (body tok buf s).2) (fuel : Nat) (running : Option Nat)
    (buf : Text) {s : σ} (hs : P s) : P (strsepLoop d body fuel running buf s).2 := by
  induction fuel generalizing running buf s with
  | zero => exact hs
  | succ fuel ih =>
    unfold strsepLoop
    split
    · exact hs
    · next tok _ buf' _ => exact ih _ _ (hbody tok buf' s hs)

section Loop
variable {σ : Type} {d : Char} {body : Nat → Text → σ → Text × σ} (hd0 : d ≠ '\x00')
  {I : List Text → Text → σ → Prop}
  (hbody : ∀ done pre w rest s, I done pre s → '\x00' ∉ w → d ∉ w → ∃ w' s',
    body pre.length (pre ++ (w ++ '\x00' :: rest)) s = (pre ++ (w' ++ '\x00' :: rest), s') ∧
      w'.length = w.length ∧ I (done ++ [w]) (pre ++ (w' ++ ['\x00'])) s')
include hd0 hbody

/-- `I done pre s` relates the pieces seen so far, what has become of the buffer in front of the
    running pointer, and the other variables of the loop. -/
theorem strsepLoop_rule {ws : List Text} (hne : ws ≠ []) (h0 : ∀ w ∈ ws, '\x00' ∉ w)
    (hd : ∀ w ∈ ws, d ∉ w) {fuel : Nat} (hfuel : ws.length < fuel) {done : List Text}
    {pre : Text} {s : σ} (hI : I done pre s) (rest : Text) :
    ∃ pre' s', strsepLoop d body fuel (some pre.length)
        (pre ++ ([d].intercalate ws ++ '\x00' :: rest)) s = (pre' ++ rest, s') ∧
      I (done ++ ws) pre' s' := by
  induction ws generalizing fuel done pre s with
  | nil => exact absurd rfl hne
  | cons w ws ih =>
    obtain ⟨fuel, rfl⟩ : ∃ n, fuel = n + 1 := ⟨fuel - 1, by simp at hfuel; omega⟩
    have hw0 := h0 w List.mem_cons_self
    have hwd := hd w List.mem_cons_self
    cases ws with
    | nil =>
      obtain ⟨w', s', hrun, hlen, hI'⟩ := hbody done pre w rest s hI hw0 hwd
      refine ⟨pre ++ (w' ++ ['\x00']), s', ?_, hI'⟩
      rw [List.intercalate_singleton, strsepLoop, strsep_last hw0 hwd]
      simp only [hrun]
      rw [strsepLoop_none]
      simp
    | cons v vs =>
      obtain ⟨w', s', hrun, hlen, hI'⟩ := hbody done pre w ([d].intercalate (v :: vs) ++
        '\x00' :: rest) s hI hw0 hwd
      obtain ⟨pre', t, hloop, hfin⟩ := ih (by simp) (fun u hu => h0 u (List.mem_cons_of_mem w hu))
        (fun u hu => hd u (List.mem_cons_of_mem w hu)) (Nat.lt_of_succ_lt_succ hfuel) hI'
      refine ⟨pre', t, ?_, by simpa using hfin⟩
      have hbuf : pre ++ ([d].intercalate (w :: v :: vs) ++ '\x00' :: rest) =
          pre ++ (w ++ d :: ([d].intercalate (v :: vs) ++ '\x00' :: rest)) := by
        rw [List.intercalate_cons_cons]
        simp
      have hpre : (pre ++ (w' ++ ['\x00'])).length = pre.length + w.length + 1 := by
        simp only [List.length_append, List.length_singleton, hlen]
        omega
      have hsplit : pre ++ (w' ++ '\x00' :: ([d].intercalate (v :: vs) ++ '\x00' :: rest)) =
          pre ++ (w' ++ ['\x00']) ++ ([d].intercalate (v :: vs) ++ '\x00' :: rest) := by simp
      rw [hbuf, strsepLoop, strsep_found hw0 hwd hd0]
      simp only [hrun]
      rw [hsplit, ← hpre, hloop]

end Loop

/-! ## Pieces between separators -/

theorem mem_of_mem_intercalate {d c : Char} {ws : List Text} (h : c ∈ [d].intercalate ws) :
    c = d ∨ ∃ w ∈ ws, c ∈ w := by
  induction ws with
  | nil => cases h
  | cons w ws ih =>
    cases ws with
    | nil =>
      rw [List.intercalate_singleton] at h
      exact Or.inr ⟨w, List.mem_cons_self, h⟩
    | cons v vs =>
      rw [List.intercalate_cons_cons] at h
      simp only [List.mem_append, List.mem_singleton] at h
      rcases h with (h | h) | h
      · exact Or.inr ⟨w, List.mem_cons_self, h⟩
      · exact Or.inl h
      · rcases ih h with h | ⟨u, hu, hc⟩
        · exact Or.inl h
        · exact Or.inr ⟨u, List.mem_cons_of_mem w hu, hc⟩

theorem suffix_intercalate (d : Char) (ws : List Text) (w : Text) :
    w <:+ [d].intercalate (ws ++ [w]) := by
  induction ws with
  | nil => simp
  | cons v vs ih =>
    rw [List.cons_append, List.intercalate_cons_of_ne_nil (by simp)]
    exact ih.trans (List.suffix_append _ _)

/-- A text has at most one piece more than it has characters. -/
theorem length_le_intercalate (d : Char) (ws : List Text) :
    ws.length ≤ ([d].intercalate ws).length + 1 := by
  induction ws with
  | nil => simp
  | cons w ws ih =>
    cases ws with
    | nil => simp
    | cons v vs =>
      rw [List.intercalate_cons_cons]
      simp only [List.length_append, List.length_cons, List.length_nil] at ih ⊢
      omega

/-! ## Lines -/

/-- `fgets`: the line, at most `limit - 1` characters of it, and the rest of the file. -/
def fgets (limit : Nat) (file : Text) : Option (Text × Text) :=
  let n := min ((file.takeWhile (· != '\n')).length + 1) (limit - 1)
  if file.isEmpty then none else some (file.take n, file.drop n)

theorem length_fgets_lt {limit : Nat} (hlimit : 1 < limit) {file line rest : Text}
    (h : fgets limit file = some (line, rest)) : rest.length < file.length := by
  unfold fgets at h
  simp only at h
  split at h
  · cases h
  · rename_i hne
    have hpos : 0 < file.length := List.length_pos_of_ne_nil (by simpa using hne)
    rw [← (Prod.mk.inj (Option.some.inj h)).2, List.length_drop]
    omega

theorem takeWhile_line {line : Text} (h : '\n' ∉ line) (rest : Text) :
    (line ++ '\n' :: rest).takeWhile (· != '\n') = line := by
  rw [List.takeWhile_append_of_pos, List.takeWhile_cons_of_neg (by simp), List.append_nil]
  intro c hc
  simpa using ne_of_mem_of_not_mem hc h

theorem fgets_line {limit : Nat} {line : Text} (h : '\n' ∉ line) (hlen : line.length + 1 < limit)
    (rest : Text) : fgets limit (line ++ '\n' :: rest) = some (line ++ ['\n'], rest) := by
  have hn : min (line.length + 1) (limit - 1) = (line ++ ['\n']).length := by
    simp
    omega
  have hshape : line ++ '\n' :: rest = line ++ ['\n'] ++ rest := by simp
  unfold fgets
  simp only [takeWhile_line h, hn]
  rw [if_neg (by simp), hshape, List.take_left, List.drop_left]

end Wifidog.CText
