/-
  The configuration file, line by line.

  `readTo r text` is the reader after the reads that take up the whole of `text`. Reading a file
  goes through the end of each of its lines (`readTo_append`), so what stands behind a line end
  does not change what was read before it, and the reader there is a function of the text before
  it. A line that fits the buffer is one step (`readTo_line`, `readTo_last`).
-/
import Wifidog.Config.Blocks

namespace Wifidog

open CText

/-- A place in a file where a line begins. -/
def LineStart (pre : Text) : Prop := pre = [] ∨ pre.getLast? = some '\n'

instance (pre : Text) : Decidable (LineStart pre) := inferInstanceAs (Decidable (_ ∨ _))

/-- The reader after all of `text`. -/
def readTo (r : Reader) (text : Text) : Option Reader :=
  match _hread : fgets r.mode.limit text with
  | none => some r
  | some (line, rest) =>
    match r.step line with
    | none => none
    | some r' => readTo r' rest
  termination_by text.length
  decreasing_by exact length_fgets_lt r.mode.one_lt_limit _hread

theorem readTo_eq (r : Reader) (text : Text) : readTo r text =
    match fgets r.mode.limit text with
    | none => some r
    | some (line, rest) => (r.step line).bind fun r' => readTo r' rest := by
  rw [readTo]
  split
  · rename_i h
    rw [h]
  · rename_i line rest h
    rw [h]
    cases hstep : r.step line <;> simp only [hstep] <;> rfl

theorem readTo_nil (r : Reader) : readTo r [] = some r := by
  rw [readTo_eq]
  rfl

theorem readLines_eq (r : Reader) (text : Text) :
    readLines r text = (readTo r text).bind Reader.close := by
  induction hn : text.length using Nat.strong_induction_on generalizing r text with
  | _ n ih =>
    rw [readLines, readTo_eq]
    split
    · rename_i h
      rw [h]
      rfl
    · rename_i line rest h
      rw [h]
      cases hstep : r.step line with
      | none => simp only [hstep, Option.bind_none]
      | some r' =>
        simp only [hstep, Option.bind_some]
        exact ih _ (hn ▸ length_fgets_lt r.mode.one_lt_limit h) r' rest rfl

theorem configRead_eq (cfg : FileConfig) (file : Text) :
    configRead cfg file = (readTo ⟨cfg, .top⟩ file).bind Reader.close :=
  readLines_eq _ _

/-! ## One read -/

theorem fgets_last {m : Mode} {line : Text} (h : '\n' ∉ line) (hne : line ≠ [])
    (hlen : line.length < m.limit) : fgets m.limit line = some (line, []) := by
  have htake : line.takeWhile (· != '\n') = line := by
    rw [List.takeWhile_eq_self_iff]
    intro c hc
    simpa using ne_of_mem_of_not_mem hc h
  have hn : line.length ≤ min (line.length + 1) (m.limit - 1) := by omega
  unfold fgets
  simp only [htake]
  rw [if_neg (by simpa using hne), List.take_of_length_le hn, List.drop_of_length_le hn]

theorem readTo_line {r : Reader} {line : Text} (h : '\n' ∉ line)
    (hlen : line.length + 1 < r.mode.limit) (rest : Text) :
    readTo r (line ++ '\n' :: rest) = (r.step (line ++ ['\n'])).bind fun r' => readTo r' rest := by
  rw [readTo_eq, fgets_line h hlen]

theorem readTo_step {r r' : Reader} {line : Text} (h : '\n' ∉ line)
    (hlen : line.length + 1 < r.mode.limit) (hstep : r.step (line ++ ['\n']) = some r')
    (rest : Text) : readTo r (line ++ '\n' :: rest) = readTo r' rest := by
  rw [readTo_line h hlen, hstep, Option.bind_some]

theorem readTo_last {r : Reader} {line : Text} (h : '\n' ∉ line) (hne : line ≠ [])
    (hlen : line.length < r.mode.limit) : readTo r line = r.step line := by
  rw [readTo_eq, fgets_last h hne hlen]
  simp only [readTo_nil, Option.bind_fun_some]

/-! ## Reading goes through every line end -/

/-- A read in a text that goes up to a line end stays in it. -/
theorem fgets_append {m : Mode} {pre : Text} (hne : pre ≠ []) (hstart : LineStart pre)
    (x : Text) : ∃ line rest, fgets m.limit pre = some (line, rest) ∧ LineStart rest ∧
      fgets m.limit (pre ++ x) = some (line, rest ++ x) := by
  have hlast : pre.getLast? = some '\n' := hstart.resolve_left hne
  obtain ⟨front, back, rfl, hfront⟩ :=
    List.eq_append_cons_of_mem (List.mem_of_getLast? hlast)
  obtain ⟨n, hmin⟩ : ∃ n, min (front.length + 1) (m.limit - 1) = n := ⟨_, rfl⟩
  have hn : n ≤ (front ++ '\n' :: back).length := by
    simp
    omega
  refine ⟨(front ++ '\n' :: back).take n, (front ++ '\n' :: back).drop n, ?_, ?_, ?_⟩
  · unfold fgets
    simp only [takeWhile_line hfront, hmin]
    rw [if_neg (by simp)]
  · by_cases hend : (front ++ '\n' :: back).length ≤ n
    · exact Or.inl (List.drop_of_length_le hend)
    · exact Or.inr (by rw [List.getLast?_drop, if_neg hend, hlast])
  · have hshape : (front ++ '\n' :: back) ++ x = front ++ '\n' :: (back ++ x) := by simp
    unfold fgets
    simp only [hshape, takeWhile_line hfront, hmin]
    rw [if_neg (by simp), ← hshape, List.take_append_of_le_length hn,
      List.drop_append_of_le_length hn]

theorem readTo_append {pre : Text} (hstart : LineStart pre) (r : Reader) (x : Text) :
    readTo r (pre ++ x) = (readTo r pre).bind fun r' => readTo r' x := by
  induction hn : pre.length using Nat.strong_induction_on generalizing r pre with
  | _ n ih =>
    by_cases hne : pre = []
    · subst hne
      rw [readTo_nil, List.nil_append, Option.bind_some]
    · obtain ⟨line, rest, hpre, hrest, hall⟩ := fgets_append (m := r.mode) hne hstart x
      rw [readTo_eq r (pre ++ x), readTo_eq r pre, hpre, hall]
      cases hstep : r.step line with
      | none => simp only [hstep, Option.bind_none]
      | some r' =>
        simp only [hstep, Option.bind_some]
        exact ih _ (hn ▸ length_fgets_lt r.mode.one_lt_limit hpre) hrest r' rfl

/-! ## Lines at top level -/

/-- The keyword of a line and the text behind it. -/
def keyAndArgument (s : Text) : Option (Text × Text) := (cutAt ' ' s).or (cutAt '\t' s)

/-- A line without its LF. -/
def configText (cfg : FileConfig) (s : Text) : Option Reader :=
  match keyAndArgument s with
  | none => some ⟨cfg, .top⟩
  | some (key, arg) =>
    let rawarg := arg.dropWhile (· == ' ')
    let p1 := cutArgument rawarg
    if p1 = [] then some ⟨cfg, .top⟩
    else if key.head? = some '#' then some ⟨cfg, .top⟩
    else configOption cfg (configParseToken key) p1 rawarg

theorem configLine_text (cfg : FileConfig) (s : Text) :
    configLine cfg (s ++ ['\n']) = configText cfg s := by
  have hlast : (s ++ ['\n']).getLast? = some '\n' := List.getLast?_concat
  unfold configLine
  simp only [hlast, if_true, List.dropLast_concat]
  rfl

theorem Reader.step_top (cfg : FileConfig) (s : Text) :
    Reader.step ⟨cfg, .top⟩ (s ++ ['\n']) = configText cfg s := configLine_text cfg s

end Wifidog
