/-
  The growing string holds exactly what was appended.

  `Holds p s` says that the string holds the text `s`: it stands at the beginning of the memory
  with its NUL, and `len` is its length. `strncat` looks for that NUL from `len` on, so it finds it
  at once, whatever the memory behind is, and appends there. Appending keeps `Holds`
  (`pstrCat_holds`) and the size a multiple of `MAX_BUF`, and what it writes is inside of the
  memory (`pstrCat_writes`).

  Proved: `pstr_holds_appended`, for every sequence of calls.
-/
import Wifidog.Model.SimpleHttp
import Wifidog.Lib.Runs

namespace Wifidog

open CText Runs

/-! ## The growing string -/

structure Pstr.Holds (p : Pstr) (s : Text) : Prop where
  len : p.len = s.length
  string : '\x00' ∉ s
  memory : ∃ rest, p.buf = s ++ '\x00' :: rest

theorem pstrNew_holds : pstrNew.Holds [] :=
  ⟨rfl, List.not_mem_nil, List.replicate (maxBuf - 1) '\x00', rfl⟩

/-- `strncat` finds the end of the string where it starts to look. -/
theorem Pstr.Holds.end_eq {p : Pstr} {s : Text} (h : p.Holds s) : cstrAt p.buf p.len = [] := by
  obtain ⟨rest, hrest⟩ := h.memory
  rw [hrest, h.len, cstrAt_append_of_le h.string (Nat.le_refl _), List.drop_length]

theorem Pstr.Holds.toString {p : Pstr} {s : Text} (h : p.Holds s) : pstrToString p = s := by
  obtain ⟨rest, hrest⟩ := h.memory
  unfold pstrToString
  rw [hrest, cstrAt_append_of_le h.string (Nat.zero_le _), List.drop_zero]

/-! ## Growth -/

theorem length_pstrGrow (junk : Nat → Char) (p : Pstr) :
    (pstrGrow junk p).buf.length = p.buf.length + maxBuf := by
  simp [pstrGrow]

theorem Pstr.Holds.grow {p : Pstr} {s : Text} (h : p.Holds s) (junk : Nat → Char) :
    (pstrGrow junk p).Holds s := by
  obtain ⟨hlen, hstring, rest, hrest⟩ := h
  refine ⟨hlen, hstring, rest ++ (List.range maxBuf).map fun i => junk (p.buf.length + i), ?_⟩
  simp [pstrGrow, hrest]

/-- The loop makes `n` rounds. -/
structure GrowsFor (junk : Nat → Char) (need : Nat) (p : Pstr) (n : Nat) : Prop where
  before : ∀ m < n, need > ((pstrGrow junk)^[m] p).buf.length
  after : ¬ need > ((pstrGrow junk)^[n] p).buf.length
  result : pstrGrowTo junk need p = (pstrGrow junk)^[n] p

theorem exists_growsFor (junk : Nat → Char) (need : Nat) (p : Pstr) :
    ∃ n, GrowsFor junk need p n := by
  induction p using pstrGrowTo.induct junk need with
  | case1 p hlt ih =>
    obtain ⟨n, hbefore, hafter, hresult⟩ := ih
    refine ⟨n + 1, ?_, hafter, ?_⟩
    · intro m hm
      cases m with
      | zero => exact hlt
      | succ m => exact hbefore m (by omega)
    · rw [pstrGrowTo, if_pos hlt, hresult]
      rfl
  | case2 p hle =>
    refine ⟨0, fun m hm => absurd hm (Nat.not_lt_zero m), hle, ?_⟩
    rw [pstrGrowTo, if_neg hle]
    rfl

theorem Pstr.Holds.grows {p : Pstr} {s : Text} (h : p.Holds s) (junk : Nat → Char) (n : Nat) :
    ((pstrGrow junk)^[n] p).Holds s := by
  induction n generalizing p with
  | zero => exact h
  | succ n ih => exact ih (h.grow junk)

theorem length_grows (junk : Nat → Char) (n : Nat) (p : Pstr) :
    ((pstrGrow junk)^[n] p).buf.length = p.buf.length + n * maxBuf := by
  induction n generalizing p with
  | zero => simp
  | succ n ih =>
    rw [Function.iterate_succ_apply, ih, length_pstrGrow, Nat.add_mul]
    omega

theorem pstrGrowTo_holds (junk : Nat → Char) (need : Nat) {p : Pstr} {s : Text} (h : p.Holds s) :
    (pstrGrowTo junk need p).Holds s ∧ need ≤ (pstrGrowTo junk need p).buf.length := by
  obtain ⟨n, _, hafter, hresult⟩ := exists_growsFor junk need p
  rw [hresult]
  exact ⟨h.grows junk n, by omega⟩

/-! ## Appending -/

/-- Bytes written one after the other take the place of as many bytes. -/
theorem foldl_writes (w : Text) {pre old post : Text} (h : old.length = w.length) :
    (w.mapIdx fun i c => (pre.length + i, c)).foldl (fun b e => b.set e.1 e.2)
      (pre ++ (old ++ post)) = pre ++ (w ++ post) := by
  -- the bytes that are written already go over to `pre`
  induction w generalizing pre old with
  | nil =>
    obtain rfl : old = [] := List.eq_nil_of_length_eq_zero h
    rfl
  | cons c w ih =>
    obtain ⟨d, old, rfl⟩ := List.exists_cons_of_length_eq_add_one h
    have hset : (pre ++ (d :: old ++ post)).set (pre.length + 0) c =
        (pre ++ [c]) ++ (old ++ post) := by
      simp
    have hshift : (fun (i : Nat) (x : Char) => (pre.length + (i + 1), x)) =
        fun i x => ((pre ++ [c]).length + i, x) := by
      funext i x
      simp only [List.length_append, List.length_singleton, Prod.mk.injEq, and_true]
      omega
    rw [List.mapIdx_cons, List.foldl_cons, hset, hshift, ih (by simpa using h)]
    simp

/-- The string after the growth of `pstr_cat`. -/
theorem Pstr.Holds.grown {p : Pstr} {s : Text} (h : p.Holds s) (junk : Nat → Char) (t : Text) :
    ∃ grown : Pstr, pstrGrowTo junk (p.len + t.length + 1) p = grown ∧ grown.Holds s ∧
      s.length + t.length + 1 ≤ grown.buf.length ∧
      t.take (grown.buf.length - grown.len - 1) = t := by
  obtain ⟨hgrown, hroom⟩ := pstrGrowTo_holds junk (p.len + t.length + 1) h
  rw [h.len] at hroom
  refine ⟨_, rfl, hgrown, by rw [h.len]; exact hroom, List.take_of_length_le ?_⟩
  rw [hgrown.len, h.len]
  omega

theorem pstrCat_holds (junk : Nat → Char) {p : Pstr} {s t : Text} (h : p.Holds s)
    (ht : '\x00' ∉ t) : (pstrCat junk p t).Holds (s ++ t) := by
  obtain ⟨grown, hgrow, hgrown, hroom, hcopied⟩ := h.grown junk t
  obtain ⟨rest, hrest⟩ := hgrown.memory
  unfold pstrCat
  rw [hgrow]
  refine ⟨?_, ?_, grown.buf.drop (grown.len + t.length + 1), ?_⟩
  · simp [hgrown.len]
  · simp [hgrown.string, ht]
  · unfold strncat
    simp only [hgrown.end_eq, List.length_nil, Nat.add_zero, hcopied]
    rw [hgrown.len, hrest, List.take_left, List.append_assoc]

/-- The writes of `pstr_cat` begin at the NUL of the string. -/
theorem pstrCatWrites_eq (junk : Nat → Char) {p : Pstr} {s : Text} (h : p.Holds s) (t : Text) :
    pstrCatWrites junk p t = (t ++ ['\x00']).mapIdx fun i c => (s.length + i, c) := by
  obtain ⟨grown, hgrow, hgrown, _, hcopied⟩ := h.grown junk t
  unfold pstrCatWrites strncatWrites
  rw [hgrow]
  simp only [hgrown.end_eq, List.length_nil, Nat.add_zero, hcopied]
  rw [hgrown.len]

/-- They are all inside of the memory, and they are all that changes there. -/
theorem pstrCat_writes (junk : Nat → Char) {p : Pstr} {s : Text} (h : p.Holds s) (t : Text) :
    (∀ e ∈ pstrCatWrites junk p t, e.1 < (pstrCat junk p t).buf.length) ∧
      (pstrCat junk p t).buf = (pstrCatWrites junk p t).foldl (fun b e => b.set e.1 e.2)
        (pstrGrowTo junk (p.len + t.length + 1) p).buf := by
  obtain ⟨grown, hgrow, hgrown, hroom, hcopied⟩ := h.grown junk t
  obtain ⟨rest, hrest⟩ := hgrown.memory
  have hfits : s.length + (t.length + 1) ≤ s.length + ('\x00' :: rest).length := by
    rw [hrest, List.length_append] at hroom
    omega
  -- the memory: the string, as many bytes as are written, and what stays as it is
  have hmemory : grown.buf = s ++ (('\x00' :: rest).take (t.length + 1) ++
      ('\x00' :: rest).drop (t.length + 1)) := by
    rw [List.take_append_drop, hrest]
  have hbuf : (pstrCat junk p t).buf =
      s ++ ((t ++ ['\x00']) ++ ('\x00' :: rest).drop (t.length + 1)) := by
    unfold pstrCat strncat
    rw [hgrow]
    simp only [hgrown.end_eq, List.length_nil, Nat.add_zero, hcopied]
    rw [hgrown.len, hrest, List.take_left, Nat.add_assoc, List.drop_append]
    simp
  have hold : (('\x00' :: rest).take (t.length + 1)).length = (t ++ ['\x00']).length := by
    rw [List.length_take, List.length_append, List.length_singleton]
    omega
  rw [pstrCatWrites_eq junk h, hgrow, hmemory, foldl_writes _ hold]
  refine ⟨fun e he => ?_, hbuf⟩
  obtain ⟨i, hi, rfl⟩ := List.mem_mapIdx.mp he
  rw [hbuf, List.length_append, List.length_append]
  show s.length + i < _
  omega

/-! ## Sequences of calls -/

/-- The string as its users rely on it: the size is a positive number of blocks, and the first
    `len` bytes are `s`, which the NUL behind them ends. -/
structure Pstr.Sound (p : Pstr) (s : Text) : Prop where
  blocks : ∃ k, 0 < k ∧ p.buf.length = k * maxBuf
  room : p.len < p.buf.length
  ended : p.buf[p.len]? = some '\x00'
  earlier : ∀ i < p.len, p.buf[i]? ≠ some '\x00'
  content : p.buf.take p.len = s

/-- What one call does to the memory: the growth ends, every byte is written inside of the
    memory, and nothing else of it changes. -/
structure AppendsInside (junk : Nat → Char) (p : Pstr) (call : PstrCall) (p' : Pstr) : Prop where
  terminates : ∃ n, GrowsFor junk (p.len + call.text.length + 1) p n
  inside : ∀ e ∈ pstrCatWrites junk p call.text, e.1 < p'.buf.length
  written : p'.buf = (pstrCatWrites junk p call.text).foldl (fun b e => b.set e.1 e.2)
    (pstrGrowTo junk (p.len + call.text.length + 1) p).buf

/-- What every sequence of calls keeps. -/
structure Pstr.Built (p : Pstr) (s : Text) : Prop where
  holds : p.Holds s
  blocks : ∃ k, 0 < k ∧ p.buf.length = k * maxBuf

theorem Pstr.Built.sound {p : Pstr} {s : Text} (h : p.Built s) : p.Sound s := by
  obtain ⟨⟨hlen, hstring, rest, hrest⟩, hblocks⟩ := h
  refine ⟨hblocks, ?_, ?_, ?_, ?_⟩
  · rw [hrest, hlen]
    simp
  · rw [hrest, hlen]
    simp
  · intro i hi hnul
    rw [hlen] at hi
    rw [hrest, List.getElem?_append_left hi] at hnul
    exact hstring (List.mem_of_getElem? hnul)
  · rw [hrest, hlen, List.take_left]

/-- `strncat` does not move the end of the memory. -/
theorem length_pstrCat (junk : Nat → Char) {p : Pstr} {s : Text} (h : p.Holds s) (t : Text) :
    (pstrCat junk p t).buf.length = (pstrGrowTo junk (p.len + t.length + 1) p).buf.length := by
  rw [(pstrCat_writes junk h t).2]
  generalize pstrCatWrites junk p t = writes
  generalize (pstrGrowTo junk (p.len + t.length + 1) p).buf = buf
  induction writes generalizing buf with
  | nil => rfl
  | cons e writes ih => rw [List.foldl_cons, ih, List.length_set]

theorem pstrCat_built (junk : Nat → Char) {p : Pstr} {s t : Text} (h : p.Built s)
    (ht : '\x00' ∉ t) : (pstrCat junk p t).Built (s ++ t) := by
  obtain ⟨k, hk, hsize⟩ := h.blocks
  obtain ⟨n, _, _, hresult⟩ := exists_growsFor junk (p.len + t.length + 1) p
  refine ⟨pstrCat_holds junk h.holds ht, k + n, by omega, ?_⟩
  rw [length_pstrCat junk h.holds, hresult, length_grows, hsize, Nat.add_mul]

/-- Every call but a failed `vasprintf` is `pstr_cat` of its text. -/
theorem pstrStep_eq (p : Pstr) (call : PstrCall) (junk : Nat → Char)
    (h : call ≠ .appendSprintf none) :
    pstrStep p (call, junk) = some (pstrCat junk p call.text) := by
  cases call with
  | cat string => rfl
  | appendSprintf formatted =>
    cases formatted with
    | none => exact absurd rfl h
    | some str => rfl

theorem PstrCall.text_ends (call : PstrCall) : '\x00' ∉ call.text := by
  cases call with
  | cat string => exact nul_not_mem_cstrAt string 0
  | appendSprintf formatted => exact nul_not_mem_cstrAt _ 0

theorem pstrStep_built {p p' : Pstr} {s : Text} {call : PstrCall} {junk : Nat → Char}
    (h : p.Built s) (hstep : pstrStep p (call, junk) = some p') :
    p'.Built (s ++ call.text) := by
  have hcall : call ≠ .appendSprintf none := by
    rintro rfl
    cases hstep
  rw [pstrStep_eq p call junk hcall, Option.some.injEq] at hstep
  rw [← hstep]
  exact pstrCat_built junk h call.text_ends

theorem run_built {p p' : Pstr} {s : Text} {calls : List (PstrCall × (Nat → Char))}
    (h : p.Built s) (hrun : run pstrStep p calls = some p') :
    p'.Built (s ++ calls.flatMap fun c => c.1.text) := by
  induction calls generalizing p s with
  | nil =>
    obtain rfl : p = p' := by simpa using hrun
    simpa using h
  | cons c calls ih =>
    obtain ⟨q, hstep, hrest⟩ := run_cons_iff.mp hrun
    have hq := ih (pstrStep_built h hstep) hrest
    rw [List.flatMap_cons, ← List.append_assoc]
    exact hq

/-- After every sequence of calls the string holds what was appended, whatever the memory that
    was added holds, and the next call ends and stays inside of the memory. -/
theorem pstr_holds_appended {calls : List (PstrCall × (Nat → Char))} {p : Pstr}
    (h : run pstrStep pstrNew calls = some p) :
    p.Sound (calls.flatMap fun c => c.1.text) ∧
      ∀ call junk, call ≠ .appendSprintf none →
        ∃ p', pstrStep p (call, junk) = some p' ∧ AppendsInside junk p call p' := by
  have hnew : pstrNew.Built [] := ⟨pstrNew_holds, 1, Nat.one_pos, by simp [pstrNew]⟩
  have hbuilt := run_built hnew h
  rw [List.nil_append] at hbuilt
  refine ⟨hbuilt.sound, fun call junk hcall => ?_⟩
  obtain ⟨hinside, hwritten⟩ := pstrCat_writes junk hbuilt.holds call.text
  exact ⟨_, pstrStep_eq p call junk hcall, exists_growsFor junk _ p, hinside, hwritten⟩

/-- Two calls. -/
theorem pstr_holds_appended_hello :
    ∃ p, run pstrStep pstrNew [(.cat "he".toList, fun _ => 'x'),
        (.appendSprintf (some "llo".toList), fun _ => 'y')] = some p ∧ p.Sound "hello".toList := by
  have hrun := Option.some_get (x := run pstrStep pstrNew [(.cat "he".toList, fun _ => 'x'),
    (.appendSprintf (some "llo".toList), fun _ => 'y')]) rfl
  exact ⟨_, hrun.symm, (pstr_holds_appended hrun.symm).1⟩

end Wifidog
