/-
  Line endings in the configuration file.

  A file with CR LF should mean what the same file with LF means. The three loops try: a block
  cuts its lines at CR before LF, and `config_read` looks for CR LF behind the argument. But it
  has cut the LF by then, and so the argument keeps its CR; and a block that cuts at the CR leaves
  the LF behind the cut, where an option without a value finds it. `CrSafe` says which lines are
  not touched by this. A file of such lines can have either ending, and every other line is seen
  in some file (`line_endings_iff`).
-/
import Wifidog.Config.Arguments

namespace Wifidog

open CText

/-- The file with CR LF for LF. -/
def crlf (file : Text) : Text := file.flatMap fun c => if c = '\n' then ['\r', '\n'] else [c]

/-- The lines that end in LF. -/
def fileLines (file : Text) : List Text := (file.splitOn '\n').dropLast

/-- `P` holds of every line, with the loop that reads it. -/
def EveryLine (P : Loop → Text → Prop) (r : Reader) : List Text → Prop
  | [] => True
  | line :: rest => P r.mode.loop line ∧
      ∀ r', r.step (line ++ ['\n']) = some r' → EveryLine P r' rest

/-- A line without CR that fits the buffer with either ending. -/
structure EndingLine (loop : Loop) (line : Text) : Prop where
  noNewline : '\n' ∉ line
  noReturn : '\r' ∉ line
  noNul : '\x00' ∉ line
  short : line.length + 2 < loop.limit

/-- What a block finds behind the cut, when the line ends in LF. -/
def lfTail (line : Text) : Text :=
  match line.dropWhile (· != '#') with
  | [] => []
  | _ :: c => c ++ ['\n']

/-- What it finds when the line ends in CR LF. -/
def crTail (line : Text) : Text :=
  match line.dropWhile (· != '#') with
  | [] => ['\n']
  | _ :: c => c ++ ['\r', '\n']

/-- The line means the same with either ending. -/
def CrSafe : Loop → Text → Prop
  | .configRead, line =>
    match keyAndArgument line with
    | none => True
    | some (key, arg) =>
      key.head? = some '#' ∨ ArgumentSafe (configParseToken key) (arg.dropWhile (· == ' '))
  | loop, line => '}' ∈ line ∨ (Bare (line.takeWhile (· != '#')) →
      SameSetting loop ((line.takeWhile (· != '#')).dropWhile isBlank)
        ((lfTail line).dropWhile isBlank) ((crTail line).dropWhile isBlank))

/-! ## One line -/

theorem CrSafe.block {loop : Loop} (h : loop ≠ .configRead) (line : Text) : CrSafe loop line ↔
    '}' ∈ line ∨ (Bare (line.takeWhile (· != '#')) →
      SameSetting loop ((line.takeWhile (· != '#')).dropWhile isBlank)
        ((lfTail line).dropWhile isBlank) ((crTail line).dropWhile isBlank)) := by
  cases loop with
  | configRead => exact absurd rfl h
  | parseAuthServer => exact Iff.rfl
  | parseFirewallRuleset => exact Iff.rfl

section Line

variable {loop : Loop} {line : Text} {r : Reader}

/-- A line of a block with a given cut. -/
theorem EndingLine.step_cut (h : EndingLine loop line) (hloop : r.mode.loop = loop)
    (hblock : loop ≠ .configRead) {e a tail : Text} {d : Char}
    (he : e = ['\n'] ∨ e = ['\r', '\n']) (hshape : line ++ e = a ++ d :: tail)
    (hcut : CutAt d a tail) :
    r.step (line ++ e) = if '}' ∈ line then some r.leave else r.blockStep a tail := by
  have hlimit := loop.limit_le
  have hshort := h.short
  have hend : '\x00' ∉ e ∧ '}' ∉ e ∧ e.length ≤ 2 := by
    rcases he with rfl | rfl <;> decide
  have hmem : ∀ c, c ∈ line ++ e ↔ c ∈ line ∨ c ∈ e := fun c => List.mem_append
  have hnul : '\x00' ∉ a ++ tail := by
    have hline : '\x00' ∉ a ++ d :: tail := by
      rw [← hshape, hmem, not_or]
      exact ⟨h.noNul, hend.1⟩
    simp only [List.mem_append, List.mem_cons, not_or] at hline ⊢
    exact ⟨hline.1, hline.2.2⟩
  have hlen : (a ++ d :: tail).length < maxBuf := by
    rw [← hshape, List.length_append]
    omega
  have hbrace : '}' ∈ a ++ d :: tail ↔ '}' ∈ line := by
    rw [← hshape, hmem]
    simp [hend.2.1]
  rw [hshape, Reader.step_text (by rwa [hloop]) hcut hnul hlen]
  simp only [hbrace]

/-- A line of a block, with either ending. -/
theorem EndingLine.step_block (h : EndingLine loop line) (hloop : r.mode.loop = loop)
    (hblock : loop ≠ .configRead) :
    (r.step (line ++ ['\n']) = if '}' ∈ line then some r.leave
      else r.blockStep (line.takeWhile (· != '#')) (lfTail line)) ∧
    (r.step (line ++ ['\r', '\n']) = if '}' ∈ line then some r.leave
      else r.blockStep (line.takeWhile (· != '#')) (crTail line)) := by
  have hsplit := List.takeWhile_append_dropWhile (p := (· != '#')) (l := line)
  have hfirst : '#' ∉ line.takeWhile (· != '#') := fun hmem => by
    simpa using List.mem_takeWhile_imp hmem
  have hn := h.noNewline
  have hr := h.noReturn
  unfold lfTail crTail
  cases hd : line.dropWhile (· != '#') with
  | nil =>
    -- no comment: the line is cut at its end
    rw [hd, List.append_nil] at hsplit
    rw [hsplit] at hfirst ⊢
    constructor
    · refine h.step_cut hloop hblock (Or.inl rfl) rfl (Or.inr (Or.inr ⟨rfl, ?_, ?_, hn⟩))
      · simpa using hfirst
      · simpa using hr
    · refine h.step_cut hloop hblock (Or.inr rfl) rfl (Or.inr (Or.inl ⟨rfl, ?_, hr⟩))
      simpa using hfirst
  | cons x c =>
    have hx : x = '#' := by
      have hhit := List.head?_dropWhile_not (· != '#') line
      rw [hd] at hhit
      simpa using hhit
    rw [hd, hx] at hsplit
    have hshape : ∀ e : Text, line ++ e = line.takeWhile (· != '#') ++ '#' :: (c ++ e) := by
      intro e
      conv_lhs => rw [← hsplit]
      simp
    constructor
    · exact h.step_cut hloop hblock (Or.inl rfl) (hshape _) (Or.inl ⟨rfl, hfirst⟩)
    · exact h.step_cut hloop hblock (Or.inr rfl) (hshape _) (Or.inl ⟨rfl, hfirst⟩)

/-- A line at top level that ends in CR LF. -/
theorem step_top_cr (cfg : FileConfig) (line : Text) :
    Reader.step ⟨cfg, .top⟩ (line ++ ['\r', '\n']) = configText cfg (line ++ ['\r']) := by
  have hstep := Reader.step_top cfg (line ++ ['\r'])
  rwa [List.append_assoc] at hstep

/-- The argument of a line with a CR. -/
theorem dropWhile_space_cr (arg : Text) :
    (arg ++ ['\r']).dropWhile (· == ' ') = arg.dropWhile (· == ' ') ++ ['\r'] :=
  dropWhile_concat (by decide) arg

theorem dropWhile_space_head (arg : Text) : ∀ c ∈ (arg.dropWhile (· == ' ')).head?, c ≠ ' ' := by
  intro c hc
  have hnot := List.head?_dropWhile_not (· == ' ') arg
  rw [hc] at hnot
  simpa using hnot

/-- A safe line does the same with either ending. -/
theorem EndingLine.step_same (h : EndingLine loop line) (hloop : r.mode.loop = loop)
    (hsafe : CrSafe loop line) {r' : Reader} (hstep : r.step (line ++ ['\n']) = some r') :
    r.step (line ++ ['\r', '\n']) = some r' := by
  by_cases hblock : loop = .configRead
  · obtain ⟨cfg, mode⟩ := r
    subst hblock
    cases mode with
    | authServer f => cases hloop
    | ruleset name => cases hloop
    | top =>
      have hcr : '\n' ∉ line ++ ['\r'] := by simpa using h.noNewline
      rw [Reader.step_top, configText_eq cfg h.noNewline] at hstep
      rw [step_top_cr, configText_eq cfg hcr, keyAndArgument_cr]
      unfold CrSafe at hsafe
      cases hkey : keyAndArgument line with
      | none =>
        rw [hkey] at hstep
        exact hstep
      | some p =>
        obtain ⟨key, arg⟩ := p
        simp only [hkey, Option.map_some] at hstep hsafe ⊢
        by_cases hhead : key.head? = some '#'
        · rw [if_pos hhead] at hstep ⊢
          exact hstep
        · rw [if_neg hhead] at hstep ⊢
          rw [dropWhile_space_cr]
          exact configArgument_same (dropWhile_space_head arg) (hsafe.resolve_left hhead) hstep
  · obtain ⟨hlf, hcr⟩ := h.step_block hloop hblock
    rw [hlf] at hstep
    rw [hcr]
    by_cases hbrace : '}' ∈ line
    · rwa [if_pos hbrace] at hstep ⊢
    · rw [if_neg hbrace] at hstep ⊢
      by_cases hbare : Bare (line.takeWhile (· != '#'))
      · have hsame := ((CrSafe.block hblock line).mp hsafe).resolve_left hbrace hbare
        rw [← hloop] at hsame
        rw [Reader.blockStep_bare _ hbare] at hstep ⊢
        exact Reader.option_same hsame hstep
      · rwa [Reader.blockStep_of_not_bare r hbare (crTail line) (lfTail line)]

end Line

/-! ## Files -/

theorem crlf_append (a b : Text) : crlf (a ++ b) = crlf a ++ crlf b := List.flatMap_append

theorem crlf_last {line : Text} (h : '\n' ∉ line) : crlf line = line := by
  unfold crlf
  rw [List.flatMap_congr (g := fun c => [c]), List.flatMap_singleton']
  intro c hc
  rw [if_neg (ne_of_mem_of_not_mem hc h)]

theorem crlf_line {line : Text} (h : '\n' ∉ line) (rest : Text) :
    crlf (line ++ '\n' :: rest) = (line ++ ['\r']) ++ '\n' :: crlf rest := by
  rw [crlf_append, crlf_last h, List.append_assoc]
  rfl

theorem crlf_lineStart {pre : Text} (h : LineStart pre) : LineStart (crlf pre) := by
  rcases h with rfl | h
  · exact Or.inl rfl
  · obtain ⟨front, rfl⟩ := List.getLast?_eq_some_iff.mp h
    have hend : crlf ['\n'] = ['\r'] ++ ['\n'] := rfl
    refine Or.inr ?_
    rw [crlf_append, hend, ← List.append_assoc, List.getLast?_concat]

theorem fileLines_line {line : Text} (h : '\n' ∉ line) (rest : Text) :
    fileLines (line ++ '\n' :: rest) = line :: fileLines rest := by
  have hall : ∀ c ∈ line, (c == '\n') = false := by
    intro c hc
    simpa using ne_of_mem_of_not_mem hc h
  unfold fileLines
  rw [List.splitOn_eq_splitOnP, List.splitOn_eq_splitOnP,
    List.splitOnP_append_cons_of_forall_mem hall _ (by simp),
    List.dropLast_cons_of_ne_nil (List.splitOnP_ne_nil _ _)]

theorem EveryLine.imp {P Q : Loop → Text → Prop} (himp : ∀ loop line, P loop line → Q loop line)
    {lines : List Text} {r : Reader} (h : EveryLine P r lines) : EveryLine Q r lines := by
  induction lines generalizing r with
  | nil => trivial
  | cons line rest ih => exact ⟨himp _ _ h.1, fun r' hstep => ih (h.2 r' hstep)⟩

/-- Reading a file of safe lines. -/
theorem readTo_crlf {r r' : Reader} {file : Text} (hlines : EveryLine EndingLine r (fileLines file))
    (hsafe : EveryLine CrSafe r (fileLines file)) (hread : readTo r file = some r') :
    readTo r (crlf file) = some r' := by
  induction hn : file.length using Nat.strong_induction_on generalizing r file with
  | _ n ih =>
    by_cases hlf : '\n' ∈ file
    · obtain ⟨line, rest, rfl, hline⟩ := List.eq_append_cons_of_mem hlf
      rw [fileLines_line hline] at hlines hsafe
      have hshort := hlines.1.short
      rw [← Mode.limit_eq] at hshort
      rw [readTo_line hline (by omega)] at hread
      have hcr : '\n' ∉ line ++ ['\r'] := by simpa using hline
      rw [crlf_line hline, readTo_line hcr (by simp; omega), List.append_assoc]
      obtain ⟨r₁, hstep, hrest⟩ := Option.bind_eq_some_iff.mp hread
      have hsame := hlines.1.step_same rfl hsafe.1 hstep
      rw [List.singleton_append, hsame, Option.bind_some]
      exact ih rest.length (by rw [← hn]; simp; omega) (hlines.2 r₁ hstep) (hsafe.2 r₁ hstep)
        hrest rfl
    · rwa [crlf_last hlf]

/-! ## Lines that can have either ending in every file -/

/-- A line that fits and is safe. -/
def Sound (loop : Loop) (line : Text) : Prop := EndingLine loop line ∧ CrSafe loop line

/-- In every file whose other lines are safe, and in which `loop` reads the line, the endings do not
    matter. -/
def EndingsInert (loop : Loop) (line : Text) : Prop :=
  ∀ cfg pre post r out, LineStart pre → readTo ⟨cfg, .top⟩ pre = some r → r.mode.loop = loop →
    EveryLine Sound ⟨cfg, .top⟩ (fileLines pre) →
    (∀ r', r.step (line ++ ['\n']) = some r' → EveryLine Sound r' (fileLines post)) →
    configRead cfg (pre ++ (line ++ '\n' :: post)) = some out →
    configRead cfg (crlf (pre ++ (line ++ '\n' :: post))) = some out

section Inert

variable {loop : Loop} {line : Text}

theorem readTo_sound {r r' : Reader} {file : Text} (h : EveryLine Sound r (fileLines file))
    (hread : readTo r file = some r') : readTo r (crlf file) = some r' :=
  readTo_crlf (h.imp fun _ _ hs => hs.1) (h.imp fun _ _ hs => hs.2) hread

/-- The file with LF, read through the line. -/
theorem configRead_lf (h : EndingLine loop line) {cfg : FileConfig} {pre post : Text} {r : Reader}
    (hstart : LineStart pre) (hpre : readTo ⟨cfg, .top⟩ pre = some r) (hloop : r.mode.loop = loop) :
    configRead cfg (pre ++ (line ++ '\n' :: post)) =
      ((r.step (line ++ ['\n'])).bind fun r' => readTo r' post).bind Reader.close := by
  have hshort := h.short
  rw [← hloop, ← Mode.limit_eq] at hshort
  rw [configRead_eq, readTo_append hstart, hpre, Option.bind_some,
    readTo_line h.noNewline (by omega)]

/-- The file with CR LF, read through the line. -/
theorem configRead_cr (h : EndingLine loop line) {cfg : FileConfig} {pre post : Text} {r : Reader}
    (hstart : LineStart pre) (hpre : readTo ⟨cfg, .top⟩ pre = some r) (hloop : r.mode.loop = loop)
    (hsound : EveryLine Sound ⟨cfg, .top⟩ (fileLines pre)) :
    configRead cfg (crlf (pre ++ (line ++ '\n' :: post))) =
      ((r.step (line ++ ['\r', '\n'])).bind fun r' => readTo r' (crlf post)).bind Reader.close := by
  have hshort := h.short
  rw [← hloop, ← Mode.limit_eq] at hshort
  have hcr : '\n' ∉ line ++ ['\r'] := by simpa using h.noNewline
  rw [configRead_eq, crlf_append, readTo_append (crlf_lineStart hstart), readTo_sound hsound hpre,
    Option.bind_some, crlf_line h.noNewline, readTo_line hcr (by simp; omega), List.append_assoc]
  rfl

theorem CrSafe.inert (hsafe : CrSafe loop line) (h : EndingLine loop line) :
    EndingsInert loop line := by
  intro cfg pre post r out hstart hpre hloop hsound hpost hread
  rw [configRead_lf h hstart hpre hloop] at hread
  rw [configRead_cr h hstart hpre hloop hsound]
  obtain ⟨r', hrest, hclose⟩ := Option.bind_eq_some_iff.mp hread
  obtain ⟨r₁, hstep, hrest⟩ := Option.bind_eq_some_iff.mp hrest
  rw [h.step_same hloop hsafe hstep, Option.bind_some, readTo_sound (hpost r₁ hstep) hrest,
    Option.bind_some, hclose]

end Inert

/-! ## Files in which the other lines are seen -/

theorem CrSafe.argument {line : Text} (key arg : Text)
    (hkey : keyAndArgument line = some (key, arg))
    (hsafe : ArgumentSafe (configParseToken key) (arg.dropWhile (· == ' '))) :
    CrSafe .configRead line := by
  unfold CrSafe
  simp only [hkey]
  exact Or.inr hsafe

theorem CrSafe.plain {line : Text} (hkey : keyAndArgument line = none) :
    CrSafe .configRead line := by
  unfold CrSafe
  simp only [hkey]

/-- The lines of the openings are safe. -/
theorem Loop.opening_sound (loop : Loop) :
    EveryLine Sound ⟨configInit, .top⟩ (fileLines loop.opening) := by
  cases loop with
  | configRead =>
    have hlines : fileLines (Loop.opening .configRead) = ["HTTPDPassword p ".toList] := by decide
    have hkey : configParseToken "HTTPDPassword".toList = .httpdPassword := by decide
    have hspace : ' ' ∈ "p ".toList.dropWhile (· == ' ') := by decide
    rw [hlines]
    refine ⟨⟨⟨by decide, by decide, by decide, by decide⟩, ?_⟩, fun _ _ => trivial⟩
    exact CrSafe.argument "HTTPDPassword".toList "p ".toList (by decide)
      (by rw [hkey]; exact hspace)
  | parseAuthServer =>
    have hlines : fileLines (Loop.opening .parseAuthServer) =
        ["AuthServer \x7b".toList, "Hostname h".toList] := by decide
    have hkey : configParseToken "AuthServer".toList = .authServer := by decide
    have harg : "\x7b".toList.dropWhile (· == ' ') ≠ [] := by decide
    rw [hlines]
    refine ⟨⟨⟨by decide, by decide, by decide, by decide⟩, ?_⟩, ?_⟩
    · exact CrSafe.argument "AuthServer".toList "\x7b".toList (by decide) (by rw [hkey]; exact harg)
    · intro r' hstep
      rw [step_authServer, Option.some.injEq] at hstep
      subst hstep
      refine ⟨⟨⟨by decide, by decide, by decide, by decide⟩, ?_⟩, fun _ _ => trivial⟩
      exact Or.inr fun hbare => absurd hbare (by decide)
  | parseFirewallRuleset =>
    have hlines : fileLines (Loop.opening .parseFirewallRuleset) =
        ["FirewallRuleSet global \x7b".toList] := by decide
    have hkey : configParseToken "FirewallRuleSet".toList = .firewallRuleSet := by decide
    have hspace : ' ' ∈ "global \x7b".toList.dropWhile (· == ' ') := by decide
    rw [hlines]
    refine ⟨⟨⟨by decide, by decide, by decide, by decide⟩, ?_⟩, fun _ _ => trivial⟩
    exact CrSafe.argument "FirewallRuleSet".toList "global \x7b".toList (by decide)
      (by rw [hkey]; exact hspace)

/-- What an inert line means behind an opening. -/
theorem EndingsInert.behind {loop : Loop} {line : Text} (hinert : EndingsInert loop line)
    (h : EndingLine loop line) (post : Text)
    (hpost : ∀ r', loop.opened.step (line ++ ['\n']) = some r' →
      EveryLine Sound r' (fileLines post))
    (out : FileConfig)
    (hread : ((loop.opened.step (line ++ ['\n'])).bind fun r' => readTo r' post).bind Reader.close =
      some out) :
    ((loop.opened.step (line ++ ['\r', '\n'])).bind fun r' => readTo r' (crlf post)).bind
      Reader.close = some out := by
  have hboth := hinert configInit loop.opening post loop.opened out loop.opening_lineStart
    (readTo_opening loop) loop.opened_loop loop.opening_sound hpost
  rw [configRead_lf h loop.opening_lineStart (readTo_opening loop) loop.opened_loop,
    configRead_cr h loop.opening_lineStart (readTo_opening loop) loop.opened_loop
      loop.opening_sound] at hboth
  exact hboth hread

/-- The word of a block, as a line. -/
theorem Loop.word_ending {loop : Loop} (hblock : loop ≠ .configRead) (loop' : Loop) :
    EndingLine loop' loop.word := by
  obtain ⟨_, hchars, _, hlen⟩ := Loop.word_plain hblock
  have hlimit : loop.limit ≤ loop'.limit := by
    cases loop with
    | configRead => exact absurd rfl hblock
    | parseAuthServer => cases loop' <;> simp [Loop.limit]
    | parseFirewallRuleset => cases loop' <;> simp [Loop.limit]
  exact ⟨fun h => (hchars _ h).2.2.1 rfl, fun h => (hchars _ h).2.1 rfl,
    fun h => (hchars _ h).2.2.2.1 rfl, by omega⟩

theorem Loop.word_steps {r : Reader} (hblock : r.mode.loop ≠ .configRead) :
    r.step (r.mode.loop.word ++ ['\n']) = r.option r.mode.loop.word [] ∧
      r.step (r.mode.loop.word ++ ['\r', '\n']) = r.option r.mode.loop.word ['\n'] := by
  obtain ⟨hbare, hchars, hdrop, _⟩ := Loop.word_plain hblock
  have hsharp : ∀ c ∈ r.mode.loop.word, (c != '#') = true := by
    intro c hc
    simpa using (hchars c hc).1
  have htake : r.mode.loop.word.takeWhile (· != '#') = r.mode.loop.word :=
    List.takeWhile_eq_self_iff.mpr hsharp
  have hrest : r.mode.loop.word.dropWhile (· != '#') = [] := List.dropWhile_eq_nil_iff.mpr hsharp
  have hbrace : '}' ∉ r.mode.loop.word := fun h => (hchars _ h).2.2.2.2 rfl
  obtain ⟨hlf, hcr⟩ := (Loop.word_ending hblock r.mode.loop).step_block (r := r) rfl hblock
  rw [if_neg hbrace, htake, Reader.blockStep_bare r hbare, hdrop] at hlf hcr
  rw [hlf, hcr]
  unfold lfTail crTail
  rw [hrest]
  exact ⟨rfl, rfl⟩

/-- The word of a block on a line of its own. -/
def Loop.wordLine (loop : Loop) : Text := loop.word ++ '\n' :: []

theorem Loop.fileLines_wordLine {loop : Loop} (hblock : loop ≠ .configRead) :
    fileLines loop.wordLine = [loop.word] :=
  fileLines_line (Loop.word_ending hblock .configRead).noNewline []

theorem readTo_wordLine {r : Reader} (hblock : r.mode.loop ≠ .configRead) :
    readTo r r.mode.loop.wordLine = r.option r.mode.loop.word [] ∧
      readTo r (crlf r.mode.loop.wordLine) = r.option r.mode.loop.word ['\n'] := by
  have h := Loop.word_ending hblock r.mode.loop
  have hshort := h.short
  rw [← Mode.limit_eq] at hshort
  have hcr : '\n' ∉ r.mode.loop.word ++ ['\r'] := by simpa using h.noNewline
  obtain ⟨hlf, hstep⟩ := Loop.word_steps hblock
  unfold Loop.wordLine
  rw [crlf_line h.noNewline, readTo_line h.noNewline (by omega), hlf,
    readTo_line hcr (by simp; omega), List.append_assoc, List.singleton_append, hstep]
  simp only [crlf, List.flatMap_nil, readTo_nil, Option.bind_fun_some]
  exact ⟨trivial, trivial⟩

/-- At top level it is nothing. -/
theorem readTo_top_wordLine {loop : Loop} (hblock : loop ≠ .configRead) (cfg : FileConfig) :
    readTo ⟨cfg, .top⟩ loop.wordLine = some ⟨cfg, .top⟩ ∧
      EveryLine Sound ⟨cfg, .top⟩ (fileLines loop.wordLine) := by
  have hkey : keyAndArgument loop.word = none := by cases loop <;> decide
  have hstep : Reader.step ⟨cfg, .top⟩ (loop.word ++ ['\n']) = some ⟨cfg, .top⟩ := by
    rw [Reader.step_top, configText_word hkey]
  have h := Loop.word_ending hblock .configRead
  have hshort := h.short
  constructor
  · have hlimit := Nat.lt_of_succ_lt hshort
    exact (readTo_step h.noNewline (by rw [Mode.limit_eq]; exact hlimit) hstep _).trans
      (readTo_nil _)
  · rw [Loop.fileLines_wordLine hblock]
    exact ⟨⟨h, CrSafe.plain hkey⟩, fun _ _ => trivial⟩

/-- A rule without a value is the same with either ending. -/
theorem ruleset_wordLine_sound {r : Reader} (h : r.mode.loop = .parseFirewallRuleset) :
    EveryLine Sound r (fileLines (Loop.wordLine .parseFirewallRuleset)) := by
  have hrule : (parseFirewallRule configInit.rulesets fwrulesetGlobal []).2 =
      (parseFirewallRule configInit.rulesets fwrulesetGlobal ['\n']).2 := by decide
  rw [Loop.fileLines_wordLine (by decide)]
  refine ⟨⟨?_, ?_⟩, fun _ _ => trivial⟩
  · rw [h]
    exact Loop.word_ending (by decide) _
  · rw [h]
    refine Or.inr fun _ r' hr' => ?_
    have hword : ((Loop.word .parseFirewallRuleset).takeWhile (· != '#')).dropWhile isBlank =
        Loop.word .parseFirewallRuleset := by decide
    have hlf : (lfTail (Loop.word .parseFirewallRuleset)).dropWhile isBlank = [] := by decide
    have hcr : (crTail (Loop.word .parseFirewallRuleset)).dropWhile isBlank = ['\n'] := by decide
    have hkey : configParseToken (Loop.word .parseFirewallRuleset) = .firewallRule := by decide
    rw [hword, hlf, Loop.opened, Reader.option_ruleset, if_pos hkey] at hr'
    rw [hword, hcr, Loop.opened, Reader.option_ruleset, if_pos hkey, ← hrule]
    exact hr'

/-- A line that opens a block with one ending only is seen. -/
theorem authServer_seen :
    ((configArgument passwordOnly .authServer []).bind fun r' =>
        readTo r' (Loop.wordLine .parseAuthServer)).bind Reader.close = some passwordOnly ∧
      ((configArgument passwordOnly .authServer ['\r']).bind fun r' =>
        readTo r' (crlf (Loop.wordLine .parseAuthServer))).bind Reader.close ≠
          some passwordOnly := by
  have hlf : configArgument passwordOnly .authServer [] = some ⟨passwordOnly, .top⟩ := rfl
  have hcr : configArgument passwordOnly .authServer ['\r'] =
      some ⟨passwordOnly, .authServer .defaults⟩ := rfl
  have hread : readTo ⟨passwordOnly, .authServer .defaults⟩
      (crlf (Loop.wordLine .parseAuthServer)) =
      some ⟨passwordOnly, .authServer { AuthFields.defaults with host := some ['\n'] }⟩ := by
    have hkey : configParseToken (Loop.word .parseAuthServer) = .authServHostname := by decide
    have hword := (readTo_wordLine (r := ⟨passwordOnly, .authServer .defaults⟩) (by decide)).2
    simp only [Mode.loop, Reader.option_authServer, hkey] at hword
    exact hword
  constructor
  · rw [hlf, Option.bind_some, (readTo_top_wordLine (by decide) _).1, Option.bind_some]
    exact close_top rfl
  · rw [hcr, Option.bind_some, hread, Option.bind_some, Reader.close_authServer _ rfl, ne_eq,
      Option.some.injEq]
    intro hsame
    have hservers := congrArg FileConfig.authServers hsame
    simp [addAuthServer, passwordOnly, configInit] at hservers

/-- What the word adds to a ruleset, with either ending. -/
theorem readTo_ruleset_wordLine : ∃ rule, ∀ name e, e = Loop.wordLine .parseFirewallRuleset ∨
    e = crlf (Loop.wordLine .parseFirewallRuleset) →
    readTo ⟨passwordOnly, .ruleset name⟩ e =
      some ⟨{ passwordOnly with rulesets := [(name, [rule])] }, .ruleset name⟩ := by
  obtain ⟨rule, hrule⟩ : ∃ rule, ruleOf [] = some rule := ⟨_, rfl⟩
  have hlf : ruleOf ['\n'] = ruleOf [] := by decide
  have hkey : configParseToken (Loop.word .parseFirewallRuleset) = .firewallRule := by decide
  refine ⟨rule, fun name e he => ?_⟩
  have hword := readTo_wordLine (r := ⟨passwordOnly, .ruleset name⟩) (fun h => by cases h)
  simp only [Mode.loop, Reader.option_ruleset, hkey, if_true, parseFirewallRule_snd, hlf,
    hrule] at hword
  rcases he with rfl | rfl
  · exact hword.1
  · exact hword.2

theorem ruleset_seen {rawarg : Text} (hspace : ' ' ∉ rawarg) :
    ∃ out, ((configArgument passwordOnly .firewallRuleSet rawarg).bind fun r' =>
        readTo r' (Loop.wordLine .parseFirewallRuleset)).bind Reader.close = some out ∧
      ((configArgument passwordOnly .firewallRuleSet (rawarg ++ ['\r'])).bind fun r' =>
        readTo r' (crlf (Loop.wordLine .parseFirewallRuleset))).bind Reader.close ≠ some out := by
  obtain ⟨rule, hread⟩ := readTo_ruleset_wordLine
  have hcr : configArgument passwordOnly .firewallRuleSet (rawarg ++ ['\r']) =
      some ⟨passwordOnly, .ruleset (rawarg ++ ['\r'])⟩ := configArgument_word_cr hspace
  have hclose : ∀ name, Reader.close ⟨{ passwordOnly with rulesets := [(name, [rule])] },
      .ruleset name⟩ = some { passwordOnly with rulesets := [(name, [rule])] } := by
    intro name
    rw [Reader.close_of_no_user rfl]
    rfl
  rw [hcr, Option.bind_some, hread _ _ (Or.inr rfl), Option.bind_some, hclose,
    configArgument_word hspace]
  by_cases hne : rawarg = []
  · refine ⟨passwordOnly, ?_, ?_⟩
    · rw [if_pos hne, Option.bind_some, (readTo_top_wordLine (by decide) _).1, Option.bind_some]
      exact close_top rfl
    · intro hsame
      have hrules := congrArg FileConfig.rulesets (Option.some.inj hsame)
      simp [passwordOnly, configInit] at hrules
  · have hlf : configOption passwordOnly .firewallRuleSet rawarg rawarg =
        some ⟨passwordOnly, .ruleset rawarg⟩ := rfl
    refine ⟨{ passwordOnly with rulesets := [(rawarg, [rule])] }, ?_, ?_⟩
    · rw [if_neg hne, hlf, Option.bind_some, hread _ _ (Or.inl rfl), Option.bind_some]
      exact hclose rawarg
    · intro hsame
      have hrules := congrArg FileConfig.rulesets (Option.some.inj hsame)
      simp at hrules

/-- The opening line at top level, with either ending. -/
theorem opened_steps {line key arg : Text} (h : EndingLine .configRead line)
    (hkey : keyAndArgument line = some (key, arg)) (hhead : key.head? ≠ some '#') :
    (Loop.opened .configRead).step (line ++ ['\n']) =
        configArgument passwordOnly (configParseToken key) (arg.dropWhile (· == ' ')) ∧
      (Loop.opened .configRead).step (line ++ ['\r', '\n']) =
        configArgument passwordOnly (configParseToken key)
          (arg.dropWhile (· == ' ') ++ ['\r']) := by
  have hcr : '\n' ∉ line ++ ['\r'] := by simpa using h.noNewline
  rw [Loop.opened, Reader.step_top, configText_eq _ h.noNewline, step_top_cr, configText_eq _ hcr,
    keyAndArgument_cr, hkey]
  simp only [Option.map_some, if_neg hhead, dropWhile_space_cr]
  exact ⟨trivial, trivial⟩

/-- A line at top level: its argument is read differently, and a line behind it shows that. -/
theorem EndingsInert.safe_top {line : Text} (hinert : EndingsInert .configRead line)
    (h : EndingLine .configRead line) : CrSafe .configRead line := by
  by_contra hdanger
  obtain ⟨key, arg, hkey, hhead, harg⟩ : ∃ key arg, keyAndArgument line = some (key, arg) ∧
      key.head? ≠ some '#' ∧
      ¬ ArgumentSafe (configParseToken key) (arg.dropWhile (· == ' ')) := by
    unfold CrSafe at hdanger
    cases hkey : keyAndArgument line with
    | none => simp [hkey] at hdanger
    | some p =>
      simp only [hkey, not_or] at hdanger
      exact ⟨p.1, p.2, rfl, hdanger⟩
  obtain ⟨hlf, hcr⟩ := opened_steps h hkey hhead
  have hspace := dropWhile_space_head arg
  have hbehind := hinert.behind h
  rw [hlf, hcr] at hbehind
  generalize arg.dropWhile (· == ' ') = rawarg at harg hspace hbehind
  generalize configParseToken key = op at harg hbehind
  by_cases hserver : op = .authServer
  · subst hserver
    have hempty : rawarg = [] := not_not.mp harg
    subst hempty
    refine authServer_seen.2 (hbehind _ ?_ _ authServer_seen.1)
    intro r' hr'
    cases hr'
    exact (readTo_top_wordLine (by decide) _).2
  · by_cases hruleset : op = .firewallRuleSet
    · subst hruleset
      obtain ⟨out, hout, hne⟩ := ruleset_seen harg
      refine hne (hbehind _ ?_ out hout)
      intro r' hr'
      rw [configArgument_word harg] at hr'
      split at hr'
      · cases hr'
        exact (readTo_top_wordLine (by decide) _).2
      · cases hr'
        exact ruleset_wordLine_sound rfl
    · obtain ⟨out, hout, hne⟩ := configArgument_seen ⟨hserver, hruleset⟩ hspace harg
      refine hne ?_
      have hread := hbehind [] (fun _ _ => trivial) out
      simp only [crlf, List.flatMap_nil, readTo_nil, Option.bind_fun_some] at hread
      exact hread hout

/-- A line of a block: the difference is still there at the end of the file. -/
theorem EndingsInert.safe_block {loop : Loop} {line : Text} (hinert : EndingsInert loop line)
    (h : EndingLine loop line) (hblock : loop ≠ .configRead) : CrSafe loop line := by
  by_contra hdanger
  rw [CrSafe.block hblock, not_or] at hdanger
  obtain ⟨hbrace, hdiff⟩ := hdanger
  obtain ⟨hbare, hdiff⟩ := Classical.not_imp.mp hdiff
  obtain ⟨out, hout, hne⟩ := seen_at_end hdiff
  obtain ⟨hlf, hcr⟩ := h.step_block loop.opened_loop hblock
  rw [if_neg hbrace, Reader.blockStep_bare _ hbare] at hlf hcr
  have hread := hinert.behind h [] (fun _ _ => trivial) out
  rw [hlf, hcr] at hread
  simp only [crlf, List.flatMap_nil, readTo_nil, Option.bind_fun_some] at hread
  exact hne (hread hout)

/-- Every line that can have either ending in every file is safe. -/
theorem EndingsInert.safe {loop : Loop} {line : Text} (hinert : EndingsInert loop line)
    (h : EndingLine loop line) : CrSafe loop line := by
  by_cases hblock : loop = .configRead
  · subst hblock
    exact hinert.safe_top h
  · exact hinert.safe_block h hblock

/-- The endings of a file of safe lines do not matter, and the safe lines are just those that can
    have either ending in every file whose other lines are safe. -/
theorem line_endings_iff (cfg : FileConfig) (file : Text)
    (hlines : EveryLine EndingLine ⟨cfg, .top⟩ (fileLines file)) {loop : Loop} {line : Text}
    (h : EndingLine loop line) :
    (EveryLine CrSafe ⟨cfg, .top⟩ (fileLines file) →
      ∀ out, configRead cfg file = some out → configRead cfg (crlf file) = some out) ∧
    (EndingsInert loop line ↔ CrSafe loop line) := by
  constructor
  · intro hsafe out hread
    rw [configRead_eq] at hread ⊢
    obtain ⟨r, hr, hclose⟩ := Option.bind_eq_some_iff.mp hread
    rw [readTo_crlf hlines hsafe hr, Option.bind_some, hclose]
  · exact ⟨fun hinert => hinert.safe h, fun hsafe => hsafe.inert h⟩

theorem gatewayPort_endings :
    configRead configInit "GatewayPort 80\n".toList = some { configInit with gwPort := 80 } ∧
      configRead configInit (crlf "GatewayPort 80\n".toList) =
        some { configInit with gwPort := 80 } := by
  have hop : configParseToken "GatewayPort".toList = .gatewayPort := by decide
  have hkey : keyAndArgument "GatewayPort 80".toList =
      some ("GatewayPort".toList, "80".toList) := by decide
  have hread : configRead configInit "GatewayPort 80\n".toList =
      some { configInit with gwPort := 80 } := by
    have hshape : "GatewayPort 80\n".toList = "GatewayPort 80".toList ++ '\n' :: [] := by decide
    have hnumber : configOption configInit .gatewayPort "80".toList "80".toList =
        some ⟨{ configInit with gwPort := 80 }, .top⟩ := by decide
    rw [hshape, configRead_one hkey (by decide) (by decide) (by decide) (by decide) (by decide),
      hop, hnumber]
    rfl
  have hlines : fileLines "GatewayPort 80\n".toList = ["GatewayPort 80".toList] := by decide
  have hline : EndingLine .configRead "GatewayPort 80".toList :=
    ⟨by decide, by decide, by decide, by decide⟩
  refine ⟨hread, (line_endings_iff _ _ ?_ hline).1 ?_ _ hread⟩
  · rw [hlines]
    exact ⟨hline, fun _ _ => trivial⟩
  · rw [hlines]
    refine ⟨CrSafe.argument _ _ hkey ?_, fun _ _ => trivial⟩
    rw [hop]
    trivial

/-- The file is accepted with both endings and gives two interfaces. -/
theorem gatewayInterface_keeps_cr :
    configRead configInit "GatewayInterface br0\n".toList =
        some { configInit with gwInterface := some "br0".toList } ∧
      configRead configInit (crlf "GatewayInterface br0\n".toList) =
        some { configInit with gwInterface := some "br0\r".toList } := by
  have hop : configParseToken "GatewayInterface".toList = .gatewayInterface := by decide
  have hlf : keyAndArgument "GatewayInterface br0".toList =
      some ("GatewayInterface".toList, "br0".toList) := by decide
  have hcr : keyAndArgument "GatewayInterface br0\r".toList =
      some ("GatewayInterface".toList, "br0\r".toList) := by decide
  have hfile : "GatewayInterface br0\n".toList = "GatewayInterface br0".toList ++ '\n' :: [] := by
    decide
  have hfile' : crlf "GatewayInterface br0\n".toList =
      "GatewayInterface br0\r".toList ++ '\n' :: [] := by decide
  rw [hfile', hfile,
    configRead_one hlf (by decide) (by decide) (by decide) (by decide) (by decide),
    configRead_one hcr (by decide) (by decide) (by decide) (by decide) (by decide), hop]
  exact ⟨rfl, rfl⟩

end Wifidog
