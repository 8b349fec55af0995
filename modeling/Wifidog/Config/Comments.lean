/-
  Comments in the configuration file.

  A comment should not matter: whatever stands behind the `#` of a line, the configuration is the
  same. At top level that is so. In a block two things break it. The closing brace is looked for
  in the line as it was read, so that a brace in a comment ends the block. And where an option has
  no value, because its word stands directly before the `#`, the pointer that goes on to the value
  steps over the cut and takes the text of the comment. `CommentSafe` says when neither happens,
  and `comment_inert_iff` that these are the comments that can be exchanged in every file.
-/
import Wifidog.Config.Settings

namespace Wifidog

open CText

/-- How a line ends: with the file, or with LF. -/
def lineEnds : List Text := [[], ['\n']]

/-- In every file in which `loop` reads the line, its comment `c` can be replaced by `c'`. -/
def CommentInert (loop : Loop) (a c c' : Text) : Prop :=
  ∀ cfg pre r rest out, LineStart pre → readTo ⟨cfg, .top⟩ pre = some r → r.mode.loop = loop →
    (rest = [] ∨ ∃ post, rest = '\n' :: post) →
    configRead cfg (pre ++ (a ++ '#' :: c ++ rest)) = some out →
    configRead cfg (pre ++ (a ++ '#' :: c' ++ rest)) = some out

/-- The line before the comment is rejected, whatever its end. -/
def Rejected (loop : Loop) (a c : Text) : Prop :=
  ∀ e ∈ lineEnds, loop.opened.blockStep a (c ++ e) = none

/-- A word directly before the `#` makes the same setting of both comments. -/
def SameValue (loop : Loop) (a c c' : Text) : Prop :=
  Bare a → ∀ e ∈ lineEnds,
    SameSetting loop (a.dropWhile isBlank) ((c ++ e).dropWhile isBlank)
      ((c' ++ e).dropWhile isBlank)

/-- The comments `c` and `c'` behind `a` can be exchanged. -/
def CommentSafe (loop : Loop) (a c c' : Text) : Prop :=
  loop = .configRead ∨ '}' ∈ a ∨ ('}' ∈ c ∧ '}' ∈ c') ∨
    ('}' ∉ c ∧ '}' ∉ c' ∧ SameValue loop a c c') ∨ ('}' ∉ c ∧ Rejected loop a c)

/-- The line is rejected when its word is an option that does not take the value behind it. -/
theorem rejected_iff {loop : Loop} {a c : Text} : Rejected loop a c ↔ ∀ e ∈ lineEnds,
    ∃ word v, blockText loop.trim (a.dropWhile isBlank) (c ++ e) = some (word, v) ∧
      Refused loop (configParseToken word) v := by
  refine forall₂_congr fun e _ => ?_
  unfold Reader.blockStep
  rw [Loop.opened_loop]
  cases blockText loop.trim (a.dropWhile isBlank) (c ++ e) with
  | none => simp
  | some p =>
    rw [option_opened_none_iff]
    exact ⟨fun h => ⟨p.1, p.2, rfl, h⟩, fun ⟨_, _, hp, h⟩ => Option.some.inj hp ▸ h⟩

/-! ## The line -/

theorem configLine_comment (cfg : FileConfig) (t : Text) :
    configLine cfg ('#' :: t) = some ⟨cfg, .top⟩ := by
  have hs : ∃ t', (if ('#' :: t).getLast? = some '\n' then ('#' :: t).dropLast else '#' :: t) =
      '#' :: t' := by
    cases t with
    | nil => exact ⟨[], rfl⟩
    | cons x t =>
      split
      · exact ⟨(x :: t).dropLast, rfl⟩
      · exact ⟨x :: t, rfl⟩
  obtain ⟨t', ht'⟩ := hs
  have hkey : ∀ d, d ≠ '#' → ∀ key p1, cutAt d ('#' :: t') = some (key, p1) →
      key.head? = some '#' := by
    intro d hd key p1 hcut
    unfold cutAt at hcut
    split at hcut
    · cases hcut
    · rw [List.takeWhile_cons_of_pos (by simpa using Ne.symm hd)] at hcut
      cases hcut
      rfl
  unfold configLine
  simp only [ht']
  cases hcut : (cutAt ' ' ('#' :: t')).or (cutAt '\t' ('#' :: t')) with
  | none => rfl
  | some p =>
    obtain ⟨key, p1⟩ := p
    have hhead : key.head? = some '#' := by
      rcases Option.or_eq_some_iff.mp hcut with h | ⟨_, h⟩
      · exact hkey ' ' (by decide) key p1 h
      · exact hkey '\t' (by decide) key p1 h
    simp only [hhead, if_true, ite_self]

/-- The texts of a commented line. -/
structure CommentLine (loop : Loop) (a c : Text) : Prop where
  first : '#' ∉ a
  noNul : '\x00' ∉ a ++ c
  noNewline : '\n' ∉ a ++ c
  short : (a ++ '#' :: c).length + 1 < loop.limit
  top : loop = .configRead → a = []

section Line

variable {loop : Loop} {a c c' : Text}

theorem mem_lineEnds {e : Text} (he : e ∈ lineEnds) : e = [] ∨ e = ['\n'] := by
  simpa [lineEnds] using he

theorem CommentLine.not_mem (h : CommentLine loop a c) : '\n' ∉ a ++ '#' :: c := by
  have hn := h.noNewline
  simp only [List.mem_append, List.mem_cons, not_or] at hn ⊢
  exact ⟨hn.1, by decide, hn.2⟩

/-- A commented line of a block. -/
theorem CommentLine.step (h : CommentLine loop a c) {r : Reader} (hloop : r.mode.loop = loop)
    (hblock : loop ≠ .configRead) {e : Text} (he : e ∈ lineEnds) :
    r.step (a ++ '#' :: c ++ e) =
      if '}' ∈ a ∨ '}' ∈ c then some r.leave else r.blockStep a (c ++ e) := by
  have hnul := h.noNul
  have hlen := h.short
  have hlimit := loop.limit_le
  have hend : '\x00' ∉ e ∧ '}' ∉ e ∧ e.length ≤ 1 := by
    rcases mem_lineEnds he with rfl | rfl <;> decide
  have hshape : a ++ '#' :: c ++ e = a ++ '#' :: (c ++ e) := by simp
  rw [hshape, Reader.step_text (by rwa [hloop]) (Or.inl ⟨rfl, h.first⟩)]
  · have hbrace : '}' ∈ a ++ '#' :: (c ++ e) ↔ '}' ∈ a ∨ '}' ∈ c := by
      simp [hend.2.1]
    simp only [hbrace]
  · simp only [List.mem_append, not_or] at hnul ⊢
    exact ⟨hnul.1, hnul.2, hend.1⟩
  · simp only [List.length_append, List.length_cons] at hlen ⊢
    omega

/-- The line is one read. -/
theorem CommentLine.readTo (h : CommentLine loop a c) {r : Reader} (hloop : r.mode.loop = loop)
    {e post : Text} (he : e ∈ lineEnds) (hpost : e = [] → post = []) :
    Wifidog.readTo r (a ++ '#' :: c ++ (e ++ post)) =
      (r.step (a ++ '#' :: c ++ e)).bind fun r' => Wifidog.readTo r' post := by
  have hlen := h.short
  rw [← hloop, ← Mode.limit_eq] at hlen
  rcases mem_lineEnds he with rfl | rfl
  · rw [hpost rfl]
    simp only [List.append_nil, readTo_nil, Option.bind_fun_some]
    exact readTo_last h.not_mem (by simp) (by omega)
  · exact readTo_line h.not_mem hlen post

/-! ## Safe comments -/

/-- The two lines do the same. -/
theorem CommentSafe.step (hsafe : CommentSafe loop a c c') (h : CommentLine loop a c)
    (h' : CommentLine loop a c') {r r₁ : Reader} (hloop : r.mode.loop = loop) {e : Text}
    (he : e ∈ lineEnds) (hstep : r.step (a ++ '#' :: c ++ e) = some r₁) :
    r.step (a ++ '#' :: c' ++ e) = some r₁ := by
  by_cases hblock : loop = .configRead
  · obtain ⟨cfg, mode⟩ := r
    cases mode with
    | top =>
      have hline : ∀ t : Text, Reader.step ⟨cfg, .top⟩ (a ++ '#' :: t ++ e) = some ⟨cfg, .top⟩ := by
        intro t
        rw [h.top hblock]
        exact configLine_comment cfg (t ++ e)
      rw [hline] at hstep ⊢
      exact hstep
    | authServer f => simp [Mode.loop, hblock] at hloop
    | ruleset name => simp [Mode.loop, hblock] at hloop
  · rw [h.step hloop hblock he] at hstep
    rw [h'.step hloop hblock he]
    rcases hsafe with htop | ha | ⟨hc, hc'⟩ | ⟨hc, hc', hsame⟩ | ⟨hc, hrej⟩
    · exact absurd htop hblock
    · rwa [if_pos (Or.inl ha)] at hstep ⊢
    · rw [if_pos (Or.inr hc)] at hstep
      rwa [if_pos (Or.inr hc')]
    · by_cases ha : '}' ∈ a
      · rwa [if_pos (Or.inl ha)] at hstep ⊢
      · rw [if_neg (by simp [ha, hc])] at hstep
        rw [if_neg (by simp [ha, hc'])]
        by_cases hbare : Bare a
        · rw [Reader.blockStep_bare _ hbare] at hstep ⊢
          have hsetting := hsame hbare e he
          rw [← hloop] at hsetting
          exact Reader.option_same hsetting hstep
        · rwa [Reader.blockStep_of_not_bare r hbare (c' ++ e) (c ++ e)]
    · by_cases ha : '}' ∈ a
      · rwa [if_pos (Or.inl ha)] at hstep ⊢
      · rw [if_neg (by simp [ha, hc])] at hstep
        have hnone := hrej e he
        rw [← hloop] at hnone
        rw [Reader.blockStep_none hnone] at hstep
        cases hstep

theorem CommentSafe.inert (hsafe : CommentSafe loop a c c') (h : CommentLine loop a c)
    (h' : CommentLine loop a c') : CommentInert loop a c c' := by
  intro cfg pre r rest out hstart hpre hloop hrest hread
  obtain ⟨e, post, he, hpost, rfl⟩ : ∃ e post, e ∈ lineEnds ∧ (e = [] → post = []) ∧
      rest = e ++ post := by
    rcases hrest with rfl | ⟨post, rfl⟩
    · exact ⟨[], [], by simp [lineEnds], fun _ => rfl, rfl⟩
    · exact ⟨['\n'], post, by simp [lineEnds], by simp, rfl⟩
  rw [configRead_eq, readTo_append hstart, hpre, Option.bind_some] at hread ⊢
  rw [h.readTo hloop he hpost] at hread
  rw [h'.readTo hloop he hpost]
  cases hstep : r.step (a ++ '#' :: c ++ e) with
  | none => rw [hstep] at hread; cases hread
  | some r₁ =>
    rw [hstep] at hread
    rwa [hsafe.step h h' hloop he hstep]

/-! ## The other comments -/

/-- What an inert comment means behind a text of its own. -/
theorem CommentInert.behind (hinert : CommentInert loop a c c') (h : CommentLine loop a c)
    (h' : CommentLine loop a c') {pre : Text} {r : Reader} (hstart : LineStart pre)
    (hpre : Wifidog.readTo ⟨configInit, .top⟩ pre = some r) (hloop : r.mode.loop = loop)
    {e : Text} (he : e ∈ lineEnds) (post : Text) (hpost : e = [] → post = []) (out : FileConfig)
    (hread : ((r.step (a ++ '#' :: c ++ e)).bind fun r' => Wifidog.readTo r' post).bind
      Reader.close = some out) :
    ((r.step (a ++ '#' :: c' ++ e)).bind fun r' => Wifidog.readTo r' post).bind Reader.close =
      some out := by
  have hrest : e ++ post = [] ∨ ∃ post', e ++ post = '\n' :: post' := by
    rcases mem_lineEnds he with rfl | rfl
    · exact Or.inl (hpost rfl)
    · exact Or.inr ⟨post, rfl⟩
  have hboth := hinert configInit pre r (e ++ post) out hstart hpre hloop hrest
  simp only [configRead_eq, readTo_append hstart, hpre, Option.bind_some, h.readTo hloop he hpost,
    h'.readTo hloop he hpost] at hboth
  exact hboth hread

end Line

/-! ## Texts in which a comment is seen -/

/-- Two lines that do nothing at top level and something in the block. -/
def Loop.next (loop : Loop) : Text := loop.word ++ '\n' :: (['}'] ++ '\n' :: [])

theorem brace_short (m : Mode) : (['}'] : Text).length + 1 < m.limit := by
  cases m <;> simp [Mode.limit, maxBuf]

theorem Reader.step_brace {r : Reader} (hblock : r.mode.loop ≠ .configRead) :
    r.step (['}'] ++ ['\n']) = some r.leave := by
  rw [Reader.step_block hblock, if_pos (by decide)]

/-- Behind the closing brace they are not read. -/
theorem readTo_top_next (loop : Loop) (cfg : FileConfig) :
    readTo ⟨cfg, .top⟩ loop.next = some ⟨cfg, .top⟩ := by
  have hword : keyAndArgument loop.word = none := by cases loop <;> decide
  have hfirst : Reader.step ⟨cfg, .top⟩ (loop.word ++ ['\n']) = some ⟨cfg, .top⟩ := by
    rw [Reader.step_top, configText_word hword]
  have hsecond : Reader.step ⟨cfg, .top⟩ (['}'] ++ ['\n']) = some ⟨cfg, .top⟩ := by
    rw [Reader.step_top, configText_word (by decide)]
  have hshort : '\n' ∉ loop.word ∧ loop.word.length + 1 < Mode.top.limit := by
    cases loop <;> decide
  calc readTo ⟨cfg, .top⟩ loop.next
      = readTo ⟨cfg, .top⟩ (['}'] ++ '\n' :: []) := readTo_step hshort.1 hshort.2 hfirst _
    _ = readTo ⟨cfg, .top⟩ [] := readTo_step (by decide) (brace_short .top) hsecond _
    _ = some ⟨cfg, .top⟩ := readTo_nil _

/-- In the block they are. -/
theorem readTo_block_next {r r' : Reader} (hblock : r.mode.loop ≠ .configRead)
    (hoption : r.option r.mode.loop.word [] = some r') (hloop : r'.mode.loop = r.mode.loop)
    (huser : r'.config.httpdusername = none) :
    (readTo r r.mode.loop.next).bind Reader.close = some r'.leave.config := by
  obtain ⟨hbare, hchars, hdrop, hlen⟩ := Loop.word_plain hblock
  rw [← Mode.limit_eq] at hlen
  have hfirst : r.step (r.mode.loop.word ++ ['\n']) = some r' := by
    rw [Reader.step_plain hblock hchars (by omega), Reader.blockStep_bare r hbare, hdrop]
    exact hoption
  have hsecond : r'.step (['}'] ++ ['\n']) = some r'.leave :=
    Reader.step_brace (by rwa [hloop])
  have hread : readTo r r.mode.loop.next = some r'.leave :=
    calc readTo r r.mode.loop.next
        = readTo r' (['}'] ++ '\n' :: []) :=
          readTo_step (fun h => (hchars _ h).2.2.1 rfl) (by omega) hfirst _
      _ = readTo r'.leave [] := readTo_step (by decide) (brace_short _) hsecond _
      _ = some r'.leave := readTo_nil _
  rw [hread, Option.bind_some, Reader.close_leave huser]

theorem Reader.blockStep_authServer {cfg : FileConfig} {f : AuthFields} {a tail : Text} {r : Reader}
    (h : Reader.blockStep ⟨cfg, .authServer f⟩ a tail = some r) :
    ∃ g, r = ⟨cfg, .authServer g⟩ := by
  unfold Reader.blockStep at h
  split at h
  · exact ⟨f, (Option.some.inj h).symm⟩
  · rw [Reader.option_authServer, Option.map_eq_some_iff] at h
    obtain ⟨g, _, rfl⟩ := h
    exact ⟨g, rfl⟩

theorem Reader.blockStep_ruleset {cfg : FileConfig} {name a tail : Text} {r : Reader}
    (h : Reader.blockStep ⟨cfg, .ruleset name⟩ a tail = some r) :
    ∃ rs, r = ⟨{ cfg with rulesets := rs }, .ruleset name⟩ := by
  unfold Reader.blockStep at h
  split at h
  · exact ⟨cfg.rulesets, (Option.some.inj h).symm⟩
  · rw [Reader.option_ruleset] at h
    split at h
    · exact ⟨_, (Option.some.inj h).symm⟩
    · cases h

/-- A line that leaves the block open can be told from one that closes it. -/
theorem readTo_next_ne {loop : Loop} (hblock : loop ≠ .configRead) {a tail : Text} {r : Reader}
    (hstep : loop.opened.blockStep a tail = some r) :
    ∃ out, (readTo r loop.next).bind Reader.close = some out ∧ out ≠ loop.opened.leave.config := by
  cases loop with
  | configRead => exact absurd rfl hblock
  | parseAuthServer =>
    obtain ⟨g, rfl⟩ := Reader.blockStep_authServer hstep
    have hoption : Reader.option ⟨configInit, .authServer g⟩ (Loop.word .parseAuthServer) [] =
        some ⟨configInit, .authServer { g with host := some [] }⟩ := by
      have hkey : configParseToken (Loop.word .parseAuthServer) = .authServHostname := by decide
      rw [Reader.option_authServer, hkey]
      rfl
    refine ⟨_, readTo_block_next (fun h => by cases h) hoption rfl rfl, ?_⟩
    intro hsame
    have hservers := congrArg FileConfig.authServers hsame
    simp [addAuthServer, Reader.leave, Loop.opened, hostOnly] at hservers
  | parseFirewallRuleset =>
    obtain ⟨rs, rfl⟩ := Reader.blockStep_ruleset hstep
    obtain ⟨rule, hrule⟩ : ∃ rule, ruleOf [] = some rule := ⟨_, rfl⟩
    have hoption : Reader.option ⟨{ configInit with rulesets := rs }, .ruleset fwrulesetGlobal⟩
        (Loop.word .parseFirewallRuleset) [] =
        some ⟨{ configInit with rulesets := appendRule rs fwrulesetGlobal rule },
          .ruleset fwrulesetGlobal⟩ := by
      have hkey : configParseToken (Loop.word .parseFirewallRuleset) = .firewallRule := by decide
      rw [Reader.option_ruleset, if_pos hkey, parseFirewallRule_snd, hrule]
    refine ⟨_, readTo_block_next (fun h => by cases h) hoption rfl rfl, ?_⟩
    exact fun hsame => appendRule_ne_nil _ _ _ (congrArg FileConfig.rulesets hsame)

theorem close_leave_next (loop : Loop) :
    (readTo loop.opened.leave loop.next).bind Reader.close = some loop.opened.leave.config := by
  have htop : loop.opened.leave = ⟨loop.opened.leave.config, .top⟩ := by cases loop <;> rfl
  rw [htop, readTo_top_next, Option.bind_some, ← htop]
  exact Reader.close_leave loop.opened_no_user

/-- When only the end of the file makes a line acceptable, it sets `SSLAvailable`. -/
theorem sslAvailable_of_none {loop : Loop} {a c : Text} {r : Reader}
    (hsome : loop.opened.blockStep a c = some r)
    (hnone : loop.opened.blockStep a (c ++ ['\n']) = none) :
    loop = .parseAuthServer ∧ Bare a ∧
      configParseToken (a.dropWhile isBlank) = .authServSSLAvailable := by
  have hbare : Bare a := by
    by_contra hnot
    rw [Reader.blockStep_of_not_bare _ hnot _ c, hsome] at hnone
    cases hnone
  rw [Reader.blockStep_bare _ hbare] at hsome hnone
  cases loop with
  | configRead => cases hsome
  | parseAuthServer =>
    refine ⟨rfl, hbare, ?_⟩
    simp only [Loop.opened, Reader.option_authServer, Option.map_eq_none_iff,
      Option.map_eq_some_iff] at hsome hnone
    obtain ⟨g, hg, _⟩ := hsome
    cases hop : configParseToken (a.dropWhile isBlank) with
    | authServSSLAvailable => rfl
    | _ => simp [hop, authServerOption] at hg hnone
  | parseFirewallRuleset =>
    simp only [Loop.opened, Reader.option_ruleset] at hsome hnone
    split at hsome
    · rename_i hop
      rw [if_pos hop] at hnone
      cases hnone
    · cases hsome

/-- An auth server with a host name, and SSL or not. -/
def hostSsl (b : Int) : AuthFields := { hostOnly with sslAvailable := b }

/-- There are texts that lead to either. -/
theorem readTo_hostSsl {b : Int} (hb : b = 1 ∨ b = 0) : ∃ pre, LineStart pre ∧
    readTo ⟨configInit, .top⟩ pre = some ⟨configInit, .authServer (hostSsl b)⟩ := by
  rcases hb with rfl | rfl
  · have hstep : Reader.step (Loop.opened .parseAuthServer) ("SSLAvailable yes".toList ++ ['\n']) =
        some ⟨configInit, .authServer (hostSsl 1)⟩ := by
      have htext : blockText true ("SSLAvailable yes".toList.dropWhile isBlank) [] =
          some ("SSLAvailable".toList, "yes".toList) := by decide
      have hkey : configParseToken "SSLAvailable".toList = .authServSSLAvailable := by decide
      have hyes : parseBooleanValue "yes".toList = 1 := by decide
      have hline : Reader.step (Loop.opened .parseAuthServer)
          ("SSLAvailable yes".toList ++ ['\n']) =
          Reader.blockStep (Loop.opened .parseAuthServer) "SSLAvailable yes".toList [] :=
        Reader.step_plain (by decide) (by decide) (by decide)
      have hyes' : ¬ (1 : Int) < 0 := by decide
      rw [hline, Reader.blockStep_text (Loop.opened .parseAuthServer) htext, Loop.opened,
        Reader.option_authServer, hkey]
      simp only [authServerOption, hyes, hyes', if_false]
      rfl
    refine ⟨Loop.opening .parseAuthServer ++ ("SSLAvailable yes".toList ++ '\n' :: []),
      by decide, ?_⟩
    rw [readTo_append (Loop.opening_lineStart _), readTo_opening, Option.bind_some,
      readTo_step (by decide) (by decide) hstep, readTo_nil]
  · exact ⟨_, Loop.opening_lineStart .parseAuthServer, readTo_opening .parseAuthServer⟩

/-- Such a line can be seen. -/
theorem sslAvailable_seen {a c : Text} (hbare : Bare a)
    (hop : configParseToken (a.dropWhile isBlank) = .authServSSLAvailable) {r₁ : Reader}
    (hsome : (Loop.opened .parseAuthServer).blockStep a c = some r₁) :
    ∃ pre r out, LineStart pre ∧ readTo ⟨configInit, .top⟩ pre = some r ∧
      r.mode.loop = .parseAuthServer ∧ (r.blockStep a c).bind Reader.close = some out ∧
      r.leave.close ≠ some out := by
  have hset : ∀ f, Reader.blockStep ⟨configInit, .authServer f⟩ a c =
      if parseBooleanValue (c.dropWhile isBlank) < 0 then none
      else some ⟨configInit,
        .authServer { f with sslAvailable := parseBooleanValue (c.dropWhile isBlank) }⟩ := by
    intro f
    rw [Reader.blockStep_bare _ hbare, Reader.option_authServer, hop]
    simp only [authServerOption]
    split <;> rfl
  have hpos : ¬ parseBooleanValue (c.dropWhile isBlank) < 0 := by
    intro hneg
    rw [Loop.opened, hset, if_pos hneg] at hsome
    cases hsome
  -- the block so far says the opposite of the line
  have hbool := parseBooleanValue_cases (c.dropWhile isBlank)
  generalize parseBooleanValue (c.dropWhile isBlank) = b at hset hpos hbool
  obtain ⟨pre, hstart, hpre⟩ := readTo_hostSsl (b := 1 - b) (by omega)
  refine ⟨pre, _, addAuthServer configInit (hostSsl b), hstart, hpre, rfl, ?_, ?_⟩
  · rw [hset, if_neg hpos, Option.bind_some]
    exact Reader.close_authServer _ rfl
  · rw [Reader.close_leave rfl, ne_eq, Option.some.injEq]
    intro hsame
    have hservers := congrArg FileConfig.authServers hsame
    have hflag : (1 - b != 0) = (b != 0) := by
      simpa [addAuthServer, Reader.leave, hostSsl, hostOnly] using hservers
    rcases hbool with rfl | rfl | rfl <;> simp at hflag hpos

section Inert
variable {loop : Loop} {a c c' : Text} (hinert : CommentInert loop a c c')
  (h : CommentLine loop a c) (h' : CommentLine loop a c') (hblock : loop ≠ .configRead)
  (ha : '}' ∉ a)
include hinert h h'

/-- The comments exchanged behind the opening of the block. -/
theorem CommentInert.opened {e : Text} (he : e ∈ lineEnds) (post : Text)
    (hpost : e = [] → post = []) (out : FileConfig)
    (hread : ((loop.opened.step (a ++ '#' :: c ++ e)).bind fun r' => readTo r' post).bind
      Reader.close = some out) :
    ((loop.opened.step (a ++ '#' :: c' ++ e)).bind fun r' => readTo r' post).bind Reader.close =
      some out :=
  hinert.behind h h' loop.opening_lineStart (readTo_opening loop) loop.opened_loop he post hpost
    out hread

include hblock ha

/-- A brace in the first comment: its line closes the block, and so the second does. -/
theorem CommentInert.brace (hc : '}' ∈ c) : '}' ∈ c' := by
  by_contra hc'
  have hlf : ['\n'] ∈ lineEnds := by decide
  have hread := hinert.opened h h' hlf loop.next (by simp) loop.opened.leave.config (by
    rw [h.step loop.opened_loop hblock hlf, if_pos (Or.inr hc), Option.bind_some]
    exact close_leave_next loop)
  rw [h'.step loop.opened_loop hblock hlf, if_neg (by simp [ha, hc'])] at hread
  cases hstep : loop.opened.blockStep a (c' ++ ['\n']) with
  | none => rw [hstep] at hread; cases hread
  | some r =>
    obtain ⟨out, hout, hne⟩ := readTo_next_ne hblock hstep
    rw [hstep, Option.bind_some, hout] at hread
    exact hne (Option.some.inj hread)

/-- A brace in the second comment only: no file gets past the first line. -/
theorem CommentInert.rejected (hc : '}' ∉ c) (hc' : '}' ∈ c') : Rejected loop a c := by
  have hlf : ['\n'] ∈ lineEnds := by decide
  by_contra hrej
  cases hstep : loop.opened.blockStep a (c ++ ['\n']) with
  | some r =>
    obtain ⟨out, hout, hne⟩ := readTo_next_ne hblock hstep
    have hread := hinert.opened h h' hlf loop.next (by simp) out (by
      rw [h.step loop.opened_loop hblock hlf, if_neg (by simp [ha, hc]), hstep,
        Option.bind_some, hout])
    rw [h'.step loop.opened_loop hblock hlf, if_pos (Or.inr hc'), Option.bind_some,
      close_leave_next] at hread
    exact hne (Option.some.inj hread).symm
  | none =>
    -- then it is accepted at the end of the file
    obtain ⟨r, hr⟩ : ∃ r, loop.opened.blockStep a c = some r := by
      by_contra hnone
      refine hrej fun e he => ?_
      rcases mem_lineEnds he with rfl | rfl
      · rw [List.append_nil, Option.eq_none_iff_forall_ne_some]
        exact fun r hr => hnone ⟨r, hr⟩
      · exact hstep
    obtain ⟨rfl, hbare, hop⟩ := sslAvailable_of_none hr hstep
    obtain ⟨pre, r, out, hstart, hpre, hloop, hout, hne⟩ := sslAvailable_seen hbare hop hr
    have hend : [] ∈ lineEnds := by decide
    have hread := hinert.behind h h' hstart hpre hloop hend [] (fun _ => rfl) out (by
        rw [h.step hloop hblock hend, if_neg (by simp [ha, hc])]
        simpa [readTo_nil] using hout)
    rw [h'.step hloop hblock hend, if_pos (Or.inr hc')] at hread
    refine hne ?_
    simpa [readTo_nil] using hread

/-- No brace: a value that is taken from the comments is the same. -/
theorem CommentInert.sameValue (hc : '}' ∉ c) (hc' : '}' ∉ c') : SameValue loop a c c' := by
  intro hbare e he
  by_contra hdiff
  obtain ⟨out, hout, hne⟩ := seen_at_end hdiff
  have hread := hinert.opened h h' he [] (fun _ => rfl) out (by
    rw [h.step loop.opened_loop hblock he, if_neg (by simp [ha, hc]),
      Reader.blockStep_bare _ hbare]
    simpa [readTo_nil] using hout)
  rw [h'.step loop.opened_loop hblock he, if_neg (by simp [ha, hc']),
    Reader.blockStep_bare _ hbare] at hread
  refine hne ?_
  simpa [readTo_nil] using hread

end Inert

/-- Every comment that is inert is safe. -/
theorem CommentInert.safe {loop : Loop} {a c c' : Text} (hinert : CommentInert loop a c c')
    (h : CommentLine loop a c) (h' : CommentLine loop a c') : CommentSafe loop a c c' := by
  by_cases hblock : loop = .configRead
  · exact Or.inl hblock
  by_cases ha : '}' ∈ a
  · exact Or.inr (Or.inl ha)
  by_cases hc : '}' ∈ c
  · exact Or.inr (Or.inr (Or.inl ⟨hc, hinert.brace h h' hblock ha hc⟩))
  by_cases hc' : '}' ∈ c'
  · exact Or.inr (Or.inr (Or.inr (Or.inr ⟨hc, hinert.rejected h h' hblock ha hc hc'⟩)))
  · exact Or.inr (Or.inr (Or.inr (Or.inl ⟨hc, hc', hinert.sameValue h h' hblock ha hc hc'⟩)))

/-- Comments can be exchanged in every file exactly when they are safe. -/
theorem comment_inert_iff {loop : Loop} {a c c' : Text} (h : CommentLine loop a c)
    (h' : CommentLine loop a c') : CommentInert loop a c c' ↔ CommentSafe loop a c c' :=
  ⟨fun hinert => hinert.safe h h', fun hsafe => hsafe.inert h h'⟩

theorem comment_inert_path :
    CommentLine .parseAuthServer "Path /p ".toList " old".toList ∧
      CommentLine .parseAuthServer "Path /p ".toList " new".toList ∧
      CommentInert .parseAuthServer "Path /p ".toList " old".toList " new".toList := by
  have hold : CommentLine .parseAuthServer "Path /p ".toList " old".toList :=
    ⟨by decide, by decide, by decide, by decide, by decide⟩
  have hnew : CommentLine .parseAuthServer "Path /p ".toList " new".toList :=
    ⟨by decide, by decide, by decide, by decide, by decide⟩
  refine ⟨hold, hnew, (comment_inert_iff hold hnew).mpr ?_⟩
  refine Or.inr (Or.inr (Or.inr (Or.inl ⟨by decide, by decide, ?_⟩)))
  intro hbare
  exact absurd hbare (by decide)

theorem configText_path (cfg : FileConfig) : configText cfg "Path /p".toList = none := by
  have hcut : keyAndArgument "Path /p".toList = some ("Path".toList, "/p".toList) := by decide
  have harg : cutArgument ("/p".toList.dropWhile (· == ' ')) = "/p".toList := by decide
  have hkey : configParseToken "Path".toList = .authServPath := by decide
  unfold configText
  simp only [hcut, harg, hkey]
  rfl

theorem readTo_path : readTo (Loop.opened .parseAuthServer)
    ("Path /p".toList ++ '\n' :: (['}'] ++ '\n' :: [])) =
      some ⟨addAuthServer configInit { hostOnly with path := "/p".toList }, .top⟩ := by
  have htext : blockText true ("Path /p".toList.dropWhile isBlank) [] =
      some ("Path".toList, "/p".toList) := by decide
  have hkey : configParseToken "Path".toList = .authServPath := by decide
  have hline : Reader.step (Loop.opened .parseAuthServer) ("Path /p".toList ++ ['\n']) =
      Reader.blockStep (Loop.opened .parseAuthServer) "Path /p".toList [] :=
    Reader.step_plain (by decide) (by decide) (by decide)
  have hfirst : Reader.step (Loop.opened .parseAuthServer) ("Path /p".toList ++ ['\n']) =
      some ⟨configInit, .authServer { hostOnly with path := "/p".toList }⟩ := by
    rw [hline, Reader.blockStep_text (Loop.opened .parseAuthServer) htext, Loop.opened,
      Reader.option_authServer, hkey]
    rfl
  rw [readTo_step (by decide) (by decide) hfirst, readTo_step (by decide) (brace_short _)
    (Reader.step_brace (by decide)), readTo_nil]
  rfl

/-- The file is accepted with one comment in the block and rejected with another, which ends the
    block before its next line. -/
theorem brace_in_comment :
    configRead configInit "AuthServer \x7b\nHostname h\n# x\nPath /p\n\x7d\n".toList =
        some (addAuthServer configInit { hostOnly with path := "/p".toList }) ∧
      configRead configInit "AuthServer \x7b\nHostname h\n# \x7d\nPath /p\n\x7d\n".toList =
        none := by
  have hx : CommentLine .parseAuthServer [] " x".toList :=
    ⟨by decide, by decide, by decide, by decide, by decide⟩
  have hbrace : CommentLine .parseAuthServer [] " \x7d".toList :=
    ⟨by decide, by decide, by decide, by decide, by decide⟩
  have hlf : ['\n'] ∈ lineEnds := by decide
  constructor
  · have hshape : "AuthServer \x7b\nHostname h\n# x\nPath /p\n\x7d\n".toList =
        Loop.opening .parseAuthServer ++ ([] ++ '#' :: " x".toList ++
          (['\n'] ++ ("Path /p".toList ++ '\n' :: (['}'] ++ '\n' :: [])))) := by decide
    have hblank : (Loop.opened .parseAuthServer).blockStep [] (" x".toList ++ ['\n']) =
        some (Loop.opened .parseAuthServer) := rfl
    rw [configRead_eq, hshape, readTo_append (Loop.opening_lineStart _), readTo_opening,
      Option.bind_some, hx.readTo (Loop.opened_loop _) hlf (by simp),
      hx.step (Loop.opened_loop _) (by decide) hlf, if_neg (by decide), hblank, Option.bind_some,
      readTo_path]
    rfl
  · have hshape : "AuthServer \x7b\nHostname h\n# \x7d\nPath /p\n\x7d\n".toList =
        Loop.opening .parseAuthServer ++ ([] ++ '#' :: " \x7d".toList ++
          (['\n'] ++ ("Path /p".toList ++ '\n' :: (['}'] ++ '\n' :: [])))) := by decide
    have htop : (Loop.opened .parseAuthServer).leave = ⟨addAuthServer configInit hostOnly, .top⟩ :=
      rfl
    rw [configRead_eq, hshape, readTo_append (Loop.opening_lineStart _), readTo_opening,
      Option.bind_some, hbrace.readTo (Loop.opened_loop _) hlf (by simp),
      hbrace.step (Loop.opened_loop _) (by decide) hlf, if_pos (by decide), Option.bind_some, htop,
      readTo_line (by decide) (by decide), Reader.step_top, configText_path]
    rfl

end Wifidog
