/-
  The firewall rule parser, word by word.

  `TO_NEXT_WORD` moves through the characters of a line. What it finds are the words of the line,
  and the end flag tells whether blanks follow the last one. `scanWords` is `_parse_firewall_rule`
  on the list of words and that one bit; `scanFirewallRule_words` says that the two agree on every
  line that does not start with a blank, and `scanFirewallRule_blank` that a line that does is
  refused.
-/
import Wifidog.Model.Conf

namespace Wifidog

open CText

def startsBlank (s : Text) : Bool := s.head?.any isBlank

def endsBlank (s : Text) : Bool := s.getLast?.any isBlank

/-- `TO_NEXT_WORD` on words; `trailing` says that blanks follow the last one. -/
def nextWord (ws : List Text) (trailing e : Bool) : Text × List Text × Bool :=
  match ws with
  | [] => ([], [], true)
  | [w] => (w, [], e || !trailing)
  | w :: ws => (w, ws, e)

/-- Nothing is left, not even a blank. -/
def atEnd (ws : List Text) (trailing : Bool) : Bool := ws.isEmpty && !trailing

@[simp] theorem nextWord_cons (w : Text) (ws : List Text) (trailing : Bool) :
    nextWord (w :: ws) trailing false = (w, ws, atEnd ws trailing) := by
  cases ws with
  | nil => simp [nextWord, atEnd]
  | cons v vs => rfl

@[simp] theorem atEnd_cons (w : Text) (ws : List Text) (trailing : Bool) :
    atEnd (w :: ws) trailing = false := rfl

/-- The next word starts with the keyword. -/
def atKeyword (kw : Text) (ws : List Text) : Bool := ws.head?.any (kw.isPrefixOf ·)

def wordsProtocol (ws : List Text) (trailing finished : Bool) : Option Text × List Text × Bool :=
  if atKeyword "tcp".toList ws || atKeyword "udp".toList ws || atKeyword "icmp".toList ws then
    let (word, ws, finished) := nextWord ws trailing finished
    (some word, ws, finished)
  else (none, ws, finished)

def wordsPort (ws : List Text) (trailing finished : Bool) : Option Text × List Text × Bool :=
  if atKeyword "port".toList ws then
    let (_, ws, finished) := nextWord ws trailing finished
    let (word, ws, finished) := nextWord ws trailing finished
    (some word, ws, finished)
  else (none, ws, finished)

def wordsDest (ws : List Text) (trailing finished : Bool) : Option Text × Option Text × Bool :=
  if finished then (none, none, false)
  else
    let (otherKw, ws, finished) := nextWord ws trailing finished
    if finished then (some otherKw, none, false)
    else
      (some otherKw, some (nextWord ws trailing finished).1,
        "to-ipset".toList.isPrefixOf otherKw)

/-- `_parse_firewall_rule` on the words of the line, in lower case. -/
def scanWords (ws : List Text) (trailing : Bool) : Except Int RuleLine :=
  let (token, ws, finished) := nextWord ws trailing false
  match ruleTarget token finished with
  | none => .error (-1)
  | some target =>
    let (protocol, ws, finished) := wordsProtocol ws trailing finished
    let (port, ws, finished) := wordsPort ws trailing finished
    if (port.getD []).all fun c => c.isDigit || c == ':' then
      let (otherKw, mask, maskIsIpset) := wordsDest ws trailing finished
      .ok ⟨target, protocol, port, otherKw, mask, maskIsIpset⟩
    else .error (-3)

/-! ## Words in a line -/

/-- At `s` the words `ws` are left. -/
structure ReadsAs (trailing : Bool) (s : Text) (ws : List Text) : Prop where
  start : startsBlank s = false
  left : words s = ws
  ends : ws ≠ [] → endsBlank s = trailing

theorem words_dropWhile_blank (s : Text) : words (s.dropWhile isBlank) = words s := by
  induction s with
  | nil => rfl
  | cons c s ih =>
    cases hc : isBlank c with
    | true =>
      rw [List.dropWhile_cons_of_pos hc, ih]
      exact (words_append_blank hc [] s).symm
    | false => rw [List.dropWhile_cons_of_neg (by simp [hc])]

theorem startsBlank_dropWhile (s : Text) : startsBlank (s.dropWhile isBlank) = false := by
  unfold startsBlank
  induction s with
  | nil => rfl
  | cons c s ih =>
    cases hc : isBlank c with
    | true => rw [List.dropWhile_cons_of_pos hc, ih]
    | false => simp [List.dropWhile_cons_of_neg, hc]

theorem endsBlank_append {t : Text} (h : t ≠ []) (s : Text) : endsBlank (s ++ t) = endsBlank t := by
  unfold endsBlank
  rw [List.getLast?_append_of_ne_nil s h]

/-- A line that starts with a character of a word has a word. -/
theorem words_ne_nil {s : Text} (h : startsBlank s = false) (hne : s ≠ []) : words s ≠ [] := by
  obtain ⟨c, t, rfl⟩ := List.exists_cons_of_ne_nil hne
  have hc : isBlank c = false := by simpa [startsBlank] using h
  intro hnil
  have hin : [c] <:+: c :: t := ⟨[], t, rfl⟩
  obtain ⟨w, hw, _⟩ := (infix_words_iff (by simp) (by simpa using hc) (c :: t)).mp hin
  rw [hnil] at hw
  cases hw

/-- The first word of a line and what is behind it. -/
theorem exists_split {s : Text} (h : startsBlank s = false) (hne : s ≠ []) :
    (∀ c ∈ s, isBlank c = false) ∨
      ∃ w c t, s = w ++ c :: t ∧ w ≠ [] ∧ (∀ x ∈ w, isBlank x = false) ∧ isBlank c = true := by
  have hw : ∀ x ∈ s.takeWhile (!isBlank ·), isBlank x = false := by
    intro x hx
    simpa using List.mem_takeWhile_imp hx
  cases hd : s.dropWhile (!isBlank ·) with
  | nil =>
    left
    have heq := List.takeWhile_append_dropWhile (p := (!isBlank ·)) (l := s)
    rw [hd, List.append_nil] at heq
    rwa [heq] at hw
  | cons c t =>
    right
    refine ⟨s.takeWhile (!isBlank ·), c, t, ?_, ?_, hw, ?_⟩
    · rw [← hd, List.takeWhile_append_dropWhile]
    · obtain ⟨x, xs, rfl⟩ := List.exists_cons_of_ne_nil hne
      have hx : isBlank x = false := by simpa [startsBlank] using h
      rw [List.takeWhile_cons_of_pos (by simp [hx])]
      simp
    · have hhead := List.head?_dropWhile_not (!isBlank ·) s
      rw [hd] at hhead
      simpa using hhead

theorem toNextWord_end {s : Text} (h : ∀ c ∈ s, isBlank c = false) (e : Bool) :
    toNextWord s e = (s, [], true) := by
  have hd : s.dropWhile (!isBlank ·) = [] :=
    List.dropWhile_eq_nil_iff.mpr fun c hc => by simp [h c hc]
  unfold toNextWord
  rw [hd]

theorem toNextWord_split {w : Text} {c : Char} (hw : ∀ x ∈ w, isBlank x = false)
    (hc : isBlank c = true) (t : Text) (e : Bool) :
    toNextWord (w ++ c :: t) e = (w, t.dropWhile isBlank, e) := by
  have hall : ∀ x ∈ w, (!isBlank x) = true := fun x hx => by simp [hw x hx]
  unfold toNextWord
  rw [List.dropWhile_append_of_pos hall, List.dropWhile_cons_of_neg (by simp [hc]),
    List.takeWhile_append_of_pos hall, List.takeWhile_cons_of_neg (by simp [hc]), List.append_nil]

/-- `TO_NEXT_WORD` takes the next word. -/
theorem ReadsAs.next {trailing : Bool} {s : Text} {ws : List Text} (h : ReadsAs trailing s ws)
    (e : Bool) :
    ∃ s', toNextWord s e = ((nextWord ws trailing e).1, s', (nextWord ws trailing e).2.2) ∧
      ReadsAs trailing s' (nextWord ws trailing e).2.1 := by
  obtain ⟨hstart, rfl, hends⟩ := h
  by_cases hne : s = []
  · subst hne
    exact ⟨[], rfl, ⟨rfl, rfl, fun hnil => absurd rfl hnil⟩⟩
  · have htrailing := hends (words_ne_nil hstart hne)
    rcases exists_split hstart hne with hall | ⟨w, c, t, rfl, hwne, hw, hc⟩
    · have hlast : endsBlank s = false := by
        obtain ⟨x, hx⟩ := List.getLast?_isSome.mpr hne |> Option.isSome_iff_exists.mp
        simp [endsBlank, hx, hall x (List.mem_of_getLast? hx)]
      rw [words_of_not_blank hne hall, ← htrailing, hlast]
      refine ⟨[], ?_, ⟨rfl, rfl, fun hnil => absurd rfl hnil⟩⟩
      rw [toNextWord_end hall]
      simp [nextWord]
    · have hwords : words (w ++ c :: t) = w :: words (t.dropWhile isBlank) := by
        rw [words_append_blank hc, words_of_not_blank hwne hw, words_dropWhile_blank]
        rfl
      rw [hwords]
      refine ⟨t.dropWhile isBlank, ?_, ?_⟩
      · rw [toNextWord_split hw hc]
        cases hrest : words (t.dropWhile isBlank) with
        | nil =>
          -- only blanks are left
          have hnil : t.dropWhile isBlank = [] := by
            by_contra hcon
            exact words_ne_nil (startsBlank_dropWhile t) hcon hrest
          have hblank : ∀ x ∈ t, isBlank x = true := List.dropWhile_eq_nil_iff.mp hnil
          have hlast : endsBlank (w ++ c :: t) = true := by
            rw [endsBlank_append (by simp)]
            obtain ⟨x, hx⟩ := Option.isSome_iff_exists.mp
              (List.getLast?_isSome.mpr (List.cons_ne_nil c t))
            rcases List.mem_cons.mp (List.mem_of_getLast? hx) with rfl | hmem
            · simp [endsBlank, hx, hc]
            · simp [endsBlank, hx, hblank x hmem]
          rw [← htrailing, hlast, hnil]
          simp [nextWord]
        | cons v vs => rfl
      · refine ⟨startsBlank_dropWhile t, ?_, fun hnil => ?_⟩
        · cases words (t.dropWhile isBlank) <;> rfl
        · have hrest : t.dropWhile isBlank ≠ [] := by
            intro hcon
            rw [hcon] at hnil
            exact hnil rfl
          have hsplit : w ++ c :: t =
              (w ++ c :: t.takeWhile isBlank) ++ t.dropWhile isBlank := by
            rw [List.append_assoc, List.cons_append, List.takeWhile_append_dropWhile]
          rw [hsplit, endsBlank_append hrest] at htrailing
          exact htrailing

/-- A keyword at the beginning of what is left is one at the beginning of its first word. -/
theorem ReadsAs.isPrefixOf {trailing : Bool} {s : Text} {ws : List Text} (h : ReadsAs trailing s ws)
    {pat : Text} (hpat : pat ≠ [] ∧ ∀ c ∈ pat, isBlank c = false) :
    pat.isPrefixOf s = atKeyword pat ws := by
  obtain ⟨hstart, rfl, _⟩ := h
  by_cases hne : s = []
  · subst hne
    obtain ⟨c, p, hcp⟩ := List.exists_cons_of_ne_nil hpat.1
    rw [hcp]
    rfl
  · rcases exists_split hstart hne with hall | ⟨w, c, t, rfl, hwne, hw, hc⟩
    · rw [words_of_not_blank hne hall]
      rfl
    · have hnot : c ∉ pat := fun hmem => by rw [hpat.2 c hmem] at hc; cases hc
      rw [words_append_blank hc, words_of_not_blank hwne hw]
      show pat.isPrefixOf (w ++ c :: t) = pat.isPrefixOf w
      rw [Bool.eq_iff_iff, List.isPrefixOf_iff_prefix, List.isPrefixOf_iff_prefix]
      constructor
      · intro hpre
        rcases List.prefix_or_prefix_of_prefix hpre (List.prefix_append w (c :: t)) with hle | hle
        · exact hle
        · -- the keyword would reach over the blank
          obtain ⟨p, rfl⟩ := hle
          obtain ⟨q, hq⟩ := hpre
          rw [List.append_assoc, List.append_cancel_left_eq] at hq
          cases p with
          | nil => simp
          | cons d p =>
            rw [List.cons_append, List.cons.injEq] at hq
            exact absurd (by simp [hq.1]) hnot
      · exact fun hpre => hpre.trans (List.prefix_append w (c :: t))

/-! ## The parser on words -/

theorem ReadsAs.protocol {trailing : Bool} {s : Text} {ws : List Text} (h : ReadsAs trailing s ws)
    (e : Bool) :
    ∃ s', ruleProtocol s e =
        ((wordsProtocol ws trailing e).1, s', (wordsProtocol ws trailing e).2.2) ∧
      ReadsAs trailing s' (wordsProtocol ws trailing e).2.1 := by
  obtain ⟨s', hnext, hreads⟩ := h.next e
  unfold ruleProtocol wordsProtocol
  rw [h.isPrefixOf (by decide), h.isPrefixOf (by decide), h.isPrefixOf (by decide)]
  split
  · rw [hnext]
    exact ⟨s', rfl, hreads⟩
  · exact ⟨s, rfl, h⟩

theorem ReadsAs.port {trailing : Bool} {s : Text} {ws : List Text} (h : ReadsAs trailing s ws)
    (e : Bool) :
    ∃ s', rulePort s e = ((wordsPort ws trailing e).1, s', (wordsPort ws trailing e).2.2) ∧
      ReadsAs trailing s' (wordsPort ws trailing e).2.1 := by
  obtain ⟨s₁, hkeyword, hreads₁⟩ := h.next e
  obtain ⟨s₂, hport, hreads₂⟩ := hreads₁.next (nextWord ws trailing e).2.2
  unfold rulePort wordsPort
  rw [h.isPrefixOf (by decide)]
  split
  · rw [hkeyword]
    simp only [hport]
    exact ⟨s₂, rfl, hreads₂⟩
  · exact ⟨s, rfl, h⟩

theorem ReadsAs.dest {trailing : Bool} {s : Text} {ws : List Text} (h : ReadsAs trailing s ws)
    (e : Bool) : ruleDest s e = wordsDest ws trailing e := by
  obtain ⟨s₁, hkeyword, hreads₁⟩ := h.next e
  obtain ⟨s₂, hmask, _⟩ := hreads₁.next (nextWord ws trailing e).2.2
  unfold ruleDest wordsDest
  rw [hkeyword]
  simp only [hmask]

/-- The parser sees the words of a line and whether blanks follow them. -/
theorem scanFirewallRule_words {line : Text} (h : startsBlank line = false) :
    scanFirewallRule line = scanWords (words (line.map Char.toLower)) (endsBlank line) := by
  have hlower : ∀ c : Char, isBlank c.toLower = isBlank c := isBlank_toLower
  have hreads :
      ReadsAs (endsBlank line) (line.map Char.toLower) (words (line.map Char.toLower)) := by
    refine ⟨?_, rfl, fun _ => ?_⟩
    · unfold startsBlank at h ⊢
      rw [List.head?_map, Option.any_map]
      simpa only [Function.comp_def, hlower] using h
    · unfold endsBlank
      rw [List.getLast?_map, Option.any_map]
      simp only [hlower]
  obtain ⟨s₁, htoken, hreads₁⟩ := hreads.next false
  unfold scanFirewallRule scanWords
  simp only [htoken]
  generalize nextWord (words (line.map Char.toLower)) (endsBlank line) false = next at hreads₁ ⊢
  obtain ⟨token, ws₁, e₁⟩ := next
  cases ruleTarget token e₁ with
  | none => rfl
  | some target =>
    obtain ⟨s₂, hprotocol, hreads₂⟩ := hreads₁.protocol e₁
    obtain ⟨s₃, hport, hreads₃⟩ := hreads₂.port (wordsProtocol ws₁ (endsBlank line) e₁).2.2
    simp only [hprotocol, hport, hreads₃.dest]

/-- A rule text that starts with a blank has an empty first word. -/
theorem scanFirewallRule_blank {line : Text} (h : startsBlank line = true) :
    scanFirewallRule line = .error (-1) := by
  cases line with
  | nil => cases h
  | cons c t =>
    have hc : isBlank c.toLower = true := by
      rw [isBlank_toLower]
      simpa [startsBlank] using h
    have hnext := toNextWord_split (w := []) (by simp) hc (t.map Char.toLower) false
    unfold scanFirewallRule
    simp only [List.map_cons, List.nil_append] at hnext ⊢
    rw [hnext]
    rfl

end Wifidog
