/-
  The rule syntax that `wifidog.conf` documents, and what the parser makes of it.

    (block|drop|allow|log|ulog)
      [(tcp|udp|icmp) [port X | port X:Y | port-range X:Y]] [to DEST | to-ipset NAME]

  A `Sentence` is a sentence of that grammar, its operands are subtypes that no other text fits.
  `Spells` relates it to the lines that write it: keywords in any letter case, blanks between the
  words and behind them. `Sentence.record` is the record it stands for.

  `scanWords_slots` says which record the parser builds for such a line. It is the record of the
  sentence unless the line is one single word with nothing behind it, which is a block rule whatever
  the word is, or the operand has an upper-case letter, since the whole line is lower-cased.
-/
import Wifidog.Rules.Words

namespace Wifidog

open CText

/-- `X` of `port X`. -/
def Number := { w : Text // w ≠ [] ∧ ∀ c ∈ w, c.isDigit = true }

/-- `DEST` or `NAME`. -/
def Operand := { w : Text // w ≠ [] ∧ ∀ c ∈ w, isBlank c = false }

inductive Protocol where
  | tcp | udp | icmp
  deriving DecidableEq, Repr

inductive PortSpec where
  | port (x : Number)
  | ports (x y : Number)
  | portRange (x y : Number)

inductive Dest where
  | host (dest : Operand)
  | ipset (name : Operand)

structure Sentence where
  target : FirewallTarget
  protocol : Option (Protocol × Option PortSpec)
  dest : Option Dest

/-! ## Words of a sentence -/

/-- A word of a sentence, as the grammar has it. -/
inductive Slot where
  | keyword (word : Text)
  | operand (text : Text)
  deriving DecidableEq, Repr

/-- Keywords may be written in any letter case. -/
def Slot.Fits : Slot → Text → Prop
  | .keyword word, w => strcaseEq w word = true
  | .operand text, w => w = text

def FirewallTarget.word : FirewallTarget → Text
  | .reject => "block".toList
  | .drop => "drop".toList
  | .accept => "allow".toList
  | .log => "log".toList
  | .ulog => "ulog".toList

def Protocol.word : Protocol → Text
  | .tcp => "tcp".toList
  | .udp => "udp".toList
  | .icmp => "icmp".toList

def PortSpec.text : PortSpec → Text
  | .port x => x.val
  | .ports x y => x.val ++ ':' :: y.val
  | .portRange x y => x.val ++ ':' :: y.val

def PortSpec.slots (p : PortSpec) : List Slot :=
  match p with
  | .port _ => [.keyword "port".toList, .operand p.text]
  | .ports _ _ => [.keyword "port".toList, .operand p.text]
  | .portRange _ _ => [.keyword "port-range".toList, .operand p.text]

def Dest.text : Dest → Text
  | .host dest => dest.val
  | .ipset name => name.val

def Dest.slots : Dest → List Slot
  | .host dest => [.keyword "to".toList, .operand dest.val]
  | .ipset name => [.keyword "to-ipset".toList, .operand name.val]

def Dest.isIpset : Dest → Bool
  | .host _ => false
  | .ipset _ => true

def portSlots : Option PortSpec → List Slot
  | none => []
  | some port => port.slots

def protocolSlots : Option (Protocol × Option PortSpec) → List Slot
  | none => []
  | some (p, port) => .keyword p.word :: portSlots port

def destSlots : Option Dest → List Slot
  | none => []
  | some d => d.slots

def Sentence.slots (s : Sentence) : List Slot :=
  .keyword s.target.word :: (protocolSlots s.protocol ++ destSlots s.dest)

/-- The record a sentence stands for. -/
def Sentence.record (s : Sentence) : FirewallRule where
  target := s.target
  protocol := s.protocol.map (·.1.word)
  port := s.protocol.bind fun p => p.2.map (·.text)
  mask := (s.dest.map (·.text)).getD defaultMask
  maskIsIpset := s.dest.any (·.isIpset)

/-- The line has the words, with blanks between them and perhaps behind them. -/
inductive Spells : List Slot → Text → Prop where
  | last {slot : Slot} {w blanks : Text} (hw : slot.Fits w)
      (hblanks : ∀ c ∈ blanks, isBlank c = true) : Spells [slot] (w ++ blanks)
  | next {slot : Slot} {slots : List Slot} {w blanks line : Text} (hw : slot.Fits w)
      (hne : blanks ≠ []) (hblanks : ∀ c ∈ blanks, isBlank c = true) (hline : Spells slots line) :
      Spells (slot :: slots) (w ++ blanks ++ line)

/-! ## Lines of a sentence -/

/-- The word that the parser finds in the lower-cased line. -/
def Slot.lower : Slot → Text
  | .keyword word => word.map Char.toLower
  | .operand text => text.map Char.toLower

theorem Slot.Fits.lower {slot : Slot} {w : Text} (h : slot.Fits w) :
    w.map Char.toLower = slot.lower := by
  cases slot with
  | keyword word => exact strcaseEq_iff.mp h
  | operand text => exact congrArg (List.map Char.toLower) h

/-- No word of the grammar is empty or has a blank. -/
def Slot.Solid (slot : Slot) : Prop := slot.lower ≠ [] ∧ ∀ c ∈ slot.lower, isBlank c = false

instance (slot : Slot) : Decidable slot.Solid :=
  inferInstanceAs (Decidable (slot.lower ≠ [] ∧ ∀ c ∈ slot.lower, isBlank c = false))

theorem Slot.Fits.solid {slot : Slot} {w : Text} (h : slot.Fits w) (hsolid : slot.Solid) :
    w ≠ [] ∧ ∀ c ∈ w, isBlank c = false := by
  obtain ⟨hne, hblank⟩ := hsolid
  rw [← h.lower] at hne hblank
  refine ⟨fun hnil => hne (by simp [hnil]), fun c hc => ?_⟩
  rw [← isBlank_toLower]
  exact hblank c.toLower (List.mem_map_of_mem hc)

theorem words_append_blanks {blanks : Text} (h : ∀ c ∈ blanks, isBlank c = true) (hne : blanks ≠ [])
    (a b : Text) : words (a ++ blanks ++ b) = words a ++ words b := by
  obtain ⟨c, cs, rfl⟩ := List.exists_cons_of_ne_nil hne
  have hdrop : (cs ++ b).dropWhile isBlank = b.dropWhile isBlank :=
    List.dropWhile_append_of_pos fun x hx => h x (List.mem_cons_of_mem c hx)
  rw [List.append_assoc, List.cons_append, words_append_blank (h c List.mem_cons_self),
    ← words_dropWhile_blank (cs ++ b), hdrop, words_dropWhile_blank]

theorem startsBlank_append {w : Text} (h : w ≠ [] ∧ ∀ c ∈ w, isBlank c = false) (t : Text) :
    startsBlank (w ++ t) = false := by
  obtain ⟨c, cs, rfl⟩ := List.exists_cons_of_ne_nil h.1
  simpa [startsBlank] using h.2 c List.mem_cons_self

theorem Spells.startsBlank {slots : List Slot} {line : Text} (h : Spells slots line)
    (hsolid : ∀ slot ∈ slots, slot.Solid) : startsBlank line = false := by
  cases h with
  | last hw hblanks => exact startsBlank_append (hw.solid (hsolid _ List.mem_cons_self)) _
  | next hw hne hblanks hline =>
    rw [List.append_assoc]
    exact startsBlank_append (hw.solid (hsolid _ List.mem_cons_self)) _

theorem Spells.words {slots : List Slot} {line : Text} (h : Spells slots line)
    (hsolid : ∀ slot ∈ slots, slot.Solid) :
    CText.words (line.map Char.toLower) = slots.map Slot.lower := by
  have hlower : ∀ {blanks : Text}, (∀ c ∈ blanks, isBlank c = true) →
      ∀ c ∈ blanks.map Char.toLower, isBlank c = true := by
    intro blanks hblanks c hc
    obtain ⟨d, hd, rfl⟩ := List.mem_map.mp hc
    rw [isBlank_toLower, hblanks d hd]
  induction h with
  | @last slot w blanks hw hblanks =>
    obtain ⟨hne, hblank⟩ := hsolid slot List.mem_cons_self
    rw [List.map_append, hw.lower, List.map_singleton]
    by_cases hnil : blanks = []
    · rw [hnil, List.map_nil, List.append_nil, words_of_not_blank hne hblank]
    · rw [← List.append_nil (slot.lower ++ _),
        words_append_blanks (hlower hblanks) (by simpa using hnil), words_of_not_blank hne hblank]
      rfl
  | @next slot slots w blanks line hw hnil hblanks _ ih =>
    obtain ⟨hne, hblank⟩ := hsolid slot List.mem_cons_self
    rw [List.map_append, List.map_append, hw.lower,
      words_append_blanks (hlower hblanks) (by simpa using hnil), words_of_not_blank hne hblank,
      ih fun v hv => hsolid v (List.mem_cons_of_mem slot hv)]
    rfl

/-! ## What the parser reads -/

/-- The record the parser builds. -/
def Sentence.readAs (s : Sentence) (trailing : Bool) : FirewallRule where
  target := if s.protocol.isNone && s.dest.isNone && !trailing then .reject else s.target
  protocol := s.record.protocol
  port := s.record.port
  mask := s.record.mask.map Char.toLower
  maskIsIpset := s.record.maskIsIpset

theorem ruleTarget_word (target : FirewallTarget) (finished : Bool) :
    ruleTarget (Slot.keyword target.word).lower finished =
      some (if finished then .reject else target) := by
  cases finished <;> cases target <;> decide

/-- The slots of the destination start with neither a protocol nor a port. -/
theorem atKeyword_destSlots (dest : Option Dest) {kw : Text}
    (h : kw.isPrefixOf "to".toList = false ∧ kw.isPrefixOf "to-ipset".toList = false) :
    atKeyword kw ((destSlots dest).map Slot.lower) = false := by
  cases dest with
  | none => rfl
  | some d =>
    cases d with
    | host dest => exact h.1
    | ipset name => exact h.2

theorem wordsDest_slots (dest : Option Dest) (trailing : Bool) :
    (wordsDest ((destSlots dest).map Slot.lower) trailing
        (atEnd ((destSlots dest).map Slot.lower) trailing)).2 =
      (dest.map fun d => d.text.map Char.toLower, dest.any (·.isIpset)) := by
  cases dest with
  | none => cases trailing <;> rfl
  | some d =>
    cases d with
    | host dest => rfl
    | ipset name => rfl

/-- Digits have no letter case. -/
theorem PortSpec.text_lower (p : PortSpec) :
    p.text.map Char.toLower = p.text ∧ p.text.all (fun c => c.isDigit || c == ':') = true := by
  have hchars : ∀ c ∈ p.text, (c.isDigit || c == ':') = true := by
    have hdigits : ∀ (x : Number) c, c ∈ x.val → (c.isDigit || c == ':') = true :=
      fun x c hc => by simp [x.property.2 c hc]
    have hpair : ∀ (x y : Number) c, c ∈ x.val ++ ':' :: y.val →
        (c.isDigit || c == ':') = true := by
      intro x y c hc
      rcases List.mem_append.mp hc with hx | hy
      · exact hdigits x c hx
      · rcases List.mem_cons.mp hy with rfl | hy
        · rfl
        · exact hdigits y c hy
    cases p with
    | port x => exact hdigits x
    | ports x y => exact hpair x y
    | portRange x y => exact hpair x y
  refine ⟨?_, List.all_eq_true.mpr hchars⟩
  conv_rhs => rw [← List.map_id p.text]
  refine List.map_congr_left fun c hc => (toLower_eq_iff ?_).mpr rfl
  rcases Bool.or_eq_true_iff.mp (hchars c hc) with hdigit | hcolon
  · exact not_isAlpha_of_isDigit hdigit
  · rw [beq_iff_eq.mp hcolon]
    rfl

theorem wordsPort_slots (port : Option PortSpec) (dest : Option Dest) (trailing : Bool) :
    let rest := (destSlots dest).map Slot.lower
    wordsPort ((portSlots port).map Slot.lower ++ rest) trailing
        (atEnd ((portSlots port).map Slot.lower ++ rest) trailing) =
      (port.map (·.text), rest, atEnd rest trailing) := by
  intro rest
  cases port with
  | none =>
    have hkw : atKeyword "port".toList rest = false := atKeyword_destSlots dest (by decide)
    unfold wordsPort
    rw [portSlots, List.map_nil, List.nil_append, hkw]
    rfl
  | some p =>
    have hlower := p.text_lower.1
    cases p with
    | port x => simp [wordsPort, portSlots, PortSpec.slots, Slot.lower, atKeyword, hlower]
    | ports x y => simp [wordsPort, portSlots, PortSpec.slots, Slot.lower, atKeyword, hlower]
    | portRange x y => simp [wordsPort, portSlots, PortSpec.slots, Slot.lower, atKeyword, hlower]

theorem wordsProtocol_slots (protocol : Option (Protocol × Option PortSpec)) (dest : Option Dest)
    (trailing : Bool) :
    let rest := (portSlots (protocol.bind (·.2))).map Slot.lower ++ (destSlots dest).map Slot.lower
    let all := (protocolSlots protocol).map Slot.lower ++ (destSlots dest).map Slot.lower
    wordsProtocol all trailing (atEnd all trailing) =
      (protocol.map (·.1.word), rest, atEnd rest trailing) := by
  intro rest all
  cases protocol with
  | none =>
    have hkw : (atKeyword "tcp".toList all || atKeyword "udp".toList all ||
        atKeyword "icmp".toList all) = false := by
      simp only [Bool.or_eq_false_iff]
      exact ⟨⟨atKeyword_destSlots dest (by decide), atKeyword_destSlots dest (by decide)⟩,
        atKeyword_destSlots dest (by decide)⟩
    unfold wordsProtocol
    rw [hkw]
    rfl
  | some p =>
    obtain ⟨p, port⟩ := p
    have hall : all = p.word :: rest := by cases p <;> rfl
    have hkw : (atKeyword "tcp".toList all || atKeyword "udp".toList all ||
        atKeyword "icmp".toList all) = true := by
      rw [hall]
      cases p <;> rfl
    unfold wordsProtocol
    rw [hkw, hall, atEnd_cons, nextWord_cons]
    rfl

theorem atEnd_slots (protocol : Option (Protocol × Option PortSpec)) (dest : Option Dest)
    (trailing : Bool) :
    atEnd ((protocolSlots protocol).map Slot.lower ++ (destSlots dest).map Slot.lower) trailing =
      (protocol.isNone && dest.isNone && !trailing) := by
  cases protocol with
  | none =>
    cases dest with
    | none => rfl
    | some d => cases d <;> rfl
  | some p => rfl

/-- The record that the parser builds for the words of a sentence. -/
theorem scanWords_slots (s : Sentence) (trailing : Bool) :
    ∃ l, scanWords (s.slots.map Slot.lower) trailing = .ok l ∧ l.record = s.readAs trailing := by
  obtain ⟨target, protocol, dest⟩ := s
  have hdigits : ((protocol.bind (·.2)).map (·.text)).getD [] |>.all
      fun c => c.isDigit || c == ':' := by
    cases protocol.bind (·.2) with
    | none => rfl
    | some p => exact p.text_lower.2
  have hprotocol := wordsProtocol_slots protocol dest trailing
  have hport := wordsPort_slots (protocol.bind (·.2)) dest trailing
  have hdest := wordsDest_slots dest trailing
  simp only at hprotocol hport
  unfold scanWords
  rw [Sentence.slots, List.map_cons, nextWord_cons, List.map_append]
  simp only [ruleTarget_word, hprotocol, hport, hdigits, if_true]
  refine ⟨_, rfl, ?_⟩
  have hmask : (dest.map fun d => d.text.map Char.toLower).getD defaultMask =
      ((dest.map (·.text)).getD defaultMask).map Char.toLower := by
    cases dest <;> rfl
  simp only [RuleLine.record, Sentence.readAs, Sentence.record, hdest, atEnd_slots, hmask]
  cases protocol <;> rfl

/-! ## Sentences and records -/

theorem solid_operand {w : Text} (h : w ≠ [] ∧ ∀ c ∈ w, isBlank c = false) :
    (Slot.operand w).Solid := by
  refine ⟨fun hnil => h.1 (List.map_eq_nil_iff.mp hnil), fun c hc => ?_⟩
  obtain ⟨d, hd, rfl⟩ := List.mem_map.mp hc
  rw [isBlank_toLower, h.2 d hd]

theorem not_isBlank_of_isDigit {c : Char} (h : c.isDigit = true) : isBlank c = false := by
  unfold isBlank
  simp only [Bool.or_eq_false_iff, beq_eq_false_iff_ne]
  exact ⟨digit_ne h (by decide), digit_ne h (by decide)⟩

theorem PortSpec.text_solid (p : PortSpec) : (Slot.operand p.text).Solid := by
  refine solid_operand ⟨?_, fun c hc => ?_⟩
  · cases p with
    | port x => exact x.property.1
    | ports x y => simp [PortSpec.text]
    | portRange x y => simp [PortSpec.text]
  · rcases Bool.or_eq_true_iff.mp (List.all_eq_true.mp p.text_lower.2 c hc) with hdigit | hcolon
    · exact not_isBlank_of_isDigit hdigit
    · rw [beq_iff_eq.mp hcolon]
      rfl

theorem Sentence.slots_solid (s : Sentence) : ∀ slot ∈ s.slots, slot.Solid := by
  obtain ⟨target, protocol, dest⟩ := s
  have hdest : ∀ slot ∈ destSlots dest, slot.Solid := by
    intro slot hslot
    rcases dest with _ | d
    · cases hslot
    · cases d with
      | host dest =>
        rcases List.mem_pair.mp hslot with rfl | rfl
        · decide
        · exact solid_operand dest.property
      | ipset name =>
        rcases List.mem_pair.mp hslot with rfl | rfl
        · decide
        · exact solid_operand name.property
  have hport : ∀ port : PortSpec, ∀ slot ∈ port.slots, slot.Solid := by
    intro port slot hslot
    have hcases : slot = .keyword "port".toList ∨ slot = .keyword "port-range".toList ∨
        slot = .operand port.text := by
      cases port <;> simp [PortSpec.slots] at hslot <;> rcases hslot with rfl | rfl <;> simp
    rcases hcases with rfl | rfl | rfl
    · decide
    · decide
    · exact port.text_solid
  have htarget : ∀ target : FirewallTarget, (Slot.keyword target.word).Solid := by
    intro target
    cases target <;> decide
  have hprotocol : ∀ p : Protocol, (Slot.keyword p.word).Solid := by
    intro p
    cases p <;> decide
  intro slot hslot
  rcases List.mem_cons.mp hslot with rfl | hslot
  · exact htarget target
  · rcases List.mem_append.mp hslot with hslot | hslot
    · rcases protocol with _ | ⟨p, port⟩
      · cases hslot
      · rcases List.mem_cons.mp hslot with rfl | hslot
        · exact hprotocol p
        · cases port with
          | none => cases hslot
          | some port => exact hport port slot hslot
    · exact hdest slot hslot

theorem appendRule_inj (rs : Rulesets) (name : Text) {r r' : FirewallRule}
    (h : appendRule rs name r = appendRule rs name r') : r = r' := by
  have hget := congrArg (getRuleset · name) h
  simp only [getRuleset_appendRule, if_true] at hget
  simpa using hget

/-- A line of the documented grammar is read as the rule it says, if it does not consist of one
    word alone (`block` apart) and its operand has no upper-case letter, and only then. -/
theorem sentence_read_iff (rs : Rulesets) (name : Text) {s : Sentence} {line : Text}
    (h : Spells s.slots line) :
    parseFirewallRule rs name line = (1, appendRule rs name s.record) ↔
      (s.protocol = none → s.dest = none → endsBlank line = false → s.target = .reject) ∧
        ∀ d, s.dest = some d → d.text.map Char.toLower = d.text := by
  obtain ⟨l, hscan, hrecord⟩ := scanWords_slots s (endsBlank line)
  have hwords := h.words s.slots_solid
  have hstart := h.startsBlank s.slots_solid
  have hparse : parseFirewallRule rs name line =
      (1, appendRule rs name (s.readAs (endsBlank line))) := by
    unfold parseFirewallRule
    rw [scanFirewallRule_words hstart, hwords, hscan]
    simp only [hrecord]
  have hiff : parseFirewallRule rs name line = (1, appendRule rs name s.record) ↔
      s.readAs (endsBlank line) = s.record := by
    rw [hparse]
    constructor
    · intro heq
      exact appendRule_inj rs name (Prod.ext_iff.mp heq).2
    · intro heq
      rw [heq]
  rw [hiff]
  obtain ⟨target, protocol, dest⟩ := s
  simp only [Sentence.readAs, Sentence.record, FirewallRule.mk.injEq, true_and, and_true]
  refine and_congr ?_ ?_
  · cases protocol <;> cases dest <;> cases endsBlank line <;> simp [eq_comm]
  · cases dest with
    | none => simp only [Option.map_none, reduceCtorEq, false_imp_iff, implies_true, iff_true]; rfl
    | some d => simp

/-- `Allow TCP  port 80 to example.com`, with a tab behind it. -/
def webSentence : Sentence where
  target := .accept
  protocol := some (.tcp, some (.port ⟨"80".toList, by decide⟩))
  dest := some (.host ⟨"example.com".toList, by decide⟩)

def webLine : Text := "Allow TCP  port 80 to example.com\t".toList

theorem webLine_spells : Spells webSentence.slots webLine :=
  @Spells.next _ _ "Allow".toList [' '] _ rfl (by decide) (by decide)
    (@Spells.next _ _ "TCP".toList [' ', ' '] _ rfl (by decide) (by decide)
      (@Spells.next _ _ "port".toList [' '] _ rfl (by decide) (by decide)
        (@Spells.next _ _ "80".toList [' '] _ rfl (by decide) (by decide)
          (@Spells.next _ _ "to".toList [' '] _ rfl (by decide) (by decide)
            (@Spells.last _ "example.com".toList ['\t'] rfl (by decide))))))

/-- Such a rule is read as written. -/
theorem sentence_read_web :
    Spells webSentence.slots webLine ∧
      parseFirewallRule [] fwrulesetGlobal webLine =
        (1, appendRule [] fwrulesetGlobal webSentence.record) := by
  refine ⟨webLine_spells, (sentence_read_iff [] fwrulesetGlobal webLine_spells).mpr ⟨?_, ?_⟩⟩
  · intro h
    cases h
  · intro d hd
    cases hd
    decide

/-- A line that says `allow` and nothing else blocks everything. -/
theorem lone_allow_blocks :
    let s : Sentence := ⟨.accept, none, none⟩
    Spells s.slots "allow".toList ∧
      parseFirewallRule [] fwrulesetGlobal "allow".toList =
        (1, [(fwrulesetGlobal, [⟨.reject, none, none, defaultMask, false⟩])]) ∧
      s.record = ⟨.accept, none, none, defaultMask, false⟩ ∧
      ¬ parseFirewallRule [] fwrulesetGlobal "allow".toList =
        (1, appendRule [] fwrulesetGlobal s.record) :=
  ⟨@Spells.last _ "allow".toList [] rfl (by decide), by decide, rfl, by decide⟩

end Wifidog
