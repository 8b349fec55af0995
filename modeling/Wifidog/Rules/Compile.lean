/-
  From a rule text to the text of its iptables command.

  `commandText` is what `iptables_compile` writes when its buffer is large enough. An
  `AppendCommand` is a command of the form that iptables loads: its fields are subtypes and
  enumerations, so that a protocol is one of the three, a port is `N` or `N:M` and stands with tcp
  or udp only, and an operand is not empty. It is the form only: 99999 is a number too, and 80:20 a
  range. The command of an accepted rule is to be the text of one.

  Two texts of commands that begin alike are alike (`record_eq_of_prefix`): the words end at the
  blanks. So a rule's command is loadable just when its record is that of an `AppendCommand` and the
  text fits the buffer, and `record_eq_wordsRecord` reads the record off the words of the rule text.
-/
import Wifidog.Rules.Grammar
import Wifidog.Model.CommandLine
import Mathlib.Tactic.Ring

namespace Wifidog

open CText Netfilter

/-! ## The command text -/

/-- The words behind the chain, up to the target. -/
def optionWords (rule : FirewallRule) : List Text :=
  (if rule.maskIsIpset then
      ["-m".toList, "set".toList, "--match-set".toList, rule.mask, "dst".toList]
    else ["-d".toList, rule.mask]) ++
    (rule.protocol.toList.flatMap fun p => ["-p".toList, p]) ++
    (rule.port.toList.flatMap fun d => ["--dport".toList, d]) ++ ["-j".toList]

def commandText (chain : Chain) (rule : FirewallRule) : Text :=
  ("-t filter -A ".toList ++ chain.text ++ " ".toList) ++
    (spaced (optionWords rule) ++ rule.target.modeText)

theorem appendPiece_take (s piece : Text) :
    appendPiece (s.take (maxBuf - 1)) piece = (s ++ piece).take (maxBuf - 1) := by
  unfold appendPiece
  rw [List.take_append, List.take_append, List.take_take, List.length_take, Nat.min_self]
  congr 2
  omega

theorem foldl_appendPiece (pieces : List Text) (s : Text) :
    pieces.foldl appendPiece (s.take (maxBuf - 1)) = (s ++ pieces.flatten).take (maxBuf - 1) := by
  induction pieces generalizing s with
  | nil => rw [List.flatten_nil, List.append_nil, List.foldl_nil]
  | cons piece pieces ih =>
    rw [List.foldl_cons, appendPiece_take, ih (s ++ piece), List.flatten_cons, List.append_assoc]

/-- The pieces that `iptables_compile` prints one behind the other. -/
def commandPieces (chain : Chain) (rule : FirewallRule) : List Text :=
  ["-t ".toList ++ Netfilter.Table.filter.text ++ " -A ".toList ++ chain.text ++ " ".toList,
    if rule.maskIsIpset then "-m set --match-set ".toList ++ rule.mask ++ " dst ".toList
      else "-d ".toList ++ rule.mask ++ " ".toList] ++
    (rule.protocol.toList.map fun p => "-p ".toList ++ p ++ " ".toList) ++
    (rule.port.toList.map fun d => "--dport ".toList ++ d ++ " ".toList) ++
    ["-j ".toList ++ rule.target.modeText]

theorem flatten_commandPieces (chain : Chain) (rule : FirewallRule) :
    (commandPieces chain rule).flatten = commandText chain rule := by
  have hdest : ∀ w : Text, "-d ".toList ++ w ++ " ".toList = spaced ["-d".toList, w] := by
    intro w
    simp [spaced]
  have hprotocol : ∀ w : Text, "-p ".toList ++ w ++ " ".toList = spaced ["-p".toList, w] := by
    intro w
    simp [spaced]
  have hport : ∀ w : Text, "--dport ".toList ++ w ++ " ".toList = spaced ["--dport".toList, w] := by
    intro w
    simp [spaced]
  have hset : ∀ w : Text, "-m set --match-set ".toList ++ w ++ " dst ".toList =
      spaced ["-m".toList, "set".toList, "--match-set".toList, w, "dst".toList] := by
    intro w
    simp [spaced]
  have hjump : ∀ w : Text, "-j ".toList ++ w = spaced ["-j".toList] ++ w := fun w => rfl
  obtain ⟨target, protocol, port, mask, maskIsIpset⟩ := rule
  unfold commandPieces commandText optionWords
  simp only [hset, hjump, hdest, hprotocol, hport, spaced_append]
  cases maskIsIpset <;> cases protocol <;> cases port <;>
    simp only [List.flatten_append, List.flatten_cons, List.flatten_nil, List.append_nil,
      Option.toList_none, Option.toList_some, List.map_nil, List.map_cons, List.flatMap_cons,
      List.flatMap_nil, List.append_assoc, spaced_nil, if_true,
      Bool.false_eq_true, if_false] <;> rfl

theorem iptablesCompileText_filter (chain : Chain) (rule : FirewallRule) :
    iptablesCompileText .filter chain rule = some ((commandText chain rule).take (maxBuf - 1)) := by
  have hfold := foldl_appendPiece (commandPieces chain rule) []
  rw [List.nil_append, flatten_commandPieces, List.take_nil] at hfold
  rw [← hfold]
  obtain ⟨target, protocol, port, mask, maskIsIpset⟩ := rule
  unfold iptablesCompileText
  rw [if_neg (by simp)]
  cases maskIsIpset <;> cases protocol <;> cases port <;> rfl

/-! ## Commands that begin alike -/

/-- The operands are single words. -/
def FirewallRule.Single (r : FirewallRule) : Prop :=
  (∀ p ∈ r.protocol, ' ' ∉ p) ∧ (∀ d ∈ r.port, ' ' ∉ d) ∧ ' ' ∉ r.mask

theorem FirewallRule.Single.optionWords {r : FirewallRule} (h : r.Single) :
    ∀ w ∈ optionWords r, ' ' ∉ w := by
  obtain ⟨target, protocol, port, mask, maskIsIpset⟩ := r
  obtain ⟨hprotocol, hport, hmask⟩ := h
  intro w hw
  unfold Wifidog.optionWords at hw
  simp only [List.mem_append, List.mem_flatMap, Option.mem_toList, List.mem_singleton] at hw
  rcases hw with ((hw | ⟨p, hp, hw⟩) | ⟨d, hd, hw⟩) | rfl
  · split at hw
    · simp only [List.mem_cons, List.not_mem_nil, or_false] at hw
      rcases hw with rfl | rfl | rfl | rfl | rfl
      · decide
      · decide
      · decide
      · exact hmask
      · decide
    · rcases List.mem_pair.mp hw with rfl | rfl
      · decide
      · exact hmask
  · rcases List.mem_pair.mp hw with rfl | rfl
    · decide
    · exact hprotocol w hp
  · rcases List.mem_pair.mp hw with rfl | rfl
    · decide
    · exact hport w hd
  · decide

theorem optionWords_prefix {r r' : FirewallRule} (htarget : r.target = r'.target)
    (h : optionWords r <+: optionWords r') : r = r' := by
  obtain ⟨target, protocol, port, mask, maskIsIpset⟩ := r
  obtain ⟨target', protocol', port', mask', maskIsIpset'⟩ := r'
  subst htarget
  unfold optionWords at h
  cases maskIsIpset <;> cases maskIsIpset' <;> cases protocol <;> cases protocol' <;>
    cases port <;> cases port' <;>
    simp [List.cons_prefix_cons] at h ⊢ <;> tauto

theorem record_eq_of_prefix (chain : Chain) {r r' : FirewallRule} (hr : r.Single) (hr' : r'.Single)
    (htarget : r.target = r'.target) (h : commandText chain r <+: commandText chain r') :
    r = r' := by
  have hmode : ' ' ∉ r'.target.modeText := by cases r'.target <;> decide
  have hwords := spaced_prefix hr.optionWords hr'.optionWords hmode
    ((List.prefix_append_right_inj _).mp h)
  exact optionWords_prefix htarget hwords

/-! ## The record of a rule text -/

/-- The words behind the rule type, by their places; `dest` are those left for the destination. -/
structure Places where
  protocol : Option Text
  port : Option Text
  dest : List Text
  deriving DecidableEq, Repr

def atProtocol (ws : List Text) : Bool :=
  atKeyword "tcp".toList ws || atKeyword "udp".toList ws || atKeyword "icmp".toList ws

def portPlace (protocol : Option Text) (ws : List Text) : Places :=
  if atKeyword "port".toList ws then ⟨protocol, some (ws.tail.headD []), ws.tail.tail⟩
  else ⟨protocol, none, ws⟩

def places (ws : List Text) : Places :=
  if atProtocol ws.tail then portPlace ws.tail.head? ws.tail.tail else portPlace none ws.tail

/-- What stands behind the keyword of the destination; blanks alone are an empty word. -/
def Places.mask (p : Places) (trailing : Bool) : Option Text :=
  match p.dest with
  | [] => none
  | [_] => if trailing then some [] else none
  | _ :: mask :: _ => some mask

def Places.isIpset (p : Places) (trailing : Bool) : Bool :=
  (p.mask trailing).isSome && atKeyword "to-ipset".toList p.dest

/-- The end flag says that no word is left. -/
def FlagOk (ws : List Text) (e : Bool) : Prop := ws ≠ [] → e = false

theorem nextWord_eq {ws : List Text} {e : Bool} (h : FlagOk ws e) (trailing : Bool) :
    ∃ e', nextWord ws trailing e = (ws.headD [], ws.tail, e') ∧ FlagOk ws.tail e' ∧
      (ws ≠ [] → e' = atEnd ws.tail trailing) := by
  cases ws with
  | nil => exact ⟨true, rfl, fun hne => absurd rfl hne, fun hne => absurd rfl hne⟩
  | cons w ws =>
    rw [h (List.cons_ne_nil w ws), nextWord_cons]
    refine ⟨_, rfl, fun hne => ?_, fun _ => rfl⟩
    cases ws with
    | nil => exact absurd rfl hne
    | cons v vs => rfl

theorem wordsDest_places {ws : List Text} {e : Bool} (h : FlagOk ws e) (trailing : Bool)
    (protocol port : Option Text) :
    (wordsDest ws trailing e).2 =
      (Places.mask ⟨protocol, port, ws⟩ trailing,
        Places.isIpset ⟨protocol, port, ws⟩ trailing) := by
  cases ws with
  | nil => cases e <;> rfl
  | cons kw ws =>
    rw [h (List.cons_ne_nil kw ws)]
    unfold wordsDest
    rw [if_neg (by simp), nextWord_cons]
    cases ws with
    | nil => cases trailing <;> rfl
    | cons mask ws => simp [Places.mask, Places.isIpset, atKeyword]

theorem wordsPort_places {ws : List Text} {e : Bool} (h : FlagOk ws e) (trailing : Bool)
    (protocol : Option Text) :
    ∃ e', wordsPort ws trailing e =
        ((portPlace protocol ws).port, (portPlace protocol ws).dest, e') ∧
      FlagOk (portPlace protocol ws).dest e' := by
  unfold wordsPort portPlace
  split
  · obtain ⟨e₁, hkeyword, hflag₁, _⟩ := nextWord_eq h trailing
    obtain ⟨e₂, hport, hflag₂, _⟩ := nextWord_eq hflag₁ trailing
    simp only [hkeyword, hport]
    exact ⟨e₂, rfl, hflag₂⟩
  · exact ⟨e, rfl, h⟩

theorem wordsProtocol_places {ws : List Text} {e : Bool} (h : FlagOk ws.tail e) (trailing : Bool) :
    ∃ rest e', wordsProtocol ws.tail trailing e = ((places ws).protocol, rest, e') ∧
      FlagOk rest e' ∧ places ws = portPlace (places ws).protocol rest := by
  have hprotocol : ∀ p rest, (portPlace p rest).protocol = p := by
    intro p rest
    unfold portPlace
    split <;> rfl
  have hcond : atProtocol ws.tail = (atKeyword "tcp".toList ws.tail ||
    atKeyword "udp".toList ws.tail || atKeyword "icmp".toList ws.tail) := rfl
  unfold wordsProtocol
  cases hat : atProtocol ws.tail with
  | false =>
    have hplaces : places ws = portPlace none ws.tail := by rw [places, hat]; rfl
    rw [← hcond, hat, hplaces, hprotocol]
    exact ⟨ws.tail, e, rfl, h, rfl⟩
  | true =>
    obtain ⟨e₁, hword, hflag, _⟩ := nextWord_eq h trailing
    have hplaces : places ws = portPlace (some (ws.tail.headD [])) ws.tail.tail := by
      rw [places, hat, if_pos rfl]
      cases hrest : ws.tail with
      | nil => rw [hrest] at hat; cases hat
      | cons w rest => rfl
    rw [← hcond, hat, hplaces, hprotocol, if_pos rfl, hword]
    exact ⟨ws.tail.tail, e₁, rfl, hflag, rfl⟩

/-- The record of an accepted rule text, read off its words. -/
theorem scanWords_record {ws : List Text} {trailing : Bool} {l : RuleLine}
    (h : scanWords ws trailing = .ok l) :
    ruleTarget (nextWord ws trailing false).1 (nextWord ws trailing false).2.2 = some l.target ∧
      l.record = ⟨l.target, (places ws).protocol, (places ws).port,
        ((places ws).mask trailing).getD defaultMask, (places ws).isIpset trailing⟩ := by
  obtain ⟨e₁, htoken, hflag₁, _⟩ := nextWord_eq (fun _ => rfl : FlagOk ws false) trailing
  unfold scanWords at h
  simp only [htoken] at h ⊢
  cases htarget : ruleTarget (ws.headD []) e₁ with
  | none =>
    rw [htarget] at h
    cases h
  | some target =>
    obtain ⟨rest, e₂, hprotocol, hflag₂, hplaces⟩ := wordsProtocol_places hflag₁ trailing
    obtain ⟨e₃, hport, hflag₃⟩ := wordsPort_places hflag₂ trailing (places ws).protocol
    rw [← hplaces] at hport hflag₃
    have hdest := wordsDest_places hflag₃ trailing (places ws).protocol (places ws).port
    simp only [htarget, hprotocol, hport] at h
    split at h
    · obtain rfl := Except.ok.inj h
      refine ⟨rfl, ?_⟩
      simp only [RuleLine.record, hdest]
    · cases h

theorem mem_of_mem_places {ws : List Text} :
    (∀ p ∈ (places ws).protocol, p ∈ ws) ∧ (∀ d ∈ (places ws).port, d = [] ∨ d ∈ ws) ∧
      ∀ w ∈ (places ws).dest, w ∈ ws := by
  have hport : ∀ protocol rest, (∀ p ∈ protocol, p ∈ ws) → (∀ w ∈ rest, w ∈ ws) →
      (∀ p ∈ (portPlace protocol rest).protocol, p ∈ ws) ∧
        (∀ d ∈ (portPlace protocol rest).port, d = [] ∨ d ∈ ws) ∧
        ∀ w ∈ (portPlace protocol rest).dest, w ∈ ws := by
    intro protocol rest hprotocol hrest
    unfold portPlace
    split
    · refine ⟨hprotocol, ?_, fun w hw => hrest w (List.mem_of_mem_tail (List.mem_of_mem_tail hw))⟩
      intro d hd
      cases htail : rest.tail with
      | nil => exact Or.inl (by simpa [htail, eq_comm] using hd)
      | cons v vs =>
        have hv : d = v := by simpa [htail, eq_comm] using hd
        exact Or.inr (hrest d (List.mem_of_mem_tail (by rw [htail, hv]; exact List.mem_cons_self)))
    · refine ⟨hprotocol, ?_, hrest⟩
      intro d hd
      cases hd
  unfold places
  split
  · exact hport _ _ (fun p hp => List.mem_of_mem_tail (List.mem_of_head? hp))
      fun w hw => List.mem_of_mem_tail (List.mem_of_mem_tail hw)
  · exact hport _ _ (fun p hp => by cases hp) fun w hw => List.mem_of_mem_tail hw

/-! ## Loadable commands -/

/-- A command that appends a rule to a chain of the filter table, in the form that iptables loads;
    the values of the numbers are left open. -/
structure AppendCommand where
  target : FirewallTarget
  protocol : Option (Protocol × Option PortSpec)
  dest : Dest
  portful : ∀ port, protocol ≠ some (.icmp, some port)

def AppendCommand.record (c : AppendCommand) : FirewallRule :=
  Sentence.record ⟨c.target, c.protocol, some c.dest⟩

def AppendCommand.text (chain : Chain) (c : AppendCommand) : Text := commandText chain c.record

/-- The length of an option with its operand, `blank` being that without it. -/
def optionLength (blank : Text) : Option Text → Nat
  | none => 0
  | some w => blank.length + w.length

/-- The room that the command of a rule text takes. -/
def commandLength (chain : Chain) (ws : List Text) (trailing : Bool) : Nat :=
  ("-t filter -A  ".toList).length + chain.text.length +
    optionLength
      (if (places ws).isIpset trailing then "-m set --match-set  dst ".toList else "-d  ".toList)
      (some (((places ws).mask trailing).getD defaultMask)) +
    optionLength "-p  ".toList (places ws).protocol +
    optionLength "--dport  ".toList (places ws).port +
    "-j ".toList.length +
    ((ruleTarget (nextWord ws trailing false).1 (nextWord ws trailing false).2.2).map
      (·.modeText.length)).getD 0

/-- The words of a rule text that make a loadable command for the chain. -/
structure LoadableWords (chain : Chain) (ws : List Text) (trailing : Bool) : Prop where
  protocol : ∀ p ∈ (places ws).protocol, p = "tcp".toList ∨ p = "udp".toList ∨ p = "icmp".toList
  port : ∀ d ∈ (places ws).port, ((places ws).protocol = some "tcp".toList ∨
    (places ws).protocol = some "udp".toList) ∧ ∃ spec : PortSpec, d = spec.text
  dest : trailing = true → (places ws).dest.length ≠ 1
  fits : commandLength chain ws trailing < maxBuf

theorem length_commandText (chain : Chain) (rule : FirewallRule) :
    (commandText chain rule).length =
      "-t filter -A  ".toList.length + chain.text.length +
        optionLength
          (if rule.maskIsIpset then "-m set --match-set  dst ".toList else "-d  ".toList)
          (some rule.mask) +
        optionLength "-p  ".toList rule.protocol + optionLength "--dport  ".toList rule.port +
        "-j ".toList.length + rule.target.modeText.length := by
  have hchain : "-t filter -A  ".toList.length = "-t ".toList.length +
      Netfilter.Table.filter.text.length + " -A ".toList.length + " ".toList.length := rfl
  have hset : "-m set --match-set  dst ".toList.length =
      "-m set --match-set ".toList.length + " dst ".toList.length := rfl
  have hdest : "-d  ".toList.length = "-d ".toList.length + " ".toList.length := rfl
  have hprotocol : "-p  ".toList.length = "-p ".toList.length + " ".toList.length := rfl
  have hport : "--dport  ".toList.length = "--dport ".toList.length + " ".toList.length := rfl
  obtain ⟨target, protocol, port, mask, maskIsIpset⟩ := rule
  rw [← flatten_commandPieces, hchain]
  cases maskIsIpset <;> cases protocol <;> cases port <;>
    simp only [commandPieces, optionLength, hset, hdest, hprotocol, hport, List.flatten_append,
      List.flatten_cons, List.flatten_nil, List.append_nil, List.length_append, Option.toList_none,
      Option.toList_some, List.map_nil, List.map_cons, if_true, Bool.false_eq_true, if_false] <;>
    ring

/-- A rule is that of a loadable command if its fields say so. -/
theorem exists_command_iff {rule : FirewallRule} (hmask : ∀ c ∈ rule.mask, isBlank c = false) :
    (∃ c : AppendCommand, c.record = rule) ↔
      (∀ p ∈ rule.protocol, p = "tcp".toList ∨ p = "udp".toList ∨ p = "icmp".toList) ∧
        (∀ d ∈ rule.port, (rule.protocol = some "tcp".toList ∨ rule.protocol = some "udp".toList) ∧
          ∃ spec : PortSpec, d = spec.text) ∧ rule.mask ≠ [] := by
  constructor
  · rintro ⟨⟨target, protocol, dest, hportful⟩, rfl⟩
    refine ⟨?_, ?_, ?_⟩
    · rintro p hp
      obtain ⟨⟨proto, port⟩, -, rfl⟩ := Option.map_eq_some_iff.mp hp
      cases proto <;> simp [Protocol.word]
    · intro d hd
      obtain ⟨⟨proto, port⟩, rfl, hport⟩ := Option.bind_eq_some_iff.mp hd
      obtain ⟨spec, rfl, rfl⟩ := Option.map_eq_some_iff.mp hport
      refine ⟨?_, spec, rfl⟩
      cases proto with
      | tcp => exact Or.inl rfl
      | udp => exact Or.inr rfl
      | icmp => exact absurd rfl (hportful spec)
    · cases dest with
      | host dest => exact dest.property.1
      | ipset name => exact name.property.1
  · rintro ⟨hprotocol, hport, hne⟩
    obtain ⟨target, protocol, port, mask, maskIsIpset⟩ := rule
    obtain ⟨dest, htext, hipset⟩ :
        ∃ dest : Dest, dest.text = mask ∧ dest.isIpset = maskIsIpset := by
      cases maskIsIpset with
      | false => exact ⟨.host ⟨mask, hne, hmask⟩, rfl, rfl⟩
      | true => exact ⟨.ipset ⟨mask, hne, hmask⟩, rfl, rfl⟩
    obtain ⟨words, hwords, hspec, hportful⟩ : ∃ words : Option (Protocol × Option PortSpec),
        words.map (·.1.word) = protocol ∧ (words.bind fun p => p.2.map (·.text)) = port ∧
          ∀ spec, words ≠ some (.icmp, some spec) := by
      cases port with
      | none =>
        cases protocol with
        | none => exact ⟨none, rfl, rfl, fun spec => by simp⟩
        | some p =>
          obtain rfl | rfl | rfl := hprotocol p rfl
          · exact ⟨some (.tcp, none), rfl, rfl, fun spec => by simp⟩
          · exact ⟨some (.udp, none), rfl, rfl, fun spec => by simp⟩
          · exact ⟨some (.icmp, none), rfl, rfl, fun spec => by simp⟩
      | some d =>
        obtain ⟨hproto, spec, rfl⟩ := hport d rfl
        rcases hproto with rfl | rfl
        · exact ⟨some (.tcp, some spec), rfl, rfl, fun spec => by simp⟩
        · exact ⟨some (.udp, some spec), rfl, rfl, fun spec => by simp⟩
    refine ⟨⟨target, words, dest, hportful⟩, ?_⟩
    unfold AppendCommand.record Sentence.record
    simp only [hwords, hspec, Option.map_some, Option.getD_some, htext, Option.any_some, hipset]

theorem not_mem_of_not_blank {w : Text} (h : ∀ c ∈ w, isBlank c = false) : ' ' ∉ w := by
  intro hmem
  cases h ' ' hmem

theorem AppendCommand.record_single (c : AppendCommand) : c.record.Single := by
  obtain ⟨target, protocol, dest, hportful⟩ := c
  refine ⟨?_, ?_, ?_⟩
  · intro p hp
    obtain ⟨⟨proto, port⟩, -, rfl⟩ := Option.map_eq_some_iff.mp hp
    show ' ' ∉ proto.word
    cases proto <;> decide
  · intro d hd
    obtain ⟨⟨proto, port⟩, -, hport⟩ := Option.bind_eq_some_iff.mp hd
    obtain ⟨spec, -, rfl⟩ := Option.map_eq_some_iff.mp hport
    intro hmem
    exact absurd (List.all_eq_true.mp spec.text_lower.2 ' ' hmem) (by decide)
  · cases dest with
    | host dest => exact not_mem_of_not_blank dest.property.2
    | ipset name => exact not_mem_of_not_blank name.property.2

/-- The buffer holds the text of a loadable command only for its own record. -/
theorem record_eq_of_take {chain : Chain} {rule : FirewallRule} (h : rule.Single)
    {c : AppendCommand} (htarget : c.target = rule.target)
    (htake : (commandText chain rule).take (maxBuf - 1) = c.text chain) : c.record = rule := by
  have hprefix : c.text chain <+: commandText chain rule := by
    rw [← htake]
    exact List.take_prefix _ _
  exact record_eq_of_prefix chain c.record_single h htarget hprefix

theorem mask_not_blank {ws : List Text} (h : ∀ w ∈ ws, w ≠ [] ∧ ∀ c ∈ w, isBlank c = false)
    (trailing : Bool) :
    ∀ c ∈ ((places ws).mask trailing).getD defaultMask, isBlank c = false := by
  have hdest := (@mem_of_mem_places ws).2.2
  unfold Places.mask
  split
  · decide
  · cases trailing <;> decide
  · rename_i kw mask rest heq
    exact (h mask (hdest mask (by simp [heq]))).2

theorem mask_ne_nil_iff {ws : List Text} (h : ∀ w ∈ ws, w ≠ [] ∧ ∀ c ∈ w, isBlank c = false)
    (trailing : Bool) :
    ((places ws).mask trailing).getD defaultMask ≠ [] ↔
      (trailing = true → (places ws).dest.length ≠ 1) := by
  have hdest := (@mem_of_mem_places ws).2.2
  have hdefault : defaultMask ≠ [] := by decide
  unfold Places.mask
  split
  · rename_i heq
    simp [heq, hdefault]
  · rename_i kw heq
    cases trailing <;> simp [heq, hdefault]
  · rename_i kw mask rest heq
    have hne := (h mask (hdest mask (by simp [heq]))).1
    simpa [heq] using hne

theorem scan_of_accepted {rs : Rulesets} {name line : Text} {rule : FirewallRule}
    (h : parseFirewallRule rs name line = (1, appendRule rs name rule)) :
    ∃ l, scanWords (words (line.map Char.toLower)) (endsBlank line) = .ok l ∧ l.record = rule := by
  unfold parseFirewallRule at h
  cases hstart : startsBlank line with
  | true =>
    rw [scanFirewallRule_blank hstart] at h
    cases h
  | false =>
    rw [scanFirewallRule_words hstart] at h
    cases hscan : scanWords (words (line.map Char.toLower)) (endsBlank line) with
    | error code =>
      rw [hscan] at h
      have hlen := congrArg (fun r => (getRuleset r name).length) (Prod.ext_iff.mp h).2
      simp [getRuleset_appendRule] at hlen
    | ok l =>
      rw [hscan] at h
      exact ⟨l, rfl, appendRule_inj rs name (Prod.ext_iff.mp h).2⟩

/-- The command of an accepted rule text is loadable if its words are sound, and only then. -/
theorem compile_loadable_iff (rs : Rulesets) (name : Text) {line : Text} {rule : FirewallRule}
    (h : parseFirewallRule rs name line = (1, appendRule rs name rule)) (chain : Chain) :
    (∃ c : AppendCommand, c.target = rule.target ∧
        iptablesCompileText .filter chain rule = some (c.text chain)) ↔
      LoadableWords chain (words (line.map Char.toLower)) (endsBlank line) := by
  obtain ⟨l, hscan, rfl⟩ := scan_of_accepted h
  obtain ⟨htarget, hrecord⟩ := scanWords_record hscan
  have hsolid : ∀ w ∈ words (line.map Char.toLower), w ≠ [] ∧ ∀ c ∈ w, isBlank c = false :=
    fun w hw => ⟨(mem_of_mem_words hw).1, fun c hc => ((mem_of_mem_words hw).2 c hc).1⟩
  generalize words (line.map Char.toLower) = ws at *
  generalize endsBlank line = trailing at *
  have hlength : commandLength chain ws trailing = (commandText chain l.record).length := by
    rw [length_commandText, hrecord]
    unfold commandLength
    rw [htarget]
    rfl
  have hmask : ∀ c ∈ l.record.mask, isBlank c = false := by
    rw [hrecord]
    exact mask_not_blank hsolid trailing
  have hsingle : l.record.Single := by
    obtain ⟨hprotocol, hport, _⟩ := @mem_of_mem_places ws
    refine ⟨?_, ?_, not_mem_of_not_blank hmask⟩
    · rw [hrecord]
      exact fun p hp => not_mem_of_not_blank (hsolid p (hprotocol p hp)).2
    · rw [hrecord]
      intro d hd
      rcases hport d hd with rfl | hmem
      · simp
      · exact not_mem_of_not_blank (hsolid d hmem).2
  rw [iptablesCompileText_filter]
  constructor
  · rintro ⟨c, hc, htext⟩
    have htake := Option.some.inj htext
    have heq := record_eq_of_take hsingle hc htake
    obtain ⟨hprotocol, hport, hne⟩ := (exists_command_iff hmask).mp ⟨c, heq⟩
    rw [hrecord] at hprotocol hport hne
    refine ⟨hprotocol, hport, mask_ne_nil_iff hsolid trailing |>.mp hne, ?_⟩
    have hlen := congrArg List.length htake
    rw [AppendCommand.text, heq, List.length_take] at hlen
    rw [hlength]
    have hpos : 0 < maxBuf := by decide
    omega
  · intro hsound
    obtain ⟨c, hc⟩ : ∃ c : AppendCommand, c.record = l.record := by
      refine (exists_command_iff hmask).mpr ?_
      rw [hrecord]
      exact ⟨hsound.protocol, hsound.port, (mask_ne_nil_iff hsolid trailing).mpr hsound.dest⟩
    have hfits := hsound.fits
    refine ⟨c, congrArg FirewallRule.target hc, ?_⟩
    rw [List.take_of_length_le (by omega), AppendCommand.text, hc]

/-- Such a rule text has a loadable command. -/
theorem compile_loadable_web :
    parseFirewallRule [] fwrulesetGlobal webLine =
        (1, appendRule [] fwrulesetGlobal webSentence.record) ∧
      ∃ c : AppendCommand, c.target = .accept ∧
        iptablesCompileText .filter .global webSentence.record = some (c.text .global) := by
  have hparse : parseFirewallRule [] fwrulesetGlobal webLine =
      (1, appendRule [] fwrulesetGlobal webSentence.record) := by decide
  have hplaces : places (words (webLine.map Char.toLower)) =
      ⟨some "tcp".toList, some "80".toList, ["to".toList, "example.com".toList]⟩ := by decide
  refine ⟨hparse, (compile_loadable_iff [] fwrulesetGlobal hparse .global).mpr ⟨?_, ?_, ?_, ?_⟩⟩
  · rw [hplaces]
    exact fun p hp => Or.inl (Option.some.inj hp).symm
  · rw [hplaces]
    exact fun d hd => ⟨Or.inl rfl, .port ⟨"80".toList, by decide⟩, (Option.some.inj hd).symm⟩
  · rw [hplaces]
    exact fun _ => by decide
  · decide

/-- A port without a protocol is accepted, and its command cannot be loaded. -/
theorem portOnly_not_loadable :
    let rule : FirewallRule := ⟨.accept, none, some "80".toList, defaultMask, false⟩
    parseFirewallRule [] fwrulesetGlobal "allow port 80".toList =
        (1, appendRule [] fwrulesetGlobal rule) ∧
      iptablesCompileText .filter .global rule =
        some "-t filter -A WD_$ID$_Global -d 0.0.0.0/0 --dport 80 -j ACCEPT".toList ∧
      ¬ ∃ c : AppendCommand, c.target = rule.target ∧
        iptablesCompileText .filter .global rule = some (c.text .global) := by
  intro rule
  refine ⟨by decide, by decide, ?_⟩
  rintro ⟨c, htarget, htext⟩
  rw [iptablesCompileText_filter] at htext
  have hsingle : rule.Single :=
    ⟨fun p hp => (by cases hp), fun d hd => Option.some.inj hd ▸ (by decide), by decide⟩
  have heq := record_eq_of_take hsingle htarget (Option.some.inj htext)
  have hport := ((exists_command_iff (by decide)).mp ⟨c, heq⟩).2.1 "80".toList rfl
  exact absurd hport.1 (by decide)

end Wifidog
