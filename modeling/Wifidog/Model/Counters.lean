/-
  Reading the traffic counters (`iptables_fw_counters_update`) and deleting rules by what
  their listing mentions (`iptables_fw_destroy_mention`).

  A listing is read row by row and every row is handled in a lock section of its own, so one
  row is one step (`countersRow`). A row whose address belongs to no client makes the source
  delete every rule of both chains that mentions the address ("Preventively deleting").

  `iptables -L --line-numbers` prints one line per rule that starts with the rule's decimal
  number; `print` is the rest of the line. Every deletion shortens the chain, so the recursion
  of `iptables_fw_destroy_mention` is bounded by the length of the chain.

  Proved: `view_destroyMention` (the chain only loses rules, and no other chain changes).
-/
import Wifidog.Model.Firewall

namespace Wifidog

open CText Netfilter

/-- One line of `iptables -L -n --line-numbers -v`. -/
def listingLine (print : Rule Chain → Text) (num : Nat) (r : Rule Chain) : Text :=
  dec num ++ ' ' :: print r

/-- `sscanf (line, "%9[0-9]", rulenum)`, read as a number by iptables. -/
def readRulenum (line : Text) : Option Nat :=
  match (line.takeWhile Char.isDigit).take 9 with
  | [] => none
  | ds => some (Nat.ofDigitChars 10 ds 0)

/-- The rule number of the first line that mentions `victim`; `num` is the number of the
    first rule. -/
def mentionAt (print : Rule Chain → Text) (victim : Text) : Nat → List (Rule Chain) → Option Nat
  | _, [] => none
  | num, r :: rs =>
    let line := listingLine print num r
    if (strstr line victim).isSome then
      (readRulenum line).orElse fun _ => mentionAt print victim (num + 1) rs
    else mentionAt print victim (num + 1) rs

/-- The recursion of `iptables_fw_destroy_mention`, at most `fuel` deep. -/
def destroyMention (print : Rule Chain → Text) (table : Table) (chain : Chain) (victim : Text) :
    Nat → Tables Chain → Tables Chain
  | 0, t => t
  | fuel + 1, t =>
    match mentionAt print victim 1 ((t.view table chain).getD []) with
    | none => t
    | some num =>
      destroyMention print table chain victim fuel (t.exec ⟨table, .deleteAt chain num⟩)

/-- `iptables_fw_destroy_mention` -/
def iptablesFwDestroyMention (print : Rule Chain → Text) (t : Tables Chain) (table : Table)
    (chain : Chain) (victim : Text) : Tables Chain :=
  destroyMention print table chain victim ((t.view table chain).getD []).length t

/-! ## `iptables_fw_counters_update` -/

/-- Which of the two chains is being read. -/
inductive Direction where
  | outgoing | incoming
  deriving DecidableEq, Repr

/-- What a row of the Outgoing chain does to the counters of its client. -/
def Counters.readOutgoing (c : Counters) (counter : UInt64) (now : Int64) : Counters :=
  if c.outgoing - c.outgoingHistory < counter then
    { c with
      outgoingDelta := c.outgoingHistory + counter - c.outgoing
      outgoing := c.outgoingHistory + counter
      lastUpdated := now }
  else c

/-- What a row of the Incoming chain does to the counters of its client. -/
def Counters.readIncoming (c : Counters) (counter : UInt64) : Counters :=
  if c.incoming - c.incomingHistory < counter then
    { c with
      incomingDelta := c.incomingHistory + counter - c.incoming
      incoming := c.incomingHistory + counter }
  else c

def Counters.read (c : Counters) (dir : Direction) (counter : UInt64) (now : Int64) : Counters :=
  match dir with
  | .outgoing => c.readOutgoing counter now
  | .incoming => c.readIncoming counter

/-- The preventive deletion. -/
def preventiveDelete (print : Rule Chain → Text) (t : Tables Chain) (ip : Text) : Tables Chain :=
  let t := iptablesFwDestroyMention print t .mangle .outgoing ip
  iptablesFwDestroyMention print t .mangle .incoming ip

/-- The lock section for one row of the listing, whose address `inet_aton` accepts. -/
def countersRow (print : Rule Chain → Text) (l : ClientList) (t : Tables Chain) (dir : Direction)
    (ip : Text) (counter : UInt64) (now : Int64) : ClientList × Tables Chain :=
  match clientListFindByIp l ip with
  | some p1 =>
    (clientListWrite l { p1 with counters := p1.counters.read dir counter now }, t)
  | none => (l, preventiveDelete print t ip)

/-! ## Deleting by mention -/

theorem view_deleteAt (t : Tables Chain) (table : Table) (chain : Chain) (num : Nat)
    (tb : Table) (ch : Chain) :
    ∃ f : List (Rule Chain) → List (Rule Chain), (∀ rs, (f rs).Sublist rs) ∧
      (t.exec ⟨table, .deleteAt chain num⟩).view tb ch = (t.view tb ch).map f := by
  rw [Tables.view_exec t (by simp [Command.NoJump])]
  split
  · refine ⟨fun l => if num = 0 then l else l.eraseIdx (num - 1), ?_, rfl⟩
    intro rs
    dsimp only
    split
    · exact List.Sublist.refl rs
    · exact List.eraseIdx_sublist rs (num - 1)
  · exact ⟨id, fun rs => List.Sublist.refl rs, by simp⟩

/-- Whatever is deleted, every chain keeps a sublist of its rules. -/
theorem view_destroyMention (print : Rule Chain → Text) (table : Table) (chain : Chain)
    (victim : Text) (fuel : Nat) (t : Tables Chain) (tb : Table) (ch : Chain) :
    ∃ f : List (Rule Chain) → List (Rule Chain), (∀ rs, (f rs).Sublist rs) ∧
      (destroyMention print table chain victim fuel t).view tb ch = (t.view tb ch).map f := by
  induction fuel generalizing t with
  | zero => exact ⟨id, fun rs => List.Sublist.refl rs, by simp [destroyMention]⟩
  | succ fuel ih =>
    unfold destroyMention
    split
    · exact ⟨id, fun rs => List.Sublist.refl rs, by simp⟩
    · next num _ =>
      obtain ⟨f, hf, h1⟩ := view_deleteAt t table chain num tb ch
      obtain ⟨g, hg, h2⟩ := ih (t.exec ⟨table, .deleteAt chain num⟩)
      refine ⟨g ∘ f, fun rs => (hg (f rs)).trans (hf rs), ?_⟩
      rw [h2, h1, Option.map_map]

theorem view_preventiveDelete (print : Rule Chain → Text) (t : Tables Chain) (ip : Text)
    (tb : Table) (ch : Chain) :
    ∃ f : List (Rule Chain) → List (Rule Chain), (∀ rs, (f rs).Sublist rs) ∧
      (preventiveDelete print t ip).view tb ch = (t.view tb ch).map f := by
  obtain ⟨f, hf, h1⟩ := view_destroyMention print .mangle .outgoing ip
    ((t.view .mangle .outgoing).getD []).length t tb ch
  obtain ⟨g, hg, h2⟩ := view_destroyMention print .mangle .incoming ip
    (((iptablesFwDestroyMention print t .mangle .outgoing ip).view .mangle
      .incoming).getD []).length (iptablesFwDestroyMention print t .mangle .outgoing ip) tb ch
  refine ⟨g ∘ f, fun rs => (hg (f rs)).trans (hf rs), ?_⟩
  unfold preventiveDelete
  rw [← Option.map_map, ← h1]
  exact h2

end Wifidog
