/-
  How a packet walks through the chains of one table.

  `walk` goes down the rules of a chain: ACCEPT, DROP, REJECT and REDIRECT end the walk, MARK
  rewrites the packet's mark and goes on, LOG, ULOG and TCPMSS go on, a jump walks the named
  chain and goes on if that one falls off its end. The kernel refuses jump cycles, so a walk
  never nests deeper than there are chains: `traverse` bounds the depth by that number, and
  `Outcome.lost` (the bound is used up) is excluded in every result about a configuration.

  `Env` is what a rule's operand means outside the packet: which addresses an address operand
  covers (a dotted quad, a network, or a host name as resolved when the rule was loaded),
  which ports a port operand covers, what an ipset holds. Numbers in mark operands are read
  as iptables reads them (`readMark`): decimal, octal after `0`, hexadecimal after `0x`.

  Proved: `walk_append`; `walk_of_plain` (rules without jump or MARK: the first terminating
  match decides) and `walk_of_marks` (MARK rules that agree where they apply).
-/
import Wifidog.Lib.Netfilter
import Mathlib.Data.List.Perm.Subperm

namespace Wifidog.Netfilter

open CText (Text)

structure Packet where
  /-- interface it arrives on -/
  iif : Text
  /-- interface it leaves on -/
  oif : Text
  src : Text
  dst : Text
  /-- source MAC address -/
  mac : Text
  proto : Text
  dport : Nat
  flags : List Text
  ct : CtState
  deriving DecidableEq, Repr

/-- The meaning of operands that lies outside the packet. -/
structure Env where
  covers : Text → Text → Bool
  inPort : Text → Nat → Bool
  inSet : Text → Text → Bool

/-- An interface operand; a trailing `+` stands for any suffix. -/
def ifaceMatches (pat name : Text) : Bool :=
  match pat.getLast? with
  | some '+' => pat.dropLast.isPrefixOf name
  | _ => pat == name

/-- Two spellings of one MAC address: the hexadecimal digits in either case. -/
def sameMac (a b : Text) : Bool := CText.strcaseEq a b

def digitVal (c : Char) : Option Nat :=
  if '0' ≤ c ∧ c ≤ '9' then some (c.toNat - '0'.toNat)
  else if 'a' ≤ c ∧ c ≤ 'f' then some (c.toNat - 'a'.toNat + 10)
  else if 'A' ≤ c ∧ c ≤ 'F' then some (c.toNat - 'A'.toNat + 10)
  else none

/-- A whole string of digits in base `b`. -/
def readBase (b : Nat) : Text → Nat → Option Nat
  | [], acc => some acc
  | c :: s, acc =>
    (digitVal c).bind fun d => if d < b then readBase b s (acc * b + d) else none

/-- A number operand (`strtoul` with base 0). -/
def readMark : Text → Option Nat
  | [] => none
  | '0' :: 'x' :: s => if s = [] then none else readBase 16 s 0
  | '0' :: s => readBase 8 s 0
  | s => readBase 10 s 0

/-- The condition holds of a packet that carries mark `m`. -/
def Cond.holds (env : Env) (p : Packet) (m : Nat) : Cond → Bool
  | .inInterface i => ifaceMatches i p.iif
  | .outInterface o => ifaceMatches o p.oif
  | .source a => a == p.src
  | .destination a => env.covers a p.dst
  | .macSource a => sameMac a p.mac
  | .protocol t => t == p.proto
  | .dport a => env.inPort a p.dport
  | .tcpFlags mask comp => mask.all fun f => decide (f ∈ p.flags) == decide (f ∈ comp)
  | .state s => s == p.ct
  | .mark v => readMark v == some m
  | .matchSetDst s => env.inSet s p.dst

inductive Verdict where
  | accept
  | drop
  | reject
  | redirect (port : Text)
  deriving DecidableEq, Repr

/-- How the walk of a chain ends. -/
inductive Outcome where
  /-- off the end, with this mark -/
  | fall (mark : Nat)
  | done (v : Verdict) (mark : Nat)
  /-- the depth bound is used up -/
  | lost
  deriving DecidableEq, Repr

variable {κ : Type} [DecidableEq κ]

def Rule.applies (env : Env) (p : Packet) (m : Nat) (r : Rule κ) : Bool :=
  r.conds.all (·.holds env p m)

/-- Go down a list of rules; `call` walks a chain that is jumped to. -/
def walk (env : Env) (call : κ → Nat → Outcome) (p : Packet) : List (Rule κ) → Nat → Outcome
  | [], m => .fall m
  | r :: rs, m =>
    if r.applies env p m then
      match r.target with
      | .accept => .done .accept m
      | .drop => .done .drop m
      | .reject _ => .done .reject m
      | .redirect _ port => .done (.redirect port) m
      | .log => walk env call p rs m
      | .ulog => walk env call p rs m
      | .tcpmss => walk env call p rs m
      | .mark v => walk env call p rs ((readMark v).getD m)
      | .jump c =>
        match call c m with
        | .fall m' => walk env call p rs m'
        | o => o
    else walk env call p rs m

/-- Walk a chain, nesting at most `n` deep. -/
def callChain (env : Env) (cs : Chains κ) (p : Packet) : Nat → κ → Nat → Outcome
  | 0, _, _ => .lost
  | n + 1, c, m => walk env (callChain env cs p n) p ((cs.get c).getD []) m

/-- A packet with mark `m` enters chain `c`. -/
def traverse (env : Env) (cs : Chains κ) (p : Packet) (c : κ) (m : Nat) : Outcome :=
  callChain env cs p cs.length c m

/-! ## Walking -/

section Walking
omit [DecidableEq κ]

variable {env : Env} {call : κ → Nat → Outcome} {p : Packet}

/-- Continue after a walk that fell off its end. -/
def Outcome.andThen (o : Outcome) (k : Nat → Outcome) : Outcome :=
  match o with
  | .fall m => k m
  | .done v m => .done v m
  | .lost => .lost

@[simp] theorem Outcome.fall_andThen (m : Nat) (k : Nat → Outcome) :
    (Outcome.fall m).andThen k = k m := rfl

@[simp] theorem Outcome.done_andThen (v : Verdict) (m : Nat) (k : Nat → Outcome) :
    (Outcome.done v m).andThen k = .done v m := rfl

@[simp] theorem walk_nil (m : Nat) : walk env call p [] m = .fall m := rfl

theorem walk_skip {r : Rule κ} {m : Nat} (h : r.applies env p m = false) (rs : List (Rule κ)) :
    walk env call p (r :: rs) m = walk env call p rs m := by
  simp [walk, h]

theorem walk_jump {conds : List Cond} {c : κ} {m : Nat} (rs : List (Rule κ))
    (h : Rule.applies (κ := κ) env p m ⟨conds, .jump c⟩ = true) :
    walk env call p (⟨conds, .jump c⟩ :: rs) m =
      (call c m).andThen fun m' => walk env call p rs m' := by
  simp only [walk, h, if_true]
  cases call c m <;> rfl

theorem walk_append (rs ss : List (Rule κ)) (m : Nat) :
    walk env call p (rs ++ ss) m =
      (walk env call p rs m).andThen fun m' => walk env call p ss m' := by
  induction rs generalizing m with
  | nil => rfl
  | cons r rs ih =>
    cases happ : r.applies env p m with
    | false => rw [List.cons_append, walk_skip happ, walk_skip happ, ih]
    | true =>
      obtain ⟨conds, target⟩ := r
      cases target with
      | jump c =>
        rw [List.cons_append, walk_jump _ happ, walk_jump _ happ]
        cases call c m <;> simp [Outcome.andThen, ih]
      | _ => simp [walk, happ, ih]

/-- The verdict of a target that ends the walk. -/
def Target.verdict : Target κ → Option Verdict
  | .accept => some .accept
  | .drop => some .drop
  | .reject _ => some .reject
  | .redirect _ port => some (.redirect port)
  | _ => none

/-- Neither a jump nor a MARK. -/
def Target.Plain : Target κ → Prop
  | .jump _ => False
  | .mark _ => False
  | _ => True

/-- The verdict of the first rule that applies and ends the walk. -/
def firstVerdict (env : Env) (p : Packet) (m : Nat) : List (Rule κ) → Option Verdict
  | [] => none
  | r :: rs =>
    if r.applies env p m then r.target.verdict.orElse fun _ => firstVerdict env p m rs
    else firstVerdict env p m rs

/-- How a walk ends when it can only end by a verdict. -/
def Outcome.ofVerdict (v : Option Verdict) (m : Nat) : Outcome :=
  match v with
  | some v => .done v m
  | none => .fall m

theorem walk_of_plain {rs : List (Rule κ)} (h : ∀ r ∈ rs, r.target.Plain) (m : Nat) :
    walk env call p rs m = .ofVerdict (firstVerdict env p m rs) m := by
  induction rs with
  | nil => rfl
  | cons r rs ih =>
    have ih' := ih fun q hq => h q (List.mem_cons_of_mem r hq)
    have hr := h r List.mem_cons_self
    cases happ : r.applies env p m with
    | false => rw [walk_skip happ, ih']; simp [firstVerdict, happ]
    | true =>
      obtain ⟨conds, target⟩ := r
      cases target with
      | jump c => exact hr.elim
      | mark v => exact hr.elim
      | _ => simp [walk, happ, firstVerdict, Target.verdict, Outcome.ofVerdict, ih']

/-- The conditions do not look at the mark. -/
def Rule.MarkBlind (r : Rule κ) : Prop := ∀ c ∈ r.conds, ∀ v, c ≠ .mark v

theorem Rule.applies_markBlind {r : Rule κ} (h : r.MarkBlind) (m m' : Nat) :
    r.applies env p m = r.applies env p m' := by
  have hc : ∀ c ∈ r.conds, c.holds env p m = c.holds env p m' := by
    intro c hc
    cases c with
    | mark v => exact absurd rfl (h _ hc v)
    | _ => rfl
  unfold Rule.applies
  rw [Bool.eq_iff_iff, List.all_eq_true, List.all_eq_true]
  exact forall₂_congr fun c h => by rw [hc c h]

/-- MARK rules of which all that apply set `v`: the mark is `v` as soon as one applies. -/
theorem walk_of_marks {rs : List (Rule κ)} {v : Nat}
    (hall : ∀ r ∈ rs, r.MarkBlind ∧ ∃ s, r.target = .mark s ∧
      (r.applies env p 0 = true → readMark s = some v)) (m : Nat) :
    walk env call p rs m = .fall (if rs.any (Rule.applies env p 0) then v else m) := by
  induction rs generalizing m with
  | nil => rfl
  | cons r rs ih =>
    have ih' := ih fun q hq => hall q (List.mem_cons_of_mem r hq)
    obtain ⟨hblind, s, hs, hv⟩ := hall r List.mem_cons_self
    cases happ : r.applies env p 0 with
    | false =>
      rw [walk_skip (by rw [Rule.applies_markBlind hblind m 0, happ]), ih' m]
      simp [happ]
    | true =>
      have happ' : r.applies env p m = true := by rw [Rule.applies_markBlind hblind m 0, happ]
      simp [walk, happ', hs, hv happ, ih' v, happ]

end Walking

/-! ## Depth -/

theorem Chains.mem_of_get {cs : Chains κ} {c : κ} {rs : List (Rule κ)}
    (h : cs.get c = some rs) : c ∈ cs.map Prod.fst := by
  induction cs with
  | nil => cases h
  | cons q cs ih =>
    obtain ⟨d, ds⟩ := q
    by_cases hd : d = c
    · simp [hd]
    · simp only [Chains.get, hd, if_false] at h
      simp only [List.map_cons, List.mem_cons]
      exact Or.inr (ih h)

/-- A table has at least as many chains as there are distinct names it knows. -/
theorem Chains.length_ge {cs : Chains κ} {names : List κ} (hn : names.Nodup)
    (h : ∀ c ∈ names, (cs.get c).isSome) : names.length ≤ cs.length := by
  have hsub : names ⊆ cs.map Prod.fst := by
    intro c hc
    obtain ⟨rs, hrs⟩ := Option.isSome_iff_exists.mp (h c hc)
    exact Chains.mem_of_get hrs
  have := (hn.subperm hsub).length_le
  simpa using this

end Wifidog.Netfilter
