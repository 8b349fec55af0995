/-
  iptables: tables of named chains of rules, and the commands that edit them.

  Chain names are of any type `κ` with decidable equality. A rule is a list of conditions,
  each with its operand as the text given on the command line, and a target. `Command.run`
  is one invocation: `none` when iptables refuses it (unknown chain, chain already there,
  no such rule, jump to an unknown chain) and then nothing changes; `Tables.exec` is the
  effect of an invocation whose exit status is ignored, `Tables.runAll` the effect of a
  list of invocations that are all accepted.

  Proofs use only the view `t.view table chain` of the rules of one chain. Proved:
  `view_run` and `view_exec` (a command changes the view of the chain it names, by
  `Op.apply`, and of no other), `view_runAll` and `view_execAll` (the view of one chain
  after a list of commands is the fold of the commands that name it), `view_runAll_new` (the
  same for a chain that the commands create).
-/
import Wifidog.Lib.CText

namespace Wifidog.Netfilter

open CText (Text)

inductive Table where
  | filter | nat | mangle
  deriving DecidableEq, Repr

/-- Connection-tracking states. -/
inductive CtState where
  | new | established | related | invalid
  deriving DecidableEq, Repr

/-- A condition of a rule. -/
inductive Cond where
  | inInterface (name : Text)
  | outInterface (name : Text)
  | source (addr : Text)
  | destination (addr : Text)
  | macSource (mac : Text)
  | protocol (proto : Text)
  | dport (port : Text)
  | tcpFlags (mask comp : List Text)
  | state (s : CtState)
  | mark (value : Text)
  | matchSetDst (set : Text)
  deriving DecidableEq, Repr

/-- What happens to a packet that meets the conditions. -/
inductive Target (κ : Type) where
  | accept
  | drop
  | reject (how : Option Text)
  | log
  | ulog
  | tcpmss
  | mark (value : Text)
  | redirect (opt port : Text)
  | jump (chain : κ)
  deriving DecidableEq, Repr

structure Rule (κ : Type) where
  conds : List Cond
  target : Target κ
  deriving DecidableEq, Repr

inductive Op (κ : Type) where
  /-- `-N chain` -/
  | new (chain : κ)
  /-- `-A chain rule` -/
  | append (chain : κ) (rule : Rule κ)
  /-- `-I chain 1 rule` -/
  | insert (chain : κ) (rule : Rule κ)
  /-- `-D chain rule` -/
  | delete (chain : κ) (rule : Rule κ)
  /-- `-D chain num`, counting from 1 -/
  | deleteAt (chain : κ) (num : Nat)
  /-- `-F chain` -/
  | flush (chain : κ)
  deriving DecidableEq, Repr

structure Command (κ : Type) where
  table : Table
  op : Op κ
  deriving DecidableEq, Repr

/-- The chains of one table, in the order of their creation. -/
abbrev Chains (κ : Type) := List (κ × List (Rule κ))

structure Tables (κ : Type) where
  filter : Chains κ
  nat : Chains κ
  mangle : Chains κ
  deriving DecidableEq, Repr

variable {κ : Type} [DecidableEq κ]

/-! ## Chains -/

namespace Chains

def get : Chains κ → κ → Option (List (Rule κ))
  | [], _ => none
  | (d, rs) :: cs, c => if d = c then some rs else get cs c

/-- Replace the rules of a chain that is there. -/
def set : Chains κ → κ → List (Rule κ) → Chains κ
  | [], _, _ => []
  | (d, rs) :: cs, c, new => if d = c then (d, new) :: cs else (d, rs) :: set cs c new

theorem get_set {cs : Chains κ} {c : κ} {rs : List (Rule κ)} (h : cs.get c = some rs)
    (new : List (Rule κ)) (d : κ) :
    (cs.set c new).get d = if d = c then some new else cs.get d := by
  induction cs with
  | nil => cases h
  | cons p cs ih =>
    obtain ⟨e, es⟩ := p
    by_cases hec : e = c
    · by_cases hed : e = d
      · simp [set, get, hec, ← hed]
      · have : d ≠ c := fun hdc => hed (hec.trans hdc.symm)
        simp [set, get, hec, this, Ne.symm this]
    · have hget : get cs c = some rs := by simpa [get, hec] using h
      by_cases hed : e = d
      · subst hed
        simp [set, get, hec]
      · simp [set, get, hec, hed, ih hget]

theorem get_append_new {cs : Chains κ} {c : κ} (h : cs.get c = none) (d : κ) :
    get (cs ++ [(c, [])]) d = if d = c then some [] else cs.get d := by
  induction cs with
  | nil => simp [get, eq_comm]
  | cons p cs ih =>
    obtain ⟨e, es⟩ := p
    by_cases hec : e = c
    · simp [get, hec] at h
    · have hget : get cs c = none := by simpa [get, hec] using h
      by_cases hed : e = d
      · subst hed
        simp [get, hec]
      · simp [get, hed, ih hget]

end Chains

/-! ## Commands -/

/-- A jump needs its chain. -/
def targetKnown (cs : Chains κ) (r : Rule κ) : Bool :=
  match r.target with
  | .jump c => (cs.get c).isSome
  | _ => true

def Op.chain : Op κ → κ
  | .new c => c
  | .append c _ => c
  | .insert c _ => c
  | .delete c _ => c
  | .deleteAt c _ => c
  | .flush c => c

/-- One invocation on the chains of its table. -/
def Op.run (cs : Chains κ) : Op κ → Option (Chains κ)
  | .new c => if (cs.get c).isSome then none else some (cs ++ [(c, [])])
  | .append c r =>
    (cs.get c).bind fun rs => if targetKnown cs r then some (cs.set c (rs ++ [r])) else none
  | .insert c r =>
    (cs.get c).bind fun rs => if targetKnown cs r then some (cs.set c (r :: rs)) else none
  | .delete c r =>
    (cs.get c).bind fun rs => if r ∈ rs then some (cs.set c (rs.erase r)) else none
  | .deleteAt c n =>
    (cs.get c).bind fun rs =>
      if 1 ≤ n ∧ n ≤ rs.length then some (cs.set c (rs.eraseIdx (n - 1))) else none
  | .flush c => (cs.get c).map fun _ => cs.set c []

/-- What an accepted operation does to the rules of the chain it names. -/
def Op.apply : Op κ → Option (List (Rule κ)) → Option (List (Rule κ))
  | .new _, rs => some (rs.getD [])
  | .append _ r, rs => rs.map (· ++ [r])
  | .insert _ r, rs => rs.map (r :: ·)
  | .delete _ r, rs => rs.map (·.erase r)
  | .deleteAt _ n, rs => rs.map fun l => if n = 0 then l else l.eraseIdx (n - 1)
  | .flush _, rs => rs.map fun _ => []

namespace Tables

def chains (t : Tables κ) : Table → Chains κ
  | .filter => t.filter
  | .nat => t.nat
  | .mangle => t.mangle

def setChains (t : Tables κ) : Table → Chains κ → Tables κ
  | .filter, cs => { t with filter := cs }
  | .nat, cs => { t with nat := cs }
  | .mangle, cs => { t with mangle := cs }

/-- The rules of one chain, `none` when the table has no such chain. -/
def view (t : Tables κ) (tb : Table) (c : κ) : Option (List (Rule κ)) := (t.chains tb).get c

omit [DecidableEq κ] in
theorem chains_setChains (t : Tables κ) (tb tb' : Table) (cs : Chains κ) :
    (t.setChains tb cs).chains tb' = if tb' = tb then cs else t.chains tb' := by
  cases tb <;> cases tb' <;> rfl

end Tables

/-- One invocation. -/
def Command.run (t : Tables κ) (c : Command κ) : Option (Tables κ) :=
  (c.op.run (t.chains c.table)).map (t.setChains c.table)

/-- The command names this chain of this table. -/
def Command.touches (tb : Table) (ch : κ) (c : Command κ) : Bool :=
  c.table = tb && c.op.chain = ch

/-- The rule it adds, if any, is not a jump. -/
def Command.NoJump (c : Command κ) : Prop :=
  match c.op with
  | .append _ r => ∀ d, r.target ≠ .jump d
  | .insert _ r => ∀ d, r.target ≠ .jump d
  | _ => True

namespace Tables

/-- An invocation whose exit status is ignored. -/
def exec (t : Tables κ) (c : Command κ) : Tables κ := (c.run t).getD t

def execAll (t : Tables κ) (cs : List (Command κ)) : Tables κ := cs.foldl exec t

/-- A list of invocations, all accepted. -/
def runAll : List (Command κ) → Tables κ → Option (Tables κ)
  | [], t => some t
  | c :: cs, t => (c.run t).bind (runAll cs)

end Tables

theorem Op.get_run {cs cs' : Chains κ} {op : Op κ} (h : op.run cs = some cs') (d : κ) :
    cs'.get d = if d = op.chain then op.apply (cs.get d) else cs.get d := by
  cases op with
  | new c =>
    simp only [Op.run] at h
    split at h
    · cases h
    · next hn =>
      have hnone : cs.get c = none := by simpa using hn
      obtain rfl := Option.some.inj h
      rw [Chains.get_append_new hnone]
      by_cases hd : d = c <;> simp [Op.chain, Op.apply, hd, hnone]
  | append c r =>
    obtain ⟨rs, hrs, h'⟩ := Option.bind_eq_some_iff.mp h
    split at h'
    · obtain rfl := Option.some.inj h'
      rw [Chains.get_set hrs]
      by_cases hd : d = c <;> simp [Op.chain, Op.apply, hd, hrs]
    · cases h'
  | insert c r =>
    obtain ⟨rs, hrs, h'⟩ := Option.bind_eq_some_iff.mp h
    split at h'
    · obtain rfl := Option.some.inj h'
      rw [Chains.get_set hrs]
      by_cases hd : d = c <;> simp [Op.chain, Op.apply, hd, hrs]
    · cases h'
  | delete c r =>
    obtain ⟨rs, hrs, h'⟩ := Option.bind_eq_some_iff.mp h
    split at h'
    · obtain rfl := Option.some.inj h'
      rw [Chains.get_set hrs]
      by_cases hd : d = c <;> simp [Op.chain, Op.apply, hd, hrs]
    · cases h'
  | deleteAt c n =>
    obtain ⟨rs, hrs, h'⟩ := Option.bind_eq_some_iff.mp h
    split at h'
    · next hn =>
      obtain rfl := Option.some.inj h'
      have hn0 : n ≠ 0 := by omega
      rw [Chains.get_set hrs]
      by_cases hd : d = c <;> simp [Op.chain, Op.apply, hd, hrs, hn0]
    · cases h'
  | flush c =>
    obtain ⟨rs, hrs, rfl⟩ := Option.map_eq_some_iff.mp h
    rw [Chains.get_set hrs]
    by_cases hd : d = c <;> simp [Op.chain, Op.apply, hd, hrs]

/-- A refused operation would have left the chain it names as it is. -/
theorem Op.apply_of_refused {cs : Chains κ} {op : Op κ} (h : op.run cs = none)
    (hj : ∀ r, (op = .append op.chain r ∨ op = .insert op.chain r) → ∀ d, r.target ≠ .jump d) :
    op.apply (cs.get op.chain) = cs.get op.chain := by
  have hknown : ∀ r : Rule κ, (∀ d, r.target ≠ .jump d) → targetKnown cs r = true := by
    intro r hr
    unfold targetKnown
    split
    · next c hc => exact absurd hc (hr c)
    · rfl
  cases op with
  | new c =>
    simp only [Op.run] at h
    split at h
    · next hs =>
      obtain ⟨rs, hrs⟩ := Option.isSome_iff_exists.mp hs
      simp [Op.apply, Op.chain, hrs]
    · cases h
  | append c r =>
    cases hrs : cs.get c with
    | none => simp [Op.apply, Op.chain, hrs]
    | some rs => simp [Op.run, hrs, hknown r (hj r (Or.inl rfl))] at h
  | insert c r =>
    cases hrs : cs.get c with
    | none => simp [Op.apply, Op.chain, hrs]
    | some rs => simp [Op.run, hrs, hknown r (hj r (Or.inr rfl))] at h
  | delete c r =>
    cases hrs : cs.get c with
    | none => simp [Op.apply, Op.chain, hrs]
    | some rs =>
      have hmem : r ∉ rs := by simpa [Op.run, hrs] using h
      simp [Op.apply, Op.chain, hrs, List.erase_of_not_mem hmem]
  | deleteAt c n =>
    cases hrs : cs.get c with
    | none => simp [Op.apply, Op.chain, hrs]
    | some rs =>
      have hn : 1 ≤ n → rs.length < n := by simpa [Op.run, hrs] using h
      by_cases h0 : n = 0
      · simp [Op.apply, Op.chain, hrs, h0]
      · have : rs.length ≤ n - 1 := by have := hn (by omega); omega
        simp [Op.apply, Op.chain, hrs, h0, List.eraseIdx_of_length_le this]
  | flush c =>
    have hrs : cs.get c = none := by simpa [Op.run] using h
    simp [Op.apply, Op.chain, hrs]

/-! ## The view of one chain -/

namespace Tables

theorem view_run {t t' : Tables κ} {c : Command κ} (h : c.run t = some t') (tb : Table) (ch : κ) :
    t'.view tb ch = if c.touches tb ch then c.op.apply (t.view tb ch) else t.view tb ch := by
  obtain ⟨cs', hcs, rfl⟩ := Option.map_eq_some_iff.mp h
  unfold view
  rw [chains_setChains]
  by_cases htb : tb = c.table
  · subst htb
    rw [if_pos rfl, Op.get_run hcs]
    simp [Command.touches, eq_comm]
  · simp [htb, Command.touches, Ne.symm htb]

theorem view_exec (t : Tables κ) {c : Command κ} (hj : c.NoJump) (tb : Table) (ch : κ) :
    (t.exec c).view tb ch =
      if c.touches tb ch then c.op.apply (t.view tb ch) else t.view tb ch := by
  unfold exec
  cases hr : c.run t with
  | some t' => exact view_run hr tb ch
  | none =>
    have hop : c.op.run (t.chains c.table) = none := by simpa [Command.run] using hr
    have hsame := Op.apply_of_refused hop (by
      intro r hcase
      unfold Command.NoJump at hj
      rcases hcase with hc | hc <;> (rw [hc] at hj; exact hj))
    rw [Option.getD_none]
    split
    · next htouch =>
      simp only [Command.touches, Bool.and_eq_true, decide_eq_true_eq] at htouch
      obtain ⟨rfl, rfl⟩ := htouch
      exact hsame.symm
    · rfl

/-- The rules of one chain after a list of commands: the commands that name it, in order. -/
def viewAfter (tb : Table) (ch : κ) (cs : List (Command κ)) (rs : Option (List (Rule κ))) :
    Option (List (Rule κ)) :=
  (cs.filter (Command.touches tb ch)).foldl (fun rs c => c.op.apply rs) rs

theorem viewAfter_nil (tb : Table) (ch : κ) (rs : Option (List (Rule κ))) :
    viewAfter tb ch [] rs = rs := rfl

theorem viewAfter_cons (tb : Table) (ch : κ) (c : Command κ) (cs : List (Command κ))
    (rs : Option (List (Rule κ))) :
    viewAfter tb ch (c :: cs) rs =
      viewAfter tb ch cs (if c.touches tb ch then c.op.apply rs else rs) := by
  unfold viewAfter
  by_cases h : c.touches tb ch <;> simp [h]

theorem view_runAll {cs : List (Command κ)} {t t' : Tables κ} (h : runAll cs t = some t')
    (tb : Table) (ch : κ) : t'.view tb ch = viewAfter tb ch cs (t.view tb ch) := by
  induction cs generalizing t with
  | nil =>
    obtain rfl := Option.some.inj h
    rfl
  | cons c cs ih =>
    obtain ⟨t1, h1, h2⟩ := Option.bind_eq_some_iff.mp h
    rw [ih h2, view_run h1, viewAfter_cons]

theorem view_execAll (t : Tables κ) {cs : List (Command κ)} (hj : ∀ c ∈ cs, c.NoJump)
    (tb : Table) (ch : κ) :
    (t.execAll cs).view tb ch = viewAfter tb ch cs (t.view tb ch) := by
  unfold execAll
  induction cs generalizing t with
  | nil => rfl
  | cons c cs ih =>
    rw [List.foldl_cons, ih _ (fun d hd => hj d (List.mem_cons_of_mem c hd)),
      view_exec t (hj c List.mem_cons_self), viewAfter_cons]

/-- When all are accepted, ignoring the exit statuses makes no difference. -/
theorem execAll_of_runAll {cs : List (Command κ)} {t t' : Tables κ} (h : runAll cs t = some t') :
    t.execAll cs = t' := by
  induction cs generalizing t with
  | nil => exact Option.some.inj h
  | cons c cs ih =>
    obtain ⟨t1, h1, h2⟩ := Option.bind_eq_some_iff.mp h
    have hexec : t.exec c = t1 := by
      unfold exec
      rw [h1]
      rfl
    unfold execAll
    rw [List.foldl_cons, hexec]
    exact ih h2

/-- An accepted command leaves the chain it names in place. -/
theorem isSome_view_run {t t' : Tables κ} {c : Command κ} (h : c.run t = some t') :
    (t'.view c.table c.op.chain).isSome := by
  have hview := view_run h c.table c.op.chain
  rw [if_pos (by simp [Command.touches])] at hview
  rw [hview]
  obtain ⟨cs', hcs, _⟩ := Option.map_eq_some_iff.mp h
  obtain ⟨tb, op⟩ := c
  cases op with
  | new ch => rfl
  | flush ch =>
    obtain ⟨rs, hrs, _⟩ := Option.map_eq_some_iff.mp hcs
    simp [Op.apply, Op.chain, view, hrs]
  | _ =>
    obtain ⟨rs, hrs, _⟩ := Option.bind_eq_some_iff.mp hcs
    simp [Op.apply, Op.chain, view, hrs]

theorem isSome_view_of_run {t t' : Tables κ} {c : Command κ} (h : c.run t = some t') {tb : Table}
    {ch : κ} (hsome : (t.view tb ch).isSome) : (t'.view tb ch).isSome := by
  obtain ⟨rs, hrs⟩ := Option.isSome_iff_exists.mp hsome
  rw [view_run h, hrs]
  split
  · cases c.op <;> simp [Op.apply]
  · rfl

/-- Every chain that is named by a list of accepted commands is there at the end. -/
theorem isSome_view_runAll {cs : List (Command κ)} {t t' : Tables κ} (h : runAll cs t = some t')
    {tb : Table} {ch : κ}
    (hch : (t.view tb ch).isSome ∨ ∃ c ∈ cs, c.table = tb ∧ c.op.chain = ch) :
    (t'.view tb ch).isSome := by
  induction cs generalizing t with
  | nil =>
    obtain rfl := Option.some.inj h
    simpa using hch
  | cons c cs ih =>
    obtain ⟨t1, h1, h2⟩ := Option.bind_eq_some_iff.mp h
    refine ih h2 ?_
    rcases hch with hsome | ⟨d, hd, htb, hchain⟩
    · exact Or.inl (isSome_view_of_run h1 hsome)
    · rcases List.mem_cons.mp hd with rfl | hd
      · subst htb hchain
        exact Or.inl (isSome_view_run h1)
      · exact Or.inr ⟨d, hd, htb, hchain⟩

theorem view_run_new {t t' : Tables κ} {tb : Table} {ch : κ}
    (h : Command.run t ⟨tb, .new ch⟩ = some t') : t'.view tb ch = some [] := by
  obtain ⟨cs', hcs, _⟩ := Option.map_eq_some_iff.mp h
  have hnone : t.view tb ch = none := by
    simp only [Op.run] at hcs
    split at hcs
    · cases hcs
    · next hn => simpa [view] using hn
  rw [view_run h, hnone]
  simp [Command.touches, Op.chain, Op.apply]

/-- A chain that the first command naming it creates holds what the later ones put there. -/
theorem view_runAll_new {cs rest : List (Command κ)} {t t' : Tables κ} {tb : Table} {ch : κ}
    (h : runAll cs t = some t')
    (hcs : cs.filter (Command.touches tb ch) = ⟨tb, .new ch⟩ :: rest) :
    t'.view tb ch = rest.foldl (fun rs c => c.op.apply rs) (some []) := by
  induction cs generalizing t with
  | nil => cases hcs
  | cons c cs ih =>
    obtain ⟨t1, h1, h2⟩ := Option.bind_eq_some_iff.mp h
    by_cases htouch : c.touches tb ch = true
    · rw [List.filter_cons_of_pos htouch] at hcs
      obtain ⟨rfl, rfl⟩ := List.cons.inj hcs
      rw [view_runAll h2, view_run_new h1]
      rfl
    · rw [List.filter_cons_of_neg htouch] at hcs
      exact ih h2 hcs

end Tables

end Wifidog.Netfilter
