/-
  Rulesets keep the order of the file.

  The rules of one ruleset may come from several sections, with sections of other names in
  between. `_parse_firewall_rule` looks its ruleset up by name and appends, so that what a
  name collects depends on the calls for that name alone (`getRuleset_parseAll`).

  Proved: `rulesets_keep_order`, with the commands that a ruleset is loaded by.
-/
import Wifidog.Model.CommandLine
import Mathlib.Data.List.Nodup

namespace Wifidog

open CText Netfilter

/-! ## Names -/

theorem names_appendRule (rs : Rulesets) (name : Text) (r : FirewallRule) :
    (appendRule rs name r).map Prod.fst =
      if name ∈ rs.map Prod.fst then rs.map Prod.fst else rs.map Prod.fst ++ [name] := by
  induction rs with
  | nil => rfl
  | cons set rest ih =>
    obtain ⟨n, rules⟩ := set
    unfold appendRule
    by_cases hn : n = name
    · simp [hn]
    · rw [if_neg (by simpa using hn), List.map_cons, ih]
      by_cases hmem : name ∈ rest.map Prod.fst
      · have hthere : name ∈ ((n, rules) :: rest).map Prod.fst := List.mem_cons_of_mem _ hmem
        rw [if_pos hmem, if_pos hthere]
        rfl
      · have hnot : name ∉ ((n, rules) :: rest).map Prod.fst := by
          simpa [Ne.symm hn] using hmem
        rw [if_neg hmem, if_neg hnot]
        rfl

theorem names_appendRule_nodup {rs : Rulesets} (h : (rs.map Prod.fst).Nodup) (name : Text)
    (r : FirewallRule) : ((appendRule rs name r).map Prod.fst).Nodup := by
  rw [names_appendRule]
  split
  · exact h
  · next hnot =>
    rw [← List.concat_eq_append]
    exact h.concat hnot

/-! ## Return codes -/

/-- A call returns 1 for a line with a record, and a negative code, with nothing changed, for
    any other. -/
theorem parseFirewallRule_cases (rs : Rulesets) (name line : Text) :
    (∃ r, ruleOf line = some r ∧ parseFirewallRule rs name line = (1, appendRule rs name r)) ∨
      (ruleOf line = none ∧ (parseFirewallRule rs name line).1 < 0 ∧
        (parseFirewallRule rs name line).2 = rs) := by
  unfold ruleOf parseFirewallRule
  cases hscan : scanFirewallRule line with
  | ok l => exact Or.inl ⟨l.record, rfl, rfl⟩
  | error code =>
    refine Or.inr ⟨rfl, ?_, rfl⟩
    change code < 0
    unfold scanFirewallRule at hscan
    simp only at hscan
    split at hscan
    · obtain rfl := Except.error.inj hscan
      decide
    · split at hscan
      · cases hscan
      · obtain rfl := Except.error.inj hscan
        decide

theorem parseFirewallRule_eq_one_iff (rs : Rulesets) (name line : Text) :
    (parseFirewallRule rs name line).1 = 1 ↔ (ruleOf line).isSome = true := by
  rcases parseFirewallRule_cases rs name line with ⟨r, hr, hcall⟩ | ⟨hr, hneg, -⟩
  · rw [hcall, hr]
    exact ⟨fun _ => rfl, fun _ => rfl⟩
  · rw [hr]
    constructor
    · intro hone
      omega
    · intro hsome
      cases hsome

/-! ## Sequences of calls -/

theorem names_parseAll_nodup {rs : Rulesets} (h : (rs.map Prod.fst).Nodup)
    (calls : List (Text × Text)) : ((parseAll rs calls).map Prod.fst).Nodup := by
  induction calls generalizing rs with
  | nil => exact h
  | cons c calls ih =>
    have hcons : parseAll rs (c :: calls) = parseAll (parseFirewallRule rs c.1 c.2).2 calls := rfl
    rw [hcons]
    refine ih ?_
    rcases parseFirewallRule_cases rs c.1 c.2 with ⟨r, -, hcall⟩ | ⟨-, -, hsame⟩
    · rw [hcall]
      exact names_appendRule_nodup h c.1 r
    · rw [hsame]
      exact h

/-- The calls for a name that return 1. -/
def acceptedCalls (calls : List (Text × Text)) (name : Text) : List (Text × Text) :=
  calls.filter fun c => c.1 = name ∧ (parseFirewallRule [] c.1 c.2).1 = 1

theorem getRuleset_acceptedCalls (calls : List (Text × Text)) (name : Text) :
    (getRuleset (parseAll [] calls) name).map some =
      (acceptedCalls calls name).map fun c => ruleOf c.2 := by
  have hnil : getRuleset [] name = [] := rfl
  rw [getRuleset_parseAll, hnil, List.nil_append]
  unfold acceptedCalls
  induction calls with
  | nil => rfl
  | cons c calls ih =>
    by_cases hname : c.1 = name
    · cases hr : ruleOf c.2 with
      | none =>
        have hcode : ¬ (parseFirewallRule [] c.1 c.2).1 = 1 := by
          simp [parseFirewallRule_eq_one_iff, hr]
        simpa [hname, hr, hcode, hname ▸ hcode] using ih
      | some r =>
        have hcode : (parseFirewallRule [] c.1 c.2).1 = 1 := by
          simp [parseFirewallRule_eq_one_iff, hr]
        simpa [hname, hr, hname ▸ hcode] using ih
    · simpa [hname] using ih

/-! ## Loading -/

/-- What `iptables_load_ruleset` hands to `iptables_do_command`. -/
def loadRulesetTexts (cfg : Config) (table : Table) (ruleset : Text) (chain : Chain) : List Text :=
  (getRuleset cfg.rulesets ruleset).filterMap (iptablesCompileText table chain)

/-- The rules of a table that has no command for `block` and `drop` rules. -/
def FirewallRule.inNat (r : FirewallRule) : Bool := r.target ≠ .drop && r.target ≠ .reject

theorem map_some_filterMap {α β : Type} {f : α → Option β} {p : α → Bool}
    (h : ∀ a, (f a).isSome = p a) (l : List α) :
    (l.filterMap f).map some = (l.filter p).map f := by
  induction l with
  | nil => rfl
  | cons a l ih =>
    cases ha : f a with
    | none =>
      have hp : p a = false := by rw [← h, ha]; rfl
      simp [ha, hp, ih]
    | some b =>
      have hp : p a = true := by rw [← h, ha]; rfl
      simp [ha, hp, ih]

theorem iptablesCompileText_isSome (table : Table) (chain : Chain) (r : FirewallRule) :
    (iptablesCompileText table chain r).isSome = (decide (table ≠ .nat) || r.inNat) := by
  unfold iptablesCompileText FirewallRule.inNat
  by_cases homit : table = .nat ∧ (r.target = .drop ∨ r.target = .reject)
  · rw [if_pos homit]
    obtain ⟨rfl, htarget | htarget⟩ := homit <;> simp [htarget]
  · rw [if_neg homit]
    change true = _
    by_cases htable : table = .nat
    · have htarget : r.target ≠ .drop ∧ r.target ≠ .reject := by
        simpa [htable, not_or] using homit
      simp [htarget]
    · simp [htable]

/-- From no rulesets, whatever the order of the names: no name twice; the ruleset of a name has
    the records of the calls for it that returned 1, in order; a call that returns anything
    else returns a negative code and changes nothing; and a ruleset is loaded with one command
    per rule, in the nat table without the `block` and `drop` rules. -/
theorem rulesets_keep_order (calls : List (Text × Text)) :
    ((parseAll [] calls).map Prod.fst).Nodup ∧
    (∀ name, (getRuleset (parseAll [] calls) name).map some =
      (acceptedCalls calls name).map fun c => ruleOf c.2) ∧
    (∀ rs name line, (parseFirewallRule rs name line).1 ≠ 1 →
      (parseFirewallRule rs name line).1 < 0 ∧ (parseFirewallRule rs name line).2 = rs) ∧
    ∀ (cfg : Config) (name : Text) (chain : Chain),
      (loadRulesetTexts { cfg with rulesets := parseAll [] calls } .filter name chain).map some =
        (getRuleset (parseAll [] calls) name).map (iptablesCompileText .filter chain) ∧
      (loadRulesetTexts { cfg with rulesets := parseAll [] calls } .nat name chain).map some =
        ((getRuleset (parseAll [] calls) name).filter FirewallRule.inNat).map
          (iptablesCompileText .nat chain) := by
  have hempty : (([] : Rulesets).map Prod.fst).Nodup := List.nodup_nil
  refine ⟨names_parseAll_nodup hempty calls, getRuleset_acceptedCalls calls, ?_, ?_⟩
  · intro rs name line hcode
    rcases parseFirewallRule_cases rs name line with ⟨r, -, hcall⟩ | ⟨-, hneg, hsame⟩
    · exact absurd (congrArg Prod.fst hcall) hcode
    · exact ⟨hneg, hsame⟩
  · intro cfg name chain
    constructor
    · have hall := map_some_filterMap (iptablesCompileText_isSome .filter chain)
        (getRuleset (parseAll [] calls) name)
      simpa [loadRulesetTexts] using hall
    · have hnat := map_some_filterMap (iptablesCompileText_isSome .nat chain)
        (getRuleset (parseAll [] calls) name)
      simpa [loadRulesetTexts] using hnat

/-- Two sections of one name with another in between. -/
example : getRuleset (parseAll [] [("a".toList, "allow tcp port 80".toList),
      ("b".toList, "block to 10.0.0.1".toList), ("a".toList, "drop udp".toList)]) "a".toList =
    [⟨.accept, some "tcp".toList, some "80".toList, "0.0.0.0/0".toList, false⟩,
      ⟨.drop, some "udp".toList, none, "0.0.0.0/0".toList, false⟩] := by
  decide

end Wifidog
