/-
  Grants and revocations while iptables commands fail.

  `fails i` says that the command number `i` of the call fails, without effect and with a nonzero
  exit status; the others are as always. `fw_allow` writes the new state first, adds the new
  rules, drops the status of the Outgoing one and deletes the old rules whatever happened before.

  A record `Agrees` with the Outgoing chain when it says `m` exactly where the rule with mark `m`
  is there. `grant_safe_iff` says for which failures it survives a call, and
  when a failed grant leaves the client as it was: only where it asks for the state the client
  already has.
-/
import Wifidog.Model.Firewall

namespace Wifidog

open CText Netfilter

/-! ## Calls with failing commands -/

/-- `iptables_do_command`, when the command fails or not. -/
def failingCommand (fails : Bool) (t : Tables Chain) (c : Command Chain) : Tables Chain × Int :=
  if fails then (t, 1) else iptablesDoCommand t c

/-- `iptables_fw_access`; the exit status is that of the second command. -/
def iptablesFwAccessFailing (fails : Nat → Bool) (t : Tables Chain) (type : FwAccess)
    (ip mac : Text) (tag : Int) : Tables Chain × Int :=
  (accessCommands type ip mac tag).zipIdx.foldl
    (fun s c => failingCommand (fails c.2) s.1 c.1) (t, -1)

/-- `fw_allow`: commands 0 and 1 add the new rules, 2 and 3 delete the old ones. -/
def fwAllowFailing (fails : Nat → Bool) (t : Tables Chain) (client : Client) (newState : Int) :
    Tables Chain × Client × Int :=
  let oldState := client.fwConnectionState
  let (t, result) := iptablesFwAccessFailing fails t .allow client.ip client.mac newState
  let t := if oldState ≠ fwMarkNone then
      (iptablesFwAccessFailing (fun i => fails (i + 2)) t .deny client.ip client.mac oldState).1
    else t
  (t, { client with fwConnectionState := newState }, result)

/-- `fw_deny`: commands 0 and 1 delete the rules. -/
def fwDenyFailing (fails : Nat → Bool) (t : Tables Chain) (client : Client) :
    Tables Chain × Client × Int :=
  let (t, result) := iptablesFwAccessFailing fails t .deny client.ip client.mac
    client.fwConnectionState
  (t, { client with fwConnectionState := fwMarkNone }, result)

/-- Without failures these are `fw_allow` and `fw_deny`. -/
theorem fwAllowFailing_never (t : Tables Chain) (client : Client) (newState : Int) :
    fwAllowFailing (fun _ => false) t client newState = fwAllow t client newState := by
  unfold fwAllowFailing fwAllow fwDenyRaw iptablesFwAccessFailing iptablesFwAccess doCommands
  rfl

theorem fwDenyFailing_never (t : Tables Chain) (client : Client) :
    fwDenyFailing (fun _ => false) t client = fwDeny t client := by
  unfold fwDenyFailing fwDeny fwDenyRaw iptablesFwAccessFailing iptablesFwAccess doCommands
  rfl

/-! ## Agreement -/

/-- The record says `m` exactly when the rule with mark `m` is in the Outgoing chain. -/
def Agrees (c : Client) (t : Tables Chain) : Prop :=
  ∃ rs, t.view .mangle .outgoing = some rs ∧
    ∀ m, m ≠ fwMarkNone → (c.fwConnectionState = m ↔ markRule c.ip c.mac m ∈ rs)

/-- How often the client's rule with mark `m` is in the Outgoing chain. -/
def ruleCount (c : Client) (m : Int) (t : Tables Chain) : Nat :=
  ((t.view .mangle .outgoing).getD []).count (markRule c.ip c.mac m)

/-- What a grant under failures has to keep: record and chain agree, and when the new Outgoing
    rule could not be added the call reports it and the client is as it was. -/
structure GrantSafe (fails : Nat → Bool) (t : Tables Chain) (c : Client) (new : Int) : Prop where
  agrees : Agrees (fwAllowFailing fails t c new).2.1 (fwAllowFailing fails t c new).1
  failed : fails 0 = true → (fwAllowFailing fails t c new).2.2 ≠ 0 ∧
    (fwAllowFailing fails t c new).2.1 = c ∧
    (c.fwConnectionState ≠ fwMarkNone →
      0 < ruleCount c c.fwConnectionState (fwAllowFailing fails t c new).1)

/-- The same for a revocation. -/
def DenySafe (fails : Nat → Bool) (t : Tables Chain) (c : Client) : Prop :=
  Agrees (fwDenyFailing fails t c).2.1 (fwDenyFailing fails t c).1

/-! ## The Outgoing chain after a call -/

section Views
variable (fails : Nat → Bool) (t : Tables Chain) (ip mac : Text) (tag : Int)

theorem failingCommand_fst (b : Bool) (c : Command Chain) :
    (failingCommand b t c).1 = if b then t else t.exec c := by
  cases b with
  | true => rfl
  | false =>
    unfold failingCommand iptablesDoCommand Tables.exec
    cases c.run t <;> rfl

theorem view_allowFailing :
    (iptablesFwAccessFailing fails t .allow ip mac tag).1.view .mangle .outgoing =
      (t.view .mangle .outgoing).map fun rs =>
        if fails 0 then rs else rs ++ [markRule ip mac tag] := by
  have hincoming : ∀ s : Tables Chain,
      (failingCommand (fails 1) s ⟨.mangle, .append .incoming (acceptRule ip)⟩).1.view .mangle
        .outgoing = s.view .mangle .outgoing := by
    intro s
    rw [failingCommand_fst]
    split
    · rfl
    · rw [Tables.view_exec s (by simp [Command.NoJump, acceptRule])]
      rfl
  have houtgoing : (failingCommand (fails 0) t
      ⟨.mangle, .append .outgoing (markRule ip mac tag)⟩).1.view .mangle .outgoing =
      (t.view .mangle .outgoing).map fun rs =>
        if fails 0 then rs else rs ++ [markRule ip mac tag] := by
    rw [failingCommand_fst]
    cases fails 0 with
    | true => simp
    | false =>
      rw [if_neg (by simp), Tables.view_exec t (by simp [Command.NoJump, markRule])]
      rfl
  exact (hincoming _).trans houtgoing

theorem view_denyFailing :
    (iptablesFwAccessFailing fails t .deny ip mac tag).1.view .mangle .outgoing =
      (t.view .mangle .outgoing).map fun rs =>
        if fails 0 then rs else rs.erase (markRule ip mac tag) := by
  have hincoming : ∀ s : Tables Chain,
      (failingCommand (fails 1) s ⟨.mangle, .delete .incoming (acceptRule ip)⟩).1.view .mangle
        .outgoing = s.view .mangle .outgoing := by
    intro s
    rw [failingCommand_fst]
    split
    · rfl
    · rw [Tables.view_exec s (by simp [Command.NoJump])]
      rfl
  have houtgoing : (failingCommand (fails 0) t
      ⟨.mangle, .delete .outgoing (markRule ip mac tag)⟩).1.view .mangle .outgoing =
      (t.view .mangle .outgoing).map fun rs =>
        if fails 0 then rs else rs.erase (markRule ip mac tag) := by
    rw [failingCommand_fst]
    cases fails 0 with
    | true => simp
    | false =>
      rw [if_neg (by simp), Tables.view_exec t (by simp [Command.NoJump])]
      rfl
  exact (hincoming _).trans houtgoing

end Views

/-! ## Counting rules -/

section Counts
variable {fails : Nat → Bool} {t : Tables Chain} {c : Client} {rs : List (Rule Chain)}

theorem markRule_beq (c : Client) (m m' : Int) :
    (markRule c.ip c.mac m == markRule c.ip c.mac m') = decide (m = m') := by
  by_cases h : m = m'
  · simp [h]
  · have hne : markRule c.ip c.mac m ≠ markRule c.ip c.mac m' := fun heq => h (markRule_inj heq).2.2
    simp [h, hne]

theorem count_append_mark (c : Client) (m new : Int) (rs : List (Rule Chain)) :
    (rs ++ [markRule c.ip c.mac new]).count (markRule c.ip c.mac m) =
      rs.count (markRule c.ip c.mac m) + if new = m then 1 else 0 := by
  rw [List.count_append, List.count_singleton, markRule_beq]
  simp

theorem count_erase_mark (c : Client) (m old : Int) (rs : List (Rule Chain)) :
    (rs.erase (markRule c.ip c.mac old)).count (markRule c.ip c.mac m) =
      rs.count (markRule c.ip c.mac m) - if old = m then 1 else 0 := by
  rw [List.count_erase, markRule_beq]
  simp

/-- The Outgoing chain after `fw_allow`. -/
def grantedRules (fails : Nat → Bool) (c : Client) (new : Int) (rs : List (Rule Chain)) :
    List (Rule Chain) :=
  let rs := if fails 0 then rs else rs ++ [markRule c.ip c.mac new]
  if c.fwConnectionState ≠ fwMarkNone ∧ fails 2 = false then
    rs.erase (markRule c.ip c.mac c.fwConnectionState)
  else rs

theorem view_fwAllowFailing (h : t.view .mangle .outgoing = some rs) (new : Int) :
    (fwAllowFailing fails t c new).1.view .mangle .outgoing =
      some (grantedRules fails c new rs) := by
  have hadd := view_allowFailing fails t c.ip c.mac new
  rw [h, Option.map_some] at hadd
  unfold fwAllowFailing grantedRules
  by_cases hold : c.fwConnectionState = fwMarkNone
  · simp only [hold, ne_eq, not_true_eq_false, if_false, false_and]
    exact hadd
  · simp only [hold, ne_eq, not_false_eq_true, if_true, true_and]
    rw [view_denyFailing, hadd, Option.map_some]
    cases fails 2 <;> rfl

/-- Every mark's share of the chain after `fw_allow`. -/
theorem count_grantedRules (new m : Int) :
    (grantedRules fails c new rs).count (markRule c.ip c.mac m) =
      rs.count (markRule c.ip c.mac m) + (if fails 0 = false ∧ new = m then 1 else 0) -
        if c.fwConnectionState ≠ fwMarkNone ∧ fails 2 = false ∧ c.fwConnectionState = m then 1
        else 0 := by
  have hadd : ((if fails 0 = true then rs else rs ++ [markRule c.ip c.mac new]).count
      (markRule c.ip c.mac m)) =
      rs.count (markRule c.ip c.mac m) + if fails 0 = false ∧ new = m then 1 else 0 := by
    cases fails 0 with
    | true => simp
    | false =>
      rw [if_neg (by simp), count_append_mark]
      simp
  unfold grantedRules
  dsimp only
  by_cases hdel : c.fwConnectionState ≠ fwMarkNone ∧ fails 2 = false
  · rw [if_pos hdel, count_erase_mark, hadd]
    simp [hdel.1, hdel.2]
  · rw [if_neg hdel, hadd]
    have hno : ¬ (c.fwConnectionState ≠ fwMarkNone ∧ fails 2 = false ∧ c.fwConnectionState = m) :=
      fun h => hdel ⟨h.1, h.2.1⟩
    rw [if_neg hno, Nat.sub_zero]

theorem agrees_iff {c : Client} (h : t.view .mangle .outgoing = some rs) :
    Agrees c t ↔ ∀ m, m ≠ fwMarkNone →
      (c.fwConnectionState = m ↔ 0 < rs.count (markRule c.ip c.mac m)) := by
  unfold Agrees
  constructor
  · rintro ⟨rs', hrs', hall⟩
    rw [h] at hrs'
    obtain rfl := Option.some.inj hrs'
    intro m hm
    rw [List.count_pos_iff]
    exact hall m hm
  · intro hall
    refine ⟨rs, h, fun m hm => ?_⟩
    rw [← List.count_pos_iff]
    exact hall m hm

/-- The status that `fw_allow` returns is that of the rule for the Incoming chain. -/
theorem result_fwAllowFailing (new : Int) :
    (fwAllowFailing fails t c new).2.2 ≠ 0 ↔
      fails 1 = true ∨ t.view .mangle .incoming = none := by
  have hsame : (failingCommand (fails 0) t
      ⟨.mangle, .append .outgoing (markRule c.ip c.mac new)⟩).1.view .mangle .incoming =
      t.view .mangle .incoming := by
    rw [failingCommand_fst]
    split
    · rfl
    · rw [Tables.view_exec t (by simp [Command.NoJump, markRule])]
      rfl
  have hresult : (fwAllowFailing fails t c new).2.2 = (failingCommand (fails 1) (failingCommand
      (fails 0) t ⟨.mangle, .append .outgoing (markRule c.ip c.mac new)⟩).1
      ⟨.mangle, .append .incoming (acceptRule c.ip)⟩).2 := rfl
  rw [hresult, ← hsame]
  generalize (failingCommand (fails 0) t
    ⟨.mangle, .append .outgoing (markRule c.ip c.mac new)⟩).1 = s
  cases fails 1 with
  | true => simp [failingCommand]
  | false =>
    have hget : s.view .mangle .incoming = (s.chains .mangle).get .incoming := rfl
    cases hs : s.view .mangle .incoming with
    | none =>
      rw [hget] at hs
      simp [failingCommand, iptablesDoCommand, Command.run, Op.run, hs]
    | some rs =>
      rw [hget] at hs
      simp [failingCommand, iptablesDoCommand, Command.run, Op.run, hs, targetKnown, acceptRule]

theorem ruleCount_eq (h : t.view .mangle .outgoing = some rs) (m : Int) :
    ruleCount c m t = rs.count (markRule c.ip c.mac m) := by
  rw [ruleCount, h]
  rfl

/-- What an agreeing record says about the client's rules: at least one with the recorded mark. -/
theorem count_pos_of_agrees (h : t.view .mangle .outgoing = some rs) (hagrees : Agrees c t)
    (hne : c.fwConnectionState ≠ fwMarkNone) :
    0 < rs.count (markRule c.ip c.mac c.fwConnectionState) :=
  ((agrees_iff h).mp hagrees _ hne).mp rfl

/-- And none with another mark. -/
theorem count_eq_zero_of_agrees (h : t.view .mangle .outgoing = some rs) (hagrees : Agrees c t)
    {m : Int} (hm : m ≠ fwMarkNone) (hne : c.fwConnectionState ≠ m) :
    rs.count (markRule c.ip c.mac m) = 0 := by
  have hnone := ((agrees_iff h).mp hagrees m hm).not.mp hne
  omega

theorem agrees_fwAllowFailing_iff (h : t.view .mangle .outgoing = some rs) (new : Int) :
    Agrees (fwAllowFailing fails t c new).2.1 (fwAllowFailing fails t c new).1 ↔
      ∀ m, m ≠ fwMarkNone → (new = m ↔ 0 < rs.count (markRule c.ip c.mac m) +
        (if fails 0 = false ∧ new = m then 1 else 0) -
        if c.fwConnectionState ≠ fwMarkNone ∧ fails 2 = false ∧ c.fwConnectionState = m then 1
        else 0) := by
  rw [agrees_iff (view_fwAllowFailing h new)]
  simp only [← count_grantedRules]
  rfl

theorem ruleCount_fwAllowFailing (h : t.view .mangle .outgoing = some rs) (new : Int) :
    ruleCount c c.fwConnectionState (fwAllowFailing fails t c new).1 =
      rs.count (markRule c.ip c.mac c.fwConnectionState) +
        (if fails 0 = false ∧ new = c.fwConnectionState then 1 else 0) -
        if c.fwConnectionState ≠ fwMarkNone ∧ fails 2 = false then 1 else 0 := by
  rw [ruleCount_eq (view_fwAllowFailing h new), count_grantedRules]
  simp

theorem fwAllowFailing_client_iff (new : Int) :
    (fwAllowFailing fails t c new).2.1 = c ↔ new = c.fwConnectionState := by
  have heq : (fwAllowFailing fails t c new).2.1 = { c with fwConnectionState := new } := rfl
  rw [heq]
  constructor
  · intro h
    exact congrArg Client.fwConnectionState h
  · rintro rfl
    rfl

end Counts

/-! ## The result -/

/-- The failures under which a grant is safe. -/
def GrantHolds (fails : Nat → Bool) (t : Tables Chain) (c : Client) (new : Int) : Prop :=
  if fails 0 then
    -- the new rule was not added: nothing may have been asked for, and nothing taken away
    new = c.fwConnectionState ∧ (fails 1 = true ∨ t.view .mangle .incoming = none) ∧
      (c.fwConnectionState ≠ fwMarkNone →
        fails 2 = true ∨ 2 ≤ ruleCount c c.fwConnectionState t)
  else
    -- the old rule has to go, unless there is none or it is the new one
    c.fwConnectionState = fwMarkNone ∨ new = c.fwConnectionState ∨
      fails 2 = false ∧ ruleCount c c.fwConnectionState t = 1

/-- The failures under which a revocation is safe. -/
def DenyHolds (fails : Nat → Bool) (t : Tables Chain) (c : Client) : Prop :=
  c.fwConnectionState = fwMarkNone ∨ fails 0 = false ∧ ruleCount c c.fwConnectionState t = 1

section Holds
variable {fails : Nat → Bool} {t : Tables Chain} {c : Client} (hagrees : Agrees c t)
include hagrees

/-- The command for the new Outgoing rule fails. -/
theorem grantSafe_iff_of_failed (h0 : fails 0 = true) (new : Int) :
    GrantSafe fails t c new ↔
      new = c.fwConnectionState ∧ (fails 1 = true ∨ t.view .mangle .incoming = none) ∧
        (c.fwConnectionState ≠ fwMarkNone →
          fails 2 = true ∨ 2 ≤ ruleCount c c.fwConnectionState t) := by
  obtain ⟨rs, hview, _⟩ := id hagrees
  have hafter := @ruleCount_fwAllowFailing fails t c rs hview new
  rw [ruleCount_eq hview]
  constructor
  · rintro ⟨_, hfailed⟩
    obtain ⟨hresult, hsame, hkept⟩ := hfailed h0
    refine ⟨(fwAllowFailing_client_iff new).mp hsame, (result_fwAllowFailing new).mp hresult,
      fun hne => ?_⟩
    have hpos := hkept hne
    rw [hafter] at hpos
    cases h2 : fails 2 with
    | true => exact Or.inl rfl
    | false =>
      simp [h0, h2, hne] at hpos
      omega
  · rintro ⟨rfl, hresult, hkept⟩
    refine ⟨(agrees_fwAllowFailing_iff hview _).mpr fun m hm => ?_,
      fun _ => ⟨(result_fwAllowFailing _).mpr hresult, (fwAllowFailing_client_iff _).mpr rfl,
        fun hne => ?_⟩⟩
    · by_cases heq : c.fwConnectionState = m
      · subst heq
        have hpos := count_pos_of_agrees hview hagrees hm
        have hleft := hkept hm
        rw [h0]
        split_ifs <;> grind
      · simp [h0, heq, count_eq_zero_of_agrees hview hagrees hm heq]
    · rw [hafter]
      have hpos := count_pos_of_agrees hview hagrees hne
      have hleft := hkept hne
      rw [h0]
      split_ifs <;> grind

/-- The new Outgoing rule is added. -/
theorem grantSafe_iff_of_added (h0 : fails 0 = false) (new : Int) :
    GrantSafe fails t c new ↔
      c.fwConnectionState = fwMarkNone ∨ new = c.fwConnectionState ∨
        fails 2 = false ∧ ruleCount c c.fwConnectionState t = 1 := by
  obtain ⟨rs, hview, _⟩ := id hagrees
  have hafter := @agrees_fwAllowFailing_iff fails t c rs hview new
  rw [ruleCount_eq hview]
  constructor
  · rintro ⟨hagreesAfter, _⟩
    by_cases hne : c.fwConnectionState = fwMarkNone
    · exact Or.inl hne
    by_cases heq : new = c.fwConnectionState
    · exact Or.inr (Or.inl heq)
    -- an old rule that is another has to be gone
    have hzero := (hafter.mp hagreesAfter _ hne).not.mp heq
    have hpos := count_pos_of_agrees hview hagrees hne
    refine Or.inr (Or.inr ?_)
    cases h2 : fails 2 with
    | true =>
      simp [h2, heq] at hzero
      simp [hzero] at hpos
    | false =>
      simp [h2, heq, hne] at hzero
      exact ⟨rfl, by omega⟩
  · intro hcond
    refine ⟨hafter.mpr fun m hm => ?_, fun h => by rw [h0] at h; cases h⟩
    by_cases hnew : new = m
    · subst hnew
      by_cases heq : c.fwConnectionState = new
      · have hpos := count_pos_of_agrees hview hagrees (heq ▸ hm)
        rw [heq] at hpos
        split_ifs <;> grind
      · simp [h0, heq]
    · by_cases heq : c.fwConnectionState = m
      · subst heq
        rcases hcond with hcond | hcond | ⟨h2, hone⟩
        · exact absurd hcond hm
        · exact absurd hcond hnew
        · simp [hnew, h2, hm, hone]
      · simp [hnew, heq, count_eq_zero_of_agrees hview hagrees hm heq]

theorem grantSafe_iff_holds (new : Int) :
    GrantSafe fails t c new ↔ GrantHolds fails t c new := by
  unfold GrantHolds
  cases h0 : fails 0 with
  | true => rw [if_pos rfl, grantSafe_iff_of_failed hagrees h0]
  | false => rw [if_neg (by simp), grantSafe_iff_of_added hagrees h0]

theorem denySafe_iff_holds : DenySafe fails t c ↔ DenyHolds fails t c := by
  obtain ⟨rs, hview, _⟩ := id hagrees
  have hviewAfter : (fwDenyFailing fails t c).1.view .mangle .outgoing =
      some (if fails 0 then rs else rs.erase (markRule c.ip c.mac c.fwConnectionState)) := by
    have hdel := view_denyFailing fails t c.ip c.mac c.fwConnectionState
    rwa [hview, Option.map_some] at hdel
  have hafter : DenySafe fails t c ↔ ∀ m, m ≠ fwMarkNone →
      (if fails 0 then rs else rs.erase (markRule c.ip c.mac c.fwConnectionState)).count
        (markRule c.ip c.mac m) = 0 := by
    unfold DenySafe
    rw [agrees_iff hviewAfter]
    refine forall₂_congr fun m hm => ?_
    have hne : (fwDenyFailing fails t c).2.1.fwConnectionState ≠ m := Ne.symm hm
    have hrule : markRule (fwDenyFailing fails t c).2.1.ip (fwDenyFailing fails t c).2.1.mac m =
        markRule c.ip c.mac m := rfl
    rw [hrule]
    simp only [hne, false_iff]
    omega
  unfold DenyHolds
  rw [hafter, ruleCount_eq hview]
  constructor
  · intro hall
    by_cases hne : c.fwConnectionState = fwMarkNone
    · exact Or.inl hne
    · have hzero := hall _ hne
      have hpos := count_pos_of_agrees hview hagrees hne
      refine Or.inr ?_
      cases h0 : fails 0 with
      | true =>
        rw [h0, if_pos rfl] at hzero
        omega
      | false =>
        rw [h0, if_neg (by simp), count_erase_mark, if_pos rfl] at hzero
        exact ⟨rfl, by omega⟩
  · intro hcond m hm
    by_cases heq : c.fwConnectionState = m
    · subst heq
      rcases hcond with hcond | ⟨h0, hone⟩
      · exact absurd hcond hm
      · rw [h0, if_neg (by simp), count_erase_mark, if_pos rfl, hone]
    · have hzero := count_eq_zero_of_agrees hview hagrees hm heq
      split
      · exact hzero
      · rw [count_erase_mark, hzero]
        simp

end Holds

/-- For every client whose record agrees with the chain, every new mark and every pattern of
    failures: when the calls keep the agreement, and when a failed grant leaves the client as it
    was. -/
theorem grant_safe_iff (fails : Nat → Bool) {t : Tables Chain} {c : Client}
    (hagrees : Agrees c t) (new : Int) :
    (GrantSafe fails t c new ↔ GrantHolds fails t c new) ∧
      (DenySafe fails t c ↔ DenyHolds fails t c) :=
  ⟨grantSafe_iff_holds hagrees new, denySafe_iff_holds hagrees⟩

/-- A client on probation, with its rules. -/
def probationClient : Client :=
  ⟨1, "10.0.0.5".toList, "00:16:3e:00:00:05".toList, "t".toList, fwMarkProbation, 0, .fresh 0⟩

def probationTables : Tables Chain :=
  ⟨[], [], [(.outgoing, [markRule probationClient.ip probationClient.mac fwMarkProbation]),
    (.incoming, [acceptRule probationClient.ip])]⟩

theorem probation_agrees : Agrees probationClient probationTables := by
  refine ⟨[markRule probationClient.ip probationClient.mac fwMarkProbation], rfl, fun m _ => ?_⟩
  rw [List.mem_singleton]
  constructor
  · rintro rfl
    rfl
  · intro h
    exact (markRule_inj h).2.2.symm

/-- The command for the new Outgoing rule fails alone: `fw_allow` reports success, the record says
    KNOWN and the client has no rule left. -/
theorem failed_grant_loses_access :
    Agrees probationClient probationTables ∧
      (fwAllowFailing (· == 0) probationTables probationClient fwMarkKnown).2.2 = 0 ∧
      (fwAllowFailing (· == 0) probationTables probationClient fwMarkKnown).2.1.fwConnectionState =
        fwMarkKnown ∧
      (fwAllowFailing (· == 0) probationTables probationClient fwMarkKnown).1.view .mangle
        .outgoing = some [] ∧
      ¬ GrantSafe (· == 0) probationTables probationClient fwMarkKnown := by
  have hrun : (fwAllowFailing (· == 0) probationTables probationClient fwMarkKnown).2.2 = 0 ∧
      (fwAllowFailing (· == 0) probationTables probationClient fwMarkKnown).2.1.fwConnectionState =
        fwMarkKnown ∧
      (fwAllowFailing (· == 0) probationTables probationClient fwMarkKnown).1.view .mangle
        .outgoing = some [] := by decide +kernel
  refine ⟨probation_agrees, hrun.1, hrun.2.1, hrun.2.2, fun hsafe => ?_⟩
  exact (hsafe.failed rfl).1 hrun.1

theorem grant_safe_unfailing :
    GrantSafe (fun _ => false) probationTables probationClient fwMarkKnown ∧
      DenySafe (fun _ => false) probationTables probationClient := by
  have hiff := grant_safe_iff (fun _ => false) probation_agrees fwMarkKnown
  have hone : ruleCount probationClient probationClient.fwConnectionState probationTables = 1 := by
    decide +kernel
  exact ⟨hiff.1.mpr (Or.inr (Or.inr ⟨rfl, hone⟩)), hiff.2.mpr (Or.inr ⟨rfl, hone⟩)⟩

end Wifidog
