/-
  Recorded totals and what the rules counted.

  A client's total in a direction should be the sum of the last counts read from all rules
  installed for it since it was added or its counters were cleared (`Balanced`). The source
  keeps one number, compares it with the count of whatever rule it reads, and takes the count
  when it is larger: this is right while the client found by the row's address is the one the
  rule was installed for and no other of its rules has counted anything (`Fair`). A second
  grant replaces the rule and so starts a second count.

  Proved: every deed keeps the balance (`Performs.balanced`), a fair row keeps it
  (`Reads.balanced`), so it holds in every state of a run whose rows are fair
  (`totals_balanced`). After a repeated login it does not (`relogin_loses_traffic`).
-/
import Wifidog.Accounting.Kept
import Wifidog.Accounting.Counters

namespace Wifidog

open CText Netfilter Runs Meters

/-- Every listed client's totals are the sums of the last counts read from its rules. -/
def Balanced (m : Metered) : Prop :=
  ∀ c ∈ m.sys.list.clients, ∀ dir, (c.counters.total dir).toNat = (m.ledger dir).total c.id

/-- In one process no client has a history. -/
def NoHistory (m : Metered) : Prop :=
  ∀ c ∈ m.sys.list.clients, ∀ dir, c.counters.history dir = 0

/-- The row of a client's own rule: when it has grown, nothing was ever read from another rule
    of the client. -/
abbrev FairOwn (m : Metered) (r : Row) (p1 : Client) (k : Meter (Rule Chain)) : Prop :=
  k.read < r.counter → ∀ k' ∈ (m.ledger r.dir).all, k'.owner = p1.id → k'.closed = false →
    k'.serial ≠ k.serial → k'.read = 0

/-- The row of another rule: it raises no total, and it has not grown unless its owner is gone. -/
abbrev FairOther (m : Metered) (r : Row) (p1 : Client) (k : Meter (Rule Chain)) : Prop :=
  r.counter ≤ p1.counters.total r.dir - p1.counters.history r.dir ∧
    (k.closed = false → (∃ c ∈ m.sys.list.clients, c.id = k.owner) → k.read = r.counter)

/-- The row `r`, counted by meter `k` and credited to `p1`, is accounted for. -/
def FairRow (m : Metered) (r : Row) (p1 : Client) (k : Meter (Rule Chain)) : Prop :=
  if k.owner = p1.id ∧ k.closed = false then FairOwn m r p1 k else FairOther m r p1 k

instance (m : Metered) (r : Row) (p1 : Client) (k : Meter (Rule Chain)) :
    Decidable (FairRow m r p1 k) :=
  inferInstanceAs (Decidable (if k.owner = p1.id ∧ k.closed = false then FairOwn m r p1 k
    else FairOther m r p1 k))

/-- The step does not credit a count that it should not, and drops none. -/
def Fair (m : Metered) : MeterAction → Prop
  | .row _ _ => ∀ r ∈ m.rows.head?, ∀ p1 ∈ clientListFindByIp m.sys.list r.ip,
      ∀ k ∈ (m.ledger r.dir).all, k.serial = r.serial → FairRow m r p1 k
  | _ => True

instance (m : Metered) : (a : MeterAction) → Decidable (Fair m a)
  | .row _ _ => inferInstanceAs (Decidable (∀ r ∈ m.rows.head?,
      ∀ p1 ∈ clientListFindByIp m.sys.list r.ip,
      ∀ k ∈ (m.ledger r.dir).all, k.serial = r.serial → FairRow m r p1 k))
  | .sys _ => isTrue trivial
  | .traffic _ _ _ => isTrue trivial
  | .listing _ => isTrue trivial

/-! ## Deeds -/

theorem Deed.total_onLedger (d : Deed) (dir : Direction) (serial : Nat)
    (l : Ledger (Rule Chain)) (id : Nat) :
    (d.onLedger dir serial l).total id = if d.clears = some id then 0 else l.total id := by
  have hnew : ∀ k ∈ d.installed dir serial, k.charge id = 0 := by
    intro k hk
    cases d <;> simp only [Deed.installed, Option.mem_def, reduceCtorEq, Option.some.injEq] at hk
    subst hk
    simp [Meter.charge]
  have hsum : (d.onLedger dir serial l).total id = chargeOf id (l.all.map d.onMeter) := by
    unfold Ledger.total
    rw [chargeOf_perm (d.all_onLedger dir serial l)]
    cases hi : d.installed dir serial with
    | none => rfl
    | some k => rw [Option.toList, List.singleton_append, chargeOf_cons, hnew k hi, Nat.zero_add]
  rw [hsum]
  split
  · next hclears =>
    refine chargeOf_eq_zero fun k hk howner hclosed => ?_
    obtain ⟨k0, _, rfl⟩ := List.mem_map.mp hk
    rw [Deed.onMeter_owner] at howner
    rw [Deed.onMeter, if_pos (howner ▸ hclears)] at hclosed
    cases hclosed
  · next hclears =>
    refine chargeOf_map fun k _ => ?_
    unfold Deed.onMeter
    split
    · next hk =>
      have hne : k.owner ≠ id := fun heq => hclears (heq ▸ hk)
      simp [Meter.charge, hne]
    · rfl

/-- Nothing was read for an id that was never given. -/
theorem Kept.total_new {m : Metered} (hk : Kept m) (dir : Direction) :
    (m.ledger dir).total m.sys.list.clientId = 0 := by
  refine chargeOf_eq_zero fun k hmem howner _ => ?_
  have := (hk.meters dir k hmem).owner
  omega

/-- Deeds other than the reading of a row keep the balance. -/
theorem Performs.balanced {cfg : Config} {m m' : Metered} {a : Action}
    (h : Performs cfg m a m') (hk : Kept m) (hb : Balanced m)
    (hrow : ∀ c counters, deedOf cfg m.sys a ≠ .count c counters) : Balanced m' := by
  intro c' hc' dir
  rw [h.ledger, Deed.total_onLedger]
  cases step_counters h.step hc' with
  | fresh hid hcounters =>
    have hold : (m.ledger dir).total c'.id = 0 := by
      rw [hid]
      exact hk.total_new dir
    rw [hcounters, Counters.total_fresh, hold]
    split <;> rfl
  | @same c hc hid hkept hcounters =>
    rw [hid, if_neg hkept, hcounters]
    exact hb c hc dir
  | cleared _ hid hclears hcounters =>
    rw [hid, if_pos hclears, hcounters, Counters.total_cleared]
    rfl
  | read ha hfind _ _ =>
    rw [ha] at hrow
    exact absurd (deedOf_countersRow_some cfg hfind _ _ _ _) (hrow _ _)

theorem Performs.noHistory {cfg : Config} {m m' : Metered} {a : Action}
    (h : Performs cfg m a m') (hn : NoHistory m) : NoHistory m' :=
  fun _ hc' dir => (step_counters h.step hc').history hn dir

/-! ## Rows -/

theorem charge_of_other {k : Meter (Rule Chain)} {id : Nat}
    (h : ¬ (k.owner = id ∧ k.closed = false)) (n : UInt64) :
    { k with read := n }.charge id = k.charge id := by
  unfold Meter.charge
  rw [if_neg h, if_neg h]

theorem charge_self {k : Meter (Rule Chain)} {id : Nat} (h : k.owner = id ∧ k.closed = false) :
    k.charge id = k.read.toNat := if_pos h

/-- A row for an address without a client charges nobody who is listed. -/
theorem Reads.balanced_of_unlisted {cfg : Config} {m m' : Metered} {print : Rule Chain → Text}
    {now : Int64} {r : Row} (h : Reads cfg m print now r m') (hk : Kept m) (hb : Balanced m)
    (hf : clientListFindByIp m.sys.list r.ip = none) : Balanced m' := by
  obtain ⟨m1, hm1, heq⟩ := h.performs
  have hdeed := deedOf_countersRow_none cfg hf print r.dir r.counter now
  have hb1 : Balanced m1 := hm1.balanced hk hb (by rw [hdeed]; simp)
  have hk1 : Kept m1 := hm1.kept hk
  have hlist : m1.sys.list = m.sys.list := by
    rw [(step_deed hm1.step).list, hdeed]
    rfl
  obtain ⟨k, hmem, hrow⟩ := hk1.rows r (by rw [hm1.rows, h.rows]; exact List.mem_cons_self)
  intro c hc dir
  rw [heq, sys_setLedger] at hc
  rw [heq, ledger_setLedger]
  split
  · next hdir =>
    subst hdir
    obtain ⟨others, _, htotal, hnew⟩ :=
      total_setRead (m1.ledger r.dir) hmem (hk1.serials r.dir) r.counter c.id
    have hother : ¬ (k.owner = c.id ∧ k.closed = false) := by
      rintro ⟨howner, _⟩
      have hip : c.ip = r.ip :=
        ((hk1.meters r.dir k hmem).address c hc howner.symm).trans hrow.ip
      rw [hlist] at hc
      have := List.find?_eq_none.mp hf c hc
      simp [hip] at this
    rw [hb1 c hc r.dir, htotal, ← hrow.serial, hnew, charge_of_other hother r.counter]
  · exact hb1 c hc dir

/-- The client that the row is credited to. -/
theorem balanced_credited {m : Metered} (hk : Kept m) (hn : NoHistory m) (hb : Balanced m)
    {r : Row} {p1 : Client} (hp1 : p1 ∈ m.sys.list.clients) {k : Meter (Rule Chain)}
    (hmem : k ∈ (m.ledger r.dir).all) (hrow : RowOf k r) (hfair : FairRow m r p1 k)
    (now : Int64) :
    ((p1.counters.read r.dir r.counter now).total r.dir).toNat =
      ((m.ledger r.dir).setRead k.serial r.counter).total p1.id := by
  obtain ⟨others, hothers, htotal, hnew⟩ :=
    total_setRead (m.ledger r.dir) hmem (hk.serials r.dir) r.counter p1.id
  have hold : (p1.counters.total r.dir).toNat = k.charge p1.id + chargeOf p1.id others :=
    (hb p1 hp1 r.dir).trans htotal
  have hraised : p1.counters.raised r.dir r.counter ↔
      (p1.counters.total r.dir).toNat < r.counter.toNat := by
    unfold Counters.raised
    rw [hn p1 hp1, UInt64.sub_zero, UInt64.lt_iff_toNat_lt]
  rw [hnew]
  unfold FairRow at hfair
  split at hfair
  · next hown =>
    rw [charge_self hown] at hold
    have hcharge : { k with read := r.counter }.charge p1.id = r.counter.toNat := if_pos hown
    rw [hcharge]
    by_cases hgrown : k.read < r.counter
    · -- the only rule that has counted anything
      have hzero : chargeOf p1.id others = 0 := chargeOf_eq_zero fun k' hk' howner hclosed =>
        hfair hgrown k' (hothers k' hk').1 howner hclosed (hothers k' hk').2
      have hlt := UInt64.lt_iff_toNat_lt.mp hgrown
      rw [Counters.total_read_of_raised (hraised.mpr (by omega)), hn p1 hp1, UInt64.zero_add,
        hzero]
      rfl
    · -- nothing new was counted
      have hsame : k.read = r.counter :=
        UInt64.le_antisymm hrow.read (UInt64.not_lt.mp hgrown)
      rw [hsame] at hold
      rw [Counters.read_of_not_raised (fun h => by have := hraised.mp h; omega), hold]
  · next hown =>
    have hnot : ¬ p1.counters.raised r.dir r.counter := UInt64.not_lt.mpr hfair.1
    rw [Counters.read_of_not_raised hnot, hold, charge_of_other hown r.counter]

/-- The other clients. -/
theorem balanced_others {m : Metered} (hk : Kept m) (hb : Balanced m) {r : Row} {p1 c : Client}
    (hc : c ∈ m.sys.list.clients) (hne : c.id ≠ p1.id) {k : Meter (Rule Chain)}
    (hmem : k ∈ (m.ledger r.dir).all) (hfair : FairRow m r p1 k) :
    (c.counters.total r.dir).toNat = ((m.ledger r.dir).setRead k.serial r.counter).total c.id := by
  obtain ⟨others, _, htotal, hnew⟩ :=
    total_setRead (m.ledger r.dir) hmem (hk.serials r.dir) r.counter c.id
  rw [hb c hc r.dir, htotal, hnew]
  by_cases hown : k.owner = c.id ∧ k.closed = false
  · have hother : ¬ (k.owner = p1.id ∧ k.closed = false) := fun h =>
      hne (hown.1.symm.trans h.1)
    unfold FairRow at hfair
    rw [if_neg hother] at hfair
    rw [← hfair.2 hown.2 ⟨c, hc, hown.1.symm⟩]
  · rw [charge_of_other hown r.counter]

/-- A fair row keeps the balance. -/
theorem Reads.balanced {cfg : Config} {m m' : Metered} {print : Rule Chain → Text} {now : Int64}
    {r : Row} (h : Reads cfg m print now r m') (hk : Kept m) (hn : NoHistory m) (hb : Balanced m)
    (hfair : Fair m (.row print now)) : Balanced m' := by
  cases hf : clientListFindByIp m.sys.list r.ip with
  | none => exact h.balanced_of_unlisted hk hb hf
  | some p1 =>
    obtain ⟨m1, hm1, heq⟩ := h.performs
    obtain ⟨hp1, _⟩ := mem_of_findByIp hf
    have hdeed := deedOf_countersRow_some cfg hf print r.dir r.counter now
    have hledger : ∀ dir, m1.ledger dir = m.ledger dir := by
      intro dir
      rw [hm1.ledger, hdeed]
      rfl
    obtain ⟨k, hmem, hrow⟩ := hk.rows r (by rw [h.rows]; exact List.mem_cons_self)
    have hfairRow : FairRow m r p1 k := hfair r (by rw [h.rows]; rfl) p1 hf k hmem hrow.serial
    intro c' hc' dir
    rw [heq, sys_setLedger, (step_deed hm1.step).list, hdeed] at hc'
    rw [heq, ledger_setLedger]
    rcases mem_clientListWrite hc' with rfl | ⟨hc, hne⟩
    · split
      · next hdir =>
        subst hdir
        rw [hledger, ← hrow.serial]
        exact balanced_credited hk hn hb hp1 hmem hrow hfairRow now
      · next hdir =>
        show _ = (m1.ledger dir).total p1.id
        rw [hledger, ← hb p1 hp1 dir]
        exact congrArg UInt64.toNat (Counters.read_other _ _ _ _ hdir).1
    · have hother : c'.id ≠ p1.id := hne
      split
      · next hdir =>
        subst hdir
        rw [hledger, ← hrow.serial]
        exact balanced_others hk hb hc hother hmem hfairRow
      · show _ = (m1.ledger dir).total c'.id
        rw [hledger]
        exact hb c' hc dir

theorem balanced_traffic {m : Metered} (hb : Balanced m) (dir : Direction) (serial : Nat)
    (n : UInt64) : Balanced (m.setLedger dir ((m.ledger dir).traffic serial n)) := by
  intro c hc dir'
  rw [sys_setLedger] at hc
  rw [ledger_setLedger]
  split
  · next hdir =>
    subst hdir
    unfold Ledger.total Ledger.traffic
    rw [all_update, chargeOf_map]
    · exact hb c hc dir'
    · intro k _
      split <;> rfl
  · exact hb c hc dir'

/-! ## Runs -/

/-- The books are kept and balanced, and there is no history. -/
structure Accounts (m : Metered) : Prop where
  kept : Kept m
  noHistory : NoHistory m
  balanced : Balanced m

theorem meterStep_accounts {cfg : Config} {m m' : Metered} {a : MeterAction} (h : Accounts m)
    (hfair : Fair m a) (hstep : meterStep cfg m a = some m') : Accounts m' := by
  have hk' := meterStep_kept hstep h.kept
  cases meterStep_moved hstep with
  | @sys a _ hallows hp =>
    refine ⟨hk', hp.noHistory h.noHistory, hp.balanced h.kept h.balanced ?_⟩
    intro c counters hd
    obtain ⟨_, _, _, _, _, rfl, _⟩ := deedOf_count hd
    cases hallows
  | traffic hk hn =>
    refine ⟨hk', ?_, balanced_traffic h.balanced _ _ _⟩
    intro c hc
    rw [sys_setLedger] at hc
    exact h.noHistory c hc
  | listing _ _ => exact ⟨hk', h.noHistory, h.balanced⟩
  | row hr =>
    refine ⟨hk', ?_, hr.balanced h.kept h.noHistory h.balanced hfair⟩
    obtain ⟨m1, hm1, heq⟩ := hr.performs
    intro c hc
    rw [heq, sys_setLedger] at hc
    exact hm1.noHistory h.noHistory c hc

theorem FreshMetered.accounts {m : Metered} (h : FreshMetered m) : Accounts m := by
  have hnobody : m.sys.list.clients = [] := by
    rw [h.sys.list]
    rfl
  refine ⟨h.kept, fun c hc => ?_, fun c hc => ?_⟩
  · rw [hnobody] at hc
    cases hc
  · rw [hnobody] at hc
    cases hc

/-- In every state of a run of one process whose rows are fair, every listed client's totals
    are the sums of the last counts read from the rules installed for it since it was added
    or its counters were cleared. -/
theorem totals_balanced (cfg : Config) {m0 m : Metered} {as : List MeterAction}
    (h0 : FreshMetered m0) (hrun : run (meterStep cfg) m0 as = some m)
    (hfair : Along (meterStep cfg) Fair m0 as) :
    ∀ c ∈ m.sys.list.clients,
      c.counters.outgoing.toNat = m.outgoing.total c.id ∧
      c.counters.incoming.toNat = m.incoming.total c.id := by
  have haccounts : Accounts m :=
    run_inv_along Accounts (fun _ _ _ h hf hs => meterStep_accounts h hf hs) h0.accounts hfair hrun
  intro c hc
  exact ⟨haccounts.balanced c hc .outgoing, haccounts.balanced c hc .incoming⟩

/-! ## A repeated login -/

/-- A small gateway with meters. -/
def meterStart : Metered := ⟨smallStart, 0, .empty, .empty, 0, []⟩

theorem meterStart_fresh : FreshMetered meterStart := ⟨smallStart_fresh, rfl, rfl, rfl⟩

def meterRun (as : List MeterAction) : Metered :=
  (run (meterStep smallConfig) meterStart as).getD meterStart

/-- One pass of `iptables_fw_counters_update` over chains with one rule each. -/
def countRound (now : Int64) : List MeterAction :=
  [.sys .syncStart, .listing .outgoing, .row (fun _ => []) now, .listing .incoming,
    .row (fun _ => []) now]

/-- The rest of `fw_sync_with_authserver`, for one client. -/
def reportRound (now : Int64) : List MeterAction :=
  [.sys .syncDup, .sys (.syncAnswer authAllowed), .sys (.syncApply now)]

/-- A login at time `now` that nothing interrupts. -/
def meterLogin (now : Int64) : List MeterAction :=
  [.sys (.httpCallbackAuth smallIp (some smallMac) (some "t".toList) false now),
   .sys (.authenticateLookup 0), .sys (.authenticateAnswer 0 authAllowed),
   .sys (.authenticateApply 0)]

/-- A login and a round that reads 100 bytes. -/
def firstRound : List MeterAction :=
  meterLogin 0 ++ .traffic .outgoing 3 100 :: countRound 1

theorem totals_balanced_small :
    ∃ c ∈ (meterRun firstRound).sys.list.clients, c.counters.outgoing = 100 ∧
      c.counters.outgoing.toNat = (meterRun firstRound).outgoing.total c.id ∧
      c.counters.incoming.toNat = (meterRun firstRound).incoming.total c.id := by
  have hrun : run (meterStep smallConfig) meterStart firstRound = some (meterRun firstRound) := by
    decide +kernel
  have hfair : Along (meterStep smallConfig) Fair meterStart firstRound := by decide +kernel
  obtain ⟨c, hc, htotal⟩ : ∃ c ∈ (meterRun firstRound).sys.list.clients,
      c.counters.outgoing = 100 := by
    decide +kernel
  exact ⟨c, hc, htotal, totals_balanced smallConfig meterStart_fresh hrun hfair c hc⟩

/-- The client logs in again and sends 50 bytes more, which the next round drops. -/
def secondRound : List MeterAction :=
  firstRound ++ reportRound 1 ++ meterLogin 2 ++ .traffic .outgoing 13 50 :: countRound 3

theorem relogin_loses_traffic :
    FreshMetered meterStart ∧
    run (meterStep smallConfig) meterStart secondRound = some (meterRun secondRound) ∧
    ∃ c ∈ (meterRun secondRound).sys.list.clients,
      c.counters.outgoing = 100 ∧ (meterRun secondRound).outgoing.total c.id = 150 := by
  have hrun : run (meterStep smallConfig) meterStart secondRound =
      some (meterRun secondRound) := by decide +kernel
  have hlost : ∃ c ∈ (meterRun secondRound).sys.list.clients,
      c.counters.outgoing = 100 ∧ (meterRun secondRound).outgoing.total c.id = 150 := by
    decide +kernel
  exact ⟨meterStart_fresh, hrun, hlost⟩

end Wifidog
