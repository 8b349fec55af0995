/-
  Time-outs and traffic.

  A sync round logs a client out when `last_updated` is too long ago. `last_updated` moves when
  a row of the Outgoing chain raises the client's total, so a rule that has counted more since
  it was last read should move it. It does when the row's address leads to the client the rule
  was installed for, and its count is above what the client's total has on its history
  (`Seen`). After a second grant the new rule starts at 0 and has to catch up first.

  `growthOf` records every row of an Outgoing rule whose count has grown, with the client the
  rule was installed for and the time. The invariant is that no record is later than the
  client's `last_updated`, in the list and in the work list (`Active`).

  Proved: in every run with a clock that does not go back in which all growth is seen, a client
  that is logged out for inactivity had none in the time before (`idle_when_timed_out`). After
  a second login it may have had some (`active_client_timed_out`).
-/
import Wifidog.Accounting.Traffic

namespace Wifidog

open CText Netfilter Runs Meters

/-- An Outgoing rule of client `id` was read at this time and had grown. -/
structure Growth where
  id : Nat
  time : Int64
  deriving DecidableEq, Repr

/-- The meter that a row was read from, if it has counted more since it was last read. -/
def grownMeters (m : Metered) (r : Row) : List (Meter (Rule Chain)) :=
  m.outgoing.all.filter fun k => k.serial == r.serial && decide (k.read < r.counter)

def growthOf (m : Metered) : MeterAction → List Growth
  | .row _ now =>
    match m.rows with
    | [] => []
    | r :: _ =>
      match r.dir with
      | .outgoing => (grownMeters m r).map fun k => ⟨k.owner, now⟩
      | .incoming => []
  | _ => []

/-- The client that a sync round logs out for inactivity. -/
def idleClient (cfg : Config) (s : State) (now : Int64) : Option Client :=
  match s.sync with
  | .answered p1 _ _ =>
    if timedOut cfg p1 now then clientListFindByClient s.list p1 else none
  | _ => none

/-- The clock does not go back. -/
def InTime (m : Metered) : MeterAction → Prop
  | .sys a => m.clock ≤ a.time.getD m.clock
  | .row _ now => m.clock ≤ now
  | _ => True

instance (m : Metered) : (a : MeterAction) → Decidable (InTime m a)
  | .sys a => inferInstanceAs (Decidable (m.clock ≤ a.time.getD m.clock))
  | .row _ now => inferInstanceAs (Decidable (m.clock ≤ now))
  | .traffic _ _ _ => isTrue trivial
  | .listing _ => isTrue trivial

/-- The row raises the total of the listed client that a grown rule was installed for. -/
def SeenRow (m : Metered) (r : Row) : Prop :=
  r.dir = .outgoing → ∀ k ∈ grownMeters m r, ∀ c ∈ m.sys.list.clients, c.id = k.owner →
    clientListFindByIp m.sys.list r.ip = some c ∧ c.counters.raised .outgoing r.counter

instance (m : Metered) (r : Row) : Decidable (SeenRow m r) :=
  inferInstanceAs (Decidable (r.dir = .outgoing → ∀ k ∈ grownMeters m r,
    ∀ c ∈ m.sys.list.clients, c.id = k.owner →
      clientListFindByIp m.sys.list r.ip = some c ∧ c.counters.raised .outgoing r.counter))

/-- All growth that is read is seen. -/
def Seen (m : Metered) : MeterAction → Prop
  | .row _ _ => ∀ r ∈ m.rows.head?, SeenRow m r
  | _ => True

instance (m : Metered) : (a : MeterAction) → Decidable (Seen m a)
  | .row _ _ => inferInstanceAs (Decidable (∀ r ∈ m.rows.head?, SeenRow m r))
  | .sys _ => isTrue trivial
  | .traffic _ _ _ => isTrue trivial
  | .listing _ => isTrue trivial

/-! ## Growth -/

theorem mem_growthOf_row {m : Metered} {print : Rule Chain → Text} {now : Int64} {r : Row}
    {rows : List Row} (hrows : m.rows = r :: rows) {g : Growth}
    (hg : g ∈ growthOf m (.row print now)) :
    g.time = now ∧ r.dir = .outgoing ∧ ∃ k ∈ grownMeters m r, g.id = k.owner := by
  simp only [growthOf, hrows] at hg
  split at hg
  · next hdir =>
    obtain ⟨k, hk, rfl⟩ := List.mem_map.mp hg
    exact ⟨rfl, hdir, k, hk, rfl⟩
  · cases hg

theorem mem_of_grownMeters {m : Metered} {r : Row} {k : Meter (Rule Chain)}
    (h : k ∈ grownMeters m r) : k ∈ (m.ledger .outgoing).all :=
  (List.mem_filter.mp h).1

/-- A row moves `last_updated` to its time, or leaves it. -/
theorem lastUpdated_read (c : Counters) (dir : Direction) (counter : UInt64) (now : Int64) :
    (c.read dir counter now).lastUpdated = c.lastUpdated ∨
      (c.read dir counter now).lastUpdated = now := by
  cases dir with
  | outgoing =>
    simp only [Counters.read, Counters.readOutgoing]
    split
    · exact Or.inr rfl
    · exact Or.inl rfl
  | incoming =>
    simp only [Counters.read, Counters.readIncoming]
    split <;> exact Or.inl rfl

theorem lastUpdated_read_of_raised {c : Counters} {counter : UInt64}
    (h : c.raised .outgoing counter) (now : Int64) :
    (c.read .outgoing counter now).lastUpdated = now :=
  congrArg Counters.lastUpdated (if_pos h)

/-! ## The invariant -/

/-- No growth of the client is later than this time. -/
def UpTo (log : List Growth) (id : Nat) (time : Int64) : Prop :=
  ∀ g ∈ log, g.id = id → g.time ≤ time

structure Active (q : Metered × List Growth) : Prop where
  kept : Kept q.1
  clock : ∀ g ∈ q.2, g.time ≤ q.1.clock
  bound : ∀ g ∈ q.2, g.id < q.1.sys.list.clientId
  listed : ∀ c ∈ q.1.sys.list.clients, UpTo q.2 c.id c.counters.lastUpdated
  pending : ∀ p ∈ q.1.sys.sync.pending, UpTo q.2 p.id p.counters.lastUpdated

/-- A step of the system keeps what was recorded before it within bounds. -/
theorem Active.performs {cfg : Config} {m m' : Metered} {log : List Growth} {a : Action}
    (ha : Active (m, log)) (h : Performs cfg m a m') (htime : m.clock ≤ a.time.getD m.clock) :
    Active (m', log) := by
  have hclock : ∀ g ∈ log, g.time ≤ m'.clock := by
    intro g hg
    rw [h.clock]
    exact Int64.le_trans (ha.clock g hg) htime
  have hlisted : ∀ c ∈ m'.sys.list.clients, UpTo log c.id c.counters.lastUpdated := by
    intro c' hc' g hg hid
    cases step_counters h.step hc' with
    | fresh hnew _ =>
      have hold := ha.bound g hg
      simp only at hold
      omega
    | @same c hc hcid _ hcounters =>
      rw [hcounters]
      exact ha.listed c hc g hg (hid.trans hcid)
    | @cleared c hc hcid _ hcounters =>
      rw [hcounters]
      exact ha.listed c hc g hg (hid.trans hcid)
    | @read print dir ip counter now c hrow hfind hcid hcounters =>
      rw [hcounters]
      rcases lastUpdated_read c.counters dir counter now with hsame | hnow
      · rw [hsame]
        exact ha.listed c (mem_of_findByIp hfind).1 g hg (hid.trans hcid)
      · have hg' := hclock g hg
        rw [h.clock, hrow] at hg'
        rw [hnow]
        exact hg'
  refine ⟨h.kept ha.kept, hclock, ?_, hlisted, ?_⟩
  · exact fun g hg => Nat.lt_of_lt_of_le (ha.bound g hg) (step_effect h.step).members.1
  · intro p hp
    rcases (step_sync h.step).pending hp with hold | ⟨hlist, c, hc, rfl⟩
    · exact ha.pending p hold
    · exact hlisted c (hlist ▸ hc)

/-! ## Rows -/

section Rows
variable {cfg : Config} {m m' : Metered} {log : List Growth} {print : Rule Chain → Text}
  {r : Row} {now : Int64}

theorem countersRow_sync {s s' : State}
    (h : step cfg s (.countersRow print r.dir r.ip r.counter now) = some s') :
    s'.sync = .counting := by
  obtain ⟨hcounting, rfl⟩ := countersRow_cases h
  exact hcounting

/-- Growth that is seen moves the client's `last_updated`. -/
theorem Active.row_new (ha : Active (m, log)) (hseen : SeenRow m r) (hdir : r.dir = .outgoing)
    {k : Meter (Rule Chain)} (hk : k ∈ grownMeters m r)
    (h : Performs cfg m (.countersRow print r.dir r.ip r.counter now) m') {c' : Client}
    (hc' : c' ∈ m'.sys.list.clients) (hid : c'.id = k.owner) :
    c'.counters.lastUpdated = now := by
  have hdoes := step_deed h.step
  have howner := (ha.kept.meters .outgoing k (mem_of_grownMeters hk)).owner
  rw [hdoes.list] at hc'
  rcases Deed.members hdoes.valid hc' with ⟨_, hnew, _⟩ | ⟨c, hc, hcid, hcounters⟩
  · simp only at howner
    omega
  · obtain ⟨hf, hraised⟩ := hseen hdir k hk c hc (hcid.symm.trans hid)
    have hdeed := deedOf_countersRow_some cfg hf print r.dir r.counter now
    rw [hcounters, hdeed]
    simp only [Deed.onCounters, if_true, hdir]
    exact lastUpdated_read_of_raised hraised now

theorem Active.reads (ha : Active (m, log)) (hr : Reads cfg m print now r m')
    (htime : m.clock ≤ now) (hseen : SeenRow m r) (hk : Kept m') :
    Active (m', log ++ growthOf m (.row print now)) := by
  obtain ⟨m1, hm1, heq⟩ := hr.performs
  have hsys : m'.sys = m1.sys := by rw [heq, sys_setLedger]
  have hclock : m'.clock = now := by
    rw [heq, clock_setLedger]
    exact hm1.clock
  have hold := ha.performs hm1 htime
  refine ⟨hk, ?_, ?_, ?_, ?_⟩
  · intro g hg
    rw [hclock]
    rcases List.mem_append.mp hg with hg | hg
    · exact Int64.le_trans (ha.clock g hg) htime
    · rw [(mem_growthOf_row hr.rows hg).1]
      exact Int64.le_refl now
  · intro g hg
    rw [hsys]
    rcases List.mem_append.mp hg with hg | hg
    · exact hold.bound g hg
    · obtain ⟨_, _, k, hmem, hid⟩ := mem_growthOf_row hr.rows hg
      rw [hid]
      exact Nat.lt_of_lt_of_le (ha.kept.meters .outgoing k (mem_of_grownMeters hmem)).owner
        (step_effect hm1.step).members.1
  · intro c hc g hg hid
    rw [hsys] at hc
    rcases List.mem_append.mp hg with hg | hg
    · exact hold.listed c hc g hg hid
    · obtain ⟨hnow, hdir, k, hmem, howner⟩ := mem_growthOf_row hr.rows hg
      rw [hnow, ha.row_new hseen hdir hmem hm1 hc (hid.symm.trans howner)]
      exact Int64.le_refl now
  · -- no work list exists while a listing is read
    intro p hp
    rw [hsys, countersRow_sync hm1.step] at hp
    cases hp

end Rows

/-! ## Steps and runs -/

theorem recorded_active {cfg : Config} {q q' : Metered × List Growth} {a : MeterAction}
    (ha : Active q) (htime : InTime q.1 a) (hseen : Seen q.1 a)
    (hstep : recorded (meterStep cfg) growthOf q a = some q') : Active q' := by
  obtain ⟨m, log⟩ := q
  obtain ⟨m', log'⟩ := q'
  obtain ⟨h, rfl⟩ := recorded_eq_some_iff.mp hstep
  have hk' := meterStep_kept h ha.kept
  cases meterStep_moved h with
  | @sys a _ hallows hp =>
    have hact := ha.performs hp htime
    simpa [growthOf] using hact
  | @traffic dir k n hk hn =>
    simp only [growthOf, List.append_nil]
    cases dir with
    | outgoing => exact ⟨hk', ha.clock, ha.bound, ha.listed, ha.pending⟩
    | incoming => exact ⟨hk', ha.clock, ha.bound, ha.listed, ha.pending⟩
  | listing _ _ =>
    simp only [growthOf, List.append_nil]
    exact ⟨hk', ha.clock, ha.bound, ha.listed, ha.pending⟩
  | @row print now r _ hr =>
    refine ha.reads hr htime (hseen r ?_) hk'
    rw [hr.rows]
    rfl

theorem FreshMetered.active {m : Metered} (h : FreshMetered m) : Active (m, []) := by
  refine ⟨h.kept, by simp, by simp, fun c _ g hg => ?_, fun p _ g hg => ?_⟩
  · cases hg
  · cases hg

/-! ## Time-outs -/

/-- `checkinterval * clienttimeout` -/
def Config.timeout (cfg : Config) : Int := cfg.checkinterval.toInt * cfg.clienttimeout.toInt

/-- The product is an `int` and the sum a `time_t`. -/
structure TimeoutFits (cfg : Config) (c : Client) : Prop where
  product : -2 ^ 31 ≤ cfg.timeout ∧ cfg.timeout < 2 ^ 31
  sum : -2 ^ 63 ≤ c.counters.lastUpdated.toInt + cfg.timeout ∧
    c.counters.lastUpdated.toInt + cfg.timeout < 2 ^ 63

/-- The comparison of `fw_sync_with_authserver`, in integers. -/
theorem timedOut_iff {cfg : Config} {c : Client} (h : TimeoutFits cfg c) (now : Int64) :
    timedOut cfg c now = true ↔ c.counters.lastUpdated.toInt + cfg.timeout ≤ now.toInt := by
  obtain ⟨⟨hlow, hhigh⟩, hmin, hmax⟩ := h
  have hproduct : (cfg.checkinterval * cfg.clienttimeout).toInt64.toInt = cfg.timeout := by
    rw [Int32.toInt_toInt64, Int32.toInt_mul, ← Config.timeout]
    exact Int.bmod_eq_of_le (by omega) (by omega)
  unfold timedOut
  rw [decide_eq_true_iff, Int64.le_iff_toInt_le, Int64.toInt_add, hproduct,
    Int.bmod_eq_of_le (by omega) (by omega)]

/-- The client that is logged out is the one whose record the step takes out of the list. -/
theorem deedOf_idleClient {cfg : Config} {s : State} {now : Int64} {c : Client}
    (h : idleClient cfg s now = some c) :
    ∃ p1 rest code, s.sync = .answered p1 rest code ∧ timedOut cfg p1 now = true ∧
      clientListFindByClient s.list p1 = some c ∧ deedOf cfg s (.syncApply now) = .remove c := by
  unfold idleClient at h
  split at h
  · next p1 rest code hsync =>
    split at h
    · next htimed =>
      refine ⟨p1, rest, code, hsync, htimed, h, ?_⟩
      simp only [deedOf, hsync, h, htimed, if_true]
    · cases h
  · cases h

/-- In every run with a clock that does not go back in which all growth is seen: when a sync
    round logs a client out for inactivity, and the copy it tests is within the types, the last
    growth of its Outgoing rules that a counter round has read is at least
    `checkinterval * clienttimeout` seconds ago. -/
theorem idle_when_timed_out (cfg : Config) {m0 m : Metered} {log : List Growth}
    {as : List MeterAction} (h0 : FreshMetered m0)
    (hrun : run (recorded (meterStep cfg) growthOf) (m0, []) as = some (m, log))
    (htime : Along (recorded (meterStep cfg) growthOf) (fun q a => InTime q.1 a) (m0, []) as)
    (hseen : Along (recorded (meterStep cfg) growthOf) (fun q a => Seen q.1 a) (m0, []) as)
    (hfits : ∀ p ∈ m.sys.sync.pending.head?, TimeoutFits cfg p) {now : Int64} {c : Client}
    (hidle : idleClient cfg m.sys now = some c) :
    deedOf cfg m.sys (.syncApply now) = .remove c ∧
      ∀ g ∈ log, g.id = c.id → g.time.toInt + cfg.timeout ≤ now.toInt := by
  have ha : Active (m, log) :=
    run_inv_along Active (fun _ _ _ h hp hs => recorded_active h hp.1 hp.2 hs) h0.active
      (along_and htime hseen) hrun
  obtain ⟨p1, rest, code, hsync, htimed, hfind, hdeed⟩ := deedOf_idleClient hidle
  refine ⟨hdeed, fun g hg hid => ?_⟩
  have hp1 : p1 ∈ m.sys.sync.pending := by
    rw [hsync]
    exact List.mem_cons_self
  have hlast := Int64.le_iff_toInt_le.mp
    (ha.pending p1 hp1 g hg (hid.trans (mem_of_findByClient hfind).2))
  -- the copy that is tested is the first of the pending ones
  have hfits1 : TimeoutFits cfg p1 := hfits p1 (by rw [hsync]; rfl)
  have hpassed := (timedOut_iff hfits1 now).mp htimed
  omega

/-! ## A repeated login -/

def growthRun (as : List MeterAction) : Metered × List Growth :=
  (run (recorded (meterStep smallConfig) growthOf) (meterStart, []) as).getD (meterStart, [])

/-- The client sends 100 bytes, which a round reads at time 1, and nothing after it. The round
    at time 301 has its answer. -/
def quietRun : List MeterAction :=
  firstRound ++ reportRound 1 ++ countRound 301 ++ [.sys .syncDup, .sys (.syncAnswer authAllowed)]

theorem idle_when_timed_out_small :
    (idleClient smallConfig (growthRun quietRun).1.sys 301).map Client.id = some 1 ∧
    (growthRun quietRun).2 = [⟨1, 1⟩] ∧ smallConfig.timeout = 300 ∧
    ∀ g ∈ (growthRun quietRun).2, g.id = 1 → g.time.toInt + smallConfig.timeout ≤ 301 := by
  have hrun : run (recorded (meterStep smallConfig) growthOf) (meterStart, []) quietRun =
      some (growthRun quietRun) := by
    decide +kernel
  have htime : Along (recorded (meterStep smallConfig) growthOf) (fun q a => InTime q.1 a)
      (meterStart, []) quietRun := by
    decide +kernel
  have hseen : Along (recorded (meterStep smallConfig) growthOf) (fun q a => Seen q.1 a)
      (meterStart, []) quietRun := by
    decide +kernel
  have hfits : ∀ p ∈ (growthRun quietRun).1.sys.sync.pending.head?,
      (-2 ^ 31 ≤ smallConfig.timeout ∧ smallConfig.timeout < 2 ^ 31) ∧
      -2 ^ 63 ≤ p.counters.lastUpdated.toInt + smallConfig.timeout ∧
        p.counters.lastUpdated.toInt + smallConfig.timeout < 2 ^ 63 := by
    decide +kernel
  have hgrowth : (growthRun quietRun).2 = [⟨1, 1⟩] := by decide +kernel
  obtain ⟨c, hc, hid⟩ : ∃ c ∈ idleClient smallConfig (growthRun quietRun).1.sys 301, c.id = 1 := by
    decide +kernel
  have hidle := idle_when_timed_out smallConfig meterStart_fresh hrun htime hseen
    (fun p hp => ⟨(hfits p hp).1, (hfits p hp).2⟩) hc
  refine ⟨?_, hgrowth, by decide, ?_⟩
  · rw [Option.mem_def.mp hc, ← hid]
    rfl
  · rw [← hid]
    exact hidle.2

/-- The client logs in again at time 2 and sends 50 bytes, which the round at time 290 reads. -/
def busyRun : List MeterAction :=
  firstRound ++ reportRound 1 ++ meterLogin 2 ++ .traffic .outgoing 13 50 :: countRound 290 ++
    [.sys .syncDup, .sys (.syncAnswer authAllowed)]

theorem active_client_timed_out :
    FreshMetered meterStart ∧
    run (recorded (meterStep smallConfig) growthOf) (meterStart, []) busyRun =
      some (growthRun busyRun) ∧
    Along (recorded (meterStep smallConfig) growthOf) (fun q a => InTime q.1 a)
      (meterStart, []) busyRun ∧
    (idleClient smallConfig (growthRun busyRun).1.sys 301).map Client.id = some 1 ∧
    ⟨1, 290⟩ ∈ (growthRun busyRun).2 ∧ (301 : Int) < 290 + smallConfig.timeout := by
  have hrun : run (recorded (meterStep smallConfig) growthOf) (meterStart, []) busyRun =
      some (growthRun busyRun) := by
    decide +kernel
  have htime : Along (recorded (meterStep smallConfig) growthOf) (fun q a => InTime q.1 a)
      (meterStart, []) busyRun := by
    decide +kernel
  have hidle : (idleClient smallConfig (growthRun busyRun).1.sys 301).map Client.id = some 1 := by
    decide +kernel
  have hgrowth : ⟨1, 290⟩ ∈ (growthRun busyRun).2 := by decide +kernel
  exact ⟨meterStart_fresh, hrun, htime, hidle, hgrowth, by decide⟩

end Wifidog
