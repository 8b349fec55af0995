/-
  What is reported to the auth server, and what it adds up to.

  In every round `fw_sync_with_authserver` sends one request with `stage=counters` for each
  client of its work list, with the totals and with the deltas (printed when `DeltaTraffic` is
  on). An auth server that adds up the deltas should get the last total it was told.

  A delta is written when a row raises the total and is not touched otherwise. So it is what a
  report has to say when exactly one row has raised the total since the last report of the
  client, and it is sent again when none has (`Billable`).

  The invariant is about one client: its total is the last one reported, or it is above it and
  the delta is the difference (`Due`). A copy in the work list that has not been reported yet
  has the counters of its record.

  Proved: in every run whose steps are billable for a client, its deltas add up
  (`deltas_add_up`). A round without traffic bills the last delta twice (`delta_sent_twice`).
-/
import Wifidog.Access.Threads
import Wifidog.Accounting.Counters

namespace Wifidog

open CText Netfilter Runs

/-- The numbers of a request with `stage=counters`. -/
structure Report where
  id : Nat
  counters : Counters
  deriving DecidableEq, Repr

/-- The report that goes out with a step. -/
def reportsOf (cfg : Config) (s : State) : Action → List Report
  | .syncAnswer _ =>
    match s.sync with
    | .working (p1 :: _) => if cfg.hasAuthServer then [⟨p1.id, p1.counters⟩] else []
    | _ => []
  | _ => []

/-- The reports of one client. -/
def reportsFor (log : List Report) (id : Nat) : List Report := log.filter (·.id == id)

/-- The sum of the deltas. -/
def billed (log : List Report) (id : Nat) (dir : Direction) : Nat :=
  ((reportsFor log id).map fun r => (r.counters.delta dir).toNat).sum

/-- The total in the latest report, 0 before the first one. -/
def lastReported (log : List Report) (id : Nat) (dir : Direction) : UInt64 :=
  match (reportsFor log id).getLast? with
  | some r => r.counters.total dir
  | none => 0

/-! ## Steps that keep the bill right -/

section Conditions
variable (cfg : Config) (id : Nat) (q : State × List Report) (a : Action)

/-- A row raises the total only if nothing has since the last report. -/
abbrev RaisesOnce : Prop :=
  ∀ r ∈ a.row?, ∀ c ∈ clientListFindByIp q.1.list r.ip, c.id = id →
    c.counters.raised r.dir r.counter → c.counters.total r.dir = lastReported q.2 id r.dir

/-- A report with a delta has a new total. -/
abbrev ReportsNews : Prop :=
  ∀ r ∈ reportsOf cfg q.1 a, r.id = id →
    (r.counters.outgoingDelta = 0 ∨ r.counters.outgoing ≠ lastReported q.2 id .outgoing) ∧
    (r.counters.incomingDelta = 0 ∨ r.counters.incoming ≠ lastReported q.2 id .incoming)

/-- The counters are cleared only while nothing but zeros was reported. -/
abbrev ClearsUnreported : Prop :=
  (deedOf cfg q.1 a).clears = some id →
    lastReported q.2 id .outgoing = 0 ∧ lastReported q.2 id .incoming = 0

structure Billable : Prop where
  raises : RaisesOnce id q a
  reports : ReportsNews cfg id q a
  clears : ClearsUnreported cfg id q a

instance : Decidable (Billable cfg id q a) :=
  decidable_of_iff (RaisesOnce id q a ∧ ReportsNews cfg id q a ∧ ClearsUnreported cfg id q a)
    ⟨fun h => ⟨h.1, h.2.1, h.2.2⟩, fun h => ⟨h.raises, h.reports, h.clears⟩⟩

end Conditions

/-! ## The log -/

section Log
variable (log : List Report) (id : Nat) (dir : Direction)

theorem billed_append_self (counters : Counters) :
    billed (log ++ [⟨id, counters⟩]) id dir = billed log id dir + (counters.delta dir).toNat := by
  simp [billed, reportsFor]

theorem billed_append_other {r : Report} (h : r.id ≠ id) :
    billed (log ++ [r]) id dir = billed log id dir := by
  simp [billed, reportsFor, h]

theorem lastReported_append_self (counters : Counters) :
    lastReported (log ++ [⟨id, counters⟩]) id dir = counters.total dir := by
  simp [lastReported, reportsFor]

theorem lastReported_append_other {r : Report} (h : r.id ≠ id) :
    lastReported (log ++ [r]) id dir = lastReported log id dir := by
  simp [lastReported, reportsFor, h]

end Log

/-- What is due for a client: nothing, or one delta. -/
def Due (log : List Report) (id : Nat) (c : Counters) : Prop :=
  ∀ dir, c.total dir = lastReported log id dir ∨
    (lastReported log id dir).toNat + (c.delta dir).toNat = (c.total dir).toNat

/-- A billable report adds up. -/
theorem Due.billed {log : List Report} {id : Nat} {c : Counters} (h : Due log id c)
    (hnews : (c.outgoingDelta = 0 ∨ c.outgoing ≠ lastReported log id .outgoing) ∧
      (c.incomingDelta = 0 ∨ c.incoming ≠ lastReported log id .incoming))
    (hsum : ∀ dir, billed log id dir = (lastReported log id dir).toNat) (dir : Direction) :
    billed (log ++ [⟨id, c⟩]) id dir = (c.total dir).toNat := by
  have hdir : c.delta dir = 0 ∨ c.total dir ≠ lastReported log id dir := by
    cases dir with
    | outgoing => exact hnews.1
    | incoming => exact hnews.2
  rw [billed_append_self, hsum dir]
  rcases h dir with hsame | hone
  · have hzero : c.delta dir = 0 := hdir.resolve_right fun hne => hne hsame
    rw [hzero, hsame]
    rfl
  · exact hone

/-- A row that raises the total leaves one delta due. -/
theorem Due.read {log : List Report} {id : Nat} {c : Counters} (h : Due log id c)
    {dir : Direction} {counter : UInt64}
    (honce : c.raised dir counter → c.total dir = lastReported log id dir)
    (hhistory : c.history dir = 0) (now : Int64) : Due log id (c.read dir counter now) := by
  by_cases hraised : c.raised dir counter
  · intro dir'
    by_cases hdir : dir' = dir
    · subst hdir
      right
      have hlt : c.total dir' < counter := by
        have := hraised
        unfold Counters.raised at this
        rwa [hhistory, UInt64.sub_zero] at this
      rw [← honce hraised, Counters.delta_read_of_raised hraised,
        Counters.total_read_of_raised hraised, hhistory, UInt64.zero_add,
        UInt64.toNat_sub_of_le _ _ (UInt64.le_of_lt hlt)]
      have := UInt64.lt_iff_toNat_lt.mp hlt
      omega
    · obtain ⟨htotal, hdelta⟩ := Counters.read_other c dir counter now hdir
      rw [htotal, hdelta]
      exact h dir'
  · rw [Counters.read_of_not_raised hraised]
    exact h

/-! ## The work list -/

/-- The copies of the work list that have not been reported yet. -/
def Sync.unreported : Sync → List Client
  | .working w => w
  | .answered _ rest _ => rest
  | .loggingOut _ rest => rest
  | _ => []

@[simp] theorem Sync.unreported_next (w : List Client) : (Sync.next w).unreported = w := by
  cases w <;> rfl

theorem SyncMove.unreported {cfg : Config} {s s' : State} (h : SyncMove cfg s s') {p : Client}
    (hp : p ∈ s'.sync.unreported) :
    p ∈ s.sync.unreported ∨ (s'.list = s.list ∧ ∃ c ∈ s.list.clients, p = clientDup c) := by
  cases h with
  | kept hsync _ => exact Or.inl (hsync ▸ hp)
  | round hsync _ => rcases hsync with hsync | hsync <;> simp [hsync, Sync.unreported] at hp
  | dup hsync hlist _ =>
    rw [hsync, Sync.unreported_next] at hp
    obtain ⟨c, hc, rfl⟩ := List.mem_map.mp hp
    exact Or.inr ⟨hlist, c, hc, rfl⟩
  | answer code hwas hsync _ =>
    rw [hsync] at hp
    rw [hwas]
    exact Or.inl (List.mem_cons_of_mem _ hp)
  | apply hwas hsync _ =>
    rw [hwas]
    rcases hsync with hsync | ⟨client, hsync⟩
    · rw [hsync, Sync.unreported_next] at hp
      exact Or.inl hp
    · rw [hsync] at hp
      exact Or.inl hp
  | logout hwas hsync _ =>
    rw [hsync, Sync.unreported_next] at hp
    rw [hwas]
    exact Or.inl hp

/-- The pending copies stay copies of different records. -/
theorem SyncMove.pairwise {cfg : Config} {s s' : State} (h : SyncMove cfg s s')
    (hwf : s.list.Wf) (hp : s.sync.pending.Pairwise fun p p' => p.id ≠ p'.id) :
    s'.sync.pending.Pairwise fun p p' => p.id ≠ p'.id := by
  cases h with
  | kept hsync _ => exact hsync ▸ hp
  | round hsync _ =>
    rcases hsync with hsync | hsync <;> (rw [hsync]; exact List.Pairwise.nil)
  | dup hsync _ _ =>
    rw [hsync, Sync.pending_next]
    exact List.pairwise_map.mpr (hwf.sorted.imp fun hlt => Nat.ne_of_gt hlt)
  | answer code hwas hsync _ =>
    rw [hwas] at hp
    rw [hsync]
    exact hp
  | apply hwas hsync _ =>
    rw [hwas] at hp
    have hrest := (List.pairwise_cons.mp hp).2
    rcases hsync with hsync | ⟨client, hsync⟩
    · rw [hsync, Sync.pending_next]
      exact hrest
    · rw [hsync]
      exact hrest
  | logout hwas hsync _ =>
    rw [hwas] at hp
    rw [hsync, Sync.pending_next]
    exact hp

/-- What holds of the work list: it has copies of different records, and those that have not
    been reported yet have the counters of their records. -/
structure Worklist (s : State) : Prop where
  wf : s.list.Wf
  noHistory : ∀ c ∈ s.list.clients, ∀ dir, c.counters.history dir = 0
  pairwise : s.sync.pending.Pairwise fun p p' => p.id ≠ p'.id
  bound : ∀ p ∈ s.sync.pending, p.id < s.list.clientId
  copies : ∀ p ∈ s.sync.unreported, ∀ c ∈ s.list.clients, c.id = p.id → c.counters = p.counters

theorem Sync.unreported_subset (sync : Sync) : sync.unreported ⊆ sync.pending := by
  cases sync with
  | answered p1 rest code => exact List.subset_cons_self p1 rest
  | _ => exact fun _ h => h

/-- Counters do not change while their copy waits to be reported. -/
theorem Worklist.counters_kept {cfg : Config} {s s' : State} {a : Action} (hw : Worklist s)
    (h : step cfg s a = some s') {p c : Client} (hp : p ∈ s.sync.unreported) (hid : c.id = p.id) :
    (deedOf cfg s a).onCounters c = c.counters := by
  have hclears : (deedOf cfg s a).clears ≠ some c.id := by
    intro hclears
    obtain ⟨now, p1, rest, code, _, hsync, hp1⟩ := deedOf_clears hclears
    have hpairwise := hw.pairwise
    rw [hsync] at hpairwise hp
    exact (List.pairwise_cons.mp hpairwise).1 p hp (hp1.symm.trans hid)
  cases hd : deedOf cfg s a with
  | count c0 counters =>
    -- rows are handled before the work list is made
    obtain ⟨print, dir, ip, counter, now, rfl, _⟩ := deedOf_count hd
    obtain ⟨hcounting, _⟩ := countersRow_cases h
    rw [hcounting] at hp
    cases hp
  | _ =>
    rw [hd] at hclears
    simp only [Deed.onCounters]
    exact if_neg hclears

theorem Worklist.step {cfg : Config} {s s' : State} {a : Action} (hw : Worklist s)
    (h : Wifidog.step cfg s a = some s') : Worklist s' := by
  have hdoes := step_deed h
  have hmove := step_sync h
  have hclientId := (step_effect h).members.1
  refine ⟨(step_effect h).wf hw.wf, ?_, hmove.pairwise hw.wf hw.pairwise, ?_, ?_⟩
  · exact fun c' hc' dir => (step_counters h hc').history hw.noHistory dir
  · intro p hp
    rcases hmove.pending hp with hold | ⟨hlist, c, hc, rfl⟩
    · exact Nat.lt_of_lt_of_le (hw.bound p hold) hclientId
    · rw [hlist]
      exact hw.wf.bound c hc
  · intro p hp c' hc' hid
    rcases hmove.unreported hp with hold | ⟨hlist, c, hc, rfl⟩
    · rw [hdoes.list] at hc'
      have hbound := hw.bound p (s.sync.unreported_subset hold)
      rcases Deed.members hdoes.valid hc' with ⟨now, hnew, _⟩ | ⟨c, hc, hcid, hcounters⟩
      · omega
      · rw [hcounters, hw.counters_kept h hold (hcid.symm.trans hid)]
        exact hw.copies p hold c hc (hcid.symm.trans hid)
    · rw [hlist] at hc'
      obtain rfl : c' = c := hw.wf.id_inj hc' hc hid
      rfl

/-! ## Steps and runs -/

structure Billed (id : Nat) (q : State × List Report) : Prop where
  worklist : Worklist q.1
  logged : ∀ r ∈ q.2, r.id < q.1.list.clientId
  sums : ∀ dir, billed q.2 id dir = (lastReported q.2 id dir).toNat
  listed : ∀ c ∈ q.1.list.clients, c.id = id → Due q.2 id c.counters
  unreported : ∀ p ∈ q.1.sync.unreported, p.id = id → Due q.2 id p.counters

/-- The step in which a report goes out. -/
theorem Billed.report {cfg : Config} {id : Nat} {s : State} {log : List Report} {p1 : Client}
    {rest : List Client} {code : Int} {asked : List AuthRequest} (hb : Billed id (s, log))
    (hsync : s.sync = .working (p1 :: rest)) (hserver : cfg.hasAuthServer = true)
    (hbill : Billable cfg id (s, log) (.syncAnswer code))
    (hw : Worklist { s with sync := .answered p1 rest code, asked := asked }) :
    Billed id ({ s with sync := .answered p1 rest code, asked := asked },
      log ++ [⟨p1.id, p1.counters⟩]) := by
  have hp1 : p1 ∈ s.sync.unreported := by
    rw [hsync]
    exact List.mem_cons_self
  have hrest : ∀ p ∈ rest, p ∈ s.sync.unreported := by
    rw [hsync]
    exact fun p hp => List.mem_cons_of_mem p1 hp
  have hne : ∀ p ∈ rest, p1.id ≠ p.id := (List.pairwise_cons.mp hw.pairwise).1
  refine ⟨hw, ?_, ?_, ?_, ?_⟩
  · intro r hr
    rcases List.mem_append.mp hr with hr | hr
    · exact hb.logged r hr
    · rw [List.mem_singleton.mp hr]
      exact hw.bound p1 List.mem_cons_self
  · intro dir
    by_cases hid : p1.id = id
    · have hnews := hbill.reports ⟨p1.id, p1.counters⟩ (by simp [reportsOf, hsync, hserver]) hid
      rw [hid, lastReported_append_self]
      exact (hb.unreported p1 hp1 hid).billed hnews hb.sums dir
    · rw [billed_append_other log id dir hid, lastReported_append_other log id dir hid]
      exact hb.sums dir
  · intro c hc hcid dir
    by_cases hid : p1.id = id
    · left
      rw [hid, lastReported_append_self,
        hb.worklist.copies p1 hp1 c hc (hcid.trans hid.symm)]
    · rw [lastReported_append_other log id dir hid]
      exact hb.listed c hc hcid dir
  · intro p hp hpid dir
    have hid : p1.id ≠ id := fun heq => hne p hp (heq.trans hpid.symm)
    rw [lastReported_append_other log id dir hid]
    exact hb.unreported p (hrest p hp) hpid dir

theorem Fresh.billed {s : State} (h : Fresh s) (id : Nat) : Billed id (s, []) := by
  have hnobody : s.list.clients = [] := by
    rw [h.list]
    rfl
  refine ⟨⟨h.wf, ?_, ?_, ?_, ?_⟩, by simp, fun dir => rfl, ?_, ?_⟩
  · simp [hnobody]
  · rw [h.sync]
    exact List.Pairwise.nil
  · simp [h.sync, Sync.pending]
  · simp [h.sync, Sync.unreported]
  · simp [hnobody]
  · simp [h.sync, Sync.unreported]

end Wifidog
