/-
  The bookkeeping invariant of the metered gateway.

  `Kept` says that the ledgers are what they are meant to be: their rules are the chains of
  the system, meters have numbers of their own, the owner of a meter is a session that existed
  and whose address the rule is for, and a count that was read was counted. Every row that is
  left of a listing is the count of a meter, not below the last count read from it.

  Every deed keeps it (`Performs.kept`), and so does changing counts (`Kept.update`); from the
  two, every step and every run (`run_kept`).
-/
import Wifidog.Access.Threads
import Wifidog.Accounting.Metered

namespace Wifidog

open CText Netfilter Runs Meters

structure MeterOk (l : ClientList) (serial : Nat) (k : Meter (Rule Chain)) : Prop where
  serial : k.serial < serial
  owner : k.owner < l.clientId
  address : ∀ c ∈ l.clients, c.id = k.owner → c.ip = listedIp k.rule
  read : k.read ≤ k.bytes

/-- The row shows a count of the meter. -/
structure RowOf (k : Meter (Rule Chain)) (r : Row) : Prop where
  serial : k.serial = r.serial
  ip : listedIp k.rule = r.ip
  read : k.read ≤ r.counter
  bytes : r.counter ≤ k.bytes

structure Kept (m : Metered) : Prop where
  wf : m.sys.list.Wf
  chains : ∀ dir, m.sys.tables.view .mangle dir.chain = some (m.ledger dir).rules
  meters : ∀ dir, ∀ k ∈ (m.ledger dir).all, MeterOk m.sys.list m.serial k
  serials : ∀ dir, (m.ledger dir).all.Pairwise fun k k' => k.serial ≠ k'.serial
  rows : ∀ r ∈ m.rows, ∃ k ∈ (m.ledger r.dir).all, RowOf k r
  distinct : m.rows.Pairwise fun r r' => r.serial ≠ r'.serial

/-! ## Deeds -/

section Performs
variable {cfg : Config} {m m' : Metered} {a : Action}

/-- A record of the new list with an old id has the address it had. -/
theorem Performs.address (h : Performs cfg m a m') {d : Client} (hd : d ∈ m'.sys.list.clients)
    (hid : d.id < m.sys.list.clientId) : ∃ e ∈ m.sys.list.clients, e.id = d.id ∧ e.ip = d.ip := by
  rcases (step_effect h.step).members.2 d hd with hnew | ⟨e, he, h1, h2, _⟩
  · omega
  · exact ⟨e, he, h1, h2⟩

theorem Performs.meters (h : Performs cfg m a m') (hk : Kept m) (dir : Direction)
    {k : Meter (Rule Chain)} (hmem : k ∈ (m'.ledger dir).all) :
    MeterOk m'.sys.list m'.serial k := by
  have hclientId := (step_effect h.step).members.1
  rw [h.ledger] at hmem
  rcases Deed.mem_onLedger hmem with ⟨c, token, mark, cleared, hdeed, rfl⟩ | ⟨k', hk', rfl⟩
  · have hc : c ∈ m.sys.list.clients := by
      have hvalid := (step_deed h.step).valid
      rw [hdeed] at hvalid
      exact hvalid.member c rfl
    have hbound := hk.wf.bound c hc
    refine ⟨by rw [h.serial]; exact Nat.lt_succ_self _, Nat.lt_of_lt_of_le hbound hclientId, ?_,
      UInt64.le_refl 0⟩
    intro d hd hid
    obtain ⟨e, he, heid, heip⟩ := h.address hd (hid ▸ hbound)
    obtain rfl : e = c := hk.wf.id_inj he hc (heid.trans hid)
    rw [listedIp_ruleFor, heip]
  · have hold := hk.meters dir k' hk'
    refine ⟨?_, ?_, ?_, by simpa using hold.read⟩
    · rw [Deed.onMeter_serial, h.serial]
      exact Nat.lt_succ_of_lt hold.serial
    · rw [Deed.onMeter_owner]
      exact Nat.lt_of_lt_of_le hold.owner hclientId
    · rw [Deed.onMeter_owner, Deed.onMeter_rule]
      intro d hd hid
      obtain ⟨e, he, heid, heip⟩ := h.address hd (hid ▸ hold.owner)
      rw [← heip]
      exact hold.address e he (heid.trans hid)

theorem Performs.serials (h : Performs cfg m a m') (hk : Kept m) (dir : Direction) :
    (m'.ledger dir).all.Pairwise fun k k' => k.serial ≠ k'.serial := by
  rw [h.ledger, (Deed.all_onLedger _ dir m.serial _).pairwise_iff fun hne => hne.symm]
  have hold : ((m.ledger dir).all.map (deedOf cfg m.sys a).onMeter).Pairwise
      fun k k' => k.serial ≠ k'.serial := by
    refine List.pairwise_map.mpr ((hk.serials dir).imp fun hne => ?_)
    rw [Deed.onMeter_serial, Deed.onMeter_serial]
    exact hne
  cases hd : (deedOf cfg m.sys a).installed dir m.serial with
  | none => simpa using hold
  | some k =>
    have hserial : k.serial = m.serial := by
      revert hd
      cases deedOf cfg m.sys a <;> simp [Deed.installed]
      rintro rfl
      rfl
    refine List.pairwise_cons.mpr ⟨fun k' hk' => ?_, hold⟩
    obtain ⟨k0, hk0, rfl⟩ := List.mem_map.mp hk'
    rw [hserial, Deed.onMeter_serial]
    exact Nat.ne_of_gt (hk.meters dir k0 hk0).serial

theorem Performs.kept (h : Performs cfg m a m') (hk : Kept m) : Kept m' where
  wf := (step_effect h.step).wf hk.wf
  chains dir := by
    rw [h.ledger, (step_deed h.step).tables]
    exact Deed.rules_onLedger _ dir m.serial (hk.chains dir)
  meters dir _ hmem := h.meters hk dir hmem
  serials := h.serials hk
  rows r hr := by
    rw [h.rows] at hr
    obtain ⟨k, hmem, hrow⟩ := hk.rows r hr
    refine ⟨(deedOf cfg m.sys a).onMeter k, ?_, ?_⟩
    · rw [h.ledger, (Deed.all_onLedger _ r.dir m.serial _).mem_iff]
      exact List.mem_append_right _ (List.mem_map_of_mem hmem)
    · exact ⟨by simpa using hrow.serial, by simpa using hrow.ip, by simpa using hrow.read,
        by simpa using hrow.bytes⟩
  distinct := by
    rw [h.rows]
    exact hk.distinct

end Performs

/-! ## Counts -/

/-- A change of counts: numbers, owners and rules stay, and the rows that are left still show
    counts of their meters. -/
structure CountChange (m : Metered) (dir : Direction) (rows : List Row)
    (f : Meter (Rule Chain) → Meter (Rule Chain)) : Prop where
  serial : ∀ k, (f k).serial = k.serial
  owner : ∀ k, (f k).owner = k.owner
  rule : ∀ k, (f k).rule = k.rule
  read : ∀ k ∈ (m.ledger dir).all, k.read ≤ k.bytes → (f k).read ≤ (f k).bytes
  row : ∀ r ∈ rows, r.dir = dir → ∀ k ∈ (m.ledger dir).all, RowOf k r → RowOf (f k) r

theorem Kept.update {m : Metered} (hk : Kept m) {dir : Direction} {rows : List Row}
    {f : Meter (Rule Chain) → Meter (Rule Chain)} (hf : CountChange m dir rows f)
    (hsub : rows.Sublist m.rows) :
    Kept ({ m with rows := rows }.setLedger dir ((m.ledger dir).update f)) where
  wf := by simpa using hk.wf
  chains dir' := by
    rw [sys_setLedger, ledger_setLedger]
    split
    · next heq =>
      rw [rules_update _ hf.rule, ← heq]
      exact hk.chains dir'
    · exact hk.chains dir'
  meters dir' k hmem := by
    rw [sys_setLedger, serial_setLedger]
    rw [ledger_setLedger] at hmem
    split at hmem
    · rw [all_update] at hmem
      obtain ⟨k0, hk0, rfl⟩ := List.mem_map.mp hmem
      have hold := hk.meters dir k0 hk0
      refine ⟨?_, ?_, ?_, hf.read k0 hk0 hold.read⟩
      · rw [hf.serial]
        exact hold.serial
      · rw [hf.owner]
        exact hold.owner
      · rw [hf.owner, hf.rule]
        exact hold.address
    · exact hk.meters dir' k hmem
  serials dir' := by
    rw [ledger_setLedger]
    split
    · rw [all_update]
      refine List.pairwise_map.mpr ((hk.serials dir).imp fun hne => ?_)
      rw [hf.serial, hf.serial]
      exact hne
    · exact hk.serials dir'
  rows r hr := by
    rw [rows_setLedger] at hr
    obtain ⟨k, hmem, hrow⟩ := hk.rows r (hsub.subset hr)
    rw [ledger_setLedger]
    split
    · next heq =>
      rw [all_update]
      rw [heq] at hmem
      exact ⟨f k, List.mem_map_of_mem hmem, hf.row r hr heq k hmem hrow⟩
    · exact ⟨k, hmem, hrow⟩
  distinct := by
    rw [rows_setLedger]
    exact hk.distinct.sublist hsub

theorem kept_traffic {m : Metered} (hk : Kept m) {dir : Direction} {k : Meter (Rule Chain)}
    {n : UInt64} (hmem : k ∈ (m.ledger dir).chain) (hn : k.bytes ≤ k.bytes + n) :
    Kept (m.setLedger dir ((m.ledger dir).traffic k.serial n)) := by
  -- the meter that counts is `k` itself
  have hself : ∀ k' ∈ (m.ledger dir).all, k'.serial = k.serial → k' = k := fun k' hk' heq =>
    serial_inj (hk.serials dir) hk' (List.mem_append_left _ hmem) heq
  refine hk.update ⟨?_, ?_, ?_, ?_, ?_⟩ (List.Sublist.refl m.rows)
  · intro k'
    split <;> rfl
  · intro k'
    split <;> rfl
  · intro k'
    split <;> rfl
  · intro k' hk' hread
    split
    · next heq =>
      rw [hself k' hk' heq] at hread ⊢
      exact UInt64.le_trans hread hn
    · exact hread
  · intro r hr hdir k' hk' hrow
    split
    · next heq =>
      have hbytes : k'.bytes ≤ k'.bytes + n := by
        rw [hself k' hk' heq]
        exact hn
      exact ⟨hrow.serial, hrow.ip, hrow.read, UInt64.le_trans hrow.bytes hbytes⟩
    · exact hrow

theorem kept_setRead {m : Metered} (hk : Kept m) {r : Row} {rows : List Row}
    (hrows : m.rows = r :: rows) :
    Kept ({ m with rows := rows }.setLedger r.dir
      ((m.ledger r.dir).setRead r.serial r.counter)) := by
  have hdistinct := hk.distinct
  rw [hrows] at hdistinct
  obtain ⟨hne, _⟩ := List.pairwise_cons.mp hdistinct
  obtain ⟨k, hmem, hrow⟩ := hk.rows r (by rw [hrows]; exact List.mem_cons_self)
  refine hk.update ⟨?_, ?_, ?_, ?_, ?_⟩ (by rw [hrows]; exact List.sublist_cons_self r rows)
  · intro k'
    split <;> rfl
  · intro k'
    split <;> rfl
  · intro k'
    split <;> rfl
  · intro k' hk' hread
    split
    · next heq =>
      obtain rfl : k' = k := serial_inj (hk.serials r.dir) hk' hmem (heq.trans hrow.serial.symm)
      exact hrow.bytes
    · exact hread
  · intro r' hr' _ k' hk' hrow'
    split
    · next heq => exact absurd (heq.symm.trans hrow'.serial) (hne r' hr')
    · exact hrow'

/-! ## Steps and runs -/

theorem kept_listing {m : Metered} (hk : Kept m) (dir : Direction) :
    Kept { m with rows := (m.ledger dir).chain.map (rowOf dir) } where
  wf := hk.wf
  chains := hk.chains
  meters := hk.meters
  serials := hk.serials
  rows r hr := by
    obtain ⟨k, hmem, rfl⟩ := List.mem_map.mp hr
    have hall : k ∈ (m.ledger dir).all := List.mem_append_left _ hmem
    exact ⟨k, hall, rfl, rfl, (hk.meters dir k hall).read, UInt64.le_refl _⟩
  distinct := by
    refine List.pairwise_map.mpr ?_
    exact (hk.serials dir).sublist (List.sublist_append_left _ _)

theorem meterStep_kept {cfg : Config} {m m' : Metered} {a : MeterAction}
    (h : meterStep cfg m a = some m') (hk : Kept m) : Kept m' := by
  cases meterStep_moved h with
  | sys _ h => exact h.kept hk
  | traffic hmem hn => exact kept_traffic hk hmem hn
  | listing _ _ => exact kept_listing hk _
  | @row print now r m' h =>
    obtain ⟨m1, hm1, heq⟩ := h.performs
    rw [heq]
    exact kept_setRead (hm1.kept hk) (hm1.rows.trans h.rows)

theorem FreshMetered.kept {m : Metered} (h : FreshMetered m) : Kept m := by
  have hledger : ∀ dir, m.ledger dir = .empty := by
    intro dir
    cases dir with
    | outgoing => exact h.outgoing
    | incoming => exact h.incoming
  refine ⟨h.sys.wf, fun dir => ?_, ?_, ?_, by simp [h.rows], by simp [h.rows]⟩
  · rw [hledger]
    cases dir with
    | outgoing => exact h.sys.outgoing
    | incoming => exact h.sys.incoming
  · intro dir k hk
    rw [hledger] at hk
    cases hk
  · intro dir
    rw [hledger]
    exact List.Pairwise.nil

theorem run_kept {cfg : Config} {m m' : Metered} {as : List MeterAction} (h : Kept m)
    (hrun : run (meterStep cfg) m as = some m') : Kept m' :=
  run_inv Kept (fun _ _ _ hk hs => meterStep_kept hs hk) h hrun

end Wifidog
