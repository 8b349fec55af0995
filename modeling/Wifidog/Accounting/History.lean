/-
  Totals and history.

  The history of a client is what the process it was inherited from had counted. Only
  `get_clients_from_parent` sets it, together with the total. From then on the total is the
  history plus a count of the new rule, so it should never be below the history; then
  `iptables_fw_counters_update` can subtract one from the other.

  A grant in a sync round to a client that has no access clears the totals but not the
  history. This is right for a client without a history (`KeepsHistory`).

  Proved: whatever the bytes are, history and total of a decoded client are equal
  (`decoded_inherited`); so, over restarts, no total is below its history
  (`history_within`), unless an inherited client without access is granted in a sync round
  (`history_exceeds`).
-/
import Wifidog.Accounting.Counters
import Wifidog.Access.Sessions
import Wifidog.Model.Process
import Wifidog.Restart.Restore

namespace Wifidog

open CText Netfilter Runs

/-! ## Decoded clients -/

/-- The totals are those of the parent. -/
def Counters.Inherited (c : Counters) : Prop := ∀ dir, c.history dir = c.total dir

theorem assign_inherited {c : RawClient} (h : c.counters.Inherited) (key value : Text) :
    (c.assign key value).counters.Inherited := by
  unfold RawClient.assign
  repeat' split
  · exact h
  · exact h
  · exact h
  · exact h
  · exact h
  · intro dir
    cases dir with
    | outgoing => exact h .outgoing
    | incoming => rfl
  · intro dir
    cases dir with
    | outgoing => rfl
    | incoming => exact h .incoming
  · exact h
  · exact h

/-- The client that a line has made so far. -/
def LineParse.Inherited (p : LineParse) : Prop := ∀ c ∈ p.client, c.counters.Inherited

theorem applyToken_inherited {p : LineParse} (h : p.Inherited) (buf : Text) :
    (applyToken buf p).Inherited := by
  have hclient : (p.client.getD clientGetNew).counters.Inherited := by
    cases hp : p.client with
    | none =>
      intro dir
      cases dir <;> rfl
    | some c => exact h c hp
  unfold applyToken
  split
  · dsimp only
    split
    · rintro c ⟨⟩
      exact assign_inherited hclient _ _
    · rintro c ⟨⟩
      exact hclient
  · exact h

theorem tokenBody_inherited (token1 : Nat) (buf : Text) (p : LineParse) (h : p.Inherited) :
    (tokenBody token1 buf p).2.Inherited := by
  have hsplit : (splitToken token1 buf p).2.Inherited := by
    unfold splitToken
    split <;> exact h
  exact applyToken_inherited hsplit _

structure Inherit.Inherited (s : Inherit) : Prop where
  parse : s.parse.Inherited
  list : ∀ c ∈ s.list.clients, c.counters.Inherited

theorem endLine_inherited {s : Inherit} (h : s.Inherited) : s.endLine.Inherited := by
  have hparse := strsepLoop_inv (d := '|') LineParse.Inherited tokenBody_inherited
    (s.linebuffer.length + 1) (some 0) s.linebuffer h.parse
  refine ⟨fun c hc => (nomatch hc), ?_⟩
  unfold Inherit.endLine
  dsimp only
  cases hclient : (strsepLoop '|' tokenBody (s.linebuffer.length + 1) (some 0) s.linebuffer
      s.parse).2.client with
  | none => exact h.list
  | some client =>
    intro c hc
    rcases List.mem_cons.mp hc with rfl | hc
    · exact hparse client hclient
    · exact h.list c hc

/-- In a decoded list every history is the total. -/
theorem decoded_inherited {bytes : Text} {l : RawList}
    (h : getClientsFromParent bytes = some l) : ∀ c ∈ l.clients, c.counters.Inherited := by
  obtain ⟨s, hrun, rfl⟩ := Option.map_eq_some_iff.mp h
  have hstart : Inherit.start.Inherited := ⟨fun c hc => (nomatch hc), fun c hc => (nomatch hc)⟩
  refine (run_inv Inherit.Inherited ?_ hstart hrun).list
  intro s c s' hs hstep
  unfold Inherit.readChar at hstep
  dsimp only at hstep
  split at hstep
  · obtain rfl := Option.some.inj hstep
    by_cases hend : (if c = '\n' then '\x00' else c) = '\x00'
    · rw [if_pos hend]
      exact endLine_inherited ⟨hs.parse, hs.list⟩
    · rw [if_neg hend]
      exact ⟨hs.parse, hs.list⟩
  · cases hstep

/-- The clients of a new process. -/
theorem restart_inherited {p p' : Process} {cfg : Config} {getExtIface : Option Text}
    {t : Tables Chain} (h : p.restart cfg getExtIface t = some p') :
    ∀ c ∈ p'.state.list.clients, c.counters.Inherited := by
  obtain ⟨raw, hraw, hl⟩ := Option.bind_eq_some_iff.mp h
  obtain ⟨l, hlist, rfl⟩ := Option.map_eq_some_iff.mp hl
  unfold RawList.clientList? at hlist
  split at hlist
  · obtain rfl := Option.some.inj hlist
    intro c hc
    have hclients : (fwInit cfg getExtIface true t
        ⟨raw.clients.filterMap RawClient.client?, raw.clientId⟩).2.1.clients =
        raw.clients.filterMap RawClient.client? := by
      unfold fwInit
      exact restoreClients_clients _ _
    obtain ⟨r, hr, hrc⟩ := List.mem_filterMap.mp (hclients ▸ hc)
    have hcounters : c.counters = r.counters := by
      unfold RawClient.client? at hrc
      split at hrc
      · obtain rfl := Option.some.inj hrc
        rfl
      · cases hrc
    rw [hcounters]
    exact decoded_inherited hraw r hr
  · cases hlist

/-! ## Totals not below the history -/

def Counters.Within (c : Counters) : Prop := ∀ dir, c.history dir ≤ c.total dir

theorem Counters.Inherited.within {c : Counters} (h : c.Inherited) : c.Within := fun dir => by
  rw [h dir]
  exact UInt64.le_refl _

theorem within_read {c : Counters} (h : c.Within) {dir : Direction} {counter : UInt64}
    (hfits : (c.history dir).toNat + counter.toNat < 2 ^ 64) (now : Int64) :
    (c.read dir counter now).Within := by
  intro dir'
  rw [Counters.history_read]
  by_cases hdir : dir' = dir
  · subst hdir
    by_cases hraised : c.raised dir' counter
    · rw [Counters.total_read_of_raised hraised, UInt64.le_iff_toNat_le, UInt64.toNat_add,
        Nat.mod_eq_of_lt hfits]
      omega
    · rw [Counters.read_of_not_raised hraised]
      exact h dir'
  · rw [(Counters.read_other c dir counter now hdir).1]
    exact h dir'

theorem within_cleared {c : Counters} (h : c.outgoingHistory = 0 ∧ c.incomingHistory = 0) :
    c.cleared.Within := by
  intro dir
  rw [Counters.history_cleared, Counters.total_cleared]
  cases dir with
  | outgoing => exact UInt64.le_of_eq h.1
  | incoming => exact UInt64.le_of_eq h.2

/-- The subtractions of `iptables_fw_counters_update` then do not wrap around. -/
theorem Counters.Within.subtractions {c : Counters} (h : c.Within) (dir : Direction) :
    (c.total dir - c.history dir).toNat = (c.total dir).toNat - (c.history dir).toNat ∧
    ∀ counter, (c.history dir).toNat + counter.toNat < 2 ^ 64 → c.raised dir counter →
      (c.history dir + counter - c.total dir).toNat =
        (c.history dir).toNat + counter.toNat - (c.total dir).toNat := by
  have hsub := UInt64.toNat_sub_of_le _ _ (h dir)
  refine ⟨hsub, fun counter hfits hraised => ?_⟩
  have hlt : (c.total dir).toNat - (c.history dir).toNat < counter.toNat := by
    rw [← hsub]
    exact UInt64.lt_iff_toNat_lt.mp hraised
  have hsum : (c.history dir + counter).toNat = (c.history dir).toNat + counter.toNat := by
    rw [UInt64.toNat_add, Nat.mod_eq_of_lt hfits]
  rw [UInt64.toNat_sub_of_le, hsum]
  rw [UInt64.le_iff_toNat_le, hsum]
  omega

/-! ## Steps and runs -/

/-- The new total of a row is a 64-bit number. -/
def Fits (p : Process) : ProcessAction → Prop
  | .sys a => ∀ r ∈ a.row?, ∀ c ∈ clientListFindByIp p.state.list r.ip,
      (c.counters.history r.dir).toNat + r.counter.toNat < 2 ^ 64
  | .restart _ _ _ => True

/-- A client whose totals the step clears has no history. -/
def KeepsHistory (p : Process) : ProcessAction → Prop
  | .sys a => ∀ id ∈ (deedOf p.cfg p.state a).clears, ∀ c ∈ p.state.list.clients, c.id = id →
      c.counters.outgoingHistory = 0 ∧ c.counters.incomingHistory = 0
  | .restart _ _ _ => True

instance (p : Process) : (a : ProcessAction) → Decidable (Fits p a)
  | .sys a => inferInstanceAs (Decidable (∀ r ∈ a.row?,
      ∀ c ∈ clientListFindByIp p.state.list r.ip,
        (c.counters.history r.dir).toNat + r.counter.toNat < 2 ^ 64))
  | .restart _ _ _ => isTrue trivial

instance (p : Process) : (a : ProcessAction) → Decidable (KeepsHistory p a)
  | .sys a => inferInstanceAs (Decidable (∀ id ∈ (deedOf p.cfg p.state a).clears,
      ∀ c ∈ p.state.list.clients, c.id = id →
        c.counters.outgoingHistory = 0 ∧ c.counters.incomingHistory = 0))
  | .restart _ _ _ => isTrue trivial

def AllWithin (p : Process) : Prop := ∀ c ∈ p.state.list.clients, c.counters.Within

theorem step_within {p : Process} {s : State} {a : Action} (h : AllWithin p)
    (hfits : Fits p (.sys a)) (hkeeps : KeepsHistory p (.sys a))
    (hstep : step p.cfg p.state a = some s) : AllWithin ⟨p.cfg, s⟩ := by
  intro c' hc'
  cases step_counters hstep hc' with
  | fresh _ hcounters =>
    rw [hcounters]
    intro dir
    rw [Counters.history_fresh, Counters.total_fresh]
    exact UInt64.le_refl 0
  | @same c hc _ _ hcounters =>
    rw [hcounters]
    exact h c hc
  | @cleared c hc _ hclears hcounters =>
    rw [hcounters]
    exact within_cleared (hkeeps c.id hclears c hc rfl)
  | @read print dir ip counter now c ha hfind _ hcounters =>
    rw [hcounters]
    refine within_read (h c (mem_of_findByIp hfind).1) (hfits ⟨dir, ip, counter⟩ ?_ c hfind) now
    rw [ha]
    rfl

theorem processStep_within {p p' : Process} {a : ProcessAction} (h : AllWithin p)
    (hfits : Fits p a) (hkeeps : KeepsHistory p a) (hstep : processStep p a = some p') :
    AllWithin p' := by
  cases a with
  | sys a =>
    obtain ⟨s, hs, rfl⟩ := Option.map_eq_some_iff.mp hstep
    exact step_within h hfits hkeeps hs
  | restart cfg getExtIface t => exact fun c hc => (restart_inherited hstep c hc).within

/-- In every state that logins, sync rounds, logouts and restarts lead to, no client's total is
    below its history, and the subtractions of `iptables_fw_counters_update` do not wrap
    around, as long as totals are 64-bit numbers and only clients without a history get their
    totals cleared. -/
theorem history_within {p0 p : Process} {as : List ProcessAction} (h0 : Fresh p0.state)
    (hrun : run processStep p0 as = some p) (hfits : Along processStep Fits p0 as)
    (hkeeps : Along processStep KeepsHistory p0 as) :
    ∀ c ∈ p.state.list.clients,
      c.counters.incomingHistory ≤ c.counters.incoming ∧
      c.counters.outgoingHistory ≤ c.counters.outgoing ∧
      ∀ dir, (c.counters.total dir - c.counters.history dir).toNat =
          (c.counters.total dir).toNat - (c.counters.history dir).toNat ∧
        ∀ counter, (c.counters.history dir).toNat + counter.toNat < 2 ^ 64 →
          c.counters.raised dir counter →
          (c.counters.history dir + counter - c.counters.total dir).toNat =
            (c.counters.history dir).toNat + counter.toNat - (c.counters.total dir).toNat := by
  have hstart : AllWithin p0 := by
    intro c hc
    rw [h0.list] at hc
    cases hc
  have hall : AllWithin p :=
    run_inv_along AllWithin (fun _ _ _ h hp hs => processStep_within h hp.1 hp.2 hs) hstart
      (along_and hfits hkeeps) hrun
  intro c hc
  have hwithin := hall c hc
  exact ⟨hwithin .incoming, hwithin .outgoing, hwithin.subtractions⟩

/-! ## A client that was revoked before the restart -/

def smallProcess : Process := ⟨smallConfig, smallStart⟩

def processRun (as : List ProcessAction) : Process :=
  (run processStep smallProcess as).getD smallProcess

/-- A client logs in and sends 100 bytes. -/
def smallTraffic : List Action :=
  smallLogin ++ [.syncStart, .countersRow (fun _ => []) .outgoing smallIp 100 1]

/-- Then the process is restarted and counts 20 more. -/
def inheritedRun : List ProcessAction :=
  smallTraffic.map .sys ++ [.restart smallConfig none builtinTables] ++
    [.sys .syncStart, .sys (.countersRow (fun _ => []) .outgoing smallIp 20 2)]

theorem history_within_small :
    ∃ c ∈ (processRun inheritedRun).state.list.clients,
      c.counters.outgoing = 120 ∧ c.counters.outgoingHistory ≤ c.counters.outgoing := by
  -- one evaluation of the run for all three, since reading the lines takes long
  obtain ⟨hrun, ⟨hfits, hkeeps⟩, c, hc, htotal⟩ :
      run processStep smallProcess inheritedRun = some (processRun inheritedRun) ∧
      (Along processStep Fits smallProcess inheritedRun ∧
        Along processStep KeepsHistory smallProcess inheritedRun) ∧
      ∃ c ∈ (processRun inheritedRun).state.list.clients, c.counters.outgoing = 120 := by
    decide +kernel
  exact ⟨c, hc, htotal, (history_within smallStart_fresh hrun hfits hkeeps c hc).2.1⟩

/-- Instead, the client is denied its next login and stays listed; after a restart a sync round
    grants it access. -/
def revokedRun : List ProcessAction :=
  (smallTraffic ++ loginActions smallIp smallMac "t".toList authDenied).map .sys ++
    [.restart smallConfig none builtinTables] ++
    [.sys .syncStart, .sys .syncDup, .sys (.syncAnswer authAllowed), .sys (.syncApply 2)]

theorem history_exceeds :
    Fresh smallProcess.state ∧
    run processStep smallProcess revokedRun = some (processRun revokedRun) ∧
    Along processStep Fits smallProcess revokedRun ∧
    ∃ c ∈ (processRun revokedRun).state.list.clients,
      c.counters.outgoing = 0 ∧ c.counters.outgoingHistory = 100 := by
  refine ⟨smallStart_fresh, ?_⟩
  decide +kernel

end Wifidog
