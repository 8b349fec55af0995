/-
  The life of a session.

  A session is the time a record is in the client list; its name is the record's id. Every
  thread that waits for the network holds only a copy and looks its record up again by id
  afterwards. `run_members` says what that lookup can find: an id that is below the next id
  and not in the list never comes back.

  `eventsOf` names what a step does to sessions: it touches one (`fw_allow`, `fw_deny`, a new
  token, new counters), takes one out of the list, or its report of a logout returns. `Ended`
  is the invariant of the record of these events: a session that was taken out is not in the
  list, was taken out once, was not touched after it, and every report of a logout, returned
  or still waited for, belongs to a session that was taken out.

  Proved: `session_identity` and `session_ends_once`.
-/
import Wifidog.Access.Deeds
import Wifidog.Access.Threads

namespace Wifidog

open CText Netfilter Runs

/-! ## Members of the list through a run -/

/-- The list of `s'` may have come from that of `s`: whatever it has is new or was there, under
    the same id, ip and mac. -/
structure Descends (s s' : State) : Prop where
  clientId : s.list.clientId ≤ s'.list.clientId
  members : ∀ d ∈ s'.list.clients, s.list.clientId ≤ d.id ∨
    ∃ e ∈ s.list.clients, e.id = d.id ∧ e.ip = d.ip ∧ e.mac = d.mac

theorem Descends.refl (s : State) : Descends s s :=
  ⟨Nat.le_refl _, fun d hd => Or.inr ⟨d, hd, rfl, rfl, rfl⟩⟩

theorem Descends.step {cfg : Config} {s s' s'' : State} {a : Action} (h : Descends s s')
    (hstep : step cfg s' a = some s'') : Descends s s'' := by
  obtain ⟨hid, hmem⟩ := (step_effect hstep).members
  refine ⟨Nat.le_trans h.clientId hid, fun d hd => ?_⟩
  rcases hmem d hd with hnew | ⟨e, he, h1, h2, h3⟩
  · exact Or.inl (Nat.le_trans h.clientId hnew)
  · rcases h.members e he with hnew | ⟨f, hf, g1, g2, g3⟩
    · exact Or.inl (h1 ▸ hnew)
    · exact Or.inr ⟨f, hf, g1.trans h1, g2.trans h2, g3.trans h3⟩

theorem run_members {cfg : Config} {s s' : State} {as : List Action}
    (hrun : run (step cfg) s as = some s') : Descends s s' :=
  run_inv (Descends s) (fun _ _ _ h hs => h.step hs) (Descends.refl s) hrun

/-- Session identity: in every reachable state the ids decrease strictly from the head and are
    below the next id, and no two records share ip and mac. Looking up a copy taken in an
    earlier state finds nothing, or the record that was copied, with the same ip and mac,
    which was in the list all the time in between. -/
theorem session_identity (cfg : Config) {s0 s1 s2 : State} {as bs : List Action} (h0 : Fresh s0)
    (h1 : run (step cfg) s0 as = some s1) (h2 : run (step cfg) s1 bs = some s2) :
    s2.list.Wf ∧
    ∀ c ∈ s1.list.clients,
      clientListFindByClient s2.list (clientDup c) = none ∨
      ∃ d, clientListFindByClient s2.list (clientDup c) = some d ∧
        d.id = c.id ∧ d.ip = c.ip ∧ d.mac = c.mac ∧
        ∀ bs1 bs2 s, bs = bs1 ++ bs2 → run (step cfg) s1 bs1 = some s →
          ∃ e ∈ s.list.clients, e.id = c.id ∧ e.ip = c.ip ∧ e.mac = c.mac := by
  have hwf1 : s1.list.Wf := run_wf h0.wf h1
  refine ⟨run_wf hwf1 h2, fun c hc => ?_⟩
  cases hf : clientListFindByClient s2.list (clientDup c) with
  | none => exact Or.inl rfl
  | some d =>
    obtain ⟨hd, hid⟩ : d ∈ s2.list.clients ∧ d.id = c.id := mem_of_findByClient hf
    have hold : d.id < s1.list.clientId := hid ▸ hwf1.bound c hc
    obtain ⟨hip, hmac⟩ : d.ip = c.ip ∧ d.mac = c.mac := by
      rcases (run_members h2).members d hd with hnew | ⟨e, he, g1, g2, g3⟩
      · omega
      · obtain rfl : e = c := hwf1.id_inj he hc (g1.trans hid)
        exact ⟨g2.symm, g3.symm⟩
    refine Or.inr ⟨d, rfl, hid, hip, hmac, ?_⟩
    rintro bs1 bs2 s rfl hs
    obtain ⟨s', hs', hrest⟩ := run_append_iff.mp h2
    obtain rfl : s' = s := Option.some.inj (hs'.symm.trans hs)
    have hnext : s1.list.clientId ≤ s'.list.clientId := (run_members hs).clientId
    rcases (run_members hrest).members d hd with hnew | ⟨e, he, g1, g2, g3⟩
    · omega
    · exact ⟨e, he, g1.trans hid, g2.trans hip, g3.trans hmac⟩

/-- The record of the client of `smallLogin`. -/
def smallClient : Client := ⟨1, smallIp, smallMac, "t".toList, fwMarkKnown, 0, .fresh 0⟩

/-- Another client of the same address. -/
def otherMac : Text := "00:16:3e:00:00:0b".toList

/-- A client logs in, another one with the same address after it. -/
theorem session_identity_small :
    (smallRun (smallLogin ++ loginActions smallIp otherMac "u".toList authAllowed)).list.Wf ∧
    ∃ d, clientListFindByClient
        (smallRun (smallLogin ++ loginActions smallIp otherMac "u".toList authAllowed)).list
        (clientDup smallClient) = some d ∧ d.mac = smallMac := by
  have h1 : run (step smallConfig) smallStart smallLogin = some (smallRun smallLogin) := rfl
  have h2 : run (step smallConfig) (smallRun smallLogin)
      (loginActions smallIp otherMac "u".toList authAllowed) =
      some (smallRun (smallLogin ++ loginActions smallIp otherMac "u".toList authAllowed)) := rfl
  have hmem : smallClient ∈ (smallRun smallLogin).list.clients := by decide +kernel
  obtain ⟨hwf, hcopies⟩ := session_identity smallConfig smallStart_fresh h1 h2
  refine ⟨hwf, ?_⟩
  rcases hcopies smallClient hmem with hnone | ⟨d, hd, _, _, hmac, _⟩
  · exact absurd hnone (by decide +kernel)
  · exact ⟨d, hd, hmac⟩

/-! ## What happens to sessions -/

inductive SessionEvent where
  /-- `fw_allow` or `fw_deny` is called for the session, or its token or counters are written -/
  | touched (id : Nat)
  /-- the record is taken out of the list -/
  | removed (id : Nat)
  /-- a request with `stage=logout` returns -/
  | reported (id : Nat)
  deriving DecidableEq, Repr

/-- What the deed does to sessions; `logout_client` and the denial in a sync round call
    `fw_deny` before they take the record out. -/
def Deed.events : Deed → List SessionEvent
  | .remove c => [.touched c.id, .removed c.id]
  | d => d.client?.toList.map fun c => .touched c.id

/-- The session whose logout report returns with this step. -/
def reportOf (s : State) : Action → Option Nat
  | .logoutAnswer i _ =>
    match s.threads[i]? with
    | some (.loggingOut client) => some client.id
    | _ => none
  | .syncLogoutAnswer _ =>
    match s.sync with
    | .loggingOut client _ => some client.id
    | _ => none
  | _ => none

def eventsOf (cfg : Config) (s : State) (a : Action) : List SessionEvent :=
  (deedOf cfg s a).events ++ (reportOf s a).toList.map .reported

/-- The thread waits for the answer to its report of the logout of `id`. -/
def Thread.waitsFor (id : Nat) : Thread → Bool
  | .loggingOut client => client.id == id
  | _ => false

def Sync.waitsFor (id : Nat) : Sync → Bool
  | .loggingOut client _ => client.id == id
  | _ => false

/-- How many reports of the logout of `id` are under way. -/
def State.waiting (s : State) (id : Nat) : Nat :=
  s.threads.countP (Thread.waitsFor id) + if s.sync.waitsFor id then 1 else 0

/-! ## Reports under way -/

@[simp] theorem Sync.waitsFor_next (id : Nat) (w : List Client) :
    (Sync.next w).waitsFor id = false := by
  cases w <;> rfl

/-- The sync thread moves between points where it waits for nothing. -/
theorem waiting_congr {s s' : State} {id : Nat} (hthreads : s'.threads = s.threads)
    (hs : s.sync.waitsFor id = false) (hs' : s'.sync.waitsFor id = false) :
    s'.waiting id = s.waiting id := by
  unfold State.waiting
  rw [hthreads, hs, hs']

theorem countP_eraseIdx {p : Thread → Bool} {l : List Thread} {i : Nat} {th : Thread}
    (h : l[i]? = some th) : l.countP p = (l.eraseIdx i).countP p + if p th then 1 else 0 := by
  obtain ⟨hi, rfl⟩ := List.getElem?_eq_some_iff.mp h
  conv_lhs => rw [← List.take_append_drop i l, List.drop_eq_getElem_cons hi]
  rw [List.eraseIdx_eq_take_drop_succ, List.countP_append, List.countP_append, List.countP_cons]
  omega

theorem countP_set_of_not {p : Thread → Bool} {l : List Thread} {i : Nat} {th th' : Thread}
    (h : l[i]? = some th) (hp : p th = false) (hp' : p th' = false) :
    (l.set i th').countP p = l.countP p := by
  obtain ⟨hi, rfl⟩ := List.getElem?_eq_some_iff.mp h
  rw [List.countP_set hi]
  simp [hp, hp']

/-- A session's share of the removals of a deed. -/
theorem count_removed (d : Deed) (id : Nat) :
    d.events.count (.removed id) = match d with
      | .remove c => if c.id = id then 1 else 0
      | _ => 0 := by
  cases d with
  | remove c => simp [Deed.events, List.count_cons]
  | _ => simp [Deed.events, Deed.client?]

theorem count_reported (d : Deed) (id : Nat) : d.events.count (.reported id) = 0 := by
  cases d <;> simp [Deed.events, Deed.client?]

theorem logoutHandler_waiting (cfg : Config) (s : State) (c : Client) (id : Nat) :
    (s.logoutHandler cfg c).waiting id ≤ s.waiting id + if c.id = id then 1 else 0 := by
  unfold State.logoutHandler State.waiting
  dsimp only [logoutClient, fwDeny]
  split
  · simp only [List.countP_append, List.countP_cons, List.countP_nil, Thread.waitsFor, beq_iff_eq]
    omega
  · omega

theorem httpCallbackAuth_waiting (cfg : Config) (s : State) (addr : Text) (arp token : Option Text)
    (logout : Bool) (now : Int64) (id : Nat) :
    (httpCallbackAuth cfg s addr arp token logout now).waiting id ≤ s.waiting id +
      (deedOf cfg s (.httpCallbackAuth addr arp token logout now)).events.count (.removed id) := by
  have hlogin : ∀ (s : State) (mac token : Text),
      ({ s with threads := s.threads ++ [Thread.authenticate addr mac token] } : State).waiting id =
        s.waiting id := by
    intro s mac token
    simp [State.waiting, Thread.waitsFor]
  unfold httpCallbackAuth
  split
  · next token mac =>
    cases hf : clientListFind s.list addr mac with
    | none =>
      cases logout with
      | false =>
        have hadd := hlogin { s with list := clientListAdd s.list addr mac token now } mac token
        exact Nat.le_trans (Nat.le_of_eq hadd) (Nat.le_add_right _ _)
      | true => exact Nat.le_add_right _ _
    | some client =>
      cases logout with
      | false => exact Nat.le_trans (Nat.le_of_eq (hlogin s mac token)) (Nat.le_add_right _ _)
      | true =>
        simp only [deedOf, hf, if_true, count_removed]
        exact logoutHandler_waiting cfg s client id
  · exact Nat.le_add_right _ _

theorem httpCallbackDisconnect_waiting (cfg : Config) (s : State) (mac token : Option Text)
    (user pass : Text) (id : Nat) :
    (httpCallbackDisconnect cfg s mac token user pass).waiting id ≤ s.waiting id +
      (deedOf cfg s (.httpCallbackDisconnect mac token user pass)).events.count (.removed id) := by
  unfold httpCallbackDisconnect
  split
  · exact Nat.le_add_right _ _
  · next hauth =>
    split
    · next token mac =>
      cases hf : clientListFindByMac s.list mac with
      | none => exact Nat.le_add_right _ _
      | some client =>
        dsimp only
        split
        · exact Nat.le_add_right _ _
        · next htok =>
          simp only [deedOf, if_neg hauth, hf, if_neg htok, count_removed]
          exact logoutHandler_waiting cfg s client id
    · exact Nat.le_add_right _ _

theorem wdctlReset_waiting (cfg : Config) (s : State) (arg : Text) (id : Nat) :
    (wdctlReset cfg s arg).waiting id ≤ s.waiting id +
      (deedOf cfg s (.wdctlReset arg)).events.count (.removed id) := by
  unfold wdctlReset
  split
  · exact Nat.le_add_right _ _
  · next node hf =>
    simp only [deedOf, hf, count_removed]
    exact logoutHandler_waiting cfg s node id

/-- A thread that waits for nothing ends. -/
theorem waiting_eraseIdx {s s' : State} {i id : Nat} {th : Thread} (hth : s.threads[i]? = some th)
    (hno : th.waitsFor id = false) (hthreads : s'.threads = s.threads.eraseIdx i)
    (hsync : s'.sync = s.sync) : s'.waiting id = s.waiting id := by
  have hcount := @countP_eraseIdx (Thread.waitsFor id) _ _ _ hth
  simp only [hno, Bool.false_eq_true, if_false, Nat.add_zero] at hcount
  rw [State.waiting, State.waiting, hthreads, hsync, hcount]

/-- A thread goes on, and waits for nothing before and after. -/
theorem waiting_set {s s' : State} {i id : Nat} {th th' : Thread} (hth : s.threads[i]? = some th)
    (hno : th.waitsFor id = false) (hno' : th'.waitsFor id = false)
    (hthreads : s'.threads = s.threads.set i th') (hsync : s'.sync = s.sync) :
    s'.waiting id = s.waiting id := by
  rw [State.waiting, State.waiting, hthreads, hsync, countP_set_of_not hth hno hno']

theorem authenticateLookup_waiting {s s' : State} {i : Nat} (h : authenticateLookup s i = some s')
    (id : Nat) : s'.waiting id = s.waiting id := by
  obtain ⟨_, _, _, hth, ⟨_, rfl⟩ | ⟨_, _, rfl⟩⟩ := authenticateLookup_cases h
  · exact waiting_eraseIdx hth rfl rfl rfl
  · exact waiting_set hth rfl rfl rfl rfl

/-- The report returns, and its thread ends. -/
theorem logoutAnswer_waiting {s s' : State} {i : Nat} {code : Int}
    (h : logoutAnswer s i code = some s') (id : Nat) :
    s'.waiting id + (reportOf s (.logoutAnswer i code)).toList.count id = s.waiting id := by
  obtain ⟨client, hth, rfl⟩ := logoutAnswer_cases h
  have hcount := @countP_eraseIdx (Thread.waitsFor id) _ _ _ hth
  simp only [reportOf, hth, State.waiting, hcount, Thread.waitsFor]
  by_cases hid : client.id = id
  · simp only [hid, beq_self_eq_true, if_true, Option.toList, List.count_singleton]
    omega
  · simp [hid]

theorem syncApply_waiting {cfg : Config} {s s' : State} {now : Int64}
    (h : syncApply cfg s now = some s') (id : Nat) :
    s'.waiting id ≤ s.waiting id + (deedOf cfg s (.syncApply now)).events.count (.removed id) := by
  obtain ⟨p1, rest, code, hsync, ⟨hf, rfl⟩ |
    ⟨tmp, hf, ⟨ht, rfl⟩ | ⟨ht, hs, rfl⟩ | ⟨ht, hs, rfl⟩⟩⟩ := syncApply_cases h
  case inr.inl =>
    -- the client is logged out, and the sync thread sends the report itself
    simp only [deedOf, hsync, hf, ht, if_true, count_removed, State.waiting]
    by_cases hs : cfg.hasAuthServer = true
    · simp [hs, Sync.waitsFor, logoutClient]
    · simp only [if_neg hs, Sync.waitsFor_next, Bool.false_eq_true, if_false]
      omega
  all_goals
    apply Nat.le_add_right_of_le
    apply Nat.le_of_eq
    exact waiting_congr rfl (by rw [hsync]; rfl) (Sync.waitsFor_next _ _)

theorem count_reported_eventsOf (cfg : Config) (s : State) (a : Action) (id : Nat) :
    (eventsOf cfg s a).count (.reported id) = (reportOf s a).toList.count id := by
  unfold eventsOf
  rw [List.count_append, count_reported, Nat.zero_add]
  cases reportOf s a <;> simp [List.count_cons]

theorem count_removed_eventsOf (cfg : Config) (s : State) (a : Action) (id : Nat) :
    (eventsOf cfg s a).count (.removed id) = (deedOf cfg s a).events.count (.removed id) := by
  unfold eventsOf
  rw [List.count_append]
  cases reportOf s a <;> simp

/-- A report is under way only for a session that was taken out. -/
theorem step_waiting {cfg : Config} {s s' : State} {a : Action} (h : step cfg s a = some s')
    (id : Nat) :
    s'.waiting id + (eventsOf cfg s a).count (.reported id) ≤
      s.waiting id + (eventsOf cfg s a).count (.removed id) := by
  rw [count_reported_eventsOf, count_removed_eventsOf]
  -- a step that reports nothing and leaves the waiting threads alone
  have hsame : reportOf s a = none → s'.waiting id = s.waiting id →
      s'.waiting id + (reportOf s a).toList.count id ≤
        s.waiting id + (deedOf cfg s a).events.count (.removed id) := by
    intro hnone hwait
    rw [hnone, hwait]
    exact Nat.le_add_right _ _
  cases a with
  | httpCallbackAuth addr arp token logout now =>
    obtain rfl := Option.some.inj h
    exact httpCallbackAuth_waiting cfg s addr arp token logout now id
  | authenticateLookup i => exact hsame rfl (authenticateLookup_waiting h id)
  | authenticateAnswer i code =>
    obtain ⟨_, _, _, _, hth, rfl⟩ := authenticateAnswer_cases h
    exact hsame rfl (waiting_set hth rfl rfl rfl rfl)
  | authenticateApply i =>
    obtain ⟨addr, mac, client, token, code, hth, ⟨_, rfl⟩ | ⟨tmp, _, rfl⟩⟩ :=
      authenticateApply_cases h <;>
      exact hsame rfl (waiting_eraseIdx hth rfl rfl rfl)
  | logoutAnswer i code =>
    rw [logoutAnswer_waiting h id]
    exact Nat.le_add_right _ _
  | httpCallbackDisconnect mac token user pass =>
    obtain rfl := Option.some.inj h
    exact httpCallbackDisconnect_waiting cfg s mac token user pass id
  | wdctlReset arg =>
    obtain rfl := Option.some.inj h
    exact wdctlReset_waiting cfg s arg id
  | syncStart =>
    obtain ⟨hidle, rfl⟩ := syncStart_cases h
    exact hsame rfl (waiting_congr rfl (by rw [hidle]; rfl) rfl)
  | countersRow print dir ip counter now =>
    obtain ⟨_, rfl⟩ := countersRow_cases h
    exact hsame rfl rfl
  | syncAbort =>
    obtain ⟨hcounting, rfl⟩ := syncAbort_cases h
    exact hsame rfl (waiting_congr rfl (by rw [hcounting]; rfl) rfl)
  | syncDup =>
    obtain ⟨hcounting, rfl⟩ := syncDup_cases h
    exact hsame rfl (waiting_congr rfl (by rw [hcounting]; rfl) (Sync.waitsFor_next _ _))
  | syncAnswer code =>
    obtain ⟨p1, rest, hwas, rfl⟩ := syncAnswer_cases h
    exact hsame rfl (waiting_congr rfl (by rw [hwas]; rfl) rfl)
  | syncApply now => exact syncApply_waiting h id
  | syncLogoutAnswer code =>
    obtain ⟨client, rest, hwas, rfl⟩ := syncLogoutAnswer_cases h
    simp only [reportOf, hwas, State.waiting, Sync.waitsFor_next]
    simp [Sync.waitsFor, List.count_singleton]

/-! ## Sessions that have ended -/

/-- Nothing happens to a session after it was taken out. -/
def QuietAfter (log : List SessionEvent) : Prop :=
  ∀ pre post id, log = pre ++ .removed id :: post →
    SessionEvent.touched id ∉ post ∧ SessionEvent.removed id ∉ post

structure Ended (s : State) (log : List SessionEvent) : Prop where
  wf : s.list.Wf
  gone : ∀ id, .removed id ∈ log → id < s.list.clientId ∧ ∀ c ∈ s.list.clients, c.id ≠ id
  quiet : QuietAfter log
  reports : ∀ id, log.count (.reported id) + s.waiting id ≤ log.count (.removed id)

/-- A quiet record names every removal once. -/
theorem QuietAfter.count_removed {log : List SessionEvent} (h : QuietAfter log) (id : Nat) :
    log.count (.removed id) ≤ 1 := by
  by_cases hmem : SessionEvent.removed id ∈ log
  · obtain ⟨pre, post, hlog, hpre⟩ := List.eq_append_cons_of_mem hmem
    have hpost := (h pre post id hlog).2
    rw [hlog, List.count_append, List.count_cons_self, List.count_eq_zero_of_not_mem hpre,
      List.count_eq_zero_of_not_mem hpost]
  · rw [List.count_eq_zero_of_not_mem hmem]
    exact Nat.zero_le 1

/-- Events of sessions that have not ended are no disturbance. -/
theorem QuietAfter.append {log events : List SessionEvent} (h : QuietAfter log)
    (hevents : QuietAfter events)
    (hnew : ∀ id, .touched id ∈ events ∨ .removed id ∈ events → SessionEvent.removed id ∉ log) :
    QuietAfter (log ++ events) := by
  intro pre post id heq
  rcases List.append_eq_append_iff.mp heq with ⟨mid, hpre, hevs⟩ | ⟨mid, hlog, hpost⟩
  · exact hevents mid post id hevs
  · cases mid with
    | nil =>
      exact hevents [] post id (by simpa using hpost.symm)
    | cons e mid =>
      obtain ⟨rfl, rfl⟩ := List.cons.inj hpost
      have hmem : SessionEvent.removed id ∈ log := by
        rw [hlog]
        exact List.mem_append_right _ List.mem_cons_self
      obtain ⟨h1, h2⟩ := h pre mid id hlog
      refine ⟨fun hin => ?_, fun hin => ?_⟩
      · rcases List.mem_append.mp hin with hin | hin
        · exact h1 hin
        · exact hnew id (Or.inl hin) hmem
      · rcases List.mem_append.mp hin with hin | hin
        · exact h2 hin
        · exact hnew id (Or.inr hin) hmem

theorem mem_eventsOf {cfg : Config} {s : State} {a : Action} {id : Nat}
    (h : .touched id ∈ eventsOf cfg s a ∨ .removed id ∈ eventsOf cfg s a) :
    ∃ c ∈ (deedOf cfg s a).client?, c.id = id := by
  have hdeed : SessionEvent.touched id ∈ (deedOf cfg s a).events ∨
      SessionEvent.removed id ∈ (deedOf cfg s a).events := by
    unfold eventsOf at h
    simpa using h
  revert hdeed
  cases deedOf cfg s a <;> simp [Deed.events, Deed.client?, eq_comm]

theorem eventsOf_quiet (cfg : Config) (s : State) (a : Action) : QuietAfter (eventsOf cfg s a) := by
  have hreports : ∀ id, SessionEvent.touched id ∉ (reportOf s a).toList.map SessionEvent.reported ∧
      SessionEvent.removed id ∉ (reportOf s a).toList.map SessionEvent.reported := by
    simp
  intro pre post id heq
  have hmem : SessionEvent.removed id ∈ eventsOf cfg s a := by
    rw [heq]
    exact List.mem_append_right _ List.mem_cons_self
  unfold eventsOf at heq hmem
  cases hd : deedOf cfg s a with
  | remove c =>
    -- the removal is the second event, and only reports follow
    rw [hd] at heq
    cases pre with
    | nil => simp [Deed.events] at heq
    | cons e pre =>
      have htail := (List.cons.inj heq).2
      cases pre with
      | nil =>
        rw [← (List.cons.inj htail).2]
        exact hreports id
      | cons e' pre =>
        have hrest := (List.cons.inj htail).2
        refine absurd ?_ (hreports id).2
        rw [show (reportOf s a).toList.map SessionEvent.reported = _ from hrest]
        exact List.mem_append_right _ List.mem_cons_self
  | _ =>
    rw [hd] at hmem
    simp [Deed.events, Deed.client?] at hmem

theorem ClientList.Wf.remove_ne {l : ClientList} (h : l.Wf) {c d : Client} (hc : c ∈ l.clients)
    (hd : d ∈ (clientListRemove l c).clients) : d.id ≠ c.id := by
  obtain ⟨pre, post, hl, _, hr⟩ := h.split hc
  have hs := h.sorted
  rw [hl, List.pairwise_append, List.pairwise_cons] at hs
  rw [hr c rfl] at hd
  rcases List.mem_append.mp hd with hd | hd
  · exact Nat.ne_of_gt (hs.2.2 d hd c List.mem_cons_self)
  · exact Nat.ne_of_lt (hs.2.1.1 d hd)

theorem removed_of_mem_eventsOf {cfg : Config} {s : State} {a : Action} {id : Nat}
    (h : .removed id ∈ eventsOf cfg s a) : ∃ c, deedOf cfg s a = .remove c ∧ c.id = id := by
  have hdeed : SessionEvent.removed id ∈ (deedOf cfg s a).events := by
    unfold eventsOf at h
    simpa using h
  revert hdeed
  cases deedOf cfg s a <;> simp [Deed.events, Deed.client?, eq_comm]

theorem step_ended {cfg : Config} {s s' : State} {a : Action} {log : List SessionEvent}
    (h : Ended s log) (hstep : step cfg s a = some s') :
    Ended s' (log ++ eventsOf cfg s a) := by
  have hdeed := step_deed hstep
  obtain ⟨hclientId, hmembers⟩ := (step_effect hstep).members
  refine ⟨(step_effect hstep).wf h.wf, ?_, ?_, ?_⟩
  · intro id hid
    rcases List.mem_append.mp hid with hid | hid
    · obtain ⟨hlt, hgone⟩ := h.gone id hid
      refine ⟨Nat.lt_of_lt_of_le hlt hclientId, fun d hd hdid => ?_⟩
      rcases hmembers d hd with hnew | ⟨e, he, heid, _⟩
      · omega
      · exact hgone e he (heid.trans hdid)
    · obtain ⟨c, hc, rfl⟩ := removed_of_mem_eventsOf hid
      rw [hc] at hdeed
      have hmem : c ∈ s.list.clients := hdeed.valid.member c rfl
      refine ⟨Nat.lt_of_lt_of_le (h.wf.bound c hmem) hclientId, fun d hd => ?_⟩
      rw [hdeed.list] at hd
      exact h.wf.remove_ne hmem hd
  · refine h.quiet.append (eventsOf_quiet cfg s a) fun id hevent hremoved => ?_
    obtain ⟨c, hc, rfl⟩ := mem_eventsOf hevent
    exact (h.gone c.id hremoved).2 c (hdeed.valid.member c hc) rfl
  · intro id
    have hold := h.reports id
    have hnew := step_waiting hstep id
    rw [List.count_append, List.count_append]
    omega

theorem Fresh.ended {s : State} (h : Fresh s) : Ended s [] where
  wf := h.wf
  gone := by simp
  quiet := by
    intro pre post id heq
    simp at heq
  reports := by simp [State.waiting, h.threads, h.sync, Sync.waitsFor]

/-- A session ends at most once. In every run each session is taken out of the list at most
    once, at most one logout report is made for it (those that returned and those still waited
    for), and once it was taken out it is not in the list and is not touched again. -/
theorem session_ends_once (cfg : Config) {s0 s : State} {as : List Action} (h0 : Fresh s0)
    (hrun : run (step cfg) s0 as = some s) :
    ∃ log, run (recorded (step cfg) (eventsOf cfg)) (s0, []) as = some (s, log) ∧
      (∀ id, log.count (.removed id) ≤ 1) ∧
      (∀ id, log.count (.reported id) + s.waiting id ≤ 1) ∧
      (∀ id, .removed id ∈ log → ∀ c ∈ s.list.clients, c.id ≠ id) ∧
      ∀ pre post id, log = pre ++ .removed id :: post → SessionEvent.touched id ∉ post := by
  obtain ⟨log, hlog⟩ := exists_run_recorded (eventsOf cfg) hrun []
  have hended : Ended s log := by
    refine run_inv (fun p : State × List SessionEvent => Ended p.1 p.2) ?_ h0.ended hlog
    rintro p a q hp hstep
    obtain ⟨hs, hq⟩ := recorded_eq_some_iff.mp hstep
    rw [hq]
    exact step_ended hp hs
  refine ⟨log, hlog, hended.quiet.count_removed, fun id => ?_, fun id hid => ?_,
    fun pre post id heq => ?_⟩
  · exact Nat.le_trans (hended.reports id) (hended.quiet.count_removed id)
  · exact (hended.gone id hid).2
  · exact (hended.quiet pre post id heq).1

/-- A login, and a logout with its report. -/
theorem session_ends_once_small :
    ∃ log, run (recorded (step smallConfig) (eventsOf smallConfig)) (smallStart, [])
        (smallLogin ++ [.wdctlReset smallIp, .logoutAnswer 0 authDenied]) =
        some (smallRun (smallLogin ++ [.wdctlReset smallIp, .logoutAnswer 0 authDenied]), log) ∧
      log.count (.removed 1) ≤ 1 := by
  have hrun : run (step smallConfig) smallStart
      (smallLogin ++ [.wdctlReset smallIp, .logoutAnswer 0 authDenied]) =
      some (smallRun (smallLogin ++ [.wdctlReset smallIp, .logoutAnswer 0 authDenied])) := rfl
  obtain ⟨log, hlog, honce, _⟩ := session_ends_once smallConfig smallStart_fresh hrun
  exact ⟨log, hlog, honce 1⟩

end Wifidog
