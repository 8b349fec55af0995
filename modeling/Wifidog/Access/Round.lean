/-
  One round of `fw_sync_with_authserver`.

  `round_asks_each`: whatever the other threads do in the meantime, a round makes one counters
  request for each client that was on the list when it was copied, in that order and no other;
  it takes at most three steps for a client, and until it ends one of them can be taken.

  `sync_round`: a round that nothing interrupts. `outcome` says what becomes of one record, and
  the whole round is its `filterMap` over the list. The work list holds copies: the proof finds
  each record again by its id, behind the ones that are done.
-/
import Wifidog.Access.Coherence
import Wifidog.Access.Threads

namespace Wifidog

open CText Netfilter Runs

/-! ## Who is asked about -/

/-- What a request says about the client. -/
def AuthRequest.key (r : AuthRequest) : Text × Text × Text := (r.ip, r.mac, r.token)

def Client.key (c : Client) : Text × Text × Text := (c.ip, c.mac, c.token)

/-- The clients that counters requests were made for, the oldest first. -/
def State.polled (s : State) : List (Text × Text × Text) :=
  ((s.asked.filter (·.type == .counters)).map AuthRequest.key).reverse

/-- The copies that no counters request was made for yet. -/
def Sync.unpolled : Sync → List Client
  | .idle => []
  | .counting => []
  | .working w => w
  | .answered _ rest _ => rest
  | .loggingOut _ rest => rest

/-- How many steps the round can still take. -/
def Sync.weight : Sync → Nat
  | .idle => 0
  | .counting => 0
  | .working w => 3 * w.length
  | .answered _ rest _ => 3 * rest.length + 2
  | .loggingOut _ rest => 3 * rest.length + 1

/-- A step of the loop over the work list. -/
def Action.ofRound : Action → Bool
  | .syncAnswer _ => true
  | .syncApply _ => true
  | .syncLogoutAnswer _ => true
  | _ => false

@[simp] theorem Sync.unpolled_next (w : List Client) : (Sync.next w).unpolled = w := by
  cases w <;> rfl

@[simp] theorem Sync.weight_next (w : List Client) : (Sync.next w).weight = 3 * w.length := by
  cases w <;> rfl

theorem Sync.next_ne_counting (w : List Client) : Sync.next w ≠ .counting := by
  cases w <;> simp [Sync.next]

/-- Everyone the round asks about, asked or not yet. -/
def State.round (s : State) : List (Text × Text × Text) :=
  s.polled ++ s.sync.unpolled.map Client.key

theorem polled_cons {s s' : State} {r : AuthRequest} (h : s'.asked = r :: s.asked) :
    s'.polled = if r.type = .counters then s.polled ++ [r.key] else s.polled := by
  unfold State.polled
  rw [h]
  by_cases hr : r.type = .counters
  · simp [hr]
  · simp [hr]

theorem polled_congr {s s' : State} (h : s'.asked = s.asked) : s'.polled = s.polled := by
  unfold State.polled
  rw [h]

/-- What a step of a round does: who is asked about stays the same, and a step of the loop makes
    the rest of it shorter. -/
structure InRound (s s' : State) (ofRound : Bool) : Prop where
  round : s'.round = s.round
  counting : s'.sync ≠ .counting
  weight : s'.sync.weight + ofRound.toNat ≤ s.sync.weight

theorem InRound.of_other {s s' : State} (hsync : s'.sync = s.sync) (hcounting : s.sync ≠ .counting)
    (hpolled : s'.polled = s.polled) : InRound s s' false where
  round := by unfold State.round; rw [hsync, hpolled]
  counting := by rw [hsync]; exact hcounting
  weight := by rw [hsync]; exact Nat.le_refl _

theorem step_inRound {cfg : Config} (hserver : cfg.hasAuthServer = true) {s s' : State}
    {a : Action} (h : step cfg s a = some s') (hcounting : s.sync ≠ .counting)
    (hstart : a ≠ .syncStart) : InRound s s' a.ofRound := by
  cases a with
  | httpCallbackAuth addr arp token logout now =>
    obtain rfl := Option.some.inj h
    obtain ⟨hsync, hasked⟩ := httpCallbackAuth_sync cfg s addr arp token logout now
    exact .of_other hsync hcounting (polled_congr hasked)
  | authenticateLookup i =>
    obtain ⟨_, _, _, _, ⟨_, rfl⟩ | ⟨_, _, rfl⟩⟩ := authenticateLookup_cases h
    · exact .of_other rfl hcounting rfl
    · exact .of_other rfl hcounting rfl
  | authenticateAnswer i code =>
    obtain ⟨_, _, _, _, _, rfl⟩ := authenticateAnswer_cases h
    exact .of_other rfl hcounting ((polled_cons rfl).trans (if_neg (by simp)))
  | authenticateApply i =>
    obtain ⟨_, _, _, _, _, _, ⟨_, rfl⟩ | ⟨_, _, rfl⟩⟩ := authenticateApply_cases h
    · exact .of_other rfl hcounting rfl
    · exact .of_other rfl hcounting rfl
  | logoutAnswer i code =>
    obtain ⟨_, _, rfl⟩ := logoutAnswer_cases h
    exact .of_other rfl hcounting ((polled_cons rfl).trans (if_neg (by simp)))
  | httpCallbackDisconnect mac token user pass =>
    obtain rfl := Option.some.inj h
    obtain ⟨hsync, hasked⟩ := httpCallbackDisconnect_sync cfg s mac token user pass
    exact .of_other hsync hcounting (polled_congr hasked)
  | wdctlReset arg =>
    obtain rfl := Option.some.inj h
    obtain ⟨hsync, hasked⟩ := wdctlReset_sync cfg s arg
    exact .of_other hsync hcounting (polled_congr hasked)
  | syncStart => exact absurd rfl hstart
  | countersRow print dir ip counter now => exact absurd (countersRow_cases h).1 hcounting
  | syncAbort => exact absurd (syncAbort_cases h).1 hcounting
  | syncDup => exact absurd (syncDup_cases h).1 hcounting
  | syncAnswer code =>
    obtain ⟨p1, rest, hwas, hs'⟩ := syncAnswer_cases h
    have hasked : s'.asked = ⟨.counters, p1.ip, p1.mac, p1.token, code⟩ :: s.asked := by
      rw [hs']
      exact if_pos hserver
    have hsync : s'.sync = .answered p1 rest code := by rw [hs']
    refine ⟨?_, by rw [hsync]; simp, ?_⟩
    · unfold State.round
      rw [polled_cons hasked, if_pos rfl, hwas, hsync, List.append_assoc]
      rfl
    · rw [hwas, hsync]
      show 3 * rest.length + 2 + 1 ≤ 3 * (rest.length + 1)
      omega
  | syncApply now =>
    obtain ⟨p1, rest, code, hwas, hcases⟩ := syncApply_cases h
    -- the loop goes on with the rest, after a logout report or at once
    have hnext : s'.asked = s.asked ∧
        (s'.sync = .next rest ∨ ∃ client, s'.sync = .loggingOut client rest) := by
      rcases hcases with ⟨_, rfl⟩ | ⟨tmp, _, ⟨_, rfl⟩ | ⟨_, _, rfl⟩ | ⟨_, _, rfl⟩⟩
      · exact ⟨rfl, Or.inl rfl⟩
      · exact ⟨rfl, Or.inr ⟨_, if_pos hserver⟩⟩
      · exact ⟨rfl, Or.inl rfl⟩
      · exact ⟨rfl, Or.inl rfl⟩
    obtain ⟨hasked, hsync | ⟨client, hsync⟩⟩ := hnext
    · refine ⟨?_, by rw [hsync]; exact Sync.next_ne_counting rest, ?_⟩
      · unfold State.round
        rw [polled_congr hasked, hsync, hwas, Sync.unpolled_next]
        rfl
      · rw [hsync, hwas, Sync.weight_next]
        show 3 * rest.length + 1 ≤ 3 * rest.length + 2
        omega
    · refine ⟨?_, by rw [hsync]; simp, ?_⟩
      · unfold State.round
        rw [polled_congr hasked, hsync, hwas]
        rfl
      · rw [hsync, hwas]
        exact Nat.le_refl _
  | syncLogoutAnswer code =>
    obtain ⟨client, rest, hwas, rfl⟩ := syncLogoutAnswer_cases h
    refine ⟨?_, Sync.next_ne_counting rest, ?_⟩
    · unfold State.round
      rw [polled_cons rfl, if_neg (by simp), hwas, Sync.unpolled_next]
      rfl
    · rw [hwas]
      show (Sync.next rest).weight + 1 ≤ 3 * rest.length + 1
      rw [Sync.weight_next]

/-- The same over a whole run. -/
theorem run_inRound {cfg : Config} (hserver : cfg.hasAuthServer = true) {s s' : State}
    {as : List Action} (hrun : run (step cfg) s as = some s') (hcounting : s.sync ≠ .counting)
    (hstart : ∀ a ∈ as, a ≠ .syncStart) :
    s'.round = s.round ∧ s'.sync ≠ .counting ∧
      s'.sync.weight + as.countP Action.ofRound ≤ s.sync.weight := by
  induction as generalizing s with
  | nil =>
    obtain rfl : s = s' := by simpa using hrun
    exact ⟨rfl, hcounting, Nat.le_refl _⟩
  | cons a as ih =>
    obtain ⟨s1, h1, h2⟩ := run_cons_iff.mp hrun
    have hstep := step_inRound hserver h1 hcounting (hstart a List.mem_cons_self)
    obtain ⟨hround, hne, hweight⟩ :=
      ih h2 hstep.counting fun b hb => hstart b (List.mem_cons_of_mem a hb)
    refine ⟨hround.trans hstep.round, hne, ?_⟩
    have hone := hstep.weight
    rw [List.countP_cons]
    cases hof : a.ofRound with
    | false =>
      rw [hof] at hone
      simp only [Bool.toNat_false] at hone
      simp only [Bool.false_eq_true, if_false]
      omega
    | true =>
      rw [hof] at hone
      simp only [Bool.toNat_true] at hone
      simp only [if_true]
      omega

/-- Until the round ends, its next step can be taken. -/
theorem round_moves (cfg : Config) {s : State} (hcounting : s.sync ≠ .counting)
    (hidle : s.sync ≠ .idle) (hempty : s.sync ≠ .working []) :
    ∃ a : Action, a.ofRound = true ∧ (step cfg s a).isSome = true := by
  cases hsync : s.sync with
  | idle => exact absurd hsync hidle
  | counting => exact absurd hsync hcounting
  | working w =>
    cases w with
    | nil => exact absurd hsync hempty
    | cons p1 rest =>
      refine ⟨.syncAnswer 0, rfl, ?_⟩
      simp only [step, syncAnswer, hsync]
      rfl
  | answered p1 rest code =>
    refine ⟨.syncApply 0, rfl, ?_⟩
    simp only [step, syncApply, hsync]
    split
    · rfl
    · split
      · rfl
      · split <;> rfl
  | loggingOut client rest =>
    refine ⟨.syncLogoutAnswer 0, rfl, ?_⟩
    simp only [step, syncLogoutAnswer, hsync]
    rfl

/-- The loop never stands at an empty work list: it ends instead. -/
theorem step_working_ne_nil {cfg : Config} {s s' : State} {a : Action}
    (h : step cfg s a = some s') (hs : s.sync ≠ .working []) : s'.sync ≠ .working [] := by
  have hnext (w : List Client) : Sync.next w ≠ .working [] := by
    cases w <;> simp [Sync.next]
  cases step_sync h with
  | kept hsync _ => rw [hsync]; exact hs
  | round hsync _ => rcases hsync with hsync | hsync <;> rw [hsync] <;> simp
  | dup hsync _ _ => rw [hsync]; exact hnext _
  | answer code _ hsync _ => rw [hsync]; simp
  | apply _ hsync _ =>
    rcases hsync with hsync | ⟨client, hsync⟩
    · rw [hsync]; exact hnext _
    · rw [hsync]; simp
  | logout _ hsync _ => rw [hsync]; exact hnext _

/-- With an auth server configured, from the copy of the list on, in any order of steps and until
    the next round: the round takes at most three steps for each client; when it has ended, the
    counters requests made are one for each client of the copied list, in its order; until then one
    of its steps can be taken. -/
theorem round_asks_each {cfg : Config} (hserver : cfg.hasAuthServer = true) {s s1 s2 : State}
    {as : List Action} (hdup : step cfg s .syncDup = some s1)
    (hrun : run (step cfg) s1 as = some s2) (hstart : ∀ a ∈ as, a ≠ .syncStart) :
    as.countP Action.ofRound ≤ 3 * s.list.clients.length ∧
      (s2.sync = .idle → s2.polled = s.polled ++ s.list.clients.map Client.key) ∧
      (s2.sync ≠ .idle → ∃ a : Action, a.ofRound = true ∧ (step cfg s2 a).isSome = true) := by
  obtain ⟨-, rfl⟩ := syncDup_cases hdup
  obtain ⟨hround, hcounting, hweight⟩ :=
    run_inRound hserver hrun (Sync.next_ne_counting _) hstart
  refine ⟨?_, fun hidle => ?_, fun hidle => ?_⟩
  · simp only [Sync.weight_next, clientListDup, List.length_map] at hweight
    omega
  · have hall : s2.polled ++ s2.sync.unpolled.map Client.key =
        s.polled ++ (Sync.next (clientListDup s.list)).unpolled.map Client.key := hround
    rw [hidle, Sync.unpolled_next, clientListDup, List.map_map] at hall
    rw [← List.append_nil s2.polled]
    exact hall
  · refine round_moves cfg hcounting hidle ?_
    refine run_inv (fun s => s.sync ≠ .working []) (fun _ _ _ hs h => step_working_ne_nil h hs)
      ?_ hrun
    show Sync.next (clientListDup s.list) ≠ .working []
    cases clientListDup s.list <;> simp [Sync.next]

/-- A client that is reset while the round is under way is asked about all the same. -/
theorem round_asks_each_small :
    (smallRun (smallLogin ++ [.syncStart, .syncDup, .wdctlReset smallIp, .syncAnswer authError,
      .syncApply 0])).polled = [(smallIp, smallMac, "t".toList)] := by
  have hround := @round_asks_each smallConfig rfl (smallRun (smallLogin ++ [.syncStart]))
    (smallRun (smallLogin ++ [.syncStart, .syncDup]))
    (smallRun (smallLogin ++ [.syncStart, .syncDup, .wdctlReset smallIp, .syncAnswer authError,
      .syncApply 0]))
    [.wdctlReset smallIp, .syncAnswer authError, .syncApply 0] rfl rfl (by simp)
  exact hround.2.1 rfl

/-! ## A round that nothing interrupts -/

/-- What the round meets at one client: the answer about its counters, the time, and the answer
    to a logout report. -/
structure Visit where
  authcode : Int
  now : Int64
  logoutCode : Int
  deriving DecidableEq, Repr

/-- The steps of the loop for one client. -/
def visitActions (cfg : Config) (visits : Client → Visit) (c : Client) : List Action :=
  [.syncAnswer (visits c).authcode, .syncApply (visits c).now] ++
    if timedOut cfg c (visits c).now && cfg.hasAuthServer then
      [.syncLogoutAnswer (visits c).logoutCode]
    else []

/-- The requests made for one client. -/
def visitRequests (cfg : Config) (visits : Client → Visit) (c : Client) : List AuthRequest :=
  if cfg.hasAuthServer then
    ⟨.counters, c.ip, c.mac, c.token, (visits c).authcode⟩ ::
      if timedOut cfg c (visits c).now then
        [⟨.logout, c.ip, c.mac, c.token, (visits c).logoutCode⟩]
      else []
  else []

/-- What becomes of one record. -/
def outcome (cfg : Config) (visits : Client → Visit) (c : Client) : Option Client :=
  if timedOut cfg c (visits c).now then none
  else if cfg.hasAuthServer then
    if (visits c).authcode = authDenied ∨ (visits c).authcode = authValidationFailed then none
    else if (visits c).authcode = authAllowed ∧ c.fwConnectionState ≠ fwMarkKnown then
      some { c with
        fwConnectionState := fwMarkKnown
        counters :=
          if c.fwConnectionState = fwMarkProbation then c.counters else c.counters.cleared }
    else some c
  else some c

/-- The place of a record that stands behind the ones in `pre`. -/
theorem ClientList.Wf.at_place {l : ClientList} (h : l.Wf) {pre post : List Client} {c : Client}
    (hl : l.clients = pre ++ c :: post) :
    clientListFindByClient l (clientDup c) = some c ∧
      (∀ d : Client, d.id = c.id → (clientListWrite l d).clients = pre ++ d :: post) ∧
      (∀ d : Client, d.id = c.id → (clientListRemove l d).clients = pre ++ post) := by
  have hc : c ∈ l.clients := by
    rw [hl]
    exact List.mem_append_right _ List.mem_cons_self
  have hs := h.sorted
  rw [hl, List.pairwise_append, List.pairwise_cons] at hs
  have hpre : c ∉ pre := fun hmem => Nat.lt_irrefl _ (hs.2.2 c hmem c List.mem_cons_self)
  have hpost : c ∉ post := fun hmem => Nat.lt_irrefl _ (hs.2.1.1 c hmem)
  obtain ⟨pre', post', hl', hwrite, hremove⟩ := h.split hc
  obtain ⟨rfl, -, rfl⟩ :=
    (List.append_cons_inj_of_notMem hpre hpost).mp (hl.symm.trans hl')
  refine ⟨?_, hwrite, hremove⟩
  cases hf : clientListFindByClient l (clientDup c) with
  | none => simpa [clientDup] using List.find?_eq_none.mp hf c hc
  | some d =>
    obtain ⟨hd, hid⟩ := mem_of_findByClient hf
    rw [h.id_inj hd hc hid]

/-- The records in `pre` are done, the loop goes on with the copies of `rest`. -/
structure Stands (s : State) (pre rest : List Client) : Prop where
  wf : s.list.Wf
  list : s.list.clients = pre ++ rest
  sync : s.sync = .next (rest.map clientDup)

/-- What the switch does to the record at its place. -/
theorem syncSwitch_at {l : ClientList} (h : l.Wf) {pre post : List Client} {c : Client}
    (hl : l.clients = pre ++ c :: post) (t : Tables Chain) (cfg : Config)
    (visits : Client → Visit) (hserver : cfg.hasAuthServer = true)
    (htime : timedOut cfg c (visits c).now = false) :
    (syncSwitch l t c (visits c).authcode).1.clients =
      pre ++ (outcome cfg visits c).toList ++ post := by
  obtain ⟨-, hwrite, hremove⟩ := h.at_place hl
  have hactive : ¬ timedOut cfg c (visits c).now = true := by simp [htime]
  unfold syncSwitch outcome
  rw [if_neg hactive, if_pos hserver]
  by_cases hdenied : (visits c).authcode = authDenied ∨ (visits c).authcode = authValidationFailed
  · rw [if_pos hdenied, if_pos hdenied, hremove (fwDeny t c).2.1 rfl]
    simp
  · rw [if_neg hdenied, if_neg hdenied]
    by_cases hallowed : (visits c).authcode = authAllowed
    · rw [if_pos hallowed]
      by_cases hknown : c.fwConnectionState = fwMarkKnown
      · rw [if_neg (not_not.mpr hknown), if_neg (fun hand => hand.2 hknown)]
        simpa using hl
      · have hgrant : (visits c).authcode = authAllowed ∧ c.fwConnectionState ≠ fwMarkKnown :=
          ⟨hallowed, hknown⟩
        rw [if_pos hknown, if_pos hgrant, List.append_assoc]
        by_cases hprobation : c.fwConnectionState = fwMarkProbation
        · rw [if_neg (not_not.mpr hprobation), if_pos hprobation]
          exact hwrite { c with fwConnectionState := fwMarkKnown } rfl
        · rw [if_pos hprobation, if_neg hprobation]
          exact hwrite
            { c with fwConnectionState := fwMarkKnown, counters := c.counters.cleared } rfl
    · rw [if_neg hallowed, if_neg (fun hand => hallowed hand.1)]
      simpa using hl

theorem syncLogoutAnswer_run {cfg : Config} {s : State} {c : Client} {rest : List Client}
    (h : s.sync = .loggingOut c rest) (code : Int) :
    run (step cfg) s [.syncLogoutAnswer code] = some { s with
      sync := .next rest
      asked := ⟨.logout, c.ip, c.mac, c.token, code⟩ :: s.asked } := by
  simp only [run, step, syncLogoutAnswer, h]
  rfl

theorem visit_run (cfg : Config) (visits : Client → Visit) {s : State} {pre rest : List Client}
    {c : Client} (h : Stands s pre (c :: rest)) :
    ∃ s', run (step cfg) s (visitActions cfg visits c) = some s' ∧
      Stands s' (pre ++ (outcome cfg visits c).toList) rest ∧ s'.threads = s.threads ∧
      s'.asked = (visitRequests cfg visits c).reverse ++ s.asked := by
  obtain ⟨hfind, hwrite, hremove⟩ := h.wf.at_place h.list
  let s1 : State := { s with
    sync := .answered (clientDup c) (rest.map clientDup) (visits c).authcode
    asked := if cfg.hasAuthServer then
        ⟨.counters, c.ip, c.mac, c.token, (visits c).authcode⟩ :: s.asked
      else s.asked }
  have h1 : step cfg s (.syncAnswer (visits c).authcode) = some s1 := by
    simp only [step, syncAnswer, h.sync]
    rfl
  -- the state after the steps, and what remains to be shown of it
  suffices hdone : ∃ s', run (step cfg) s (visitActions cfg visits c) = some s' ∧
      s'.list.clients = pre ++ (outcome cfg visits c).toList ++ rest ∧
      s'.sync = .next (rest.map clientDup) ∧ s'.threads = s.threads ∧
      s'.asked = (visitRequests cfg visits c).reverse ++ s.asked by
    obtain ⟨s', hrun, hlist, hsync, hthreads, hasked⟩ := hdone
    exact ⟨s', hrun, ⟨run_wf h.wf hrun, hlist, hsync⟩, hthreads, hasked⟩
  have hrun {s' : State} {as : List Action}
      (h2 : run (step cfg) s1 (.syncApply (visits c).now :: as) = some s') :
      run (step cfg) s ([.syncAnswer (visits c).authcode, .syncApply (visits c).now] ++ as) =
        some s' :=
    run_cons_iff.mpr ⟨s1, h1, h2⟩
  have hsync1 : s1.sync = .answered (clientDup c) (rest.map clientDup) (visits c).authcode := rfl
  unfold visitActions visitRequests
  cases htime : timedOut cfg c (visits c).now with
  | true =>
    have hgone : (outcome cfg visits c).toList = [] := by
      unfold outcome
      rw [if_pos htime]
      rfl
    have hlist : (logoutClient s.list s.tables c).1.clients = pre ++ rest :=
      hremove (fwDeny s.tables c).2.1 rfl
    have h2 : step cfg s1 (.syncApply (visits c).now) = some { s1 with
        list := (logoutClient s.list s.tables c).1
        tables := (logoutClient s.list s.tables c).2.1
        sync := if cfg.hasAuthServer then
            .loggingOut (logoutClient s.list s.tables c).2.2 (rest.map clientDup)
          else .next (rest.map clientDup) } := by
      simp only [step, syncApply, hsync1]
      rw [show clientListFindByClient s1.list (clientDup c) = some c from hfind]
      exact if_pos htime
    rw [hgone, List.append_nil]
    cases hserver : cfg.hasAuthServer with
    | true =>
      rw [hserver, if_pos rfl] at h2
      refine ⟨_, hrun (run_cons_iff.mpr ⟨_, h2, syncLogoutAnswer_run rfl _⟩), hlist, rfl, rfl, ?_⟩
      simp [s1, hserver, logoutClient]
    | false =>
      rw [hserver, if_neg Bool.false_ne_true] at h2
      refine ⟨_, hrun (run_cons_iff.mpr ⟨_, h2, run_nil _⟩), hlist, rfl, rfl, ?_⟩
      simp [s1, hserver]
  | false =>
    cases hserver : cfg.hasAuthServer with
    | true =>
      have h2 : step cfg s1 (.syncApply (visits c).now) = some { s1 with
          list := (syncSwitch s.list s.tables c (visits c).authcode).1
          tables := (syncSwitch s.list s.tables c (visits c).authcode).2
          sync := .next (rest.map clientDup) } := by
        simp only [step, syncApply, hsync1]
        rw [show clientListFindByClient s1.list (clientDup c) = some c from hfind]
        simp only [show timedOut cfg (clientDup c) (visits c).now = false from htime, hserver]
        rfl
      have hlist := syncSwitch_at h.wf h.list s.tables cfg visits hserver htime
      refine ⟨_, hrun (run_cons_iff.mpr ⟨_, h2, run_nil _⟩), hlist, rfl, rfl, ?_⟩
      simp [s1, hserver]
    | false =>
      have hkept : (outcome cfg visits c).toList = [c] := by
        simp [outcome, htime, hserver]
      have h2 : step cfg s1 (.syncApply (visits c).now) = some { s1 with
          sync := .next (rest.map clientDup) } := by
        simp only [step, syncApply, hsync1]
        rw [show clientListFindByClient s1.list (clientDup c) = some c from hfind]
        simp only [show timedOut cfg (clientDup c) (visits c).now = false from htime, hserver]
        rfl
      refine ⟨_, hrun (run_cons_iff.mpr ⟨_, h2, run_nil _⟩), ?_, rfl, rfl, ?_⟩
      · rw [hkept, List.append_assoc]
        exact h.list
      · simp [s1, hserver]

theorem visits_run (cfg : Config) (visits : Client → Visit) {s : State}
    {pre rest : List Client} (h : Stands s pre rest) :
    ∃ s', run (step cfg) s (rest.flatMap (visitActions cfg visits)) = some s' ∧
      Stands s' (pre ++ rest.filterMap (outcome cfg visits)) [] ∧ s'.threads = s.threads ∧
      s'.asked = (rest.flatMap (visitRequests cfg visits)).reverse ++ s.asked := by
  induction rest generalizing s pre with
  | nil => exact ⟨s, rfl, by simpa using h, rfl, rfl⟩
  | cons c rest ih =>
    obtain ⟨s1, hrun1, hstands1, hthreads1, hasked1⟩ := visit_run cfg visits h
    obtain ⟨s2, hrun2, hstands2, hthreads2, hasked2⟩ := ih hstands1
    refine ⟨s2, ?_, ?_, hthreads2.trans hthreads1, ?_⟩
    · rw [List.flatMap_cons]
      exact run_append_iff.mpr ⟨s1, hrun1, hrun2⟩
    · have hcons : (c :: rest).filterMap (outcome cfg visits) =
          (outcome cfg visits c).toList ++ rest.filterMap (outcome cfg visits) := by
        cases houtcome : outcome cfg visits c <;> simp [houtcome]
      rw [hcons, ← List.append_assoc]
      exact hstands2
    · rw [hasked2, hasked1, List.flatMap_cons, List.reverse_append, List.append_assoc]

/-- The whole round. -/
def roundActions (cfg : Config) (visits : Client → Visit) (l : ClientList) : List Action :=
  .syncDup :: l.clients.flatMap (visitActions cfg visits)

theorem roundActions_prevents (cfg : Config) (visits : Client → Visit) (l : ClientList)
    {a : Action} (ha : a ∈ roundActions cfg visits l) (s : State) : ¬ preventsAt s a := by
  rcases List.mem_cons.mp ha with rfl | ha
  · exact id
  · obtain ⟨c, -, ha⟩ := List.mem_flatMap.mp ha
    unfold visitActions at ha
    split at ha
    · simp only [List.cons_append, List.nil_append, List.mem_cons, List.not_mem_nil, or_false] at ha
      rcases ha with rfl | rfl | rfl <;> exact id
    · simp only [List.append_nil, List.mem_cons, List.not_mem_nil, or_false] at ha
      rcases ha with rfl | rfl <;> exact id

/-- A round that nothing interrupts, from any reachable state, whatever is answered and whatever
    the time: every client of the list is dealt with once, in order, on the answer about itself;
    the requests are those of the clients, and the Outgoing chain is kept in agreement. -/
theorem sync_round (cfg : Config) {s0 s : State} {as : List Action} (h0 : Fresh s0)
    (hreach : run (step cfg) s0 as = some s) (hcounting : s.sync = .counting)
    (visits : Client → Visit) :
    ∃ s', run (step cfg) s (roundActions cfg visits s.list) = some s' ∧ s'.sync = .idle ∧
      s'.list.clients = s.list.clients.filterMap (outcome cfg visits) ∧
      s'.asked = (s.list.clients.flatMap (visitRequests cfg visits)).reverse ++ s.asked ∧
      s'.threads = s.threads ∧
      (Outgoing (· = ·) s.list s.tables → Outgoing (· = ·) s'.list s'.tables) := by
  have hwf := run_wf h0.wf hreach
  have hdup : step cfg s .syncDup = some { s with sync := .next (clientListDup s.list) } := by
    simp only [step, syncDup, hcounting]
  have hstart : Stands { s with sync := .next (clientListDup s.list) } [] s.list.clients :=
    ⟨hwf, rfl, rfl⟩
  obtain ⟨s', hrun, hstands, hthreads, hasked⟩ := visits_run cfg visits hstart
  have hround : run (step cfg) s (roundActions cfg visits s.list) = some s' :=
    run_cons_iff.mpr ⟨_, hdup, hrun⟩
  refine ⟨s', hround, hstands.sync, by simpa using hstands.list, hasked, hthreads, fun hout => ?_⟩
  have hprevents : Along (step cfg) (fun s a => ¬ preventsAt s a) s
      (roundActions cfg visits s.list) := by
    refine along_mono (fun s a ha => ha s)
      (along_of_mem (P := fun a => ∀ s, ¬ preventsAt s a) (fun a ha => ?_) s)
    exact roundActions_prevents cfg visits s.list ha
  exact (run_coherent hwf hout hround hprevents).2

/-- The auth server denies the client of the small gateway. -/
theorem sync_round_denied :
    ∃ s', run (step smallConfig) (smallRun (smallLogin ++ [.syncStart]))
        (roundActions smallConfig (fun _ => ⟨authDenied, 0, 0⟩)
          (smallRun (smallLogin ++ [.syncStart])).list) = some s' ∧ s'.list.clients = [] := by
  obtain ⟨s', hrun, -, hlist, -⟩ := @sync_round smallConfig smallStart
    (smallRun (smallLogin ++ [.syncStart])) (smallLogin ++ [.syncStart]) smallStart_fresh rfl rfl
    (fun _ => ⟨authDenied, 0, 0⟩)
  refine ⟨s', hrun, hlist.trans ?_⟩
  decide

end Wifidog
