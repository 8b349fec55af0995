/-
  What one step does to the threads and to the record of requests.

  `step_thread` says where a thread of the new state comes from, `step_sync` what became of
  the thread that runs `fw_sync_with_authserver`; from the latter, where its pending copies
  and the answer it holds come from, and that no request is forgotten.

  A copy of a client (`client_dup`) is used long after it was taken. `CopyOf` is what remains
  true of it: whatever record of the list has its id has its ip and mac. Proved: every step
  keeps it (`Effect.copyOf`), and in every reachable state it holds of every copy a thread
  works with (`run_copies`).
-/
import Wifidog.Access.Coherence

namespace Wifidog

open CText Netfilter Runs

/-! ## Where threads come from -/

/-- The origin of a thread of `s'`, where `s'` follows `s` by the action `a`. -/
inductive Origin (s : State) (a : Action) (s' : State) : Thread → Prop
  | kept {th : Thread} (h : th ∈ s.threads) : Origin s a s' th
  | login (addr mac token : Text) : Origin s a s' (.authenticate addr mac token)
  | looked {addr mac token : Text} {client : Client} {i : Nat} (ha : a = .authenticateLookup i)
      (hwas : s.threads[i]? = some (.authenticate addr mac token))
      (hfind : clientListFindByIp s.list addr = some client) (hlist : s'.list = s.list) :
      Origin s a s' (.asking addr mac (clientDup client) token)
  | answered {addr mac token : Text} {client : Client} {code : Int}
      (hasking : .asking addr mac client token ∈ s.threads)
      (hasked : ⟨.login, client.ip, client.mac, token, code⟩ ∈ s'.asked) :
      Origin s a s' (.answered addr mac client token code)
  | logout (client : Client) : Origin s a s' (.loggingOut client)

theorem mem_threads_logoutHandler {cfg : Config} {s : State} {c : Client} {th : Thread}
    (h : th ∈ (s.logoutHandler cfg c).threads) : th ∈ s.threads ∨ ∃ d, th = .loggingOut d := by
  simp only [State.logoutHandler] at h
  split at h
  · rcases List.mem_append.mp h with h | h
    · exact Or.inl h
    · exact Or.inr ⟨_, List.mem_singleton.mp h⟩
  · exact Or.inl h

theorem origin_logoutHandler {cfg : Config} {s s' : State} {a : Action} {c : Client}
    {th : Thread} (h : th ∈ (s.logoutHandler cfg c).threads) : Origin s a s' th := by
  rcases mem_threads_logoutHandler h with h | ⟨d, rfl⟩
  · exact .kept h
  · exact .logout d

theorem httpCallbackAuth_origin {cfg : Config} {s s' : State} {a : Action} {addr : Text}
    {arp token : Option Text} {logout : Bool} {now : Int64} {th : Thread}
    (h : th ∈ (httpCallbackAuth cfg s addr arp token logout now).threads) : Origin s a s' th := by
  unfold httpCallbackAuth at h
  split at h
  · next token mac =>
    cases hf : clientListFind s.list addr mac with
    | none =>
      rw [hf] at h
      cases logout with
      | true => exact .kept h
      | false =>
        rcases List.mem_append.mp h with h | h
        · exact .kept h
        · obtain rfl := List.mem_singleton.mp h
          exact .login addr mac token
    | some client =>
      rw [hf] at h
      cases logout with
      | true => exact origin_logoutHandler h
      | false =>
        rcases List.mem_append.mp h with h | h
        · exact .kept h
        · obtain rfl := List.mem_singleton.mp h
          exact .login addr mac token
  · exact .kept h

theorem httpCallbackDisconnect_origin {cfg : Config} {s s' : State} {a : Action}
    {mac token : Option Text} {user pass : Text} {th : Thread}
    (h : th ∈ (httpCallbackDisconnect cfg s mac token user pass).threads) : Origin s a s' th := by
  unfold httpCallbackDisconnect at h
  split at h
  · exact .kept h
  · split at h
    · split at h
      · exact .kept h
      · split at h
        · exact .kept h
        · exact origin_logoutHandler h
    · exact .kept h

theorem wdctlReset_origin {cfg : Config} {s s' : State} {a : Action} {arg : Text} {th : Thread}
    (h : th ∈ (wdctlReset cfg s arg).threads) : Origin s a s' th := by
  unfold wdctlReset at h
  split at h
  · exact .kept h
  · exact origin_logoutHandler h

theorem authenticateLookup_origin {s s' : State} {i : Nat} (h : authenticateLookup s i = some s')
    {th : Thread} (hth : th ∈ s'.threads) : Origin s (.authenticateLookup i) s' th := by
  obtain ⟨addr, mac, token, hwas, ⟨_, rfl⟩ | ⟨client, hf, rfl⟩⟩ := authenticateLookup_cases h
  · exact .kept (List.mem_of_mem_eraseIdx hth)
  · rcases List.mem_or_eq_of_mem_set hth with hth | rfl
    · exact .kept hth
    · exact .looked rfl hwas hf rfl

theorem authenticateAnswer_origin {s s' : State} {a : Action} {i : Nat} {code : Int}
    (h : authenticateAnswer s i code = some s') {th : Thread} (hth : th ∈ s'.threads) :
    Origin s a s' th := by
  obtain ⟨addr, mac, client, token, hi, rfl⟩ := authenticateAnswer_cases h
  rcases List.mem_or_eq_of_mem_set hth with hth | rfl
  · exact .kept hth
  · exact .answered (List.mem_of_getElem? hi) List.mem_cons_self

/-- The threads of the new state, one by one. -/
theorem step_thread {cfg : Config} {s s' : State} {a : Action} (h : step cfg s a = some s')
    {th : Thread} (hth : th ∈ s'.threads) : Origin s a s' th := by
  cases a with
  | httpCallbackAuth addr arp token logout now =>
    obtain rfl := Option.some.inj h
    exact httpCallbackAuth_origin hth
  | authenticateLookup i => exact authenticateLookup_origin h hth
  | authenticateAnswer i code => exact authenticateAnswer_origin h hth
  | authenticateApply i =>
    obtain ⟨_, _, _, _, _, _, ⟨_, rfl⟩ | ⟨_, _, rfl⟩⟩ := authenticateApply_cases h
    · exact .kept (List.mem_of_mem_eraseIdx hth)
    · exact .kept (List.mem_of_mem_eraseIdx hth)
  | logoutAnswer i code =>
    obtain ⟨_, _, rfl⟩ := logoutAnswer_cases h
    exact .kept (List.mem_of_mem_eraseIdx hth)
  | httpCallbackDisconnect mac token user pass =>
    obtain rfl := Option.some.inj h
    exact httpCallbackDisconnect_origin hth
  | wdctlReset arg =>
    obtain rfl := Option.some.inj h
    exact wdctlReset_origin hth
  | syncStart =>
    obtain ⟨_, rfl⟩ := syncStart_cases h
    exact .kept hth
  | countersRow print dir ip counter now =>
    obtain ⟨_, rfl⟩ := countersRow_cases h
    exact .kept hth
  | syncAbort =>
    obtain ⟨_, rfl⟩ := syncAbort_cases h
    exact .kept hth
  | syncDup =>
    obtain ⟨_, rfl⟩ := syncDup_cases h
    exact .kept hth
  | syncAnswer code =>
    obtain ⟨_, _, _, rfl⟩ := syncAnswer_cases h
    exact .kept hth
  | syncApply now =>
    obtain ⟨_, _, _, _, ⟨_, rfl⟩ | ⟨_, _, ⟨_, rfl⟩ | ⟨_, _, rfl⟩ | ⟨_, _, rfl⟩⟩⟩ :=
      syncApply_cases h <;> exact .kept hth
  | syncLogoutAnswer code =>
    obtain ⟨_, _, _, rfl⟩ := syncLogoutAnswer_cases h
    exact .kept hth

/-! ## The work list -/

/-- The copies that `fw_sync_with_authserver` has not dealt with yet. -/
def Sync.pending : Sync → List Client
  | .idle => []
  | .counting => []
  | .working w => w
  | .answered p1 rest _ => p1 :: rest
  | .loggingOut _ rest => rest

@[simp] theorem Sync.pending_next (w : List Client) : (Sync.next w).pending = w := by
  cases w <;> rfl

theorem httpCallbackAuth_sync (cfg : Config) (s : State) (addr : Text) (arp token : Option Text)
    (logout : Bool) (now : Int64) :
    (httpCallbackAuth cfg s addr arp token logout now).sync = s.sync ∧
      (httpCallbackAuth cfg s addr arp token logout now).asked = s.asked := by
  unfold httpCallbackAuth
  split
  · next token mac =>
    cases clientListFind s.list addr mac with
    | none => cases logout <;> exact ⟨rfl, rfl⟩
    | some client => cases logout <;> exact ⟨rfl, rfl⟩
  · exact ⟨rfl, rfl⟩

theorem httpCallbackDisconnect_sync (cfg : Config) (s : State) (mac token : Option Text)
    (user pass : Text) :
    (httpCallbackDisconnect cfg s mac token user pass).sync = s.sync ∧
      (httpCallbackDisconnect cfg s mac token user pass).asked = s.asked := by
  unfold httpCallbackDisconnect
  split
  · exact ⟨rfl, rfl⟩
  · split
    · split
      · exact ⟨rfl, rfl⟩
      · split <;> exact ⟨rfl, rfl⟩
    · exact ⟨rfl, rfl⟩

theorem wdctlReset_sync (cfg : Config) (s : State) (arg : Text) :
    (wdctlReset cfg s arg).sync = s.sync ∧ (wdctlReset cfg s arg).asked = s.asked := by
  unfold wdctlReset
  split <;> exact ⟨rfl, rfl⟩

/-- What one step does to the sync thread and to the record of requests. -/
inductive SyncMove (cfg : Config) (s s' : State) : Prop
  /-- it does not move -/
  | kept (hsync : s'.sync = s.sync) (hasked : s.asked ⊆ s'.asked)
  /-- a round starts or is given up -/
  | round (hsync : s'.sync = .counting ∨ s'.sync = .idle) (hasked : s'.asked = s.asked)
  | dup (hsync : s'.sync = .next (clientListDup s.list)) (hlist : s'.list = s.list)
      (hasked : s'.asked = s.asked)
  | answer {p1 : Client} {rest : List Client} (code : Int) (hwas : s.sync = .working (p1 :: rest))
      (hsync : s'.sync = .answered p1 rest code)
      (hasked : s'.asked = if cfg.hasAuthServer then
          ⟨.counters, p1.ip, p1.mac, p1.token, code⟩ :: s.asked else s.asked)
  | apply {p1 : Client} {rest : List Client} {code : Int} (hwas : s.sync = .answered p1 rest code)
      (hsync : s'.sync = .next rest ∨ ∃ client, s'.sync = .loggingOut client rest)
      (hasked : s'.asked = s.asked)
  | logout {client : Client} {rest : List Client} (hwas : s.sync = .loggingOut client rest)
      (hsync : s'.sync = .next rest) (hasked : s.asked ⊆ s'.asked)

theorem step_sync {cfg : Config} {s s' : State} {a : Action} (h : step cfg s a = some s') :
    SyncMove cfg s s' := by
  have hsame : s'.sync = s.sync ∧ s'.asked = s.asked → SyncMove cfg s s' := fun hs =>
    .kept hs.1 (by rw [hs.2]; exact List.Subset.refl _)
  cases a with
  | httpCallbackAuth addr arp token logout now =>
    obtain rfl := Option.some.inj h
    exact hsame (httpCallbackAuth_sync cfg s addr arp token logout now)
  | authenticateLookup i =>
    obtain ⟨_, _, _, _, ⟨_, rfl⟩ | ⟨_, _, rfl⟩⟩ := authenticateLookup_cases h <;>
      exact hsame ⟨rfl, rfl⟩
  | authenticateAnswer i code =>
    obtain ⟨_, _, _, _, _, rfl⟩ := authenticateAnswer_cases h
    exact .kept rfl (List.subset_cons_self _ _)
  | authenticateApply i =>
    obtain ⟨_, _, _, _, _, _, ⟨_, rfl⟩ | ⟨_, _, rfl⟩⟩ := authenticateApply_cases h <;>
      exact hsame ⟨rfl, rfl⟩
  | logoutAnswer i code =>
    obtain ⟨_, _, rfl⟩ := logoutAnswer_cases h
    exact .kept rfl (List.subset_cons_self _ _)
  | httpCallbackDisconnect mac token user pass =>
    obtain rfl := Option.some.inj h
    exact hsame (httpCallbackDisconnect_sync cfg s mac token user pass)
  | wdctlReset arg =>
    obtain rfl := Option.some.inj h
    exact hsame (wdctlReset_sync cfg s arg)
  | syncStart =>
    obtain ⟨_, rfl⟩ := syncStart_cases h
    exact .round (Or.inl rfl) rfl
  | countersRow print dir ip counter now =>
    obtain ⟨_, rfl⟩ := countersRow_cases h
    exact hsame ⟨rfl, rfl⟩
  | syncAbort =>
    obtain ⟨_, rfl⟩ := syncAbort_cases h
    exact .round (Or.inr rfl) rfl
  | syncDup =>
    obtain ⟨_, rfl⟩ := syncDup_cases h
    exact .dup rfl rfl rfl
  | syncAnswer code =>
    obtain ⟨p1, rest, hwas, rfl⟩ := syncAnswer_cases h
    exact .answer code hwas rfl rfl
  | syncApply now =>
    obtain ⟨p1, rest, code, hwas, ⟨_, rfl⟩ | ⟨tmp, _, ⟨_, rfl⟩ | ⟨_, _, rfl⟩ | ⟨_, _, rfl⟩⟩⟩ :=
      syncApply_cases h
    · exact .apply hwas (Or.inl rfl) rfl
    · refine .apply hwas ?_ rfl
      dsimp only
      split
      · exact Or.inr ⟨_, rfl⟩
      · exact Or.inl rfl
    · exact .apply hwas (Or.inl rfl) rfl
    · exact .apply hwas (Or.inl rfl) rfl
  | syncLogoutAnswer code =>
    obtain ⟨client, rest, hwas, rfl⟩ := syncLogoutAnswer_cases h
    exact .logout hwas rfl (List.subset_cons_self _ _)

/-- No request is forgotten. -/
theorem SyncMove.asked_subset {cfg : Config} {s s' : State} (h : SyncMove cfg s s') :
    s.asked ⊆ s'.asked := by
  cases h with
  | kept _ hasked => exact hasked
  | round _ hasked => rw [hasked]; exact List.Subset.refl _
  | dup _ _ hasked => rw [hasked]; exact List.Subset.refl _
  | answer code _ _ hasked =>
    rw [hasked]
    split
    · exact List.subset_cons_self _ _
    · exact List.Subset.refl _
  | apply _ _ hasked => rw [hasked]; exact List.Subset.refl _
  | logout _ _ hasked => exact hasked

/-- A pending copy of the new state was pending before, or has just been taken. -/
theorem SyncMove.pending {cfg : Config} {s s' : State} (h : SyncMove cfg s s') {p : Client}
    (hp : p ∈ s'.sync.pending) :
    p ∈ s.sync.pending ∨ (s'.list = s.list ∧ ∃ c ∈ s.list.clients, p = clientDup c) := by
  cases h with
  | kept hsync _ => exact Or.inl (hsync ▸ hp)
  | round hsync _ => rcases hsync with hsync | hsync <;> simp [hsync, Sync.pending] at hp
  | dup hsync hlist _ =>
    rw [hsync, Sync.pending_next] at hp
    obtain ⟨c, hc, rfl⟩ := List.mem_map.mp hp
    exact Or.inr ⟨hlist, c, hc, rfl⟩
  | answer code hwas hsync _ =>
    rw [hsync] at hp
    rw [hwas]
    exact Or.inl hp
  | apply hwas hsync _ =>
    rw [hwas]
    rcases hsync with hsync | ⟨client, hsync⟩
    · rw [hsync, Sync.pending_next] at hp
      exact Or.inl (List.mem_cons_of_mem _ hp)
    · rw [hsync] at hp
      exact Or.inl (List.mem_cons_of_mem _ hp)
  | logout hwas hsync _ =>
    rw [hsync, Sync.pending_next] at hp
    rw [hwas]
    exact Or.inl hp

/-- An answer that the sync thread holds was there before, or has just been recorded. -/
theorem SyncMove.answered {cfg : Config} {s s' : State} (h : SyncMove cfg s s') {p1 : Client}
    {rest : List Client} {code : Int} (hs : s'.sync = .answered p1 rest code) :
    s.sync = .answered p1 rest code ∨
      (cfg.hasAuthServer = true → ⟨.counters, p1.ip, p1.mac, p1.token, code⟩ ∈ s'.asked) := by
  have hnext : ∀ w, Sync.next w ≠ .answered p1 rest code := by
    intro w
    cases w <;> simp [Sync.next]
  cases h with
  | kept hsync _ => exact Or.inl (hsync ▸ hs)
  | round hsync _ => rcases hsync with hsync | hsync <;> simp [hsync] at hs
  | dup hsync _ _ => exact absurd (hsync ▸ hs) (hnext _)
  | answer code' _ hsync hasked =>
    rw [hsync] at hs
    injection hs with h1 h2 h3
    subst h1 h3
    refine Or.inr fun hserver => ?_
    rw [hasked, if_pos hserver]
    exact List.mem_cons_self
  | apply _ hsync _ =>
    rcases hsync with hsync | ⟨client, hsync⟩
    · exact absurd (hsync ▸ hs) (hnext _)
    · simp [hsync] at hs
  | logout _ hsync _ => exact absurd (hsync ▸ hs) (hnext _)

/-! ## Copies -/

/-- Whatever record of the list has the id of the copy `p` has its ip and mac. -/
structure CopyOf (l : ClientList) (p : Client) : Prop where
  bound : p.id < l.clientId
  same : ∀ d ∈ l.clients, d.id = p.id → d.ip = p.ip ∧ d.mac = p.mac

theorem ClientList.Wf.copyOf_dup {l : ClientList} (h : l.Wf) {c : Client} (hc : c ∈ l.clients) :
    CopyOf l (clientDup c) where
  bound := h.bound c hc
  same d hd hid := by
    obtain rfl : d = c := h.id_inj hd hc hid
    exact ⟨rfl, rfl⟩

section Effects
variable {k : Cause} {l l' : ClientList} {t t' : Tables Chain}

/-- Every member of the new list is new, or had its id, ip and mac before. -/
theorem Effect.members (h : Effect k l t l' t') :
    l.clientId ≤ l'.clientId ∧ ∀ d ∈ l'.clients, l.clientId ≤ d.id ∨
      ∃ e ∈ l.clients, e.id = d.id ∧ e.ip = d.ip ∧ e.mac = d.mac := by
  have hkept : ∀ d ∈ l.clients, l.clientId ≤ d.id ∨
      ∃ e ∈ l.clients, e.id = d.id ∧ e.ip = d.ip ∧ e.mac = d.mac :=
    fun d hd => Or.inr ⟨d, hd, rfl, rfl, rfl⟩
  -- a rewritten record keeps the place, ip and mac of the one it is made from
  have hwritten : ∀ {c e : Client}, c ∈ l.clients → e.id = c.id → e.ip = c.ip → e.mac = c.mac →
      ∀ d ∈ (clientListWrite l e).clients, l.clientId ≤ d.id ∨
        ∃ e ∈ l.clients, e.id = d.id ∧ e.ip = d.ip ∧ e.mac = d.mac := by
    intro c e hc hid hip hmac d hd
    rcases mem_clientListWrite hd with rfl | ⟨hd, _⟩
    · exact Or.inr ⟨c, hc, hid.symm, hip.symm, hmac.symm⟩
    · exact hkept d hd
  cases h with
  | same => exact ⟨Nat.le_refl _, hkept⟩
  | add hnew token now =>
    refine ⟨Nat.le_succ _, fun d hd => ?_⟩
    rcases List.mem_cons.mp hd with rfl | hd
    · exact Or.inl (Nat.le_refl _)
    · exact hkept d hd
  | write hc hd htok => exact ⟨Nat.le_refl _, hwritten hc hd.id hd.ip hd.mac⟩
  | allow hc hd htok hacts hmark => exact ⟨Nat.le_refl _, hwritten hc hd.id hd.ip hd.mac⟩
  | deny hc hd htok => exact ⟨Nat.le_refl _, hwritten hc hd.id hd.ip hd.mac⟩
  | remove hc => exact ⟨Nat.le_refl _, fun d hd => hkept d (mem_clientListRemove hd)⟩
  | prevent print ip hp => exact ⟨Nat.le_refl _, hkept⟩

theorem Effect.copyOf (h : Effect k l t l' t') {p : Client} (hp : CopyOf l p) :
    CopyOf l' p := by
  obtain ⟨hid, hmem⟩ := h.members
  refine ⟨Nat.lt_of_lt_of_le hp.bound hid, fun d hd heq => ?_⟩
  rcases hmem d hd with hnew | ⟨e, he, heid, heip, hemac⟩
  · exact absurd (heq ▸ hnew) (Nat.not_le_of_lt hp.bound)
  · obtain ⟨h1, h2⟩ := hp.same e he (heid.trans heq)
    exact ⟨heip ▸ h1, hemac ▸ h2⟩

end Effects

/-- The copy of a client that a request handler works with. -/
def Thread.copy : Thread → Option Client
  | .asking _ _ client _ => some client
  | .answered _ _ client _ _ => some client
  | _ => none

/-- Every copy that a thread works with still says where its record belongs. -/
structure Copies (s : State) : Prop where
  wf : s.list.Wf
  threads : ∀ th ∈ s.threads, ∀ p ∈ th.copy, CopyOf s.list p
  pending : ∀ p ∈ s.sync.pending, CopyOf s.list p

theorem Fresh.copies {s : State} (h : Fresh s) : Copies s where
  wf := h.wf
  threads := by simp [h.threads]
  pending := by simp [h.sync, Sync.pending]

theorem step_copies {cfg : Config} {s s' : State} {a : Action} (h : step cfg s a = some s')
    (hc : Copies s) : Copies s' := by
  have heff := step_effect h
  refine ⟨heff.wf hc.wf, ?_, ?_⟩
  · intro th hth p hp
    cases step_thread h hth with
    | kept hold => exact heff.copyOf (hc.threads th hold p hp)
    | login addr mac token => cases hp
    | looked ha hwas hfind hlist =>
      obtain rfl := Option.some.inj hp
      rw [hlist]
      exact hc.wf.copyOf_dup (mem_of_findByIp hfind).1
    | answered hasking hasked => exact heff.copyOf (hc.threads _ hasking p hp)
    | logout client => cases hp
  · intro p hp
    rcases (step_sync h).pending hp with hold | ⟨hlist, c, hcl, rfl⟩
    · exact heff.copyOf (hc.pending p hold)
    · rw [hlist]
      exact hc.wf.copyOf_dup hcl

theorem run_copies {cfg : Config} {s0 s : State} {as : List Action} (h0 : Copies s0)
    (hrun : run (step cfg) s0 as = some s) : Copies s :=
  run_inv Copies (fun _ _ _ hc hs => step_copies hs hc) h0 hrun

/-- The record a step acts on has the ip and mac of the copy that was asked about. -/
theorem CopyOf.find_eq {l : ClientList} {p d : Client} (h : CopyOf l p)
    (hf : clientListFindByClient l p = some d) : d.ip = p.ip ∧ d.mac = p.mac :=
  h.same d (mem_of_findByClient hf).1 (mem_of_findByClient hf).2

end Wifidog
