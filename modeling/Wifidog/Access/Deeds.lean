/-
  What one step does to the client list and the firewall, as a value.

  `deedOf` reads the step off the source: which record it works on and what it does with it.
  A deed says everything about the list and the tables afterwards (`Deed.list`,
  `Deed.tables`), and every record it names was found in the list by the same step
  (`Deed.Valid`). `step_deed` connects it to the steps.

  `Effect` says which deeds a step may do and why; a deed is what one given step does. The
  modules on traffic and on the life of a session need the latter: who is touched, and which
  rules belong to whom.
-/
import Wifidog.Access.Effect

namespace Wifidog

open CText Netfilter

inductive Deed where
  | none
  | add (ip mac token : Text) (now : Int64)
  /-- a login request that changes nothing but the token -/
  | retoken (c : Client) (token : Text)
  /-- a row of a counter listing -/
  | count (c : Client) (counters : Counters)
  /-- `fw_allow`; `cleared` says that the counters are cleared first -/
  | allow (c : Client) (token : Text) (mark : Int) (cleared : Bool)
  /-- `fw_deny` of a record that stays in the list -/
  | deny (c : Client) (token : Text)
  /-- `fw_deny`, and the record is taken out of the list -/
  | remove (c : Client)
  /-- the preventive deletion -/
  | prevent (print : Rule Chain → Text) (ip : Text)

namespace Deed

/-- The record that `fw_allow` gets. -/
def allowed (c : Client) (token : Text) (cleared : Bool) : Client :=
  { c with token := token, counters := if cleared then c.counters.cleared else c.counters }

def list : Deed → ClientList → ClientList
  | none, l => l
  | add ip mac token now, l => clientListAdd l ip mac token now
  | retoken c token, l => clientListWrite l { c with token := token }
  | count c counters, l => clientListWrite l { c with counters := counters }
  | allow c token mark cleared, l =>
    clientListWrite l { allowed c token cleared with fwConnectionState := mark }
  | deny c token, l => clientListWrite l { c with token := token, fwConnectionState := fwMarkNone }
  | remove c, l => clientListRemove l c
  | prevent _ _, l => l

def tables : Deed → Tables Chain → Tables Chain
  | allow c token mark cleared, t => (fwAllow t (allowed c token cleared) mark).1
  | deny c token, t => (fwDeny t { c with token := token }).1
  | remove c, t => (fwDeny t c).1
  | prevent print ip, t => preventiveDelete print t ip
  | _, t => t

/-- The record that the deed works on. -/
def client? : Deed → Option Client
  | retoken c _ => some c
  | count c _ => some c
  | allow c _ _ _ => some c
  | deny c _ => some c
  | remove c => some c
  | _ => Option.none

/-- The client whose counters a deed clears. -/
def clears : Deed → Option Nat
  | allow c _ _ true => some c.id
  | _ => Option.none

/-- The counters of a client after a deed. -/
def onCounters : Deed → Client → Counters
  | count c0 counters, c => if c.id = c0.id then counters else c.counters
  | d, c => if d.clears = some c.id then c.counters.cleared else c.counters

structure Valid (d : Deed) (l : ClientList) : Prop where
  member : ∀ c ∈ d.client?, c ∈ l.clients
  new : ∀ ip mac token now, d = add ip mac token now → clientListFind l ip mac = Option.none
  mark : ∀ c token mark cleared, d = allow c token mark cleared → mark ≠ fwMarkNone
  unlisted : ∀ print ip, d = prevent print ip → clientListFindByIp l ip = Option.none

end Deed

/-- The switch of `authenticate_client`. -/
def authenticateDeed (tmp : Client) (token : Text) (authcode : Int) : Deed :=
  if authcode = authDenied then .deny tmp token
  else if authcode = authValidation then .allow tmp token fwMarkProbation false
  else if authcode = authAllowed then .allow tmp token fwMarkKnown false
  else .retoken tmp token

/-- The switch of `fw_sync_with_authserver`. -/
def syncDeed (tmp : Client) (authcode : Int) : Deed :=
  if authcode = authDenied ∨ authcode = authValidationFailed then .remove tmp
  else if authcode = authAllowed then
    if tmp.fwConnectionState ≠ fwMarkKnown then
      .allow tmp tmp.token fwMarkKnown (tmp.fwConnectionState != fwMarkProbation)
    else .none
  else .none

/-- What a step does. -/
def deedOf (cfg : Config) (s : State) : Action → Deed
  | .httpCallbackAuth addr arp token logout now =>
    match token, arp with
    | some token, some mac =>
      match clientListFind s.list addr mac with
      | none => .add addr mac token now
      | some client => if logout then .remove client else .none
    | _, _ => .none
  | .authenticateApply i =>
    match s.threads[i]? with
    | some (.answered _ _ client token authcode) =>
      match clientListFindByClient s.list client with
      | none => .none
      | some tmp => authenticateDeed tmp token authcode
    | _ => .none
  | .httpCallbackDisconnect mac token authUser authPassword =>
    if cfg.httpdusername.any fun user => user != authUser || cfg.httpdpassword != authPassword then
      .none
    else
      match token, mac with
      | some token, some mac =>
        match clientListFindByMac s.list mac with
        | none => .none
        | some client => if client.token != token then .none else .remove client
      | _, _ => .none
  | .wdctlReset arg =>
    match (clientListFindByIp s.list arg).orElse fun _ => clientListFindByMac s.list arg with
    | none => .none
    | some node => .remove node
  | .countersRow print dir ip counter now =>
    match clientListFindByIp s.list ip with
    | some p1 => .count p1 (p1.counters.read dir counter now)
    | none => .prevent print ip
  | .syncApply now =>
    match s.sync with
    | .answered p1 _ authcode =>
      match clientListFindByClient s.list p1 with
      | none => .none
      | some tmp =>
        if timedOut cfg p1 now then .remove tmp
        else if cfg.hasAuthServer then syncDeed tmp authcode
        else .none
    | _ => .none
  | _ => .none

theorem deedOf_countersRow_some (cfg : Config) {s : State} {ip : Text} {p1 : Client}
    (hf : clientListFindByIp s.list ip = some p1) (print : Rule Chain → Text) (dir : Direction)
    (counter : UInt64) (now : Int64) :
    deedOf cfg s (.countersRow print dir ip counter now) =
      .count p1 (p1.counters.read dir counter now) := by
  simp only [deedOf, hf]

theorem deedOf_countersRow_none (cfg : Config) {s : State} {ip : Text}
    (hf : clientListFindByIp s.list ip = none) (print : Rule Chain → Text) (dir : Direction)
    (counter : UInt64) (now : Int64) :
    deedOf cfg s (.countersRow print dir ip counter now) = .prevent print ip := by
  simp only [deedOf, hf]

/-- The step does this deed. -/
structure Does (s s' : State) (d : Deed) : Prop where
  valid : d.Valid s.list
  list : s'.list = d.list s.list
  tables : s'.tables = d.tables s.tables

/-! ## Which deeds are valid -/

section Valid
variable {l : ClientList}

theorem Deed.valid_none : Deed.none.Valid l :=
  ⟨by simp [Deed.client?], by simp, by simp, by simp⟩

theorem Deed.valid_add {ip mac : Text} (h : clientListFind l ip mac = Option.none) (token : Text)
    (now : Int64) : (Deed.add ip mac token now).Valid l := by
  refine ⟨by simp [Deed.client?], ?_, by simp, by simp⟩
  intro _ _ _ _ heq
  injection heq with h1 h2
  rw [← h1, ← h2]
  exact h

theorem Deed.valid_remove {c : Client} (h : c ∈ l.clients) : (Deed.remove c).Valid l :=
  ⟨by simpa [Deed.client?] using h, by simp, by simp, by simp⟩

theorem Deed.valid_count {c : Client} (h : c ∈ l.clients) (counters : Counters) :
    (Deed.count c counters).Valid l :=
  ⟨by simpa [Deed.client?] using h, by simp, by simp, by simp⟩

theorem Deed.valid_allow {c : Client} (h : c ∈ l.clients) (token : Text) {mark : Int}
    (hmark : mark ≠ fwMarkNone) (cleared : Bool) : (Deed.allow c token mark cleared).Valid l := by
  refine ⟨by simpa [Deed.client?] using h, by simp, ?_, by simp⟩
  intro _ _ _ _ heq
  injection heq with _ _ h3 _
  rw [← h3]
  exact hmark

theorem authenticateDeed_valid {tmp : Client} (h : tmp ∈ l.clients) (token : Text)
    (authcode : Int) : (authenticateDeed tmp token authcode).Valid l := by
  unfold authenticateDeed
  split
  · exact ⟨by simpa [Deed.client?] using h, by simp, by simp, by simp⟩
  · split
    · exact Deed.valid_allow h token (by decide) false
    · split
      · exact Deed.valid_allow h token (by decide) false
      · exact ⟨by simpa [Deed.client?] using h, by simp, by simp, by simp⟩

theorem syncDeed_valid {tmp : Client} (h : tmp ∈ l.clients) (authcode : Int) :
    (syncDeed tmp authcode).Valid l := by
  unfold syncDeed
  split
  · exact Deed.valid_remove h
  · split
    · split
      · exact Deed.valid_allow h tmp.token (by decide) _
      · exact Deed.valid_none
    · exact Deed.valid_none

end Valid

/-! ## Deeds that change counters -/

/-- The deeds that are done for the rows of a listing only. -/
def Deed.ofRow : Deed → Bool
  | count _ _ => true
  | prevent _ _ => true
  | _ => false

/-- A deed of `authenticate_client` or of the sync round is no row's and adds no record. -/
structure Deed.OfAnswer (d : Deed) : Prop where
  ofRow : d.ofRow = false
  adds : ∀ ip mac token now, d ≠ .add ip mac token now

theorem authenticateDeed_ofAnswer (tmp : Client) (token : Text) (authcode : Int) :
    (authenticateDeed tmp token authcode).OfAnswer ∧
      (authenticateDeed tmp token authcode).clears = none := by
  unfold authenticateDeed
  split
  · exact ⟨⟨rfl, fun _ _ _ _ h => by cases h⟩, rfl⟩
  · split
    · exact ⟨⟨rfl, fun _ _ _ _ h => by cases h⟩, rfl⟩
    · split <;> exact ⟨⟨rfl, fun _ _ _ _ h => by cases h⟩, rfl⟩

theorem syncDeed_ofAnswer (tmp : Client) (authcode : Int) :
    (syncDeed tmp authcode).OfAnswer ∧
      ∀ id, (syncDeed tmp authcode).clears = some id → id = tmp.id := by
  unfold syncDeed
  split
  · exact ⟨⟨rfl, fun _ _ _ _ h => by cases h⟩, fun _ h => by cases h⟩
  · split
    · split
      · refine ⟨⟨rfl, fun _ _ _ _ h => by cases h⟩, fun id h => ?_⟩
        cases hcleared : tmp.fwConnectionState != fwMarkProbation with
        | false => rw [hcleared] at h; cases h
        | true => rw [hcleared] at h; exact (Option.some.inj h).symm
      · exact ⟨⟨rfl, fun _ _ _ _ h => by cases h⟩, fun _ h => by cases h⟩
    · exact ⟨⟨rfl, fun _ _ _ _ h => by cases h⟩, fun _ h => by cases h⟩

/-- Which action does which deed. -/
inductive DeedSource (s : State) : Action → Deed → Prop
  | nothing {a : Action} : DeedSource s a .none
  | login {ip mac token : Text} {logout : Bool} {now : Int64} :
      DeedSource s (.httpCallbackAuth ip (some mac) (some token) logout now)
        (.add ip mac token now)
  | logout {a : Action} {client : Client} : DeedSource s a (.remove client)
  | answer {a : Action} {tmp : Client} {token : Text} {code : Int} :
      DeedSource s a (authenticateDeed tmp token code)
  | counted {print : Rule Chain → Text} {dir : Direction} {ip : Text} {counter : UInt64}
      {now : Int64} {p1 : Client} (hf : clientListFindByIp s.list ip = some p1) :
      DeedSource s (.countersRow print dir ip counter now)
        (.count p1 (p1.counters.read dir counter now))
  | prevented {print : Rule Chain → Text} {dir : Direction} {ip : Text} {counter : UInt64}
      {now : Int64} : DeedSource s (.countersRow print dir ip counter now) (.prevent print ip)
  | sync {now : Int64} {p1 tmp : Client} {rest : List Client} {code : Int}
      (hsync : s.sync = .answered p1 rest code)
      (hf : clientListFindByClient s.list p1 = some tmp) :
      DeedSource s (.syncApply now) (syncDeed tmp code)

theorem deedOf_source (cfg : Config) (s : State) (a : Action) :
    DeedSource s a (deedOf cfg s a) := by
  cases a with
  | httpCallbackAuth addr arp token logout now =>
    simp only [deedOf]
    split
    · split
      · exact .login
      · split
        · exact .logout
        · exact .nothing
    · exact .nothing
  | authenticateApply i =>
    simp only [deedOf]
    split
    · split
      · exact .nothing
      · exact .answer
    · exact .nothing
  | httpCallbackDisconnect mac token user pass =>
    simp only [deedOf]
    split
    · exact .nothing
    · split
      · split
        · exact .nothing
        · split
          · exact .nothing
          · exact .logout
      · exact .nothing
  | wdctlReset arg =>
    simp only [deedOf]
    split
    · exact .nothing
    · exact .logout
  | countersRow print dir ip counter now =>
    simp only [deedOf]
    split
    · next p1 hf => exact .counted hf
    · exact .prevented
  | syncApply now =>
    simp only [deedOf]
    split
    · next p1 rest code hsync =>
      split
      · exact .nothing
      · next tmp hf =>
        split
        · exact .logout
        · split
          · exact .sync hsync hf
          · exact .nothing
    · exact .nothing
  | _ => exact .nothing

/-- Where the clearing of counters comes from. -/
theorem deedOf_clears {cfg : Config} {s : State} {a : Action} {id : Nat}
    (h : (deedOf cfg s a).clears = some id) :
    ∃ now p1 rest code, a = .syncApply now ∧ s.sync = .answered p1 rest code ∧ id = p1.id := by
  have hsource := deedOf_source cfg s a
  generalize deedOf cfg s a = d at h hsource
  cases hsource with
  | answer =>
    rw [(authenticateDeed_ofAnswer _ _ _).2] at h
    cases h
  | sync hsync hf =>
    have hid := (syncDeed_ofAnswer _ _).2 id h
    exact ⟨_, _, _, _, rfl, hsync, hid.trans (mem_of_findByClient hf).2⟩
  | _ => cases h

/-- Where the deeds of the listing come from. -/
theorem deedOf_ofRow {cfg : Config} {s : State} {a : Action} (h : (deedOf cfg s a).ofRow = true) :
    ∃ print dir ip counter now, a = .countersRow print dir ip counter now := by
  have hsource := deedOf_source cfg s a
  generalize deedOf cfg s a = d at h hsource
  cases hsource with
  | answer =>
    rw [(authenticateDeed_ofAnswer _ _ _).1.ofRow] at h
    cases h
  | counted hf => exact ⟨_, _, _, _, _, rfl⟩
  | prevented => exact ⟨_, _, _, _, _, rfl⟩
  | sync =>
    rw [(syncDeed_ofAnswer _ _).1.ofRow] at h
    cases h
  | _ => cases h

theorem deedOf_count {cfg : Config} {s : State} {a : Action} {c : Client} {counters : Counters}
    (h : deedOf cfg s a = .count c counters) :
    ∃ print dir ip counter now, a = .countersRow print dir ip counter now ∧
      clientListFindByIp s.list ip = some c ∧ counters = c.counters.read dir counter now := by
  have hrow : (deedOf cfg s a).ofRow = true := by
    rw [h]
    rfl
  obtain ⟨print, dir, ip, counter, now, rfl⟩ := deedOf_ofRow hrow
  simp only [deedOf] at h
  split at h
  · next p1 hf =>
    injection h with h1 h2
    subst h1
    exact ⟨print, dir, ip, counter, now, rfl, hf, h2.symm⟩
  · cases h

/-- Where a new record comes from. -/
theorem deedOf_add {cfg : Config} {s : State} {a : Action} {ip mac token : Text} {now : Int64}
    (h : deedOf cfg s a = .add ip mac token now) :
    ∃ logout, a = .httpCallbackAuth ip (some mac) (some token) logout now := by
  have hsource := deedOf_source cfg s a
  generalize deedOf cfg s a = d at h hsource
  cases hsource with
  | login =>
    injection h with h1 h2 h3 h4
    subst h1 h2 h3 h4
    exact ⟨_, rfl⟩
  | answer => exact absurd h ((authenticateDeed_ofAnswer _ _ _).1.adds _ _ _ _)
  | sync => exact absurd h ((syncDeed_ofAnswer _ _).1.adds _ _ _ _)
  | _ => cases h

/-! ## The members after a deed -/

/-- Every member of the new list has just been added, or was a member, and the deed says what
    became of its counters. -/
theorem Deed.members {d : Deed} {l : ClientList} (hv : d.Valid l) {c' : Client}
    (h : c' ∈ (d.list l).clients) :
    (∃ now, c'.id = l.clientId ∧ c'.counters = .fresh now) ∨
    ∃ c ∈ l.clients, c'.id = c.id ∧ c'.counters = d.onCounters c := by
  -- a record that is not the one written stays as it is
  have hwrite : ∀ {c e : Client}, c' ∈ (clientListWrite l e).clients → c ∈ d.client? →
      e.id = c.id → e.counters = d.onCounters c →
      (∀ f ∈ l.clients, f.id ≠ c.id → d.onCounters f = f.counters) →
      ∃ c ∈ l.clients, c'.id = c.id ∧ c'.counters = d.onCounters c := by
    intro c e hmem hc hid hcounters hother
    rcases mem_clientListWrite hmem with rfl | ⟨hmem, hne⟩
    · exact ⟨c, hv.member c hc, hid, hcounters⟩
    · exact ⟨c', hmem, rfl, (hother c' hmem (hid ▸ hne)).symm⟩
  cases d with
  | none => exact Or.inr ⟨c', h, rfl, rfl⟩
  | add ip mac token now =>
    rcases List.mem_cons.mp h with rfl | h
    · exact Or.inl ⟨now, rfl, rfl⟩
    · exact Or.inr ⟨c', h, rfl, rfl⟩
  | retoken c token => exact Or.inr (hwrite h rfl rfl rfl fun _ _ _ => rfl)
  | count c counters =>
    refine Or.inr (hwrite h rfl rfl ?_ fun f _ hne => ?_)
    · simp [Deed.onCounters]
    · simp [Deed.onCounters, hne]
  | allow c token mark cleared =>
    refine Or.inr (hwrite h rfl rfl ?_ fun f _ hne => ?_)
    · cases cleared <;> simp [Deed.onCounters, Deed.clears, Deed.allowed]
    · cases cleared <;> simp [Deed.onCounters, Deed.clears, Ne.symm hne]
  | deny c token => exact Or.inr (hwrite h rfl rfl rfl fun _ _ _ => rfl)
  | remove c => exact Or.inr ⟨c', mem_clientListRemove h, rfl, rfl⟩
  | prevent print ip => exact Or.inr ⟨c', h, rfl, rfl⟩

/-- A member of the new list has just been added, or it has the addresses of an old one. -/
theorem Deed.addresses {d : Deed} {l : ClientList} (hv : d.Valid l) {c' : Client}
    (h : c' ∈ (d.list l).clients) :
    (∃ token now, d = .add c'.ip c'.mac token now) ∨
      ∃ c ∈ l.clients, c'.ip = c.ip ∧ c'.mac = c.mac := by
  have hwrite : ∀ {c e : Client}, c' ∈ (clientListWrite l e).clients → c ∈ d.client? →
      e.ip = c.ip → e.mac = c.mac → ∃ c ∈ l.clients, c'.ip = c.ip ∧ c'.mac = c.mac := by
    intro c e hmem hc hip hmac
    rcases mem_clientListWrite hmem with rfl | ⟨hmem, _⟩
    · exact ⟨c, hv.member c hc, hip, hmac⟩
    · exact ⟨c', hmem, rfl, rfl⟩
  cases d with
  | none => exact Or.inr ⟨c', h, rfl, rfl⟩
  | add ip mac token now =>
    rcases List.mem_cons.mp h with rfl | h
    · exact Or.inl ⟨token, now, rfl⟩
    · exact Or.inr ⟨c', h, rfl, rfl⟩
  | retoken c token => exact Or.inr (hwrite h rfl rfl rfl)
  | count c counters => exact Or.inr (hwrite h rfl rfl rfl)
  | allow c token mark cleared => exact Or.inr (hwrite h rfl rfl rfl)
  | deny c token => exact Or.inr (hwrite h rfl rfl rfl)
  | remove c => exact Or.inr ⟨c', mem_clientListRemove h, rfl, rfl⟩
  | prevent print ip => exact Or.inr ⟨c', h, rfl, rfl⟩

/-! ## The two switches -/

theorem authenticateSwitch_deed (l : ClientList) (t : Tables Chain) (tmp : Client) (token : Text)
    (authcode : Int) :
    clientListWrite l (authenticateSwitch t { tmp with token := token } authcode).2 =
        (authenticateDeed tmp token authcode).list l ∧
      (authenticateSwitch t { tmp with token := token } authcode).1 =
        (authenticateDeed tmp token authcode).tables t := by
  unfold authenticateSwitch authenticateDeed
  split
  · exact ⟨rfl, rfl⟩
  · split
    · exact ⟨rfl, rfl⟩
    · split <;> exact ⟨rfl, rfl⟩

theorem syncSwitch_deed (l : ClientList) (t : Tables Chain) (tmp : Client) (authcode : Int) :
    (syncSwitch l t tmp authcode).1 = (syncDeed tmp authcode).list l ∧
      (syncSwitch l t tmp authcode).2 = (syncDeed tmp authcode).tables t := by
  unfold syncSwitch syncDeed
  split
  · exact ⟨rfl, rfl⟩
  · split
    · split
      · by_cases hp : tmp.fwConnectionState ≠ fwMarkProbation
        · rw [if_pos hp, bne_iff_ne.mpr hp]
          exact ⟨rfl, rfl⟩
        · have hfalse : (tmp.fwConnectionState != fwMarkProbation) = false := by simpa using hp
          rw [if_neg hp, hfalse]
          exact ⟨rfl, rfl⟩
      · exact ⟨rfl, rfl⟩
    · exact ⟨rfl, rfl⟩

/-! ## Every step -/

theorem Does.none {s s' : State} (h : s'.list = s.list ∧ s'.tables = s.tables) :
    Does s s' .none :=
  ⟨Deed.valid_none, h.1, h.2⟩

theorem logoutHandler_does (cfg : Config) (s : State) {c : Client} (hc : c ∈ s.list.clients) :
    Does s (s.logoutHandler cfg c) (.remove c) :=
  ⟨Deed.valid_remove hc, rfl, rfl⟩

theorem httpCallbackAuth_does (cfg : Config) (s : State) (addr : Text) (arp token : Option Text)
    (logout : Bool) (now : Int64) :
    Does s (httpCallbackAuth cfg s addr arp token logout now)
      (deedOf cfg s (.httpCallbackAuth addr arp token logout now)) := by
  unfold httpCallbackAuth
  split
  · next token mac =>
    cases hf : clientListFind s.list addr mac with
    | none =>
      simp only [deedOf, hf]
      cases logout <;> exact ⟨Deed.valid_add hf token now, rfl, rfl⟩
    | some client =>
      simp only [deedOf, hf]
      cases logout with
      | false => exact ⟨Deed.valid_none, rfl, rfl⟩
      | true => exact logoutHandler_does cfg s (mem_of_find hf).1
  · next hmissing =>
    have hnone : deedOf cfg s (.httpCallbackAuth addr arp token logout now) = .none := by
      cases token with
      | none => rfl
      | some token =>
        cases arp with
        | none => rfl
        | some mac => exact absurd rfl (hmissing token mac rfl)
    rw [hnone]
    exact Does.none ⟨rfl, rfl⟩

theorem httpCallbackDisconnect_does (cfg : Config) (s : State) (mac token : Option Text)
    (user pass : Text) :
    Does s (httpCallbackDisconnect cfg s mac token user pass)
      (deedOf cfg s (.httpCallbackDisconnect mac token user pass)) := by
  unfold httpCallbackDisconnect
  split
  · next hauth =>
    simp only [deedOf, hauth, if_true]
    exact Does.none ⟨rfl, rfl⟩
  · next hauth =>
    simp only [deedOf, if_neg hauth]
    cases token with
    | none => exact Does.none ⟨rfl, rfl⟩
    | some token =>
      cases mac with
      | none => exact Does.none ⟨rfl, rfl⟩
      | some mac =>
        dsimp only
        cases hf : clientListFindByMac s.list mac with
        | none => exact Does.none ⟨rfl, rfl⟩
        | some client =>
          dsimp only
          by_cases htok : client.token = token
          · simp only [htok, bne_self_eq_false, Bool.false_eq_true, if_false]
            exact logoutHandler_does cfg s (mem_of_findByMac hf).1
          · simp only [bne_iff_ne.mpr htok, if_true]
            exact Does.none ⟨rfl, rfl⟩

theorem wdctlReset_does (cfg : Config) (s : State) (arg : Text) :
    Does s (wdctlReset cfg s arg) (deedOf cfg s (.wdctlReset arg)) := by
  unfold wdctlReset
  simp only [deedOf]
  cases hip : clientListFindByIp s.list arg with
  | some node => exact logoutHandler_does cfg s (mem_of_findByIp hip).1
  | none =>
    cases hmac : clientListFindByMac s.list arg with
    | some node => exact logoutHandler_does cfg s (mem_of_findByMac hmac).1
    | none => exact Does.none ⟨rfl, rfl⟩

theorem countersRow_does (cfg : Config) (print : Rule Chain → Text) (s : State) (dir : Direction)
    (ip : Text) (counter : UInt64) (now : Int64) :
    Does s { s with
        list := (countersRow print s.list s.tables dir ip counter now).1
        tables := (countersRow print s.list s.tables dir ip counter now).2 }
      (deedOf cfg s (.countersRow print dir ip counter now)) := by
  unfold countersRow
  cases hf : clientListFindByIp s.list ip with
  | some p1 =>
    rw [deedOf_countersRow_some cfg hf]
    exact ⟨Deed.valid_count (mem_of_findByIp hf).1 _, rfl, rfl⟩
  | none =>
    rw [deedOf_countersRow_none cfg hf]
    refine ⟨⟨by simp [Deed.client?], by simp, by simp, ?_⟩, rfl, rfl⟩
    intro _ _ heq
    injection heq with _ h2
    rw [← h2]
    exact hf

theorem authenticateApply_does (cfg : Config) {s s' : State} {i : Nat}
    (h : authenticateApply s i = some s') : Does s s' (deedOf cfg s (.authenticateApply i)) := by
  obtain ⟨addr, mac, client, token, code, hth, ⟨hf, rfl⟩ | ⟨tmp, hf, rfl⟩⟩ :=
    authenticateApply_cases h
  · simp only [deedOf, hth, hf]
    exact Does.none ⟨rfl, rfl⟩
  · simp only [deedOf, hth, hf]
    have hswitch := authenticateSwitch_deed s.list s.tables tmp token code
    exact ⟨authenticateDeed_valid (mem_of_findByClient hf).1 token code, hswitch.1, hswitch.2⟩

theorem syncApply_does {cfg : Config} {s s' : State} {now : Int64}
    (h : syncApply cfg s now = some s') : Does s s' (deedOf cfg s (.syncApply now)) := by
  obtain ⟨p1, rest, code, hsync, ⟨hf, rfl⟩ |
      ⟨tmp, hf, ⟨ht, rfl⟩ | ⟨ht, hs, rfl⟩ | ⟨ht, hs, rfl⟩⟩⟩ := syncApply_cases h
  · simp only [deedOf, hsync, hf]
    exact Does.none ⟨rfl, rfl⟩
  · simp only [deedOf, hsync, hf, ht, if_true]
    exact ⟨Deed.valid_remove (mem_of_findByClient hf).1, rfl, rfl⟩
  · simp only [deedOf, hsync, hf, ht, hs, if_true, Bool.false_eq_true, if_false]
    have hswitch := syncSwitch_deed s.list s.tables tmp code
    exact ⟨syncDeed_valid (mem_of_findByClient hf).1 code, hswitch.1, hswitch.2⟩
  · simp only [deedOf, hsync, hf, ht, hs, Bool.false_eq_true, if_false]
    exact Does.none ⟨rfl, rfl⟩

/-- Every step does its deed. -/
theorem step_deed {cfg : Config} {s s' : State} {a : Action} (h : step cfg s a = some s') :
    Does s s' (deedOf cfg s a) := by
  cases a with
  | httpCallbackAuth addr arp token logout now =>
    obtain rfl := Option.some.inj h
    exact httpCallbackAuth_does cfg s addr arp token logout now
  | authenticateApply i => exact authenticateApply_does cfg h
  | httpCallbackDisconnect mac token user pass =>
    obtain rfl := Option.some.inj h
    exact httpCallbackDisconnect_does cfg s mac token user pass
  | wdctlReset arg =>
    obtain rfl := Option.some.inj h
    exact wdctlReset_does cfg s arg
  | countersRow print dir ip counter now =>
    obtain ⟨_, rfl⟩ := countersRow_cases h
    exact countersRow_does cfg print s dir ip counter now
  | syncApply now => exact syncApply_does h
  | _ => exact Does.none (step_same rfl h)

end Wifidog
