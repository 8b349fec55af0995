/-
  What one step can do to the client list and the firewall.

  `Effect` lists the ways: a record is added, rewritten with the same access, granted,
  revoked in place, revoked and taken out, or rules are deleted for an address without a
  client. `step_effect` shows that every step of the system is one of these; a grant happens
  only where the step acts on an answer (`actsOn`) that grants that mark (`grantMark`), and a
  record gets a new token only from a login request (`retokensAt`).

  The other modules of this directory argue about `Effect` and do not unfold the steps.
-/
import Wifidog.Model.System

namespace Wifidog

open CText Netfilter

/-- The answer that a step acts on and the record it acts for: the second section of
    `authenticate_client`, and the switch of `fw_sync_with_authserver`. -/
def actsOn (cfg : Config) (s : State) : Action → Option (Int × Client)
  | .authenticateApply i =>
    match s.threads[i]? with
    | some (.answered _ _ client _ authcode) =>
      (clientListFindByClient s.list client).map fun tmp => (authcode, tmp)
    | _ => none
  | .syncApply now =>
    match s.sync with
    | .answered p1 _ authcode =>
      if !timedOut cfg p1 now && cfg.hasAuthServer then
        (clientListFindByClient s.list p1).map fun tmp => (authcode, tmp)
      else none
    | _ => none
  | _ => none

/-- The step is a row of a counter listing whose address belongs to no client. -/
def preventsAt (s : State) : Action → Prop
  | .countersRow _ _ ip _ _ => clientListFindByIp s.list ip = none
  | _ => False

/-- The step gives the record `c` the token of a login request. -/
def retokensAt (s : State) (a : Action) (c : Client) (token : Text) : Prop :=
  ∃ i addr mac client code, a = .authenticateApply i ∧
    s.threads[i]? = some (.answered addr mac client token code) ∧
    clientListFindByClient s.list client = some c

/-- What can bring about an effect. -/
structure Cause where
  acts : Option (Int × Client)
  prevents : Prop
  retokens : Client → Text → Prop

def causeOf (cfg : Config) (s : State) (a : Action) : Cause :=
  ⟨actsOn cfg s a, preventsAt s a, retokensAt s a⟩

/-- The mark that an auth code stands for. -/
def grantMark (authcode : Int) : Option Int :=
  if authcode = authValidation then some fwMarkProbation
  else if authcode = authAllowed then some fwMarkKnown
  else none

theorem grantMark_ne_none {code mark : Int} (h : grantMark code = some mark) :
    mark ≠ fwMarkNone := by
  unfold grantMark at h
  split at h
  · obtain rfl := Option.some.inj h
    decide
  · split at h
    · obtain rfl := Option.some.inj h
      decide
    · cases h

/-- The fields that a client's rules are made of are the same. -/
structure SameAccess (c d : Client) : Prop where
  id : d.id = c.id
  ip : d.ip = c.ip
  mac : d.mac = c.mac
  state : d.fwConnectionState = c.fwConnectionState

inductive Effect (k : Cause) (l : ClientList) (t : Tables Chain) :
    ClientList → Tables Chain → Prop
  | same : Effect k l t l t
  | add {ip mac : Text} (hnew : clientListFind l ip mac = none) (token : Text) (now : Int64) :
    Effect k l t (clientListAdd l ip mac token now) t
  | write {c d : Client} (hc : c ∈ l.clients) (hd : SameAccess c d)
      (htok : d.token = c.token ∨ k.retokens c d.token) :
    Effect k l t (clientListWrite l d) t
  | allow {c d : Client} {code mark : Int} (hc : c ∈ l.clients) (hd : SameAccess c d)
      (htok : d.token = c.token ∨ k.retokens c d.token) (hacts : k.acts = some (code, c))
      (hmark : grantMark code = some mark) :
    Effect k l t (clientListWrite l (fwAllow t d mark).2.1) (fwAllow t d mark).1
  | deny {c d : Client} (hc : c ∈ l.clients) (hd : SameAccess c d)
      (htok : d.token = c.token ∨ k.retokens c d.token) :
    Effect k l t (clientListWrite l (fwDeny t d).2.1) (fwDeny t d).1
  | remove {c : Client} (hc : c ∈ l.clients) :
    Effect k l t (clientListRemove l (fwDeny t c).2.1) (fwDeny t c).1
  | prevent (print : Rule Chain → Text) (ip : Text) (hprevents : k.prevents) :
    Effect k l t l (preventiveDelete print t ip)

variable {k : Cause}

/-! ## Request handlers -/

theorem logoutHandler_effect (cfg : Config) (s : State) {c : Client} (hc : c ∈ s.list.clients) :
    Effect k s.list s.tables (s.logoutHandler cfg c).list (s.logoutHandler cfg c).tables :=
  .remove hc

theorem httpCallbackAuth_effect (cfg : Config) (s : State) (addr : Text)
    (arp token : Option Text) (logout : Bool) (now : Int64) :
    Effect k s.list s.tables (httpCallbackAuth cfg s addr arp token logout now).list
      (httpCallbackAuth cfg s addr arp token logout now).tables := by
  unfold httpCallbackAuth
  split
  · next token mac =>
    cases hf : clientListFind s.list addr mac with
    | none =>
      -- the record is added whether or not the request is a logout
      cases logout <;> exact .add hf token now
    | some client =>
      cases logout with
      | false => exact .same
      | true => exact logoutHandler_effect cfg s (mem_of_find hf).1
  · exact .same

theorem httpCallbackDisconnect_effect (cfg : Config) (s : State) (mac token : Option Text)
    (user pass : Text) :
    Effect k s.list s.tables (httpCallbackDisconnect cfg s mac token user pass).list
      (httpCallbackDisconnect cfg s mac token user pass).tables := by
  unfold httpCallbackDisconnect
  split
  · exact .same
  · split
    · next token mac =>
      cases hf : clientListFindByMac s.list mac with
      | none => exact .same
      | some client =>
        dsimp only
        split
        · exact .same
        · exact logoutHandler_effect cfg s (mem_of_findByMac hf).1
    · exact .same

theorem wdctlReset_effect (cfg : Config) (s : State) (arg : Text) :
    Effect k s.list s.tables (wdctlReset cfg s arg).list (wdctlReset cfg s arg).tables := by
  unfold wdctlReset
  split
  · exact .same
  · next node hf =>
    refine logoutHandler_effect cfg s ?_
    cases hip : clientListFindByIp s.list arg with
    | none =>
      rw [hip] at hf
      exact (mem_of_findByMac hf).1
    | some d =>
      rw [hip] at hf
      obtain rfl := Option.some.inj hf
      exact (mem_of_findByIp hip).1

/-! ## Steps of the threads

  What each step needs and what it does; proofs about steps go through these lemmas. -/

section Cases
variable {cfg : Config} {s s' : State} {i : Nat} {code : Int}

theorem authenticateLookup_cases (h : authenticateLookup s i = some s') :
    ∃ addr mac token, s.threads[i]? = some (.authenticate addr mac token) ∧
      ((clientListFindByIp s.list addr = none ∧ s' = { s with threads := s.threads.eraseIdx i }) ∨
        ∃ client, clientListFindByIp s.list addr = some client ∧
          s' = { s with
            threads := s.threads.set i (.asking addr mac (clientDup client) token) }) := by
  unfold authenticateLookup at h
  split at h
  · next addr mac token hth =>
    refine ⟨addr, mac, token, hth, ?_⟩
    split at h
    · next hf => exact Or.inl ⟨hf, (Option.some.inj h).symm⟩
    · next client hf => exact Or.inr ⟨client, hf, (Option.some.inj h).symm⟩
  · cases h

theorem authenticateAnswer_cases (h : authenticateAnswer s i code = some s') :
    ∃ addr mac client token, s.threads[i]? = some (.asking addr mac client token) ∧
      s' = { s with
        threads := s.threads.set i (.answered addr mac client token code)
        asked := ⟨.login, client.ip, client.mac, token, code⟩ :: s.asked } := by
  unfold authenticateAnswer at h
  split at h
  · next addr mac client token hth =>
    exact ⟨addr, mac, client, token, hth, (Option.some.inj h).symm⟩
  · cases h

theorem logoutAnswer_cases (h : logoutAnswer s i code = some s') :
    ∃ client, s.threads[i]? = some (.loggingOut client) ∧
      s' = { s with
        threads := s.threads.eraseIdx i
        asked := ⟨.logout, client.ip, client.mac, client.token, code⟩ :: s.asked } := by
  unfold logoutAnswer at h
  split at h
  · next client hth => exact ⟨client, hth, (Option.some.inj h).symm⟩
  · cases h

theorem syncStart_cases (h : step cfg s .syncStart = some s') :
    s.sync = .idle ∧ s' = { s with sync := .counting } := by
  obtain ⟨hidle, h⟩ := Option.ite_none_right_eq_some.mp h
  exact ⟨hidle, (Option.some.inj h).symm⟩

theorem countersRow_cases {print : Rule Chain → Text} {dir : Direction} {ip : Text}
    {counter : UInt64} {now : Int64}
    (h : step cfg s (.countersRow print dir ip counter now) = some s') :
    s.sync = .counting ∧
      s' = { s with
        list := (countersRow print s.list s.tables dir ip counter now).1
        tables := (countersRow print s.list s.tables dir ip counter now).2 } := by
  obtain ⟨hcounting, h⟩ := Option.ite_none_right_eq_some.mp h
  exact ⟨hcounting, (Option.some.inj h).symm⟩

theorem syncAbort_cases (h : step cfg s .syncAbort = some s') :
    s.sync = .counting ∧ s' = { s with sync := .idle } := by
  obtain ⟨hcounting, h⟩ := Option.ite_none_right_eq_some.mp h
  exact ⟨hcounting, (Option.some.inj h).symm⟩

theorem syncDup_cases (h : syncDup s = some s') :
    s.sync = .counting ∧ s' = { s with sync := .next (clientListDup s.list) } := by
  unfold syncDup at h
  split at h
  · next hcounting => exact ⟨hcounting, (Option.some.inj h).symm⟩
  · cases h

theorem syncAnswer_cases (h : syncAnswer cfg s code = some s') :
    ∃ p1 rest, s.sync = .working (p1 :: rest) ∧
      s' = { s with
        sync := .answered p1 rest code
        asked := if cfg.hasAuthServer then
            ⟨.counters, p1.ip, p1.mac, p1.token, code⟩ :: s.asked
          else s.asked } := by
  unfold syncAnswer at h
  split at h
  · next p1 rest hwas => exact ⟨p1, rest, hwas, (Option.some.inj h).symm⟩
  · cases h

theorem syncLogoutAnswer_cases (h : syncLogoutAnswer s code = some s') :
    ∃ client rest, s.sync = .loggingOut client rest ∧
      s' = { s with
        sync := .next rest
        asked := ⟨.logout, client.ip, client.mac, client.token, code⟩ :: s.asked } := by
  unfold syncLogoutAnswer at h
  split at h
  · next client rest hwas => exact ⟨client, rest, hwas, (Option.some.inj h).symm⟩
  · cases h

/-- The action is a step of a thread that only passes on what it has. -/
def Action.passesOn : Action → Bool
  | .authenticateLookup _ => true
  | .authenticateAnswer _ _ => true
  | .logoutAnswer _ _ => true
  | .syncStart => true
  | .syncAbort => true
  | .syncDup => true
  | .syncAnswer _ => true
  | .syncLogoutAnswer _ => true
  | _ => false

/-- Such a step changes neither the list nor the tables. -/
theorem step_same {a : Action} (ha : a.passesOn = true) (h : step cfg s a = some s') :
    s'.list = s.list ∧ s'.tables = s.tables := by
  cases a with
  | authenticateLookup i =>
    obtain ⟨_, _, _, _, ⟨_, rfl⟩ | ⟨_, _, rfl⟩⟩ := authenticateLookup_cases h
    · exact ⟨rfl, rfl⟩
    · exact ⟨rfl, rfl⟩
  | authenticateAnswer i code =>
    obtain ⟨_, _, _, _, _, rfl⟩ := authenticateAnswer_cases h
    exact ⟨rfl, rfl⟩
  | logoutAnswer i code =>
    obtain ⟨_, _, rfl⟩ := logoutAnswer_cases h
    exact ⟨rfl, rfl⟩
  | syncStart =>
    obtain ⟨_, rfl⟩ := syncStart_cases h
    exact ⟨rfl, rfl⟩
  | syncAbort =>
    obtain ⟨_, rfl⟩ := syncAbort_cases h
    exact ⟨rfl, rfl⟩
  | syncDup =>
    obtain ⟨_, rfl⟩ := syncDup_cases h
    exact ⟨rfl, rfl⟩
  | syncAnswer code =>
    obtain ⟨_, _, _, rfl⟩ := syncAnswer_cases h
    exact ⟨rfl, rfl⟩
  | syncLogoutAnswer code =>
    obtain ⟨_, _, _, rfl⟩ := syncLogoutAnswer_cases h
    exact ⟨rfl, rfl⟩
  | _ => cases ha

end Cases

/-- The second section of `authenticate_client`: the record is gone, or it gets the token of
    the request and goes through the switch. -/
theorem authenticateApply_cases {s s' : State} {i : Nat} (h : authenticateApply s i = some s') :
    ∃ addr mac client token code, s.threads[i]? = some (.answered addr mac client token code) ∧
      ((clientListFindByClient s.list client = none ∧
          s' = { s with threads := s.threads.eraseIdx i }) ∨
        ∃ tmp, clientListFindByClient s.list client = some tmp ∧
          s' = { s with
            list := clientListWrite s.list
              (authenticateSwitch s.tables { tmp with token := token } code).2
            tables := (authenticateSwitch s.tables { tmp with token := token } code).1
            threads := s.threads.eraseIdx i }) := by
  unfold authenticateApply at h
  split at h
  · next addr mac client token code hth =>
    refine ⟨addr, mac, client, token, code, hth, ?_⟩
    split at h
    · next hf =>
      obtain rfl := Option.some.inj h
      exact Or.inl ⟨hf, rfl⟩
    · next tmp hf =>
      obtain rfl := Option.some.inj h
      exact Or.inr ⟨tmp, hf, rfl⟩
  · cases h

theorem authenticateSwitch_effect {l : ClientList} (t : Tables Chain) {c d : Client} {code : Int}
    (hc : c ∈ l.clients) (hd : SameAccess c d) (htok : k.retokens c d.token)
    (hacts : k.acts = some (code, c)) :
    Effect k l t (clientListWrite l (authenticateSwitch t d code).2)
      (authenticateSwitch t d code).1 := by
  unfold authenticateSwitch
  split
  · exact .deny hc hd (Or.inr htok)
  · split
    · next hv => exact .allow hc hd (Or.inr htok) hacts (by rw [hv]; rfl)
    · split
      · next ha => exact .allow hc hd (Or.inr htok) hacts (by rw [ha]; rfl)
      · exact .write hc hd (Or.inr htok)

theorem authenticateApply_effect (cfg : Config) {s s' : State} {i : Nat}
    (h : authenticateApply s i = some s') :
    Effect (causeOf cfg s (.authenticateApply i)) s.list s.tables s'.list s'.tables := by
  obtain ⟨addr, mac, client, token, code, hth, ⟨_, rfl⟩ | ⟨tmp, hf, rfl⟩⟩ :=
    authenticateApply_cases h
  · exact .same
  · have hacts : actsOn cfg s (.authenticateApply i) = some (code, tmp) := by
      simp [actsOn, hth, hf]
    exact authenticateSwitch_effect s.tables (mem_of_findByClient hf).1 ⟨rfl, rfl, rfl, rfl⟩
      ⟨i, addr, mac, client, code, rfl, hth, hf⟩ hacts

/-! ## The sync thread -/

theorem countersRow_effect (print : Rule Chain → Text) (l : ClientList) (t : Tables Chain)
    (dir : Direction) (ip : Text) (counter : UInt64) (now : Int64)
    (hprevents : clientListFindByIp l ip = none → k.prevents) :
    Effect k l t (countersRow print l t dir ip counter now).1
      (countersRow print l t dir ip counter now).2 := by
  unfold countersRow
  split
  · next p1 hf => exact .write (mem_of_findByIp hf).1 ⟨rfl, rfl, rfl, rfl⟩ (Or.inl rfl)
  · next hf => exact .prevent print ip (hprevents hf)

theorem syncSwitch_effect {l : ClientList} (t : Tables Chain) {tmp : Client} {code : Int}
    (hc : tmp ∈ l.clients) (hacts : k.acts = some (code, tmp)) :
    Effect k l t (syncSwitch l t tmp code).1 (syncSwitch l t tmp code).2 := by
  unfold syncSwitch
  split
  · exact .remove hc
  · split
    · next ha =>
      split
      · refine .allow hc ?_ (Or.inl ?_) hacts (by rw [ha]; rfl)
        · split <;> exact ⟨rfl, rfl, rfl, rfl⟩
        · split <;> rfl
      · exact .same
    · exact .same

/-- The lock section for one client of the work list: the record is gone, times out, goes
    through the switch, or is left alone because there is no auth server. -/
theorem syncApply_cases {cfg : Config} {s s' : State} {now : Int64}
    (h : syncApply cfg s now = some s') :
    ∃ p1 rest code, s.sync = .answered p1 rest code ∧
      ((clientListFindByClient s.list p1 = none ∧ s' = { s with sync := .next rest }) ∨
        ∃ tmp, clientListFindByClient s.list p1 = some tmp ∧
          ((timedOut cfg p1 now = true ∧
              s' = { s with
                list := (logoutClient s.list s.tables tmp).1
                tables := (logoutClient s.list s.tables tmp).2.1
                sync := if cfg.hasAuthServer then
                    .loggingOut (logoutClient s.list s.tables tmp).2.2 rest
                  else .next rest }) ∨
            (timedOut cfg p1 now = false ∧ cfg.hasAuthServer = true ∧
              s' = { s with
                list := (syncSwitch s.list s.tables tmp code).1
                tables := (syncSwitch s.list s.tables tmp code).2
                sync := .next rest }) ∨
            (timedOut cfg p1 now = false ∧ cfg.hasAuthServer = false ∧
              s' = { s with sync := .next rest }))) := by
  unfold syncApply at h
  split at h
  · next p1 rest code hsync =>
    refine ⟨p1, rest, code, hsync, ?_⟩
    split at h
    · next hf =>
      obtain rfl := Option.some.inj h
      exact Or.inl ⟨hf, rfl⟩
    · next tmp hf =>
      refine Or.inr ⟨tmp, hf, ?_⟩
      split at h
      · next ht =>
        obtain rfl := Option.some.inj h
        exact Or.inl ⟨ht, rfl⟩
      · next ht =>
        have ht' : timedOut cfg p1 now = false := by simpa using ht
        split at h
        · next hs =>
          obtain rfl := Option.some.inj h
          exact Or.inr (Or.inl ⟨ht', hs, rfl⟩)
        · next hs =>
          obtain rfl := Option.some.inj h
          exact Or.inr (Or.inr ⟨ht', by simpa using hs, rfl⟩)
  · cases h

theorem syncApply_effect {cfg : Config} {s s' : State} {now : Int64}
    (h : syncApply cfg s now = some s') :
    Effect (causeOf cfg s (.syncApply now)) s.list s.tables s'.list s'.tables := by
  obtain ⟨p1, rest, code, hsync, ⟨_, rfl⟩ | ⟨tmp, hf, ⟨_, rfl⟩ | ⟨ht, hs, rfl⟩ | ⟨_, _, rfl⟩⟩⟩ :=
    syncApply_cases h
  · exact .same
  · exact .remove (mem_of_findByClient hf).1
  · have hacts : actsOn cfg s (.syncApply now) = some (code, tmp) := by
      simp [actsOn, hsync, ht, hs, hf]
    exact syncSwitch_effect s.tables (mem_of_findByClient hf).1 hacts
  · exact .same

/-! ## Every step -/

/-- Every step has one of the effects. -/
theorem step_effect {cfg : Config} {s s' : State} {a : Action} (h : step cfg s a = some s') :
    Effect (causeOf cfg s a) s.list s.tables s'.list s'.tables := by
  have hsame : s'.list = s.list ∧ s'.tables = s.tables →
      Effect (causeOf cfg s a) s.list s.tables s'.list s'.tables := by
    rintro ⟨hl, ht⟩
    rw [hl, ht]
    exact .same
  cases a with
  | httpCallbackAuth addr arp token logout now =>
    obtain rfl := Option.some.inj h
    exact httpCallbackAuth_effect cfg s addr arp token logout now
  | authenticateApply i => exact authenticateApply_effect cfg h
  | httpCallbackDisconnect mac token user pass =>
    obtain rfl := Option.some.inj h
    exact httpCallbackDisconnect_effect cfg s mac token user pass
  | wdctlReset arg =>
    obtain rfl := Option.some.inj h
    exact wdctlReset_effect cfg s arg
  | countersRow print dir ip counter now =>
    obtain ⟨_, rfl⟩ := countersRow_cases h
    exact countersRow_effect print s.list s.tables dir ip counter now fun hnone => hnone
  | syncApply now => exact syncApply_effect h
  | _ => exact hsame (step_same rfl h)

end Wifidog
