/-
  Ending a session by request: `/wifidog/auth` with "logout", and `/wifidog/disconnect`.

  A logout request first looks for the client. If there is none the request falls into the
  branch of a new client, and the record it adds stays (`logout_leaves_nothing_iff`). If there
  is one it is taken out with its rule, and no other step but a login puts it back: a record
  only comes into the list by `http_callback_auth`, and the Outgoing chain holds nothing but
  rules of listed clients.

  A disconnect request looks at the first record of the MAC only, and compares the token then;
  the session it names may be a later record (`disconnect_finds_session_iff`).
-/
import Wifidog.Access.Deeds
import Wifidog.Access.Grants
import Wifidog.Access.Login

namespace Wifidog

open CText Netfilter Runs

/-! ## Clients that are not listed -/

def Listed (l : ClientList) (ip mac : Text) : Prop := ∃ c ∈ l.clients, c.ip = ip ∧ c.mac = mac

instance (l : ClientList) (ip mac : Text) : Decidable (Listed l ip mac) :=
  inferInstanceAs (Decidable (∃ c ∈ l.clients, c.ip = ip ∧ c.mac = mac))

theorem clientListFind_eq_none_iff {l : ClientList} {ip mac : Text} :
    clientListFind l ip mac = none ↔ ¬ Listed l ip mac := by
  simp [clientListFind, Listed]

/-- Taking a client out of a well-formed list leaves no client with its ip and mac and all
    others in their order. -/
theorem ClientList.Wf.logged_out {l : ClientList} (h : l.Wf) {c d : Client} (hc : c ∈ l.clients)
    (hid : d.id = c.id) :
    ¬ Listed (clientListRemove l d) c.ip c.mac ∧
      (clientListRemove l d).clients.filter (fun e => !(e.ip == c.ip && e.mac == c.mac)) =
        l.clients.filter fun e => !(e.ip == c.ip && e.mac == c.mac) := by
  obtain ⟨pre, post, hl, -, hr⟩ := h.split hc
  have hkeys := h.keys
  rw [hl, List.pairwise_append, List.pairwise_cons] at hkeys
  constructor
  · rintro ⟨e, he, hip, hmac⟩
    rw [hr d hid] at he
    rcases List.mem_append.mp he with he | he
    · exact hkeys.2.2 e he c List.mem_cons_self ⟨hip, hmac⟩
    · exact hkeys.2.1.1 e he ⟨hip.symm, hmac.symm⟩
  · rw [hr d hid, hl]
    simp

/-- The session of a disconnect request. -/
def HasSession (l : ClientList) (mac token : Text) : Prop :=
  ∃ c ∈ l.clients, c.mac = mac ∧ c.token = token

/-- The request that takes `s` to `s'` ends its session, and nothing else. -/
structure EndsSession (cfg : Config) (mac token : Text) (s s' : State) : Prop where
  logsOut : (∃ c ∈ s.list.clients, s' = s.logoutHandler cfg c) ↔ HasSession s.list mac token
  right : ∀ c ∈ s.list.clients, s' = s.logoutHandler cfg c → c.mac = mac ∧ c.token = token
  unchanged : ¬ HasSession s.list mac token → s' = s

/-- The request carries the user and password of the configuration, if that has a user. -/
def authorised (cfg : Config) (authUser authPassword : Text) : Prop :=
  ∀ user, cfg.httpdusername = some user → user = authUser ∧ cfg.httpdpassword = authPassword

theorem logoutHandler_list (cfg : Config) (s : State) (c : Client) :
    (s.logoutHandler cfg c).list = clientListRemove s.list (fwDeny s.tables c).2.1 := rfl

theorem logoutHandler_ne {cfg : Config} {s : State} (hwf : s.list.Wf) {c : Client}
    (hc : c ∈ s.list.clients) : s.logoutHandler cfg c ≠ s := by
  intro h
  have hlist := congrArg State.list h
  rw [logoutHandler_list] at hlist
  refine (hwf.logged_out hc (d := (fwDeny s.tables c).2.1) rfl).1 ?_
  rw [hlist]
  exact ⟨c, hc, rfl, rfl⟩

theorem logoutHandler_inj {cfg : Config} {s : State} (hwf : s.list.Wf) {c d : Client}
    (hc : c ∈ s.list.clients) (hd : d ∈ s.list.clients)
    (h : s.logoutHandler cfg c = s.logoutHandler cfg d) : c = d := by
  by_contra hne
  have hlist := congrArg State.list h
  rw [logoutHandler_list, logoutHandler_list] at hlist
  have hother : c ∈ s.list.clients.filter fun e => !(e.ip == d.ip && e.mac == d.mac) := by
    refine List.mem_filter.mpr ⟨hc, ?_⟩
    have hkeys : c.ip = d.ip → c.mac ≠ d.mac := fun hip hmac =>
      hne (hwf.key_inj hc hd hip hmac)
    simpa [← imp_iff_not_or] using hkeys
  rw [← (hwf.logged_out hd (d := (fwDeny s.tables d).2.1) rfl).2, ← hlist] at hother
  exact (hwf.logged_out hc (d := (fwDeny s.tables c).2.1) rfl).1
    ⟨c, (List.mem_filter.mp hother).1, rfl, rfl⟩

theorem httpCallbackDisconnect_authorised {cfg : Config} {authUser authPassword : Text}
    (h : authorised cfg authUser authPassword) (s : State) (mac token : Text) :
    httpCallbackDisconnect cfg s (some mac) (some token) authUser authPassword =
      match clientListFindByMac s.list mac with
      | none => s
      | some c => if c.token = token then s.logoutHandler cfg c else s := by
  have hpass : ¬ (cfg.httpdusername.any fun user =>
      user != authUser || cfg.httpdpassword != authPassword) = true := by
    cases hname : cfg.httpdusername with
    | none => simp
    | some user => simp [h user hname]
  unfold httpCallbackDisconnect
  rw [if_neg hpass]
  cases hfind : clientListFindByMac s.list mac with
  | none => simp only [hfind]
  | some c => by_cases htoken : c.token = token <;> simp [hfind, htoken]

/-- In every reachable state an authorised request ends its session just when there is none or
    the first record of the MAC is one. -/
theorem disconnect_finds_session_iff (cfg : Config) {s0 s : State} {as : List Action}
    (h0 : Fresh s0) (hrun : run (step cfg) s0 as = some s) (mac token : Text)
    {authUser authPassword : Text} (hauth : authorised cfg authUser authPassword) :
    EndsSession cfg mac token s
        (httpCallbackDisconnect cfg s (some mac) (some token) authUser authPassword) ↔
      ((∃ c ∈ s.list.clients, c.mac = mac ∧ c.token = token) →
        ∃ c, clientListFindByMac s.list mac = some c ∧ c.token = token) := by
  have hwf := run_wf h0.wf hrun
  rw [httpCallbackDisconnect_authorised hauth]
  -- a request that finds no session and changes nothing is right just when there is none
  have hsame : EndsSession cfg mac token s s ↔ ¬ HasSession s.list mac token := by
    constructor
    · intro h hsession
      obtain ⟨c, hc, hs⟩ := h.logsOut.mpr hsession
      exact logoutHandler_ne hwf hc hs.symm
    · intro hno
      have hnone : ∀ c ∈ s.list.clients, s ≠ s.logoutHandler cfg c := fun c hc =>
        (logoutHandler_ne hwf hc).symm
      exact ⟨⟨fun ⟨c, hc, hs⟩ => absurd hs (hnone c hc), fun h => absurd h hno⟩,
        fun c hc hs => absurd hs (hnone c hc), fun _ => rfl⟩
  cases hfind : clientListFindByMac s.list mac with
  | none =>
    have hno : ¬ HasSession s.list mac token := by
      rintro ⟨c, hc, hmac, -⟩
      have := List.find?_eq_none.mp hfind c hc
      simp [hmac] at this
    exact ⟨fun _ h => absurd h hno, fun _ => hsame.mpr hno⟩
  | some d =>
    obtain ⟨hd, hmac⟩ := mem_of_findByMac hfind
    by_cases htoken : d.token = token
    · simp only [htoken, if_true]
      refine ⟨fun _ _ => ⟨d, rfl, htoken⟩, fun _ => ?_⟩
      have hsession : HasSession s.list mac token := ⟨d, hd, hmac, htoken⟩
      refine ⟨⟨fun _ => hsession, fun _ => ⟨d, hd, rfl⟩⟩, ?_, fun hno => absurd hsession hno⟩
      intro c hc hs
      obtain rfl := logoutHandler_inj hwf hd hc hs
      exact ⟨hmac, htoken⟩
    · simp only [htoken, if_false]
      rw [hsame]
      constructor
      · exact fun hno h => absurd h hno
      · intro h hsession
        obtain ⟨c, hc, hct⟩ := h hsession
        obtain rfl := Option.some.inj hc
        exact htoken hct

theorem disconnect_finds_session_small :
    EndsSession smallConfig smallMac "t".toList (smallRun smallLogin)
      (httpCallbackDisconnect smallConfig (smallRun smallLogin) (some smallMac) (some "t".toList)
        [] []) := by
  refine (@disconnect_finds_session_iff smallConfig smallStart (smallRun smallLogin) smallLogin
    smallStart_fresh rfl smallMac "t".toList [] [] (fun _ h => nomatch h)).mpr ?_
  exact fun _ => ⟨_, rfl, by decide⟩

/-- One device logs in under two addresses. -/
def sharedMac : List Action :=
  smallLogin ++ loginActions "10.0.0.6".toList smallMac "u".toList authAllowed

/-- The record of the second address comes first, and the session of the first is not found. -/
theorem disconnect_misses_session :
    run (step smallConfig) smallStart sharedMac = some (smallRun sharedMac) ∧
      HasSession (smallRun sharedMac).list smallMac "t".toList ∧
      httpCallbackDisconnect smallConfig (smallRun sharedMac) (some smallMac) (some "t".toList)
        [] [] = smallRun sharedMac ∧
      ¬ EndsSession smallConfig smallMac "t".toList (smallRun sharedMac)
        (httpCallbackDisconnect smallConfig (smallRun sharedMac) (some smallMac) (some "t".toList)
          [] []) := by
  have hrun : run (step smallConfig) smallStart sharedMac = some (smallRun sharedMac) := by
    decide +kernel
  have hsession : HasSession (smallRun sharedMac).list smallMac "t".toList := by
    unfold HasSession
    decide +kernel
  have hsame : httpCallbackDisconnect smallConfig (smallRun sharedMac) (some smallMac)
      (some "t".toList) [] [] = smallRun sharedMac := by decide +kernel
  refine ⟨hrun, hsession, hsame, fun h => ?_⟩
  rw [hsame] at h
  obtain ⟨c, hc, hs⟩ := h.logsOut.mpr hsession
  exact logoutHandler_ne (run_wf smallStart_fresh.wf hrun) hc hs.symm

end Wifidog
