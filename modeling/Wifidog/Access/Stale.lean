/-
  Which token a grant of the sync thread is for.

  `fw_sync_with_authserver` asks about the token in its copy of a client and applies the
  answer to whatever record has the copy's id. `sync_grant_current_token`: the two tokens are
  the same in every run in which no login replaces the token of a client that the running
  round has copied and not dealt with yet (`replacesPending`). Without that condition a grant
  can undo a later denial (`sync_grants_old_token`).
-/
import Wifidog.Access.Grants

namespace Wifidog

open CText Netfilter Runs

/-- A login replaces the token of a client that is still pending in the running round. -/
def replacesPending (s : State) (a : Action) : Prop :=
  ∃ c token, retokensAt s a c token ∧ token ≠ c.token ∧ ∃ p ∈ s.sync.pending, p.id = c.id

/-- Whatever record of the list has the id of the copy has its token. -/
structure TokenOf (l : ClientList) (p : Client) : Prop where
  bound : p.id < l.clientId
  same : ∀ d ∈ l.clients, d.id = p.id → d.token = p.token

section Effects
variable {k : Cause} {l l' : ClientList} {t t' : Tables Chain}

/-- Every member of the new list is new, or has the token it had before, or gets one from a
    login. -/
theorem Effect.tokens (h : Effect k l t l' t') :
    ∀ d ∈ l'.clients, l.clientId ≤ d.id ∨
      ∃ e ∈ l.clients, e.id = d.id ∧ (d.token = e.token ∨ k.retokens e d.token) := by
  have hkept : ∀ d ∈ l.clients, l.clientId ≤ d.id ∨
      ∃ e ∈ l.clients, e.id = d.id ∧ (d.token = e.token ∨ k.retokens e d.token) :=
    fun d hd => Or.inr ⟨d, hd, rfl, Or.inl rfl⟩
  have hwritten : ∀ {c e : Client}, c ∈ l.clients → e.id = c.id →
      e.token = c.token ∨ k.retokens c e.token →
      ∀ d ∈ (clientListWrite l e).clients, l.clientId ≤ d.id ∨
        ∃ e ∈ l.clients, e.id = d.id ∧ (d.token = e.token ∨ k.retokens e d.token) := by
    intro c e hc hid htok d hd
    rcases mem_clientListWrite hd with rfl | ⟨hd, _⟩
    · exact Or.inr ⟨c, hc, hid.symm, htok⟩
    · exact hkept d hd
  cases h with
  | add hnew token now =>
    intro d hd
    rcases List.mem_cons.mp hd with rfl | hd
    · exact Or.inl (Nat.le_refl _)
    · exact hkept d hd
  | write hc hsame htok => exact hwritten hc hsame.id htok
  | allow hc hsame htok hacts hmark => exact hwritten hc hsame.id htok
  | deny hc hsame htok => exact hwritten hc hsame.id htok
  | remove hc => exact fun d hd => hkept d (mem_clientListRemove hd)
  | _ => exact hkept

end Effects

/-- The pending copies carry the tokens of their records. -/
structure CurrentTokens (s : State) : Prop where
  wf : s.list.Wf
  pending : ∀ p ∈ s.sync.pending, TokenOf s.list p

theorem step_currentTokens {cfg : Config} {s s' : State} {a : Action}
    (h : step cfg s a = some s') (hok : ¬ replacesPending s a) (hcur : CurrentTokens s) :
    CurrentTokens s' := by
  have heff := step_effect h
  refine ⟨heff.wf hcur.wf, fun p hp => ?_⟩
  rcases (step_sync h).pending hp with hold | ⟨hlist, c, hc, rfl⟩
  · have hp0 := hcur.pending p hold
    refine ⟨Nat.lt_of_lt_of_le hp0.bound heff.members.1, fun d hd hid => ?_⟩
    rcases heff.tokens d hd with hnew | ⟨e, he, heid, hkept | hlogin⟩
    · exact absurd (hid ▸ hnew) (Nat.not_le_of_lt hp0.bound)
    · exact hkept.trans (hp0.same e he (heid.trans hid))
    · -- a login of a pending client: it brought the same token
      by_cases htok : d.token = e.token
      · exact htok.trans (hp0.same e he (heid.trans hid))
      · exact absurd ⟨e, d.token, hlogin, htok, p, hold, (heid.trans hid).symm⟩ hok
  · rw [hlist]
    refine ⟨hcur.wf.bound c hc, fun d hd hid => ?_⟩
    obtain rfl : d = c := hcur.wf.id_inj hd hc hid
    rfl

/-- When the sync thread acts on ALLOWED for a client, and so whenever it grants access, the
    answer was given for a counters request with the client's present token, in every run in
    which no login replaces the token of a pending client. -/
theorem sync_grant_current_token (cfg : Config) {s0 s : State} {as : List Action} {now : Int64}
    {tmp : Client} (h0 : Fresh s0) (hrun : run (step cfg) s0 as = some s)
    (hok : Along (step cfg) (fun s a => ¬ replacesPending s a) s0 as)
    (hacts : actsOn cfg s (.syncApply now) = some (authAllowed, tmp)) :
    ∃ p1 rest, s.sync = .answered p1 rest authAllowed ∧ p1.token = tmp.token ∧
      ⟨.counters, tmp.ip, tmp.mac, tmp.token, authAllowed⟩ ∈ s.asked := by
  have hinv : Copies s ∧ Answers cfg s ∧ CurrentTokens s := by
    refine run_inv_along (fun s => Copies s ∧ Answers cfg s ∧ CurrentTokens s) ?_ ?_ hok hrun
    · rintro t a t' ⟨hc, ha, hcur⟩ hp hs
      exact ⟨step_copies hs hc, step_answers hs ha, step_currentTokens hs hp hcur⟩
    · exact ⟨h0.copies, h0.answers cfg, h0.wf, by simp [h0.sync, Sync.pending]⟩
  obtain ⟨hcopies, hans, hcur⟩ := hinv
  simp only [actsOn] at hacts
  split at hacts
  · next p1 rest code hs =>
    split at hacts
    · next hcond =>
      obtain ⟨d, hf, heq⟩ := Option.map_eq_some_iff.mp hacts
      obtain ⟨rfl, rfl⟩ := Prod.mk.inj heq
      have hp : p1 ∈ s.sync.pending := by rw [hs]; exact List.mem_cons_self
      obtain ⟨hmem, hid⟩ := mem_of_findByClient hf
      obtain ⟨hip, hmac⟩ := (hcopies.pending p1 hp).find_eq hf
      have htok := (hcur.pending p1 hp).same d hmem hid
      refine ⟨p1, rest, hs, htok.symm, ?_⟩
      rw [hip, hmac, htok]
      exact hans.sync hs (Bool.and_eq_true_iff.mp hcond).2
    · cases hacts
  · cases hacts

/-- A round of the sync thread that has got the answer ALLOWED for its first client. -/
def syncAllowed : List Action := [.syncStart, .syncDup, .syncAnswer authAllowed]

/-- A client with a denied login and a round that has just got the answer ALLOWED for it. -/
def deniedThenSync : List Action :=
  loginActions smallIp smallMac "t".toList authDenied ++ syncAllowed

/-- The record of that client. -/
def deniedClient : Client := ⟨1, smallIp, smallMac, "t".toList, fwMarkNone, 0, .fresh 0⟩

theorem sync_grant_current_token_deniedThenSync :
    ∃ p1 rest, (smallRun deniedThenSync).sync = .answered p1 rest authAllowed ∧
      p1.token = deniedClient.token ∧
      ⟨.counters, deniedClient.ip, deniedClient.mac, deniedClient.token, authAllowed⟩ ∈
        (smallRun deniedThenSync).asked := by
  refine @sync_grant_current_token smallConfig smallStart (smallRun deniedThenSync) deniedThenSync
    1 deniedClient smallStart_fresh rfl ?_ (by decide +kernel)
  -- no round is under way when the login gets its answer
  have hidle : ∀ s a, s.sync = .idle → ¬ replacesPending s a := by
    rintro s a hs ⟨c, token, _, _, p, hp, _⟩
    rw [hs] at hp
    cases hp
  have hother : ∀ s a, (∀ i, a ≠ .authenticateApply i) → ¬ replacesPending s a := by
    rintro s a ha ⟨c, token, ⟨i, _, _, _, _, rfl, _⟩, _⟩
    exact ha i rfl
  refine ⟨hidle _ _ rfl, fun s1 h1 => ?_⟩
  obtain rfl := Option.some.inj h1
  refine ⟨hidle _ _ rfl, fun s2 h2 => ?_⟩
  obtain rfl := Option.some.inj h2
  refine ⟨hidle _ _ rfl, fun s3 h3 => ?_⟩
  obtain rfl := Option.some.inj h3
  refine ⟨hidle _ _ rfl, fun s4 _ => ?_⟩
  exact ⟨hother _ _ (by simp), fun _ _ => ⟨hother _ _ (by simp), fun _ _ =>
    ⟨hother _ _ (by simp), fun _ _ => trivial⟩⟩⟩

/-- A client logs in; a round asks about its token and is answered ALLOWED; then a login of the
    same client with another token is answered DENIED. -/
def staleAnswer : List Action :=
  smallLogin ++ syncAllowed ++ loginActions smallIp smallMac "v".toList authDenied

/-- The round then grants access by the answer for the old token. -/
theorem sync_grants_old_token :
    ∃ s s' p1 tmp, run (step smallConfig) smallStart staleAnswer = some s ∧
      s.sync = .answered p1 [] authAllowed ∧
      actsOn smallConfig s (.syncApply 1) = some (authAllowed, tmp) ∧
      tmp.fwConnectionState ≠ fwMarkKnown ∧ p1.token ≠ tmp.token ∧
      ⟨.login, tmp.ip, tmp.mac, tmp.token, authDenied⟩ ∈ s.asked ∧
      step smallConfig s (.syncApply 1) = some s' ∧
      s'.tables.view .mangle .outgoing = some [markRule tmp.ip tmp.mac fwMarkKnown] :=
  ⟨smallRun staleAnswer, smallRun (staleAnswer ++ [.syncApply 1]),
    ⟨1, smallIp, smallMac, "t".toList, 0, 0, .fresh 0⟩,
    ⟨1, smallIp, smallMac, "v".toList, fwMarkNone, 0, .fresh 0⟩,
    by decide +kernel, by decide +kernel, by decide +kernel, by decide +kernel,
    by decide +kernel, by decide +kernel, by decide +kernel, by decide +kernel⟩

end Wifidog
