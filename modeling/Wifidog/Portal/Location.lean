/-
  The token in the header of a redirect.

  Every redirect of `authenticate_client` ends in the client's token, as it was decoded. It is
  not encoded again, so a line break in it is a line break of the header (`location_line_iff`).
  The request to the auth server, with the same token, does encode it.

  What does not fit the header buffer is cut off, with any break in it, and a line feed that
  ends the text is taken for the end of the line.
-/
import Wifidog.Model.Reply

namespace Wifidog

open CText

/-- No line break. -/
def Unbroken (t : Text) : Prop := '\r' ∉ t ∧ '\n' ∉ t

/-- No line break, but maybe a line feed at the end. -/
def OneLine (t : Text) : Prop := ∃ l, Unbroken l ∧ (t = l ∨ t = l ++ ['\n'])

/-- The text is one "Location: " line. -/
def LocationLine (added : Text) : Prop :=
  ∃ l, Unbroken l ∧ added = "Location: ".toList ++ l ++ ['\n']

/-- The header text that a redirect adds. -/
def addedHeader (url : Text) (text : Option Text) : Text :=
  (httpSendRedirect serverHeader url text).headers.drop serverHeader.length

/-- What fits the header buffer. -/
def headerRoom : Nat := httpMaxHeaders - 2 - serverHeader.length

/-- The header of a redirect up to the token. -/
def locationHead (cfg : Config) (authServer : PortalServ) (authcode : Int) : Text :=
  match authenticateReply cfg authServer [] authcode with
  | .redirect url _ => "Location: ".toList ++ url
  | .page _ _ => []

/-- The part of the token that fits has no line break but maybe a line feed at the end, and
    neither has what comes before it. -/
def TokenKeepsLine (head token : Text) : Prop :=
  if head.length < headerRoom then
    Unbroken head ∧ OneLine (token.take (headerRoom - head.length))
  else OneLine (head.take headerRoom)

/-! ## Lines -/

theorem unbroken_append {a b : Text} : Unbroken (a ++ b) ↔ Unbroken a ∧ Unbroken b := by
  simp only [Unbroken, List.mem_append, not_or]
  constructor
  · rintro ⟨⟨ha, hb⟩, ha', hb'⟩
    exact ⟨⟨ha, ha'⟩, hb, hb'⟩
  · rintro ⟨⟨ha, ha'⟩, hb, hb'⟩
    exact ⟨⟨ha, hb⟩, ha', hb'⟩

theorem unbroken_location : Unbroken "Location: ".toList := ⟨by decide, by decide⟩

/-- A line that goes on behind a text which does not end in a line feed. -/
theorem oneLine_append {a b : Text} (h : a.getLast? ≠ some '\n') :
    OneLine (a ++ b) ↔ Unbroken a ∧ OneLine b := by
  constructor
  · rintro ⟨l, hl, heq | heq⟩
    · rw [← heq, unbroken_append] at hl
      exact ⟨hl.1, b, hl.2, Or.inl rfl⟩
    · rcases List.eq_nil_or_concat b with rfl | ⟨b', c, rfl⟩
      · rw [List.append_nil] at heq
        refine absurd ?_ h
        rw [heq, List.getLast?_concat]
      · rw [List.concat_eq_append] at heq ⊢
        rw [← List.append_assoc] at heq
        obtain ⟨heq, hc⟩ := List.append_inj' heq rfl
        rw [← heq, unbroken_append] at hl
        exact ⟨hl.1, b', hl.2, Or.inr (by rw [hc])⟩
  · rintro ⟨ha, l, hl, rfl | rfl⟩
    · exact ⟨a ++ b, unbroken_append.mpr ⟨ha, hl⟩, Or.inl rfl⟩
    · exact ⟨a ++ l, unbroken_append.mpr ⟨ha, hl⟩, Or.inr (List.append_assoc _ _ _).symm⟩

/-- The line feed that `httpdAddHeader` puts behind a header that has none. -/
def ended (t : Text) : Text := if t.getLast? ≠ some '\n' then t ++ ['\n'] else t

theorem Unbroken.getLast? {t : Text} (h : Unbroken t) : t.getLast? ≠ some '\n' := fun hlast =>
  h.2 (List.mem_of_getLast? hlast)

/-- A header that is long enough to show its name is one line just when its text is. -/
theorem locationLine_ended_iff (rest : Text) :
    LocationLine (ended ("Location: ".toList ++ rest)) ↔ OneLine ("Location: ".toList ++ rest) := by
  have hname : ("Location: ".toList).getLast? ≠ some '\n' := by decide
  rw [oneLine_append hname]
  unfold ended
  constructor
  · rintro ⟨l, hl, heq⟩
    refine ⟨unbroken_location, ?_⟩
    split at heq
    · obtain ⟨heq, -⟩ := List.append_inj' heq rfl
      rw [List.append_cancel_left heq]
      exact ⟨l, hl, Or.inl rfl⟩
    · rw [List.append_assoc] at heq
      rw [List.append_cancel_left heq]
      exact ⟨l, hl, Or.inr rfl⟩
  · rintro ⟨-, l, hl, rfl | rfl⟩
    · have hlast := (unbroken_append.mpr ⟨unbroken_location, hl⟩).getLast?
      rw [if_pos hlast]
      exact ⟨rest, hl, rfl⟩
    · rw [if_neg (by rw [← List.append_assoc, List.getLast?_concat]; simp)]
      exact ⟨l, hl, (List.append_assoc _ _ _).symm⟩

/-! ## The header -/

theorem addedHeader_eq (url : Text) (text : Option Text) :
    addedHeader url text = ended ("Location: ".toList ++ url.take (headerRoom - 10)) := by
  have hsize : ((httpMaxHeaders : Int) - 2 - serverHeader.length) = (headerRoom : Int) := by decide
  have hpos : (headerRoom : Int) > 0 := by decide
  have htake : ("Location: ".toList ++ url).take headerRoom =
      "Location: ".toList ++ url.take (headerRoom - 10) := by
    rw [List.take_append]
    rfl
  have hlast : (serverHeader ++ ("Location: ".toList ++ url.take (headerRoom - 10))).getLast? =
      ("Location: ".toList ++ url.take (headerRoom - 10)).getLast? :=
    List.getLast?_append_of_ne_nil _ (by simp)
  unfold addedHeader httpSendRedirect httpdAddHeader ended
  simp only [hsize, if_pos hpos, Int.toNat_natCast, htake, hlast]
  split
  · rw [List.append_assoc, List.drop_left]
  · rw [List.drop_left]

theorem httpSendRedirectToAuth_append (authServer : AuthServ) (fragment text token : Text) :
    ∃ url, httpSendRedirectToAuth authServer fragment text = .redirect url text ∧
      httpSendRedirectToAuth authServer (fragment ++ token) text = .redirect (url ++ token) text ∧
      fragment <:+ url := by
  refine ⟨_, rfl, ?_, List.suffix_append _ _⟩
  unfold httpSendRedirectToAuth
  rw [List.append_assoc]

theorem messageFragment_append (authServer : PortalServ) (message token : Text) :
    messageFragment authServer message token = messageFragment authServer message [] ++ token ∧
      "&token=".toList <:+ messageFragment authServer message [] := by
  unfold messageFragment
  rw [List.append_nil]
  exact ⟨rfl, List.suffix_append _ _⟩

theorem portalFragment_append (cfg : Config) (authServer : PortalServ) (token : Text) :
    portalFragment cfg authServer token = portalFragment cfg authServer [] ++ token ∧
      "&token=".toList <:+ portalFragment cfg authServer [] := by
  unfold portalFragment
  rw [List.append_nil]
  exact ⟨rfl, List.suffix_append _ _⟩

/-- Every redirect ends in the token, behind a text that does not depend on it. -/
theorem authenticateReply_redirect {cfg : Config} {authServer : PortalServ} {token url text : Text}
    {authcode : Int} (h : authenticateReply cfg authServer token authcode = .redirect url text) :
    "Location: ".toList ++ url = locationHead cfg authServer authcode ++ token ∧
      (locationHead cfg authServer authcode).getLast? ≠ some '\n' := by
  have hbranch : ∀ {fragment fragment' title : Text},
      fragment' = fragment ++ token ∧ "&token=".toList <:+ fragment →
      httpSendRedirectToAuth authServer.toAuthServ fragment' title = .redirect url text →
      authenticateReply cfg authServer [] authcode =
        httpSendRedirectToAuth authServer.toAuthServ fragment title →
      "Location: ".toList ++ url = locationHead cfg authServer authcode ++ token ∧
        (locationHead cfg authServer authcode).getLast? ≠ some '\n' := by
    rintro fragment _ title ⟨rfl, htoken⟩ hred hhead
    obtain ⟨u, hu, hu', hsuffix⟩ :=
      httpSendRedirectToAuth_append authServer.toAuthServ fragment title token
    rw [hu'] at hred
    injection hred with hurl
    have hhead' : locationHead cfg authServer authcode = "Location: ".toList ++ u := by
      unfold locationHead
      rw [hhead, hu]
    obtain ⟨pre, rfl⟩ := htoken.trans hsuffix
    rw [hhead', ← hurl]
    refine ⟨(List.append_assoc _ _ _).symm, ?_⟩
    rw [← List.append_assoc, List.getLast?_append_of_ne_nil _ (by decide)]
    decide
  by_cases herror : authcode = authError
  · rw [authenticateReply, if_pos herror] at h
    cases h
  by_cases hdenied : authcode = authDenied
  · rw [authenticateReply, if_neg herror, if_pos hdenied] at h
    refine hbranch (messageFragment_append authServer gatewayMessageDenied token) h ?_
    rw [authenticateReply, if_neg herror, if_pos hdenied]
  by_cases hvalidation : authcode = authValidation
  · rw [authenticateReply, if_neg herror, if_neg hdenied, if_pos hvalidation] at h
    refine hbranch (messageFragment_append authServer gatewayMessageActivateAccount token) h ?_
    rw [authenticateReply, if_neg herror, if_neg hdenied, if_pos hvalidation]
  by_cases hallowed : authcode = authAllowed
  · rw [authenticateReply, if_neg herror, if_neg hdenied, if_neg hvalidation, if_pos hallowed] at h
    refine hbranch (portalFragment_append cfg authServer token) h ?_
    rw [authenticateReply, if_neg herror, if_neg hdenied, if_neg hvalidation, if_pos hallowed]
  by_cases hfailed : authcode = authValidationFailed
  · rw [authenticateReply, if_neg herror, if_neg hdenied, if_neg hvalidation, if_neg hallowed,
      if_pos hfailed] at h
    refine hbranch
      (messageFragment_append authServer gatewayMessageAccountValidationFailed token) h ?_
    rw [authenticateReply, if_neg herror, if_neg hdenied, if_neg hvalidation, if_neg hallowed,
      if_pos hfailed]
  · rw [authenticateReply, if_neg herror, if_neg hdenied, if_neg hvalidation, if_neg hallowed,
      if_neg hfailed] at h
    cases h

/-- A redirect of `authenticate_client` adds one "Location: " line just when the part of the
    token that fits keeps it one, and the configured texts in front of the token do. -/
theorem location_line_iff (cfg : Config) (authServer : PortalServ) (token : Text) (authcode : Int)
    {url text : Text} (h : authenticateReply cfg authServer token authcode = .redirect url text) :
    LocationLine (addedHeader url (some text)) ↔
      TokenKeepsLine (locationHead cfg authServer authcode) token := by
  obtain ⟨hurl, hlast⟩ := authenticateReply_redirect h
  rw [addedHeader_eq, locationLine_ended_iff]
  have htake : "Location: ".toList ++ url.take (headerRoom - 10) =
      (locationHead cfg authServer authcode ++ token).take headerRoom := by
    rw [← hurl, List.take_append]
    rfl
  rw [htake, List.take_append]
  unfold TokenKeepsLine
  split
  · next hlen =>
    rw [List.take_of_length_le (Nat.le_of_lt hlen), oneLine_append hlast]
  · next hlen =>
    rw [Nat.sub_eq_zero_of_le (Nat.not_lt.mp hlen), List.take_zero, List.append_nil]

theorem location_line_small :
    LocationLine (addedHeader
      "http://auth.example.com:80/portal/?gw_id=gw&token=3f1c".toList
      (some "Redirect to portal".toList)) := by
  refine (location_line_iff smallConfig smallPortal "3f1c".toList authAllowed (by decide)).mpr ?_
  have hhead : locationHead smallConfig smallPortal authAllowed =
      "Location: http://auth.example.com:80/portal/?gw_id=gw&token=".toList := by decide
  rw [hhead]
  unfold TokenKeepsLine
  rw [if_pos (by decide)]
  exact ⟨⟨by decide, by decide⟩, "3f1c".toList, ⟨by decide, by decide⟩, Or.inl (by decide)⟩

/-- A token of a login request that ends the line and adds another. -/
theorem token_adds_header :
    ∃ url text, authenticateReply smallConfig smallPortal
        (httpdUnescape "a%0D%0ASet-Cookie:b".toList) authDenied = .redirect url text ∧
      addedHeader url (some text) = ("Location: http://auth.example.com:80/gw_message.php?" ++
        "message=denied&token=a\r\nSet-Cookie:b\n").toList ∧
      ¬ LocationLine (addedHeader url (some text)) := by
  refine ⟨("http://auth.example.com:80/gw_message.php?message=denied&token=" ++
    "a\r\nSet-Cookie:b").toList, "Redirect to denied message".toList, by decide, by decide, ?_⟩
  rintro ⟨l, hl, heq⟩
  have hmem : '\r' ∈ "Location: ".toList ++ l ++ ['\n'] := by
    rw [← heq]
    decide
  have hno : '\r' ∉ "Location: ".toList := by decide
  simp only [List.mem_append, List.mem_singleton, hno, hl.1, false_or] at hmem
  exact absurd hmem (by decide)

end Wifidog
