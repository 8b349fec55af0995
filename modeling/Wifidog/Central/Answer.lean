/-
  The answer of the auth server is taken from the whole response or not at all.

  After any reads the growing string is what was received (`pstrCat_holds`), and a splitting of the
  same bytes into other reads leaves no trace (`readResponse_holds`).

  Every way out of `http_get` other than the end of the file is an error, and the search for the
  marker runs over the whole response.
-/
import Wifidog.Central.Pstring

namespace Wifidog

open CText Netfilter

/-! ## Reads -/

/-- No read delivers a NUL. -/
def NulFree (rounds : List Round) : Prop :=
  ∀ chunk : Chunk, .data chunk ∈ rounds → '\x00' ∉ chunk.val

/-- All the bytes of some reads. -/
def received (chunks : List Chunk) : Text := (chunks.map (·.val)).flatten

/-- After any reads the string holds what was received. -/
theorem readResponse_data (junk : Nat → Char) (rounds : List Round) {p : Pstr} {s : Text}
    (h : p.Holds s) {chunks : List Chunk} (hnul : '\x00' ∉ received chunks) :
    ∃ p', p'.Holds (s ++ received chunks) ∧
      readResponse junk p (chunks.map .data ++ rounds) = readResponse junk p' rounds := by
  induction chunks generalizing p s with
  | nil => exact ⟨p, by simpa [received] using h, rfl⟩
  | cons chunk chunks ih =>
    simp only [received, List.map_cons, List.flatten_cons, List.mem_append, not_or] at hnul
    have hcat := pstrCat_holds junk h hnul.1
    obtain ⟨p', hholds, hread⟩ := ih hcat hnul.2
    refine ⟨p', ?_, ?_⟩
    · rw [List.append_assoc] at hholds
      exact hholds
    · rw [List.map_cons, List.cons_append, readResponse, cstrAt_of_not_mem hnul.1, hread]

/-- What is read depends on the text in the string only. -/
theorem readResponse_holds (junk junk' : Nat → Char) {rounds : List Round} (hnul : NulFree rounds)
    {p p' : Pstr} {s : Text} (h : p.Holds s) (h' : p'.Holds s) :
    readResponse junk p rounds = readResponse junk' p' rounds := by
  induction rounds generalizing p p' s with
  | nil => rfl
  | cons round rounds ih =>
    cases round with
    | data chunk =>
      have hchunk := hnul chunk List.mem_cons_self
      rw [readResponse, readResponse, cstrAt_of_not_mem hchunk]
      exact ih (fun d hd => hnul d (List.mem_cons_of_mem _ hd)) (pstrCat_holds junk h hchunk)
        (pstrCat_holds junk' h' hchunk)
    | eof => rw [readResponse, readResponse, h.toString, h'.toString]
    | readError => rfl
    | timeout => rfl
    | selectError => rfl

/-- A response is what was read up to the end of the file. -/
theorem readResponse_eq_response {junk : Nat → Char} {rounds : List Round} (hnul : NulFree rounds)
    {p : Pstr} {s text : Text} (h : p.Holds s)
    (hread : readResponse junk p rounds = .response text) :
    ∃ chunks tail, rounds = chunks.map .data ++ .eof :: tail ∧ text = s ++ received chunks := by
  induction rounds generalizing p s with
  | nil => cases hread
  | cons round rounds ih =>
    cases round with
    | data chunk =>
      have hchunk := hnul chunk List.mem_cons_self
      rw [readResponse, cstrAt_of_not_mem hchunk] at hread
      obtain ⟨chunks, tail, rfl, rfl⟩ := ih (fun d hd => hnul d (List.mem_cons_of_mem _ hd))
        (pstrCat_holds junk h hchunk) hread
      exact ⟨chunk :: chunks, tail, rfl, by simp [received]⟩
    | eof =>
      refine ⟨[], rounds, rfl, ?_⟩
      rw [readResponse, h.toString] at hread
      rw [← Fetch.response.inj hread]
      simp [received]
    | readError => cases hread
    | timeout => cases hread
    | selectError => cases hread

/-! ## Answers -/

/-- The marker stands in the response, and at its first occurrence an integer follows. -/
def Says (response : Text) (n : Int) : Prop :=
  ∃ i, FirstAt authMarker response i ∧ IntegerAt (response.drop (i + authMarker.length)) n

theorem sscanfAuth_marker {tmp : Text} (h : authMarker <+: tmp) :
    sscanfAuth tmp = scanInt (tmp.drop authMarker.length) := by
  obtain ⟨rest, rfl⟩ := h
  have hdrop : (authMarker ++ rest).drop "Auth:".toList.length = ' ' :: rest := rfl
  rw [List.drop_left]
  unfold sscanfAuth
  rw [if_pos (by rfl), hdrop, scanInt_space rfl]

theorem readAnswer_response {response : Text} {i : Nat} (h : FirstAt authMarker response i) :
    readAnswer (.response response) =
      match scanInt (response.drop (i + authMarker.length)) with
      | some code => some (code, code)
      | none => some (authError, authError) := by
  have hfind : strstr response authMarker = some i := strstr_eq_some_iff.mpr h
  have hscan : sscanfAuth (response.drop i) = scanInt (response.drop (i + authMarker.length)) := by
    rw [sscanfAuth_marker h.1, List.drop_drop]
  cases hcode : scanInt (response.drop (i + authMarker.length)) with
  | none => simp only [readAnswer, hfind, hscan, hcode]
  | some code => simp only [readAnswer, hfind, hscan, hcode]

theorem requestText_ne_nil (c : Central) (q : Query) (server : AuthServer) :
    requestText c q server ≠ [] := by
  unfold requestText
  simp [maxBuf]

theorem httpGet_eq_response {junk : Nat → Char} {connected : Bool} {req text : Text} {s : Socket}
    (h : httpGet junk connected req s = .response text) :
    connected = true ∧ s.send = req.length ∧
      readResponse junk pstrNew s.rounds = .response text := by
  unfold httpGet at h
  split at h
  · cases h
  · rename_i hconnected
    split at h
    · cases h
    · split at h
      · cases h
      · rename_i hsend
        exact ⟨by simpa using hconnected, by simpa using hsend, h⟩

/-- An answer other than an error is a number behind the marker of a response. -/
theorem readAnswer_eq_some {fetch : Fetch} {ret code : Int}
    (h : readAnswer fetch = some (ret, code)) :
    ret = code ∧ (code ≠ authError → ∃ response n, fetch = .response response ∧ Says response n ∧
      (-2 ^ 31 ≤ n ∧ n < 2 ^ 31 → code = n)) := by
  have herror : some (authError, authError) = some (ret, code) → ret = code ∧ code = authError := by
    intro heq
    obtain ⟨rfl, rfl⟩ := Prod.mk.inj (Option.some.inj heq)
    exact ⟨rfl, rfl⟩
  cases fetch with
  | waiting => cases h
  | failed => exact ⟨(herror h).1, fun hne => absurd (herror h).2 hne⟩
  | response response =>
    cases hfind : strstr response authMarker with
    | none =>
      simp only [readAnswer, hfind] at h
      exact ⟨(herror h).1, fun hne => absurd (herror h).2 hne⟩
    | some i =>
      have hfirst := strstr_eq_some_iff.mp hfind
      rw [readAnswer_response hfirst] at h
      cases hscan : scanInt (response.drop (i + authMarker.length)) with
      | none =>
        rw [hscan] at h
        exact ⟨(herror h).1, fun hne => absurd (herror h).2 hne⟩
      | some m =>
        rw [hscan] at h
        obtain ⟨rfl, rfl⟩ := Prod.mk.inj (Option.some.inj h)
        refine ⟨rfl, fun _ => ?_⟩
        obtain ⟨n, hn⟩ := scanInt_isSome_iff.mp (Option.isSome_of_eq_some hscan)
        refine ⟨response, n, rfl, ⟨i, hfirst, hn⟩, fun hfits => ?_⟩
        exact Option.some.inj (hscan.symm.trans (scanInt_eq_some hn hfits))

theorem httpGet_split (junk junk' : Nat → Char) (connected : Bool) (req : Text) (send : Int)
    {chunks chunks' : List Chunk} {rounds : List Round} (heq : received chunks = received chunks')
    (hnul : '\x00' ∉ received chunks) (hrounds : NulFree rounds) :
    httpGet junk connected req ⟨send, chunks.map .data ++ rounds⟩ =
      httpGet junk' connected req ⟨send, chunks'.map .data ++ rounds⟩ := by
  obtain ⟨p, hp, hread⟩ := readResponse_data junk rounds pstrNew_holds hnul
  obtain ⟨p', hp', hread'⟩ := readResponse_data junk' rounds pstrNew_holds (heq ▸ hnul)
  rw [heq] at hp
  unfold httpGet
  simp only [hread, hread', readResponse_holds junk junk' hrounds hp hp']

/-- A request that is sent whole and a response that is read to its end. -/
theorem httpGet_whole (junk : Nat → Char) {req : Text} (hreq : req ≠ []) {chunks : List Chunk}
    (hnul : '\x00' ∉ received chunks) (tail : List Round) :
    httpGet junk true req ⟨req.length, chunks.map .data ++ .eof :: tail⟩ =
      .response (received chunks) := by
  obtain ⟨p, hp, hread⟩ := readResponse_data junk (.eof :: tail) pstrNew_holds hnul
  have hsend : ¬ (req.length : Int) ≤ 0 :=
    Int.not_le.mpr (Int.natCast_pos.mpr (List.length_pos_of_ne_nil hreq))
  unfold httpGet
  rw [if_neg (by simp), if_neg hsend, if_neg (by simp), hread, readResponse, hp.toString,
    List.nil_append]

/-- Over plain HTTP the answer is what `http_get` makes of the connection to the first server. -/
theorem authServerRequest_plain (c : Central) (net : Net) (q : Query) {servers : List AuthServer}
    (t : Tables Chain) (https : Fetch) (hplain : ∀ server ∈ servers.head?, c.ssl server = false)
    (junk : Nat → Char) (s : Socket) :
    authServerRequest c net q servers t https junk s = servers.head?.bind fun server =>
      readAnswer (httpGet junk (connectAuthServer c net servers t).sockfd.isSome
        (requestText c q server) s) := by
  unfold authServerRequest
  cases hhead : servers.head? with
  | none => rfl
  | some server => simp only [hplain server hhead, Bool.false_eq_true, if_false, Option.bind_some]

/-- The answer is an error unless the whole request was sent and the response was read to its end
    and has a number behind the marker, which is the answer then; it does not depend on how the
    response was split into reads, nor on what the memory held. -/
theorem auth_answer_failsafe (c : Central) (net : Net) (q : Query) (servers : List AuthServer)
    (t : Tables Chain) (https : Fetch)
    (hplain : ∀ server ∈ servers.head?, c.ssl server = false) :
    let request := authServerRequest c net q servers t https
    (∀ junk s ret code, NulFree s.rounds → request junk s = some (ret, code) →
      ret = code ∧ (code ≠ authError →
        ∃ server ∈ servers.head?, ∃ chunks tail n,
          (connectAuthServer c net servers t).sockfd.isSome = true ∧
            s.send = (requestText c q server).length ∧
            s.rounds = chunks.map .data ++ .eof :: tail ∧ Says (received chunks) n ∧
            (-2 ^ 31 ≤ n ∧ n < 2 ^ 31 → code = n))) ∧
      (∀ junk server, server ∈ servers.head? → ∀ chunks tail n,
        (connectAuthServer c net servers t).sockfd.isSome = true → '\x00' ∉ received chunks →
        Says (received chunks) n → -2 ^ 31 ≤ n ∧ n < 2 ^ 31 →
        request junk ⟨(requestText c q server).length, chunks.map .data ++ .eof :: tail⟩ =
          some (n, n)) ∧
      ∀ junk junk' send chunks chunks' rounds, received chunks = received chunks' →
        '\x00' ∉ received chunks → NulFree rounds →
        request junk ⟨send, chunks.map .data ++ rounds⟩ =
          request junk' ⟨send, chunks'.map .data ++ rounds⟩ := by
  intro request
  have hrequest : ∀ junk s, request junk s = servers.head?.bind fun server =>
      readAnswer (httpGet junk (connectAuthServer c net servers t).sockfd.isSome
        (requestText c q server) s) :=
    authServerRequest_plain c net q t https hplain
  refine ⟨?_, ?_, ?_⟩
  · intro junk s ret code hnul hreturn
    rw [hrequest] at hreturn
    obtain ⟨server, hserver, hanswer⟩ := Option.bind_eq_some_iff.mp hreturn
    obtain ⟨hret, hcode⟩ := readAnswer_eq_some hanswer
    refine ⟨hret, fun hne => ?_⟩
    obtain ⟨response, n, hfetch, hsays, hvalue⟩ := hcode hne
    obtain ⟨hconnected, hsend, hread⟩ := httpGet_eq_response hfetch
    obtain ⟨chunks, tail, hrounds, rfl⟩ := readResponse_eq_response hnul pstrNew_holds hread
    exact ⟨server, hserver, chunks, tail, n, hconnected, hsend, hrounds, hsays, hvalue⟩
  · intro junk server hserver chunks tail n hconnected hnul hsays hfits
    obtain ⟨i, hfirst, hint⟩ := hsays
    have hfetch := httpGet_whole junk (requestText_ne_nil c q server) hnul tail
    rw [hrequest, Option.mem_def.mp hserver, Option.bind_some, hconnected, hfetch,
      readAnswer_response hfirst, scanInt_eq_some hint hfits]
  · intro junk junk' send chunks chunks' rounds heq hnul hrounds
    rw [hrequest, hrequest]
    simp only [httpGet_split junk junk' _ _ send heq hnul hrounds]

/-- A marker and a number cut by the reads. -/
def cutChunks : List Chunk :=
  [⟨"HTTP/1.0 200 OK\r\n\r\nAu".toList, by decide⟩, ⟨"th: ".toList, by decide⟩,
    ⟨"25".toList, by decide⟩, ⟨"4\n".toList, by decide⟩]

def loginQuery : Query :=
  .auth .login "10.0.0.5".toList "00:16:3e:00:00:05".toList "t".toList 0 0 0 0

/-- The answer 254, cut into four reads, is received. -/
theorem auth_answer_cut :
    (∀ server ∈ [secondServer].head?, smallCentral.ssl server = false) ∧
      Says (received cutChunks) 254 ∧
      authServerRequest smallCentral smallNet loginQuery [secondServer] ⟨[], [], []⟩ .failed
        (fun _ => 'x')
        ⟨(requestText smallCentral loginQuery secondServer).length,
          cutChunks.map .data ++ [.eof]⟩ = some (254, 254) := by
  have hplain : ∀ server ∈ [secondServer].head?, smallCentral.ssl server = false := by
    intro server hserver
    rw [← Option.some.inj hserver]
    rfl
  have hsays : Says (received cutChunks) 254 := by
    refine ⟨19, ?_, [], [], "254".toList, "\n".toList, by decide, by decide, by decide, by decide,
      by decide, Or.inl ⟨Or.inl rfl, by decide⟩⟩
    exact ⟨by decide, by decide⟩
  refine ⟨hplain, hsays, ?_⟩
  exact (auth_answer_failsafe smallCentral smallNet loginQuery [secondServer] ⟨[], [], []⟩
    .failed hplain).2.1 (fun _ => 'x') secondServer rfl cutChunks [] 254 (by decide +kernel)
    (by decide) hsays (by omega)

end Wifidog
