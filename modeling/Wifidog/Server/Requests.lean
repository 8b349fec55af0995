/-
  Requests that come through unchanged.

  A `Sent` request has a method, a path, variables and header lines; `Sent.text` is what a browser
  sends for it. Read from the connection, in any split into reads and with anything behind it, it
  gives the request it was made from (`request_round_trip`): path, variables and host, and the name
  and password of its credentials. Credentials of more than 99 bytes, decoded, are the exception:
  the decoder writes behind its buffer, and there is no saying what happens.

  The path has to be sanitised already, since the server sanitises it, and path and query have to
  fit into 1023 bytes together.
-/
import Wifidog.Server.Reading

namespace Wifidog

open CText Paths

/-! ## Header lines -/

/-- A header line: the two that are looked at, and any other. -/
inductive HeaderLine where
  | host (name : Text)
  | basic (user password : Text)
  | other (line : Text)
  deriving DecidableEq, Repr

def HeaderLine.text : HeaderLine → Text
  | .host name => "Host: ".toList ++ name
  | .basic user password => authorizationLine user password
  | .other line => line

/-- What a line does to the request. -/
def HeaderLine.apply (r : HttpReq) : HeaderLine → HttpReq
  | .host name => { r with host := name }
  | .basic user password => r.withCredentials user password
  | .other _ => r

/-- The credentials fit into the buffer they are decoded into. -/
def HeaderLine.Fits : HeaderLine → Prop
  | .basic user password => (user ++ ':' :: password).length ≤ 99
  | _ => True

instance HeaderLine.decidableFits (h : HeaderLine) : Decidable h.Fits :=
  match h with
  | .host _ => inferInstanceAs (Decidable True)
  | .basic user password => inferInstanceAs (Decidable ((user ++ ':' :: password).length ≤ 99))
  | .other _ => inferInstanceAs (Decidable True)

/-- The lines that a browser may send. -/
inductive HeaderLine.Plain : HeaderLine → Prop where
  | host {name : Text} (hline : PlainLine ("Host: ".toList ++ name))
      (hshort : name.length < httpMaxUrl) : Plain (.host name)
  | basic {user password : Text} (hcolon : ':' ∉ user)
      (hbytes : ∀ c ∈ user ++ ':' :: password, StringByte c)
      (hshort : (authorizationLine user password).length < httpMaxLen) : Plain (.basic user password)
  | other {line : Text} (hline : PlainLine line) (hne : line ≠ [])
      (hauth : startsWithCase line "Authorization: ".toList = false)
      (hhost : startsWithCase line "Host: ".toList = false) : Plain (.other line)

/-- The case-insensitive comparison stops at the NUL behind a line. -/
theorem startsWithCase_putLine {word : Text} (hword : '\x00' ∉ word) (buf line : Text) :
    startsWithCase (putLine buf line) word = startsWithCase line word := by
  unfold startsWithCase putLine
  by_cases hlen : word.length ≤ line.length
  · rw [List.take_append_of_le_length hlen]
  · have hshort : line.length < word.length := by omega
    have hleft : strcaseEq ((line ++ '\x00' :: buf.drop (line.length + 1)).take word.length) word =
        false := by
      rw [Bool.eq_false_iff, ne_eq, strcaseEq_iff]
      intro heq
      -- the NUL would stand in the word
      have hget := congrArg (fun l : Text => l[line.length]?) heq
      simp only [List.getElem?_map, List.getElem?_take_of_lt hshort,
        List.getElem?_append_right (Nat.le_refl _), Nat.sub_self, List.getElem?_cons_zero,
        Option.map_some] at hget
      rw [List.getElem?_eq_getElem hshort, Option.map_some, Option.some.injEq] at hget
      have hnul : word[line.length] = '\x00' :=
        (toLower_eq_iff (by decide)).mp (hget.symm.trans (by decide))
      exact hword (hnul ▸ List.getElem_mem hshort)
    have hright : strcaseEq (line.take word.length) word = false := by
      rw [Bool.eq_false_iff, ne_eq, strcaseEq_iff]
      intro heq
      have hl := congrArg List.length heq
      simp only [List.length_map, List.length_take] at hl
      omega
    rw [hleft, hright]

theorem requestHeader_host {name buf : Text} (hnul : '\x00' ∉ name)
    (hshort : name.length < httpMaxUrl) (r : HttpReq) :
    requestHeader (putLine buf ("Host: ".toList ++ name)) r = some { r with host := name } := by
  rw [requestHeader, putLine_append]
  generalize hrest : name ++ '\x00' :: buf.drop (("Host: ".toList ++ name).length + 1) = rest
  have hauth : startsWithCase ("Host: ".toList ++ rest) "Authorization: ".toList = false := by
    rw [startsWithCase, Bool.eq_false_iff, ne_eq, strcaseEq_iff]
    intro heq
    have hfirst : some 'h' = some 'a' := congrArg List.head? heq
    exact absurd hfirst (by decide)
  have hhost : startsWithCase ("Host: ".toList ++ rest) "Host: ".toList = true := by
    have h6 : ("Host: ".toList ++ rest).take "Host: ".toList.length = "Host: ".toList := rfl
    rw [startsWithCase, h6]
    decide
  have hname : cstrAt ("Host: ".toList ++ rest) 6 = name := by
    rw [← hrest]
    exact cstrAt_append hnul "Host: ".toList _
  simp only [hauth, hhost, Bool.false_and, Bool.false_eq_true, if_false, if_true, Option.map_some,
    hname, List.take_of_length_le (by omega : name.length ≤ httpMaxUrl - 1)]

/-- A header line of a request does what it says, if it fits. -/
theorem requestHeader_text {h : HeaderLine} (hh : h.Plain) (buf : Text) (r : HttpReq) :
    requestHeader (putLine buf h.text) r = if h.Fits then some (h.apply r) else none := by
  cases hh with
  | @host name hline hshort =>
    rw [if_pos (show (HeaderLine.host name).Fits from trivial)]
    refine requestHeader_host (fun hnul => ?_) hshort r
    exact (hline.chars _ (List.mem_append_right _ hnul)).2.2.2 rfl
  | basic hcolon hbytes hshort => exact requestHeader_authorization hcolon hbytes buf r
  | @other line hline hne hauth hhost =>
    rw [if_pos (show (HeaderLine.other line).Fits from trivial)]
    unfold requestHeader HeaderLine.text
    simp only [startsWithCase_putLine (by decide : '\x00' ∉ "Authorization: ".toList),
      startsWithCase_putLine (by decide : '\x00' ∉ "Host: ".toList), hauth, hhost]
    rfl

theorem ascii_alphabet : ∀ c ∈ '=' :: Base64.alphabet,
    isAscii c = true ∧ c ≠ '\n' ∧ c ≠ '\r' ∧ c ≠ '\x00' := by decide +kernel

theorem mem_encode {s : Text} (hs : ∀ c ∈ s, c.toNat < 256) {d : Char}
    (hd : d ∈ Base64.encode s) : d ∈ '=' :: Base64.alphabet := by
  rcases List.mem_append.mp hd with hd | hd
  · have hlt : Base64.alphabet.idxOf d < Base64.alphabet.length :=
      Nat.lt_of_le_of_lt (Base64.value_of_mem_digits hs hd) (by decide)
    exact List.mem_cons_of_mem _ (List.idxOf_lt_length_iff.mp hlt)
  · rw [List.eq_of_mem_replicate hd]
    exact List.mem_cons_self

theorem HeaderLine.Plain.line {h : HeaderLine} (hh : h.Plain) :
    PlainLine h.text ∧ ∃ c rest, h.text = c :: rest := by
  cases hh with
  | host hline hshort => exact ⟨hline, 'H', _, rfl⟩
  | other hline hne hauth hhost =>
    obtain ⟨c, rest, hcr⟩ := List.exists_cons_of_ne_nil hne
    exact ⟨hline, c, rest, hcr⟩
  | @basic user password hcolon hbytes hshort =>
    have hlow : ∀ c ∈ user ++ ':' :: password, c.toNat < 256 := fun c hc => (hbytes c hc).2
    refine ⟨⟨fun c hc => ?_, ?_⟩, 'A', _, rfl⟩
    · have hc' : c ∈ "Authorization: Basic ".toList ++ Base64.encode (user ++ ':' :: password) := hc
      rcases List.mem_append.mp hc' with hc | hc
      · have hall : ∀ c ∈ "Authorization: Basic ".toList,
            isAscii c = true ∧ c ≠ '\n' ∧ c ≠ '\r' ∧ c ≠ '\x00' := by decide
        exact hall c hc
      · exact ascii_alphabet c (mem_encode hlow hc)
    · exact hshort

/-! ## The lines of a request -/

/-- The lines up to the empty one. -/
def headerText (headers : List HeaderLine) : Text :=
  headers.flatMap (fun h => h.text ++ lineEnd) ++ lineEnd

theorem length_le_headerText (headers : List HeaderLine) :
    headers.length < (headerText headers).length := by
  induction headers with
  | nil => decide
  | cons h headers ih =>
    simp only [headerText, List.flatMap_cons, List.length_append, List.length_cons] at ih ⊢
    have hend : lineEnd.length = 2 := rfl
    omega

theorem plainLine_nil : PlainLine [] := ⟨by simp, by decide⟩

theorem readRequestText_headers {headers : List HeaderLine} (hplain : ∀ h ∈ headers, h.Plain)
    {fuel : Nat} (hfuel : headers.length < fuel) (buf : Text) (r : HttpReq) (rest : Text) :
    readRequestText fuel false buf r (headerText headers ++ rest) =
      if ∀ h ∈ headers, h.Fits then .request (processUrl (headers.foldl HeaderLine.apply r))
      else .outside := by
  induction headers generalizing fuel buf r with
  | nil =>
    obtain ⟨fuel, rfl⟩ := Nat.exists_eq_add_of_lt hfuel
    have hline := readLineText_line plainLine_nil rest
    rw [if_pos (by simp), headerText, List.flatMap_nil, readRequestText, hline]
    rfl
  | cons h headers ih =>
    obtain ⟨fuel, rfl⟩ := Nat.exists_eq_succ_of_ne_zero (Nat.ne_of_gt (Nat.zero_lt_of_lt hfuel))
    obtain ⟨hline, c, more, htext⟩ := (hplain h List.mem_cons_self).line
    have hc : c ≠ '\x00' := (hline.chars c (by rw [htext]; exact List.mem_cons_self)).2.2.2
    have hhead : ((putLine buf h.text).head? == some '\x00') = false := by
      rw [htext]
      simpa [putLine] using hc
    have hbytes : headerText (h :: headers) ++ rest =
        h.text ++ lineEnd ++ (headerText headers ++ rest) := by
      simp [headerText]
    have ih' := ih (fun x hx => hplain x (List.mem_cons_of_mem h hx))
      (Nat.lt_of_succ_lt_succ hfuel) (putLine buf h.text) (h.apply r)
    rw [hbytes, readRequestText, readLineText_line hline]
    simp only [Bool.false_eq_true, if_false, hhead, requestHeader_text (hplain h List.mem_cons_self),
      List.forall_mem_cons, List.foldl_cons]
    by_cases hfits : h.Fits
    · simp only [hfits, if_true, true_and]
      exact ih'
    · simp only [hfits, if_false, false_and]

/-- The word of a method. -/
def HttpMethod.word : HttpMethod → Text
  | .get => "GET".toList
  | .post => "POST".toList

theorem methodOf_word (m : HttpMethod) : methodOf m.word = some m := by cases m <;> decide

/-- The characters that the target of a request is made of. -/
def TargetChar (c : Char) : Prop :=
  isAscii c = true ∧ c ≠ ' ' ∧ c ≠ '\n' ∧ c ≠ '\r' ∧ c ≠ '\x00'

/-- The first line of a request. -/
def requestHead (m : HttpMethod) (target : Text) : Text :=
  m.word ++ ' ' :: (target ++ " HTTP/1.1".toList)

theorem requestLine_requestHead {target : Text} (hne : target ≠ [])
    (hchars : ∀ c ∈ target, TargetChar c) (hshort : target.length < httpMaxUrl) (m : HttpMethod)
    (buf : Text) (r : HttpReq) : ∃ buf', requestLine (putLine buf (requestHead m target)) r =
      some (buf', { r with method := some m, path := httpdSanitiseUrl target }) := by
  generalize hstale : " HTTP/1.1".toList ++ '\x00' :: buf.drop ((requestHead m target).length + 1) =
    stale
  have hbuf : putLine buf (requestHead m target) = m.word ++ ' ' :: (target ++ stale) := by
    rw [← hstale]
    simp [putLine, requestHead]
  have hword : (m.word ++ ' ' :: (target ++ stale)).takeWhile Char.isAlpha = m.word := by
    have hall : ∀ c ∈ m.word, Char.isAlpha c = true := by cases m <;> decide
    rw [List.takeWhile_append_of_pos hall, List.takeWhile_cons_of_neg (by decide), List.append_nil]
  have hset : (m.word ++ ' ' :: (target ++ stale)).set m.word.length '\x00' =
      m.word ++ '\x00' :: (target ++ stale) := by
    rw [List.set_append_right _ _ (Nat.le_refl _), Nat.sub_self]
    rfl
  have hdrop : (m.word ++ '\x00' :: (target ++ stale)).drop (m.word.length + 1) = target ++ stale := by
    rw [← List.drop_drop, List.drop_left]
    rfl
  have hblanks : ((target ++ stale).takeWhile (· == ' ')).length = 0 := by
    obtain ⟨c, more, rfl⟩ := List.exists_cons_of_ne_nil hne
    have hc : (c == ' ') = false := by simpa using (hchars c List.mem_cons_self).2.1
    rw [List.cons_append, List.takeWhile_cons_of_neg (by simp [hc])]
    rfl
  have hpath : (target ++ stale).takeWhile (fun c => c != ' ' && c != '\x00') = target := by
    rw [List.takeWhile_append_of_pos fun c hc => by
      simp [(hchars c hc).2.1, (hchars c hc).2.2.2.2], ← hstale]
    simp
  refine ⟨(m.word ++ '\x00' :: (target ++ stale)).set (m.word.length + 1 + target.length) '\x00', ?_⟩
  rw [hbuf]
  unfold requestLine
  simp only [hword, methodOf_word, Option.map_some, hset, hdrop, hblanks, Nat.add_zero, hpath,
    List.take_of_length_le (by omega : target.length ≤ httpMaxUrl - 1)]

theorem processUrl_apply (r : HttpReq) (h : HeaderLine) :
    processUrl (h.apply r) = h.apply (processUrl r) := by
  -- whether there is a query is a question about the path alone, which no header changes
  by_cases hquery : (r.path.takeWhile (· != '?')).length < r.path.length
  · cases h <;> simp only [processUrl, HeaderLine.apply, HttpReq.withCredentials, hquery, if_true]
  · cases h <;> simp only [processUrl, HeaderLine.apply, HttpReq.withCredentials, hquery, if_false]

theorem processUrl_foldl (headers : List HeaderLine) (r : HttpReq) :
    processUrl (headers.foldl HeaderLine.apply r) =
      headers.foldl HeaderLine.apply (processUrl r) := by
  induction headers generalizing r with
  | nil => rfl
  | cons h headers ih => rw [List.foldl_cons, ih, processUrl_apply, List.foldl_cons]

/-- A request with any target: what is read of it, before the variables are looked at. -/
theorem readRequestText_lines {target : Text} (hne : target ≠ [])
    (hchars : ∀ c ∈ target, TargetChar c) (hshort : target.length < httpMaxUrl)
    {headers : List HeaderLine} (hplain : ∀ h ∈ headers, h.Plain) (m : HttpMethod) {fuel : Nat}
    (hfuel : headers.length + 1 < fuel) (junk rest : Text) :
    readRequestText fuel true junk .zero
        (requestHead m target ++ lineEnd ++ (headerText headers ++ rest)) =
      if ∀ h ∈ headers, h.Fits then
        .request (headers.foldl HeaderLine.apply
          (processUrl { HttpReq.zero with method := some m, path := httpdSanitiseUrl target }))
      else .outside := by
  obtain ⟨fuel, rfl⟩ := Nat.exists_eq_succ_of_ne_zero (Nat.ne_of_gt (Nat.zero_lt_of_lt hfuel))
  have hline : PlainLine (requestHead m target) := by
    have hword : ∀ c ∈ m.word ++ " HTTP/1.1".toList, isAscii c = true ∧ c ≠ '\n' ∧ c ≠ '\r' ∧
        c ≠ '\x00' := by cases m <;> decide
    refine ⟨fun c hc => ?_, ?_⟩
    · simp only [requestHead, List.mem_append, List.mem_cons] at hc
      rcases hc with hc | rfl | hc | hc
      · exact hword c (List.mem_append_left _ hc)
      · decide
      · exact ⟨(hchars c hc).1, (hchars c hc).2.2⟩
      · exact hword c (List.mem_append_right _ hc)
    · have hm : m.word.length ≤ 4 := by cases m <;> decide
      have hversion : " HTTP/1.1".toList.length = 9 := by decide
      simp only [requestHead, List.length_append, List.length_cons, hversion, httpMaxUrl,
        httpMaxLen] at hshort ⊢
      omega
  obtain ⟨buf', hrequest⟩ := requestLine_requestHead hne hchars hshort m junk .zero
  rw [readRequestText, readLineText_line hline]
  simp only [if_true, hrequest]
  rw [readRequestText_headers hplain (Nat.lt_of_succ_lt_succ hfuel), processUrl_foldl]

/-! ## Requests -/

/-- A request before it is written. -/
structure Sent where
  method : HttpMethod
  path : Text
  pairs : List (Text × Text)
  headers : List HeaderLine
  deriving DecidableEq, Repr

/-- Its variables, as they stand in the URL. -/
def Sent.query (s : Sent) : Text := formQuery s.pairs

def Sent.target (s : Sent) : Text :=
  s.path ++ if s.pairs.isEmpty then [] else '?' :: s.query

/-- What is sent. -/
def Sent.text (s : Sent) : Text := requestHead s.method s.target ++ lineEnd ++ headerText s.headers

structure Sent.Wf (s : Sent) : Prop where
  ne_nil : s.path ≠ []
  path : ∀ c ∈ s.path, TargetChar c ∧ c ≠ '?'
  /-- the path is sanitised -/
  clean : Tidy (s.path.splitOn '/')
  form : FormPairs s.pairs
  names : ∀ pair ∈ s.pairs, ∀ c ∈ pair.1, TargetChar c ∧ c ≠ '/'
  short : s.target.length < httpMaxUrl
  headers : ∀ h ∈ s.headers, h.Plain

/-- The request that ought to be read. -/
def Sent.received (s : Sent) : HttpReq :=
  s.headers.foldl HeaderLine.apply
    { HttpReq.zero with
      method := some s.method
      path := s.path
      query := s.query
      vars := if s.pairs.isEmpty then [] else httpdStoreData [] s.query }

theorem targetChar_of_acceptable {c : Char} (h : acceptable c = true) : TargetChar c := by
  have hascii : isAscii c = true := by
    simp only [acceptable, Bool.or_eq_true, decide_eq_true_eq] at h
    rcases h with h | h
    · have hranges : ((decide (c.val ≥ 'A'.val ∧ c.val ≤ 'Z'.val) ||
          (decide (c.val ≥ 'a'.val) && decide (c.val ≤ 'z'.val))) ||
          (decide (c.val ≥ '0'.val) && decide (c.val ≤ '9'.val))) = true := h
      simp only [Bool.or_eq_true, Bool.and_eq_true, decide_eq_true_eq, ge_iff_le,
        UInt32.le_iff_toNat_le] at hranges
      simp only [isAscii, Char.toNat, decide_eq_true_eq]
      have hz : 'z'.val.toNat = 122 ∧ 'Z'.val.toNat = 90 ∧ '9'.val.toNat = 57 := by decide
      omega
    · have hall : ∀ c ∈ "!\"$'()*+,-.@_".toList, isAscii c = true := by decide
      exact hall c h
  refine ⟨hascii, ?_, ?_, ?_, ?_⟩ <;>
    · rintro rfl
      exact absurd h (by decide)

theorem Sent.Wf.query_chars {s : Sent} (hs : s.Wf) :
    ∀ c ∈ s.query, TargetChar c ∧ c ≠ '/' := by
  intro c hc
  rcases mem_of_mem_intercalate hc with rfl | ⟨p, hp, hc⟩
  · exact ⟨⟨by decide, by decide, by decide, by decide, by decide⟩, by decide⟩
  · obtain ⟨pair, hpair, rfl⟩ := List.mem_map.mp hp
    simp only [formPiece, List.mem_append, List.mem_cons] at hc
    rcases hc with hc | rfl | hc
    · exact hs.names pair hpair c hc
    · exact ⟨⟨by decide, by decide, by decide, by decide, by decide⟩, by decide⟩
    · rcases mem_httpdUrlEncode hc with h | rfl
      · exact ⟨targetChar_of_acceptable h, by rintro rfl; exact absurd h (by decide)⟩
      · exact ⟨⟨by decide, by decide, by decide, by decide, by decide⟩, by decide⟩

theorem Sent.Wf.target_chars {s : Sent} (hs : s.Wf) : ∀ c ∈ s.target, TargetChar c := by
  intro c hc
  rcases List.mem_append.mp hc with hc | hc
  · exact (hs.path c hc).1
  · split at hc
    · cases hc
    · rcases List.mem_cons.mp hc with rfl | hc
      · exact ⟨by decide, by decide, by decide, by decide, by decide⟩
      · exact (hs.query_chars c hc).1

theorem Sent.Wf.sanitise_target {s : Sent} (hs : s.Wf) : httpdSanitiseUrl s.target = s.target := by
  have hmore : '/' ∉ if s.pairs.isEmpty then [] else '?' :: s.query := by
    split
    · simp
    · simp only [List.mem_cons, not_or]
      exact ⟨by decide, fun h => (hs.query_chars _ h).2 rfl⟩
  rw [httpdSanitiseUrl_eq, Sent.target, normalise_of_tidy (tidy_append hs.clean hmore),
    join_splitOn]

/-- The query is cut off from the path again. -/
theorem Sent.Wf.processUrl_target {s : Sent} (hs : s.Wf) :
    processUrl { HttpReq.zero with method := some s.method, path := s.target } =
      { HttpReq.zero with
        method := some s.method
        path := s.path
        query := s.query
        vars := if s.pairs.isEmpty then [] else httpdStoreData [] s.query } := by
  have hpath : ∀ c ∈ s.path, (c != '?') = true := fun c hc => by simpa using (hs.path c hc).2
  unfold processUrl
  cases hpairs : s.pairs.isEmpty with
  | true =>
    have htarget : s.target = s.path := by simp [Sent.target, hpairs]
    have hquery : s.query = [] := by rw [Sent.query, List.isEmpty_iff.mp hpairs]; rfl
    simp only [htarget, List.takeWhile_eq_self_iff.mpr hpath, Nat.lt_irrefl, if_false, if_true,
      hquery]
    rfl
  | false =>
    have htarget : s.target = s.path ++ '?' :: s.query := by simp [Sent.target, hpairs]
    have htake : s.target.takeWhile (· != '?') = s.path := by
      rw [htarget, List.takeWhile_append_of_pos hpath]
      simp
    have hdrop : s.target.drop (s.path.length + 1) = s.query := by
      rw [htarget, ← List.drop_drop, List.drop_left]
      rfl
    have hlen : s.path.length + 1 + s.query.length = s.target.length := by
      rw [htarget, List.length_append, List.length_cons]
      omega
    have hshort := hs.short
    simp only [htake, hdrop, if_pos (by omega : s.path.length < s.target.length),
      List.take_of_length_le (by omega : s.query.length ≤ httpMaxUrl - 1), Bool.false_eq_true,
      if_false]
    rfl

theorem received_vars (s : Sent) :
    s.received.vars = if s.pairs.isEmpty then [] else httpdStoreData [] s.query := by
  have hfold : ∀ (headers : List HeaderLine) (r : HttpReq),
      (headers.foldl HeaderLine.apply r).vars = r.vars := by
    intro headers
    induction headers with
    | nil => exact fun r => rfl
    | cons h headers ih =>
      intro r
      rw [List.foldl_cons, ih]
      cases h <;> rfl
  exact hfold _ _

theorem httpdReadRequest_sent {s : Sent} (hs : s.Wf) {reads : List HttpChunk} {rest : Text}
    (harrived : arrived reads = s.text ++ rest) (junk : Text) :
    httpdReadRequest junk reads =
      if ∀ h ∈ s.headers, h.Fits then .request s.received else .outside := by
  have hne : s.target ≠ [] := by
    simp [Sent.target, hs.ne_nil]
  have hbytes : arrived reads =
      requestHead s.method s.target ++ lineEnd ++ (headerText s.headers ++ rest) := by
    rw [harrived, Sent.text, List.append_assoc (_ ++ lineEnd)]
  have hfuel : s.headers.length + 1 < (arrived reads).length + 1 := by
    have hlines := length_le_headerText s.headers
    rw [hbytes]
    simp only [List.length_append]
    omega
  rw [hbytes] at hfuel
  rw [httpdReadRequest_eq, hbytes, readRequestText_lines hne hs.target_chars hs.short hs.headers
    s.method hfuel, hs.sanitise_target, hs.processUrl_target]
  rfl

theorem received_variable {s : Sent} (hs : s.Wf) (n : Text) :
    httpdGetVariableByName s.received.vars n =
      (s.pairs.find? fun pair => pair.1 == n).map fun pair => pair.2.map plusToBlank := by
  rw [received_vars]
  cases hpairs : s.pairs with
  | nil => rfl
  | cons pair pairs =>
    rw [← hpairs, if_neg (by simp [hpairs])]
    exact form_round_trip (by simp [hpairs]) hs.form n

/-- A request comes through: whatever stood in the line buffer, however the bytes were split into
    reads and whatever follows them, the request that was sent is read, unless credentials in it
    are too long; and each of its variables has the value it was sent with, plusses as blanks. -/
theorem request_round_trip {s : Sent} (hs : s.Wf) {reads : List HttpChunk} {rest : Text}
    (harrived : arrived reads = s.text ++ rest) (junk : Text) :
    (httpdReadRequest junk reads =
      if ∀ h ∈ s.headers, h.Fits then .request s.received else .outside) ∧
    ∀ n, httpdGetVariableByName s.received.vars n =
      (s.pairs.find? fun pair => pair.1 == n).map fun pair => pair.2.map plusToBlank :=
  ⟨httpdReadRequest_sent hs harrived junk, received_variable hs⟩

/-- A login link that was followed, with credentials. -/
def loginSent : Sent where
  method := .get
  path := "/wifidog/auth".toList
  pairs := [("token".toList, "a&b/../c".toList), ("url".toList, "http://x/".toList)]
  headers := [.other "User-Agent: x".toList, .host "gw:2060".toList,
    .basic "admin".toList "secret".toList]

theorem loginSent_wf : loginSent.Wf where
  ne_nil := by decide
  path := by
    unfold TargetChar
    decide
  clean := by
    unfold Tidy
    decide +kernel
  form := by
    unfold FormPairs
    decide +kernel
  names := by
    unfold TargetChar
    decide
  short := by decide +kernel
  headers := by
    have hline : ∀ line : Text, (∀ c ∈ line, isAscii c = true ∧ c ≠ '\n' ∧ c ≠ '\r' ∧ c ≠ '\x00') →
        line.length < httpMaxLen → PlainLine line := fun line h1 h2 => ⟨h1, h2⟩
    intro h hh
    simp only [loginSent, List.mem_cons, List.not_mem_nil, or_false] at hh
    rcases hh with rfl | rfl | rfl
    · exact .other (hline _ (by decide) (by decide)) (by decide) (by decide) (by decide)
    · exact .host (hline _ (by decide) (by decide)) (by decide)
    · exact .basic (by decide) (by unfold StringByte; decide) (by decide +kernel)

theorem loginSent_chunk : loginSent.text ≠ [] ∧ loginSent.text.length ≤ httpReadBufLen := by
  decide +kernel

/-- It comes in one read. -/
def loginReads : List HttpChunk := [⟨loginSent.text, loginSent_chunk⟩]

theorem arrived_loginReads : arrived loginReads = loginSent.text ++ [] :=
  show loginSent.text ++ [] = loginSent.text ++ [] from rfl

theorem request_round_trip_login :
    httpdReadRequest "stale".toList loginReads = .request loginSent.received ∧
    httpdGetVariableByName loginSent.received.vars "token".toList = some "a&b/../c".toList := by
  have h := request_round_trip loginSent_wf arrived_loginReads "stale".toList
  exact ⟨h.1.trans (if_pos (by decide)), h.2 "token".toList⟩

end Wifidog
