/-
  Requests as functions of the bytes that arrive.

  `readBuf` is refilled whenever it is empty, so which read a byte came with makes no difference:
  a line, and then the whole request, is a function of the bytes still to come
  (`readLineLoop_eq`, `readRequestLoop_eq`). Two ways to split the same bytes into reads give the
  same request (`requests_alike`).
-/
import Wifidog.Server.Credentials
import Wifidog.Server.Sanitise

namespace Wifidog

open CText

/-! ## Characters -/

theorem httpdReadChar_none {c : Conn} (h : httpdReadChar c = none) : c.bytes = [] := by
  obtain ⟨readBuf, reads⟩ := c
  cases readBuf with
  | cons d rest => simp [httpdReadChar] at h
  | nil =>
    cases reads with
    | nil => rfl
    | cons chunk reads =>
      obtain ⟨bytes, hne, _⟩ := chunk
      cases bytes with
      | nil => exact absurd rfl hne
      | cons d rest => simp [httpdReadChar] at h

theorem httpdReadChar_some {c c' : Conn} {d : Char} (h : httpdReadChar c = some (d, c')) :
    c.bytes = d :: c'.bytes := by
  obtain ⟨readBuf, reads⟩ := c
  cases readBuf with
  | cons e rest =>
    simp only [httpdReadChar, Option.some.injEq, Prod.mk.injEq] at h
    obtain ⟨rfl, rfl⟩ := h
    rfl
  | nil =>
    cases reads with
    | nil => simp [httpdReadChar] at h
    | cons chunk reads =>
      obtain ⟨bytes, hne, _⟩ := chunk
      cases bytes with
      | nil => exact absurd rfl hne
      | cons e rest =>
        simp only [httpdReadChar, Option.some.injEq, Prod.mk.injEq] at h
        obtain ⟨rfl, rfl⟩ := h
        rfl

/-! ## Lines -/

/-- A line read from a text: not at all, with its NUL behind the buffer, or well. -/
inductive TextRead where
  | failed
  | outside
  | line (text rest : Text)
  deriving DecidableEq, Repr

/-- The line at the beginning of a text, behind what has been copied already. -/
def readLineText (len : Nat) : (dst : Text) → Text → TextRead
  | dst, [] => if dst.length < len then .failed else .outside
  | dst, curChar :: bytes =>
    if dst.length < len then
      if curChar == '\n' || !isAscii curChar then .line dst bytes
      else if curChar == '\r' then readLineText len dst bytes
      else readLineText len (dst ++ [curChar]) bytes
    else .outside

/-- The same, forgetting which reads are to come. -/
def LineRead.onBytes : LineRead → TextRead
  | .failed => .failed
  | .outside => .outside
  | .line text c => .line text c.bytes

theorem readLineLoop_eq (len : Nat) {fuel : Nat} {c : Conn} (hfuel : c.bytes.length < fuel)
    (dst : Text) : (readLineLoop len fuel dst c).onBytes = readLineText len dst c.bytes := by
  induction fuel generalizing c dst with
  | zero => omega
  | succ fuel ih =>
    unfold readLineLoop
    split
    · next hroom =>
      split
      · next hnone =>
        rw [httpdReadChar_none hnone, readLineText, if_pos hroom]
        rfl
      · next curChar c' hsome =>
        rw [httpdReadChar_some hsome] at hfuel ⊢
        have hfuel' : c'.bytes.length < fuel := by
          simp only [List.length_cons] at hfuel
          omega
        rw [readLineText, if_pos hroom]
        split
        · rfl
        · split
          · exact ih hfuel' dst
          · exact ih hfuel' (dst ++ [curChar])
    · next hroom =>
      cases hbytes : c.bytes with
      | nil => rw [readLineText, if_neg hroom]; rfl
      | cons d bytes => rw [readLineText, if_neg hroom]; rfl

theorem httpdReadLine_eq (len : Nat) (c : Conn) :
    (httpdReadLine len c).onBytes = readLineText len [] c.bytes :=
  readLineLoop_eq len (Nat.lt_succ_self _) []

/-! ## Requests -/

/-- The request at the beginning of a text. -/
def readRequestText : (fuel : Nat) → (first : Bool) → (buf : Text) → HttpReq → Text → ReadRequest
  | 0, _, _, r, _ => .request (processUrl r)
  | fuel + 1, first, buf, r, bytes =>
    match readLineText httpMaxLen [] bytes with
    | .failed => .request (processUrl r)
    | .outside => .outside
    | .line text bytes =>
      let buf := putLine buf text
      if first then
        match requestLine buf r with
        | none => .invalid
        | some (buf, r) => readRequestText fuel false buf r bytes
      else if buf.head? == some '\x00' then .request (processUrl r)
      else
        match requestHeader buf r with
        | none => .outside
        | some r => readRequestText fuel false buf r bytes

theorem readRequestLoop_eq (fuel : Nat) (first : Bool) (buf : Text) (r : HttpReq) (c : Conn) :
    readRequestLoop fuel first buf r c = readRequestText fuel first buf r c.bytes := by
  induction fuel generalizing first buf r c with
  | zero => rfl
  | succ fuel ih =>
    have hline := httpdReadLine_eq httpMaxLen c
    unfold readRequestLoop readRequestText
    rw [← hline]
    cases httpdReadLine httpMaxLen c with
    | failed => rfl
    | outside => rfl
    | line text c =>
      cases first with
      | true =>
        cases hfirst : requestLine (putLine buf text) r with
        | none => simp [LineRead.onBytes, hfirst]
        | some next => simp [LineRead.onBytes, hfirst, ih]
      | false =>
        cases hheader : requestHeader (putLine buf text) r with
        | none => simp [LineRead.onBytes, hheader]
        | some next => simp [LineRead.onBytes, hheader, ih]

/-- All bytes of some reads. -/
def arrived (reads : List HttpChunk) : Text := (reads.map Subtype.val).flatten

theorem httpdReadRequest_eq (junk : Text) (reads : List HttpChunk) :
    httpdReadRequest junk reads =
      readRequestText ((arrived reads).length + 1) true junk .zero (arrived reads) := by
  rw [httpdReadRequest, readRequestLoop_eq]
  rfl

/-- What is read of a request does not depend on how it was split into reads. -/
theorem requests_alike {reads reads' : List HttpChunk} (h : arrived reads = arrived reads')
    (junk : Text) : httpdReadRequest junk reads = httpdReadRequest junk reads' := by
  rw [httpdReadRequest_eq, httpdReadRequest_eq, h]

theorem requests_alike_two :
    httpdReadRequest "junk".toList [⟨"GET /a?b=c HTTP/1.0\n\n".toList, by decide⟩] =
      httpdReadRequest "junk".toList
        [⟨"GET /a?b".toList, by decide⟩, ⟨"=c HTTP/1.0\n\n".toList, by decide⟩] :=
  requests_alike (by decide) "junk".toList

/-! ## A line of a request -/

/-- What a line of a request may consist of. -/
structure PlainLine (line : Text) : Prop where
  chars : ∀ c ∈ line, isAscii c = true ∧ c ≠ '\n' ∧ c ≠ '\r' ∧ c ≠ '\x00'
  short : line.length < httpMaxLen

/-- The end of a line. -/
def lineEnd : Text := ['\r', '\n']

theorem readLineText_chars {len : Nat} {x : Text}
    (hx : ∀ c ∈ x, isAscii c = true ∧ c ≠ '\n' ∧ c ≠ '\r') (dst : Text)
    (hroom : dst.length + x.length < len) (bytes : Text) :
    readLineText len dst (x ++ bytes) = readLineText len (dst ++ x) bytes := by
  induction x generalizing dst with
  | nil => simp
  | cons c x ih =>
    obtain ⟨hascii, hlf, hcr⟩ := hx c List.mem_cons_self
    rw [List.length_cons] at hroom
    have hend : (c == '\n' || !isAscii c) = false := by simp [hlf, hascii]
    have hskip : (c == '\r') = false := by simpa using hcr
    rw [List.cons_append, readLineText, if_pos (by omega), hend, if_neg (by simp), hskip,
      if_neg (by simp), ih (fun d hd => hx d (List.mem_cons_of_mem c hd))]
    · simp
    · rw [List.length_append, List.length_singleton]
      omega

theorem readLineText_line {line : Text} (h : PlainLine line) (bytes : Text) :
    readLineText httpMaxLen [] (line ++ lineEnd ++ bytes) = .line line bytes := by
  have hroom : ([] : Text).length + line.length < httpMaxLen := by
    simpa using h.short
  rw [List.append_assoc, readLineText_chars (fun c hc => ⟨(h.chars c hc).1, (h.chars c hc).2.1,
    (h.chars c hc).2.2.1⟩) [] hroom, List.nil_append, lineEnd, List.cons_append, List.cons_append,
    List.nil_append, readLineText, if_pos h.short, if_neg (by decide), if_pos (by decide),
    readLineText, if_pos h.short, if_pos (by decide)]

end Wifidog
