/-
  Reading a request (`httpdReadRequest` and what it calls in libhttpd).

  Bytes come from the socket into `readBuf`, `_httpd_readLine` takes a line from there, and the
  request is built line by line: method and path from the first, credentials and host from the
  headers, up to an empty line or until nothing more comes. The path is sanitised as a whole, the
  query behind the `?` included, and the query is split into variables.

  `buf`, the line buffer of `httpdReadRequest`, is memory: behind the line and its NUL it still
  holds what was there before, at first anything (`junk`). A read that runs to its end stops there.
  A write behind the end of `buf`, or of the 100 bytes that the credentials are decoded into, is
  `outside`. A byte of 128 or more ends a line, so `pr2six` is only read within its bounds but for
  stale bytes, which count as no digit.

  The passes of `_httpd_sanitiseUrl` work in place, but never write where they have yet to read;
  `skip` is what the reading pointer still has to pass over.
-/
import Wifidog.Model.Reply

namespace Wifidog

open CText

/-- `HTTP_MAX_LEN`, `HTTP_MAX_AUTH`, `HTTP_READ_BUF_LEN` -/
def httpMaxLen : Nat := 10240
def httpMaxAuth : Nat := 128
def httpReadBufLen : Nat := 4096

/-! ## Lines -/

/-- What one `read` may deliver. -/
def HttpChunk := { bytes : Text // bytes ≠ [] ∧ bytes.length ≤ httpReadBufLen }

/-- What is left in `readBuf`, and what the reads to come deliver. The read after them delivers
    nothing: the end of file, an error, or ten seconds without data. -/
structure Conn where
  readBuf : Text
  reads : List HttpChunk

/-- All bytes that are still to come. -/
def Conn.bytes (c : Conn) : Text := c.readBuf ++ (c.reads.map Subtype.val).flatten

/-- `_httpd_readChar` -/
def httpdReadChar (c : Conn) : Option (Char × Conn) :=
  match c.readBuf with
  | curChar :: readBuf => some (curChar, { c with readBuf := readBuf })
  | [] =>
    match c.reads with
    | [] => none
    | chunk :: reads =>
      match chunk.val with
      | [] => none
      | curChar :: readBuf => some (curChar, ⟨readBuf, reads⟩)

/-- `isascii` -/
def isAscii (c : Char) : Bool := c.toNat < 128

/-- How a line was read: not at all, with its NUL behind the buffer, or well. -/
inductive LineRead where
  | failed
  | outside
  | line (text : Text) (c : Conn)

/-- The loop of `_httpd_readLine`, for at most `fuel` characters. -/
def readLineLoop (len : Nat) : (fuel : Nat) → (dst : Text) → Conn → LineRead
  | 0, _, _ => .failed
  | fuel + 1, dst, c =>
    if dst.length < len then
      match httpdReadChar c with
      | none => .failed
      | some (curChar, c) =>
        if curChar == '\n' || !isAscii curChar then .line dst c
        else if curChar == '\r' then readLineLoop len fuel dst c
        else readLineLoop len fuel (dst ++ [curChar]) c
    else .outside

/-- `_httpd_readLine`, into a buffer of `len` bytes. -/
def httpdReadLine (len : Nat) (c : Conn) : LineRead := readLineLoop len (c.bytes.length + 1) [] c

/-! ## `_httpd_sanitiseUrl` -/

/-- "Remove multiple slashes" -/
def removeSlashes : Text → Text
  | [] => []
  | c :: s => if c == '/' && s.head? == some '/' then removeSlashes s else c :: removeSlashes s

/-- "Get rid of ./ sequences" -/
def removeDots : (skip : Nat) → Text → Text
  | _, [] => []
  | skip + 1, _ :: s => removeDots skip s
  | 0, c :: s =>
    if "/./".toList.isPrefixOf (c :: s) then removeDots 1 s else c :: removeDots 0 s

/-- "Catch use of /../ sequences and remove them": `out` is what has been written, `last` where
    its last slash is. -/
def removeParents : (skip : Nat) → (out : Text) → (last : Nat) → Text → Text
  | _, out, _, [] => out
  | skip + 1, out, last, _ :: s => removeParents skip out last s
  | 0, out, last, c :: s =>
    if "/../".toList.isPrefixOf (c :: s) then removeParents 2 (out.take last) last s
    else removeParents 0 (out ++ [c]) (if c == '/' then out.length else last) s

/-- `_httpd_sanitiseUrl` -/
def httpdSanitiseUrl (url : Text) : Text :=
  removeParents 0 [] 0 (removeDots 0 (removeSlashes url))

/-! ## `_httpd_decode` -/

/-- `six2pr` -/
def six2pr : Text :=
  "ABCDEFGHIJKLMNOPQRSTUVWXYZabcdefghijklmnopqrstuvwxyz0123456789+/".toList

/-- `pr2six`: the value of a digit, 64 for any other character. -/
def pr2six (c : Char) : Nat := six2pr.idxOf c

/-- An `int` stored in a `char`. -/
def toByte (n : Nat) : Char := Char.ofNat (n % 256)

/-- The bytes that the decoding loop writes, in as many rounds as given. -/
def decodeLoop : (rounds : Nat) → (bufin : Text) → Text
  | 0, _ => []
  | rounds + 1, bufin =>
    let digit (i : Nat) := pr2six (bufin.getD i '\x00')
    toByte ((digit 0 <<< 2) ||| (digit 1 >>> 4)) ::
      toByte ((digit 1 <<< 4) ||| (digit 2 >>> 2)) ::
        toByte ((digit 2 <<< 6) ||| digit 3) :: decodeLoop rounds (bufin.drop 4)

/-- `_httpd_decode (bufcoded, bufplain, outbufsize)`, into a buffer of that size: the bytes in
    front of the NUL it puts there, or nothing when it writes behind the buffer. The count of
    the bytes is not cut down together with `nprbytes`. -/
def httpdDecode (bufcoded : Text) (outbufsize : Nat) : Option Text :=
  let bufcoded := bufcoded.dropWhile isBlank
  let digits := (bufcoded.takeWhile fun c => pr2six c ≤ 63).length
  let nbytesdecoded := (digits + 3) / 4 * 3
  let nprbytes := if nbytesdecoded > outbufsize then outbufsize * 4 / 3 else digits
  let rounds := (nprbytes + 3) / 4
  let nbytesdecoded :=
    if nprbytes % 4 ≠ 0 then
      if pr2six (bufcoded.getD (4 * rounds - 2) '\x00') > 63 then nbytesdecoded - 2
      else nbytesdecoded - 1
    else nbytesdecoded
  if 3 * rounds ≤ outbufsize ∧ nbytesdecoded < outbufsize then
    some ((decodeLoop rounds bufcoded).take nbytesdecoded)
  else none

/-! ## Variables -/

/-- `httpVar`: a name, its value, and the values that follow it. -/
structure HttpVar where
  name : Text
  value : Text
  nextValues : List Text
  deriving DecidableEq, Repr

/-- The walk through the list in `httpdAddVariable`. -/
def appendVariable (name value : Text) : List HttpVar → List HttpVar
  | [] => [⟨name, value, []⟩]
  | curVar :: rest =>
    if curVar.name != name then curVar :: appendVariable name value rest
    else { curVar with nextValues := curVar.nextValues ++ [value] } :: rest

/-- `httpdAddVariable` -/
def httpdAddVariable (vars : List HttpVar) (name value : Text) : List HttpVar :=
  appendVariable (name.dropWhile isBlank) value vars

/-- `httpdGetVariableByName`, its value. -/
def httpdGetVariableByName (vars : List HttpVar) (name : Text) : Option Text :=
  (vars.find? fun curVar => curVar.name == name).map HttpVar.value

/-- The loop of `_httpd_storeData`. `var` is the memory that names are copied to, `cp2` the place
    in it; `val` is what stands between the last `=` and here. -/
def storeLoop : (var : Text) → (cp2 : Nat) → (val : Option Text) → List HttpVar → Text →
    List HttpVar
  | var, _, val, vars, [] =>
    match val with
    | none => vars
    | some val => httpdAddVariable vars (cstrAt var 0) (httpdUnescape val)
  | var, cp2, val, vars, c :: query =>
    if c == '=' then storeLoop (var.set cp2 '\x00') cp2 (some []) vars query
    else if c == '&' then
      storeLoop var 0 none
        (httpdAddVariable vars (cstrAt var 0) (httpdUnescape (val.getD []))) query
    else
      match val with
      | some val => storeLoop var cp2 (some (val ++ [c])) vars query
      | none => storeLoop (var.set cp2 c) (cp2 + 1) none vars query

/-- `_httpd_storeData` -/
def httpdStoreData (vars : List HttpVar) (query : Text) : List HttpVar :=
  storeLoop (List.replicate (query.length + 1) '\x00') 0 none vars query

/-! ## `httpdReadRequest` -/

inductive HttpMethod where
  | get | post
  deriving DecidableEq, Repr

/-- `httpReq`, and `variables` of the `request`. -/
structure HttpReq where
  method : Option HttpMethod
  authLength : Nat
  path : Text
  query : Text
  host : Text
  authUser : Text
  authPassword : Text
  vars : List HttpVar
  deriving DecidableEq, Repr

/-- `memset (r, 0, sizeof (request))` -/
def HttpReq.zero : HttpReq := ⟨none, 0, [], [], [], [], [], []⟩

/-- `buf` after a line has been read into it. -/
def putLine (buf line : Text) : Text := line ++ '\x00' :: buf.drop (line.length + 1)

/-- The method that a word names. -/
def methodOf (cp : Text) : Option HttpMethod :=
  if strcaseEq cp "POST".toList then some .post
  else if strcaseEq cp "GET".toList then some .get
  else none

/-- "First line.  Scan the request info": `none` for an invalid method. -/
def requestLine (buf : Text) (r : HttpReq) : Option (Text × HttpReq) :=
  let word := buf.takeWhile Char.isAlpha
  let buf := buf.set word.length '\x00'
  (methodOf word).map fun method =>
    let cp := word.length + 1
    let cp := cp + ((buf.drop cp).takeWhile (· == ' ')).length
    let path := (buf.drop cp).takeWhile fun c => c != ' ' && c != '\x00'
    (buf.set (cp + path.length) '\x00',
      { r with method := some method, path := httpdSanitiseUrl (path.take (httpMaxUrl - 1)) })

/-- `strncasecmp (buf, word, strlen (word)) == 0` -/
def startsWithCase (buf word : Text) : Bool := strcaseEq (buf.take word.length) word

/-- The name and the password of an `Authorization: Basic` header. -/
def setCredentials (r : HttpReq) (authBuf : Text) : HttpReq :=
  let authBuf := cstrAt authBuf 0
  let user := authBuf.takeWhile (· != ':')
  let r := { r with authLength := authBuf.length }
  let r :=
    if user.length < authBuf.length then
      { r with authPassword := (authBuf.drop (user.length + 1)).take (httpMaxAuth - 1) }
    else r
  { r with authUser := user.take (httpMaxAuth - 1) }

/-- "Process the headers": `none` when the credentials do not fit. -/
def requestHeader (buf : Text) (r : HttpReq) : Option HttpReq :=
  let r? :=
    if startsWithCase buf "Authorization: ".toList && "Basic ".toList.isPrefixOf (buf.drop 15) then
      (httpdDecode (buf.drop 21) 100).map (setCredentials r)
    else some r
  r?.map fun r =>
    if startsWithCase buf "Host: ".toList then
      { r with host := (cstrAt buf 6).take (httpMaxUrl - 1) }
    else r

/-- "Process any URL data" -/
def processUrl (r : HttpReq) : HttpReq :=
  let path := r.path.takeWhile (· != '?')
  if path.length < r.path.length then
    let query := r.path.drop (path.length + 1)
    { r with
      path := path
      query := query.take (httpMaxUrl - 1)
      vars := httpdStoreData r.vars query }
  else r

inductive ReadRequest where
  /-- -1: "Invalid method received" -/
  | invalid
  | outside
  | request (r : HttpReq)
  deriving DecidableEq, Repr

/-- The loop over the lines, for at most `fuel` of them; `first` is `count == 0`. -/
def readRequestLoop : (fuel : Nat) → (first : Bool) → (buf : Text) → HttpReq → Conn → ReadRequest
  | 0, _, _, r, _ => .request (processUrl r)
  | fuel + 1, first, buf, r, c =>
    match httpdReadLine httpMaxLen c with
    | .failed => .request (processUrl r)
    | .outside => .outside
    | .line text c =>
      let buf := putLine buf text
      if first then
        match requestLine buf r with
        | none => .invalid
        | some (buf, r) => readRequestLoop fuel false buf r c
      else if buf.head? == some '\x00' then .request (processUrl r)
      else
        match requestHeader buf r with
        | none => .outside
        | some r => readRequestLoop fuel false buf r c

/-- `httpdReadRequest`, for a request that has just been accepted. -/
def httpdReadRequest (junk : Text) (reads : List HttpChunk) : ReadRequest :=
  let c : Conn := ⟨[], reads⟩
  readRequestLoop (c.bytes.length + 1) true junk .zero c

end Wifidog
