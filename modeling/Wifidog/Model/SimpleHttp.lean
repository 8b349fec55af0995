/-
  A request over plain HTTP and its answer (`simple_http.c`, `pstring.c`, the second half of
  `auth_server_request`).

  What the socket does is free (`Socket`): the value of `send`, and one `Round` for every pass
  through the loop of `http_get`. A list of rounds that ends before the loop does stands for a call
  that has not returned (`Fetch.waiting`, `none` for `auth_server_request`).

  `Pstr` is the growing string of `pstring.c` with its memory: `buf` is all of the allocation, the
  bytes behind the string included. `safe_malloc` clears what it allocates, `safe_realloc` does not:
  what it adds is any `junk`. Sizes do not wrap: the string that is appended and the buffer are in
  memory at the same time.
-/
import Wifidog.Lib.CBuffer
import Wifidog.Lib.CScan
import Wifidog.Model.CentralServer

namespace Wifidog

open CText Netfilter

/-! ## `pstring.c` -/

/-- `pstr_t`; `size` is the length of `buf`. -/
structure Pstr where
  buf : Text
  len : Nat
  deriving DecidableEq, Repr

/-- `pstr_new` -/
def pstrNew : Pstr := ⟨List.replicate maxBuf '\x00', 0⟩

/-- `_pstr_grow` -/
def pstrGrow (junk : Nat → Char) (p : Pstr) : Pstr :=
  { p with buf := p.buf ++ (List.range maxBuf).map fun i => junk (p.buf.length + i) }

/-- The loop of `pstr_cat` around `_pstr_grow`. -/
def pstrGrowTo (junk : Nat → Char) (need : Nat) (p : Pstr) : Pstr :=
  if need > p.buf.length then pstrGrowTo junk need (pstrGrow junk p) else p
  termination_by need - p.buf.length
  decreasing_by
    simp only [pstrGrow, List.length_append, List.length_map, List.length_range, maxBuf]
    omega

/-- `strncat (buf + off, s, n)` -/
def strncat (buf : Text) (off : Nat) (s : Text) (n : Nat) : Text :=
  let dest := off + (cstrAt buf off).length
  let copied := s.take n
  buf.take dest ++ (copied ++ '\x00' :: buf.drop (dest + copied.length + 1))

/-- The bytes that `strncat (buf + off, s, n)` writes, each with its index. -/
def strncatWrites (buf : Text) (off : Nat) (s : Text) (n : Nat) : List (Nat × Char) :=
  let dest := off + (cstrAt buf off).length
  (s.take n ++ ['\x00']).mapIdx fun i c => (dest + i, c)

/-- `pstr_cat` -/
def pstrCat (junk : Nat → Char) (p : Pstr) (string : Text) : Pstr :=
  let p := pstrGrowTo junk (p.len + string.length + 1) p
  ⟨strncat p.buf p.len string (p.buf.length - p.len - 1), p.len + string.length⟩

/-- What `pstr_cat` writes, into the memory as it is after the growth. -/
def pstrCatWrites (junk : Nat → Char) (p : Pstr) (string : Text) : List (Nat × Char) :=
  let p := pstrGrowTo junk (p.len + string.length + 1) p
  strncatWrites p.buf p.len string (p.buf.length - p.len - 1)

/-- `pstr_append_sprintf`, given what `vasprintf` makes of its arguments; when that fails,
    `safe_vasprintf` ends the process. -/
def pstrAppendSprintf (junk : Nat → Char) (p : Pstr) (formatted : Option Text) :
    Option (Pstr × Int) :=
  formatted.map fun str => (pstrCat junk p (cstrAt str 0), str.length)

/-- A call that appends. The strings are C strings and end at their first NUL. -/
inductive PstrCall where
  | cat (string : Text)
  | appendSprintf (formatted : Option Text)
  deriving DecidableEq, Repr

/-- The string that a call appends. -/
def PstrCall.text : PstrCall → Text
  | .cat string => cstrAt string 0
  | .appendSprintf formatted => cstrAt (formatted.getD []) 0

/-- One call, with what the memory that it adds holds. -/
def pstrStep (p : Pstr) : PstrCall × (Nat → Char) → Option Pstr
  | (.cat string, junk) => some (pstrCat junk p (cstrAt string 0))
  | (.appendSprintf formatted, junk) => (pstrAppendSprintf junk p formatted).map Prod.fst

/-- `pstr_to_string` -/
def pstrToString (p : Pstr) : Text := cstrAt p.buf 0

/-! ## `http_get` -/

/-- What one `read` may deliver. -/
def Chunk := { bytes : Text // bytes ≠ [] ∧ bytes.length ≤ maxBuf - 1 }

/-- One pass through the loop: what `select` and `read` return. -/
inductive Round where
  | data (chunk : Chunk)
  | eof
  | readError
  | timeout
  | selectError

structure Socket where
  send : Int
  rounds : List Round

inductive Fetch where
  | waiting
  | failed
  | response (text : Text)
  deriving DecidableEq, Repr

/-- The loop of `http_get`; `readbuf` is a string that ends at its first NUL. -/
def readResponse (junk : Nat → Char) (response : Pstr) : List Round → Fetch
  | [] => .waiting
  | .data chunk :: rounds => readResponse junk (pstrCat junk response (cstrAt chunk.val 0)) rounds
  | .eof :: _ => .response (pstrToString response)
  | .readError :: _ => .failed
  | .timeout :: _ => .failed
  | .selectError :: _ => .failed

/-- `http_get`; `connected` is `sockfd != -1`. -/
def httpGet (junk : Nat → Char) (connected : Bool) (req : Text) (s : Socket) : Fetch :=
  if !connected then .failed
  else if s.send ≤ 0 then .failed
  else if s.send ≠ req.length then .failed
  else readResponse junk pstrNew s.rounds

/-! ## The answer -/

def authMarker : Text := "Auth: ".toList

/-- `sscanf (tmp, "Auth: %d", ..)`: the blank of the format skips any white space. -/
def sscanfAuth (tmp : Text) : Option Int :=
  if "Auth:".toList.isPrefixOf tmp then scanInt (tmp.drop "Auth:".toList.length) else none

/-- The end of `auth_server_request`: the return value and `authresponse->authcode`. -/
def readAnswer : Fetch → Option (Int × Int)
  | .waiting => none
  | .failed => some (authError, authError)
  | .response res =>
    match strstr res authMarker with
    | some tmp =>
      match sscanfAuth (res.drop tmp) with
      | some code => some (code, code)
      | none => some (authError, authError)
    | none => some (authError, authError)

/-- `auth_server_request`; `https` is what `https_get` would return. Without a server it does not
    come back (its callers see to that). -/
def authServerRequest (c : Central) (net : Net) (q : Query) (servers : List AuthServer)
    (t : Tables Chain) (https : Fetch) (junk : Nat → Char) (s : Socket) : Option (Int × Int) :=
  match servers.head? with
  | none => none
  | some server =>
    let conn := connectAuthServer c net servers t
    if c.ssl server then readAnswer https
    else readAnswer (httpGet junk conn.sockfd.isSome (requestText c q server) s)

end Wifidog
