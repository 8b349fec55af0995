/-
  Names and passwords in a request (`_httpd_decode`, the `Authorization` header).

  The decoder is given the size of its buffer, but it cuts down only the number of digits it reads,
  and not below what the buffer holds. With 100 bytes it stays in the buffer exactly up to 132
  digits (`httpdDecode_inside_iff`), that is, for a name and password of 99 bytes together with the
  colon; beyond that it writes behind the buffer (`requestHeader_authorization`).
-/
import Wifidog.Lib.Base64
import Wifidog.Server.Query

namespace Wifidog

open CText Base64

/-! ## The decoder -/

theorem pr2six_eq (c : Char) : pr2six c = value c := rfl

theorem toByte_toNat {c : Char} {n : Nat} (h : n % 256 = c.toNat) : toByte n = c := by
  rw [toByte, h, Char.ofNat_toNat]

/-- A whole group gives its three bytes. -/
theorem decodeLoop_group {a b c : Char} (ha : a.toNat < 256) (hb : b.toNat < 256)
    (hc : c.toNat < 256) (rounds : Nat) (bufin : Text) :
    decodeLoop (rounds + 1) (digits [a, b, c] ++ bufin) =
      a :: b :: c :: decodeLoop rounds bufin := by
  simp only [decodeLoop, digits, pr2six_eq, List.cons_append, List.nil_append,
    List.getD_cons_zero, List.getD_cons_succ, List.drop_succ_cons, List.drop_zero]
  rw [value_digit _ (by omega), value_digit _ (by omega), value_digit _ (by omega),
    value_digit _ (by omega)]
  rw [toByte_toNat (firstByte ha (by omega)), toByte_toNat (secondByte hb (by omega)),
    toByte_toNat (thirdByte hc)]

/-- What the digits of a text are decoded to begins with the text. -/
theorem take_decodeLoop_digits {s : Text} (hs : ∀ c ∈ s, c.toNat < 256) (rest : Text) :
    (decodeLoop ((s.length + 2) / 3) (digits s ++ rest)).take s.length = s := by
  induction s using digits.induct with
  | case1 a b c s ih =>
    have hrounds : ((a :: b :: c :: s).length + 2) / 3 = (s.length + 2) / 3 + 1 := by
      simp only [List.length_cons]
      omega
    have hshape : digits (a :: b :: c :: s) ++ rest =
        digits [a, b, c] ++ (digits s ++ rest) := by
      simp [digits]
    rw [hrounds, hshape, decodeLoop_group (hs a (by simp)) (hs b (by simp)) (hs c (by simp))]
    simp only [List.length_cons, List.take_succ_cons]
    rw [ih fun x hx => hs x (by simp [hx])]
  | case2 a b =>
    have ha := hs a (by simp)
    have hb := hs b (by simp)
    have hlast := secondByte (a := a.toNat % 4) (c := 0) hb (by omega)
    have hfirst := firstByte (b := b.toNat / 16) ha (by omega)
    rw [Nat.add_zero] at hlast
    simp only [decodeLoop, digits, pr2six_eq, List.cons_append, List.length_cons, List.length_nil,
      List.getD_cons_zero, List.getD_cons_succ, List.take_succ_cons, List.take_zero, Nat.reduceAdd,
      Nat.reduceDiv]
    rw [value_digit _ (by omega), value_digit _ (by omega), value_digit _ (by omega),
      toByte_toNat hfirst, toByte_toNat hlast]
  | case3 a =>
    have ha := hs a (by simp)
    have hfirst := firstByte (b := 0) ha (by omega)
    rw [Nat.add_zero] at hfirst
    simp only [decodeLoop, digits, pr2six_eq, List.cons_append, List.length_cons, List.length_nil,
      List.getD_cons_zero, List.getD_cons_succ, List.take_succ_cons, List.take_zero, Nat.reduceAdd,
      Nat.reduceDiv]
    rw [value_digit _ (by omega), value_digit _ (by omega), toByte_toNat hfirst]
  | case4 => simp

/-- The digits that the decoder finds. -/
def digitCount (bufcoded : Text) : Nat :=
  ((bufcoded.dropWhile isBlank).takeWhile fun c => pr2six c ≤ 63).length

/-- The decoder keeps to a buffer of 100 bytes exactly up to 132 digits. -/
theorem httpdDecode_inside_iff (bufcoded : Text) :
    (httpdDecode bufcoded 100).isSome ↔ digitCount bufcoded ≤ 132 := by
  unfold httpdDecode digitCount
  generalize bufcoded.dropWhile isBlank = coded
  generalize hn : (coded.takeWhile fun c => decide (pr2six c ≤ 63)).length = n
  simp only [hn]
  by_cases h : n ≤ 132
  · have hcount : ¬ (n + 3) / 4 * 3 > 100 := by omega
    have hin : ∀ m, m ≤ (n + 3) / 4 * 3 → 3 * ((n + 3) / 4) ≤ 100 ∧ m < 100 := by omega
    have hle : (if n % 4 ≠ 0 then
        if pr2six (coded.getD (4 * ((n + 3) / 4) - 2) '\x00') > 63 then (n + 3) / 4 * 3 - 2
        else (n + 3) / 4 * 3 - 1 else (n + 3) / 4 * 3) ≤ (n + 3) / 4 * 3 := by
      split
      · split <;> omega
      · exact Nat.le_refl _
    rw [if_neg hcount, if_pos (hin _ hle)]
    simp [h]
  · have hcount : (n + 3) / 4 * 3 > 100 := by omega
    rw [if_pos hcount, if_neg (by omega)]
    simp [h]

/-! ## What was encoded -/

theorem value_nul : value '\x00' = 64 := by decide +kernel

/-- The digits of an encoded text end where its padding begins, or the string. -/
theorem takeWhile_encode {s : Text} (hs : ∀ c ∈ s, c.toNat < 256) (stale : Text) :
    (encode s ++ '\x00' :: stale).takeWhile (fun c => decide (pr2six c ≤ 63)) = digits s := by
  have hdigits : ∀ d ∈ digits s, decide (pr2six d ≤ 63) = true :=
    fun d hd => decide_eq_true (value_of_mem_digits hs hd)
  rw [encode, List.append_assoc, List.takeWhile_append_of_pos hdigits]
  generalize (3 - s.length % 3) % 3 = k
  cases k with
  | zero =>
    rw [List.replicate_zero, List.nil_append,
      List.takeWhile_cons_of_neg (by simp [pr2six_eq, value_nul]), List.append_nil]
  | succ k =>
    rw [List.replicate_succ, List.cons_append,
      List.takeWhile_cons_of_neg (by simp [pr2six_eq, value_padding]), List.append_nil]

/-- A digit is no blank, so nothing is skipped in front of an encoded text. -/
theorem dropWhile_encode {s : Text} (hs : ∀ c ∈ s, c.toNat < 256) (stale : Text) :
    (encode s ++ '\x00' :: stale).dropWhile isBlank = encode s ++ '\x00' :: stale := by
  cases hd : digits s with
  | nil =>
    have hlen := length_digits s
    rw [hd, List.length_nil] at hlen
    obtain rfl : s = [] := List.eq_nil_of_length_eq_zero (by omega)
    rfl
  | cons d ds =>
    have hvalue := value_of_mem_digits hs (hd ▸ List.mem_cons_self : d ∈ digits s)
    have hblank : isBlank d = false := by
      by_contra h
      simp only [isBlank, Bool.not_eq_false, Bool.or_eq_true, beq_iff_eq] at h
      rcases h with rfl | rfl
      · exact absurd hvalue (by decide +kernel)
      · exact absurd hvalue (by decide +kernel)
    rw [encode, hd, List.cons_append, List.cons_append,
      List.dropWhile_cons_of_neg (by simp [hblank])]

theorem digitCount_encode {s : Text} (hs : ∀ c ∈ s, c.toNat < 256) (stale : Text) :
    digitCount (encode s ++ '\x00' :: stale) = (4 * s.length + 2) / 3 := by
  rw [digitCount, dropWhile_encode hs, takeWhile_encode hs, length_digits]

/-- The first place of the padding. -/
theorem getD_padding {s : Text} (h : s.length % 3 ≠ 0) (stale : Text) :
    (encode s ++ '\x00' :: stale).getD ((4 * s.length + 2) / 3) '\x00' = '=' := by
  obtain ⟨k, hk⟩ : ∃ k, (3 - s.length % 3) % 3 = k + 1 := ⟨(3 - s.length % 3) % 3 - 1, by omega⟩
  rw [encode, hk, ← length_digits, List.replicate_succ, List.append_assoc,
    List.getD_eq_getElem?_getD, List.getElem?_append_right (Nat.le_refl _), Nat.sub_self]
  rfl

theorem pr2six_lastDigit {s : Text} (hs : ∀ c ∈ s, c.toNat < 256) {i : Nat}
    (hi : i < (digits s).length) (rest : Text) :
    pr2six ((encode s ++ rest).getD i '\x00') ≤ 63 := by
  have hget : (encode s ++ rest).getD i '\x00' = (digits s)[i] := by
    rw [encode, List.append_assoc, List.getD_eq_getElem?_getD, List.getElem?_append_left hi,
      List.getElem?_eq_getElem hi, Option.getD_some]
  rw [hget]
  exact value_of_mem_digits hs (List.getElem_mem hi)

/-- The bytes that the decoder counts are those of the text: of the last group of four digits it
    takes off what the padding stands for. -/
theorem decodedCount_encode {s : Text} (hs : ∀ c ∈ s, c.toNat < 256) (stale : Text) :
    (if (4 * s.length + 2) / 3 % 4 ≠ 0 then
      if pr2six ((encode s ++ '\x00' :: stale).getD (4 * ((s.length + 2) / 3) - 2) '\x00') > 63 then
        (s.length + 2) / 3 * 3 - 2
      else (s.length + 2) / 3 * 3 - 1
     else (s.length + 2) / 3 * 3) = s.length := by
  by_cases h0 : s.length % 3 = 0
  · rw [if_neg (by omega)]
    omega
  rw [if_pos (by omega)]
  by_cases h1 : s.length % 3 = 1
  · have hplace : 4 * ((s.length + 2) / 3) - 2 = (4 * s.length + 2) / 3 := by omega
    rw [hplace, getD_padding h0, pr2six_eq, value_padding, if_pos (by omega)]
    omega
  · have hplace : 4 * ((s.length + 2) / 3) - 2 < (digits s).length := by
      rw [length_digits]
      omega
    have hdigit := pr2six_lastDigit hs hplace ('\x00' :: stale)
    rw [if_neg (by omega)]
    omega

/-- The decoder gives back a text of up to 99 bytes. -/
theorem httpdDecode_encode {s : Text} (hs : ∀ c ∈ s, c.toNat < 256) (hlen : s.length ≤ 99)
    (stale : Text) : httpdDecode (encode s ++ '\x00' :: stale) 100 = some s := by
  have htake : (decodeLoop ((s.length + 2) / 3) (encode s ++ '\x00' :: stale)).take s.length =
      s := by
    rw [encode, List.append_assoc]
    exact take_decodeLoop_digits hs _
  have hrounds : ((4 * s.length + 2) / 3 + 3) / 4 = (s.length + 2) / 3 := by omega
  have hcut : ¬ (s.length + 2) / 3 * 3 > 100 := by omega
  unfold httpdDecode
  simp only [dropWhile_encode hs, takeWhile_encode hs, length_digits, hrounds, if_neg hcut]
  rw [decodedCount_encode hs, htake, if_pos (by omega)]

/-! ## The header -/

/-- The header that carries a name and a password. -/
def authorizationLine (user password : Text) : Text :=
  "Authorization: Basic ".toList ++ encode (user ++ ':' :: password)

theorem authorizationLine_eq (user password : Text) :
    authorizationLine user password =
      "Authorization: Basic ".toList ++ encode (user ++ ':' :: password) := rfl

/-- The request with a name and a password in it. -/
def HttpReq.withCredentials (r : HttpReq) (user password : Text) : HttpReq :=
  { r with
    authLength := (user ++ ':' :: password).length
    authUser := user
    authPassword := password }

theorem setCredentials_eq {user password : Text} (hcolon : ':' ∉ user)
    (hnul : '\x00' ∉ user ++ ':' :: password) (hlen : (user ++ ':' :: password).length ≤ 99)
    (r : HttpReq) :
    setCredentials r (user ++ ':' :: password) = r.withCredentials user password := by
  have hname : (user ++ ':' :: password).takeWhile (· != ':') = user := by
    rw [List.takeWhile_append_of_pos fun c hc => by simpa using ne_of_mem_of_not_mem hc hcolon]
    simp
  have hdrop : (user ++ ':' :: password).drop (user.length + 1) = password := by
    rw [← List.drop_drop, List.drop_left]
    rfl
  rw [List.length_append, List.length_cons] at hlen
  have huser : user.length ≤ httpMaxAuth - 1 := by
    simp only [httpMaxAuth]
    omega
  have hpassword : password.length ≤ httpMaxAuth - 1 := by
    simp only [httpMaxAuth]
    omega
  unfold setCredentials HttpReq.withCredentials
  simp only [cstrAt_of_not_mem hnul, hname, hdrop, List.take_of_length_le huser,
    List.take_of_length_le hpassword]
  rw [if_pos (by simp)]

theorem putLine_append (buf word rest : Text) :
    putLine buf (word ++ rest) =
      word ++ (rest ++ '\x00' :: buf.drop ((word ++ rest).length + 1)) := by
  rw [putLine, List.append_assoc]

/-- A name and a password in the header are read exactly when they have no more than 99 bytes with
    the colon between them; else the decoder writes behind its buffer. -/
theorem requestHeader_authorization {user password : Text} (hcolon : ':' ∉ user)
    (hbytes : ∀ c ∈ user ++ ':' :: password, StringByte c) (buf : Text) (r : HttpReq) :
    requestHeader (putLine buf (authorizationLine user password)) r =
      if (user ++ ':' :: password).length ≤ 99 then some (r.withCredentials user password)
      else none := by
  have hlow : ∀ c ∈ user ++ ':' :: password, c.toNat < 256 := fun c hc => (hbytes c hc).2
  have hnul : '\x00' ∉ user ++ ':' :: password := fun h => (hbytes _ h).1 rfl
  rw [authorizationLine_eq, putLine_append, requestHeader]
  generalize buf.drop (("Authorization: Basic ".toList ++
    encode (user ++ ':' :: password)).length + 1) = stale
  generalize hcoded : encode (user ++ ':' :: password) ++ '\x00' :: stale = coded
  have hauth : startsWithCase ("Authorization: Basic ".toList ++ coded)
      "Authorization: ".toList = true := by
    have htake : ("Authorization: Basic ".toList ++ coded).take "Authorization: ".toList.length =
        "Authorization: ".toList := rfl
    rw [startsWithCase, htake]
    decide
  have hhost : startsWithCase ("Authorization: Basic ".toList ++ coded) "Host: ".toList =
      false := by
    have htake : ("Authorization: Basic ".toList ++ coded).take "Host: ".toList.length =
        "Author".toList := rfl
    rw [startsWithCase, htake]
    decide
  have hbasic : "Basic ".toList.isPrefixOf (("Authorization: Basic ".toList ++ coded).drop 15) =
      true := List.isPrefixOf_iff_prefix.mpr ⟨coded, rfl⟩
  have hdrop : ("Authorization: Basic ".toList ++ coded).drop 21 = coded := rfl
  simp only [hauth, hbasic, hhost, hdrop, Bool.and_self, if_true, Bool.false_eq_true, if_false,
    Option.map_id_fun', id_eq]
  split
  · next hlen =>
    rw [← hcoded, httpdDecode_encode hlow hlen, Option.map_some,
      setCredentials_eq hcolon hnul hlen]
  · next hlen =>
    have hout : ¬ (httpdDecode coded 100).isSome := by
      rw [httpdDecode_inside_iff, ← hcoded, digitCount_encode hlow]
      omega
    rw [Option.not_isSome_iff_eq_none.mp hout, Option.map_none]

end Wifidog
