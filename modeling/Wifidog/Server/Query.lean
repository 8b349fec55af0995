/-
  URLs that the gateway writes and the queries it reads (`httpdUrlEncode`, `_httpd_storeData`).

  `httpdUrlEncode` leaves a plus as it is, which `_httpd_unescape` reads as a blank; every other
  byte comes back (`httpdUnescape_httpdUrlEncode`). The blanks that `httpdUrlEncode` would turn into
  plusses are gone by then, `_httpd_escape` has made them `%20`.

  A query whose pieces all have a `=` is read piece by piece (`httpdStoreData_eq`): the name stands
  in front of the first `=`, the value behind the last one. A piece without `=` is another matter.
  At the end of the query it is dropped; elsewhere it is a variable with an empty value, whose name
  goes on with what is left of a longer name before it, since only a `=` ends a name.
-/
import Mathlib.Data.List.DropRight
import Mathlib.Data.List.Find
import Wifidog.Model.Httpd
import Wifidog.Model.Wdctl

namespace Wifidog

open CText

/-! ## Encoding -/

/-- A character of a C string: a byte, and not NUL. -/
def StringByte (c : Char) : Prop := c ≠ '\x00' ∧ c.toNat < 256

instance (c : Char) : Decidable (StringByte c) := inferInstanceAs (Decidable (_ ∧ _))

/-- How a plus is read. -/
def plusToBlank (c : Char) : Char := if c == '+' then ' ' else c

theorem httpdFromHex_hexDigit : ∀ n < 16, httpdFromHex (hexDigit n) = n := by decide

theorem acceptable_hexDigit (n : Nat) : acceptable (hexDigit n) = true := by
  by_cases h : n < 16
  · have hall : ∀ n < 16, acceptable (hexDigit n) = true := by decide
    exact hall n h
  · have hdefault : hexDigit n = '0' := by
      have hlen : "0123456789ABCDEF".toList.length ≤ n := by simpa using h
      rw [hexDigit, List.getD_eq_getElem?_getD, List.getElem?_eq_none hlen]
      rfl
    rw [hdefault]
    decide

/-- What an encoded text consists of. -/
theorem mem_httpdEscape {s : Text} {c : Char} (h : c ∈ httpdEscape s) :
    acceptable c = true ∨ c = '%' := by
  induction s with
  | nil => cases h
  | cons d s ih =>
    unfold httpdEscape at h
    split at h
    · next hd =>
      rcases List.mem_cons.mp h with rfl | h
      · exact .inl hd
      · exact ih h
    · simp only [List.mem_cons] at h
      rcases h with rfl | rfl | rfl | h
      · exact .inr rfl
      · exact .inl (acceptable_hexDigit _)
      · exact .inl (acceptable_hexDigit _)
      · exact ih h

theorem httpdUrlEncode_eq (s : Text) : httpdUrlEncode s = httpdEscape s := by
  refine (List.map_congr_left fun c hc => ?_).trans (List.map_id _)
  have hne : c ≠ ' ' := by
    rintro rfl
    rcases mem_httpdEscape hc with h | h
    · exact absurd h (by decide)
    · exact absurd h (by decide)
  simp [hne]

theorem mem_httpdUrlEncode {s : Text} {c : Char} (h : c ∈ httpdUrlEncode s) :
    acceptable c = true ∨ c = '%' :=
  mem_httpdEscape (httpdUrlEncode_eq s ▸ h)

/-- A character that is neither acceptable nor a per cent sign is not in an encoded text. -/
theorem not_mem_httpdUrlEncode {d : Char} (hd : acceptable d = false) (hp : d ≠ '%') (s : Text) :
    d ∉ httpdUrlEncode s := by
  intro h
  rcases mem_httpdUrlEncode h with h | h
  · rw [hd] at h
    cases h
  · exact hp h

/-! ## Decoding -/

theorem unescapeFrom_plain {c : Char} (hc : c ≠ '%') (str q p : Text) :
    unescapeFrom str q (c :: p) = unescapeFrom str (q ++ [plusToBlank c]) p := by
  cases p with
  | nil => simp [unescapeFrom, hc, plusToBlank]
  | cons d p =>
    cases p with
    | nil => simp [unescapeFrom, hc, plusToBlank]
    | cons e p => simp [unescapeFrom, hc, plusToBlank]

theorem unescapeFrom_hex {c : Char} (hc : c.toNat < 256) (str q p : Text) :
    unescapeFrom str q ('%' :: hexDigit (c.toNat / 16) :: hexDigit (c.toNat % 16) :: p) =
      unescapeFrom str (q ++ [c]) p := by
  have hvalue : (httpdFromHex (hexDigit (c.toNat / 16)) * 16 +
      httpdFromHex (hexDigit (c.toNat % 16))) % 256 = c.toNat := by
    rw [httpdFromHex_hexDigit _ (by omega), httpdFromHex_hexDigit _ (by omega)]
    omega
  rw [unescapeFrom, hvalue, Char.ofNat_toNat]

theorem unescapeFrom_httpdEscape {s : Text} (hs : ∀ c ∈ s, StringByte c) (str q p : Text) :
    unescapeFrom str q (httpdEscape s ++ p) =
      unescapeFrom str (q ++ s.map plusToBlank) p := by
  induction s generalizing q with
  | nil => simp [httpdEscape]
  | cons c s ih =>
    have ih' := ih fun d hd => hs d (List.mem_cons_of_mem c hd)
    unfold httpdEscape
    split
    · next hc =>
      have hne : c ≠ '%' := by
        rintro rfl
        exact absurd hc (by decide)
      rw [List.cons_append, unescapeFrom_plain hne, ih']
      simp
    · next hc =>
      have hne : c ≠ '+' := by
        rintro rfl
        exact absurd (by decide) hc
      simp only [List.cons_append]
      rw [unescapeFrom_hex (hs c List.mem_cons_self).2, ih']
      simp [plusToBlank, hne]

/-- What was encoded comes back, but for the plusses. -/
theorem httpdUnescape_httpdUrlEncode {s : Text} (hs : ∀ c ∈ s, StringByte c) :
    httpdUnescape (httpdUrlEncode s) = s.map plusToBlank := by
  have hnul : '\x00' ∉ s.map plusToBlank := by
    intro h
    obtain ⟨c, hc, hplus⟩ := List.mem_map.mp h
    unfold plusToBlank at hplus
    split at hplus
    · exact absurd hplus (by decide)
    · exact (hs c hc).1 hplus
  have hrun := unescapeFrom_httpdEscape hs (httpdEscape s) [] []
  rw [List.append_nil, List.nil_append, unescapeFrom] at hrun
  rw [httpdUnescape, httpdUrlEncode_eq, hrun, cstrAt_of_not_mem hnul]

/-! ## Splitting a query -/

theorem set_writeAt {var : Text} {k : Nat} (hk : k < var.length) (c : Char) (x : Text) :
    writeAt (var.set k c) (k + 1) x = writeAt var k (c :: x) := by
  have htake : (var.set k c).take (k + 1) = var.take k ++ [c] := by
    rw [List.take_set, List.take_succ_eq_append_getElem hk,
      List.set_append_right _ _ (by rw [List.length_take]; omega)]
    simp [Nat.min_eq_left (Nat.le_of_lt hk)]
  have hdrop : (var.set k c).drop (k + 1 + x.length) = var.drop (k + (c :: x).length) := by
    rw [List.drop_set_of_lt (by omega), List.length_cons]
    congr 1
    omega
  simp only [writeAt, htake, hdrop, List.append_assoc, List.singleton_append]

/-- A name is copied. -/
theorem storeLoop_name {x : Text} (heq : '=' ∉ x) (hand : '&' ∉ x) (var : Text) (cp2 : Nat)
    (hroom : cp2 + x.length ≤ var.length) (vars : List HttpVar) (query : Text) :
    storeLoop var cp2 none vars (x ++ query) =
      storeLoop (writeAt var cp2 x) (cp2 + x.length) none vars query := by
  induction x generalizing var cp2 with
  | nil => simp [writeAt]
  | cons c x ih =>
    rw [List.mem_cons, not_or] at heq hand
    rw [List.length_cons] at hroom
    have hc : (c == '=') = false := by simpa using Ne.symm heq.1
    have hc' : (c == '&') = false := by simpa using Ne.symm hand.1
    rw [List.cons_append, storeLoop, hc, if_neg (by simp), hc', if_neg (by simp),
      ih heq.2 hand.2 _ _ (by rw [List.length_set]; omega), set_writeAt (by omega),
      List.length_cons, Nat.add_assoc, Nat.add_comm 1]

theorem rtakeWhile_append_cons {p : Char → Bool} {c : Char} (hc : p c = false) (a b : Text) :
    (a ++ c :: b).rtakeWhile p = b.rtakeWhile p := by
  have hstop : ∀ s t : Text, (s ++ c :: t).takeWhile p = s.takeWhile p := by
    intro s t
    induction s with
    | nil => simp [hc]
    | cons d s ih => simp only [List.cons_append, List.takeWhile_cons, ih]
  rw [List.rtakeWhile, List.rtakeWhile, List.reverse_append, List.reverse_cons, List.append_assoc,
    List.singleton_append, hstop]

/-- A value starts again behind every `=`. -/
theorem storeLoop_value {x : Text} (hand : '&' ∉ x) {var : Text} {cp2 : Nat}
    (hend : var.set cp2 '\x00' = var) {val : Text} (hval : '=' ∉ val) (vars : List HttpVar)
    (query : Text) :
    storeLoop var cp2 (some val) vars (x ++ query) =
      storeLoop var cp2 (some ((val ++ x).rtakeWhile (· != '='))) vars query := by
  induction x generalizing val with
  | nil =>
    have hall : val.rtakeWhile (· != '=') = val :=
      List.rtakeWhile_eq_self_iff.mpr fun c hc => by simpa using ne_of_mem_of_not_mem hc hval
    rw [List.append_nil, List.nil_append, hall]
  | cons c x ih =>
    rw [List.mem_cons, not_or] at hand
    have hc' : (c == '&') = false := by simpa using Ne.symm hand.1
    by_cases hc : c = '='
    · subst hc
      rw [List.cons_append, storeLoop, if_pos (by simp), hend, ih hand.2 (by simp),
        List.nil_append, rtakeWhile_append_cons (by simp)]
    · rw [List.cons_append, storeLoop, if_neg (by simpa using hc), hc', if_neg (by simp),
        ih hand.2 (by simpa using ⟨hval, Ne.symm hc⟩), List.append_assoc, List.singleton_append]

/-- What a piece of the query with a `=` in it adds. -/
def addPiece (vars : List HttpVar) (piece : Text) : List HttpVar :=
  httpdAddVariable vars (piece.takeWhile (· != '='))
    (httpdUnescape (piece.rtakeWhile (· != '=')))

theorem cstrAt_putLine {line : Text} (h : '\x00' ∉ line) (buf : Text) :
    cstrAt (putLine buf line) 0 = line := by
  have hat := cstrAt_append h [] (buf.drop (line.length + 1))
  simpa [putLine] using hat

theorem length_putLine {buf line : Text} (h : line.length < buf.length) :
    (putLine buf line).length = buf.length := by
  simp only [putLine, List.length_append, List.length_cons, List.length_drop]
  omega

theorem set_end_writeAt {var name : Text} (h : name.length < var.length) :
    (writeAt var 0 name).set name.length '\x00' = putLine var name := by
  have hrest : var.drop name.length = var[name.length] :: var.drop (name.length + 1) :=
    List.drop_eq_getElem_cons h
  have hwrite : writeAt var 0 name = name ++ var.drop name.length := by simp [writeAt]
  rw [hwrite, hrest, List.set_append_right _ _ (Nat.le_refl _), Nat.sub_self]
  rfl

/-- The loop behind a piece: the name is in its place, the value is there. -/
theorem storeLoop_piece {piece : Text} (heq : '=' ∈ piece) (hand : '&' ∉ piece)
    (hnul : '\x00' ∉ piece) {var : Text} (hroom : piece.length < var.length)
    (vars : List HttpVar) (query : Text) :
    ∃ var' cp2, var'.length = var.length ∧
      cstrAt var' 0 = piece.takeWhile (· != '=') ∧
      storeLoop var 0 none vars (piece ++ query) =
        storeLoop var' cp2 (some (piece.rtakeWhile (· != '='))) vars query := by
  obtain ⟨name, value, rfl, hname⟩ := List.eq_append_cons_of_mem heq
  simp only [List.mem_append, List.mem_cons, not_or] at hand hnul
  rw [List.length_append, List.length_cons] at hroom
  have htake : (name ++ '=' :: value).takeWhile (· != '=') = name := by
    rw [List.takeWhile_append_of_pos fun c hc => by simpa using ne_of_mem_of_not_mem hc hname]
    simp
  have hend : (putLine var name).set name.length '\x00' = putLine var name := by simp [putLine]
  refine ⟨putLine var name, name.length, length_putLine (by omega), ?_, ?_⟩
  · rw [htake, cstrAt_putLine hnul.1]
  · rw [List.append_assoc, storeLoop_name hname hand.1 var 0 (by omega), List.cons_append,
      storeLoop, if_pos (by simp), Nat.zero_add, set_end_writeAt (by omega),
      storeLoop_value hand.2.2 hend (by simp), List.nil_append, rtakeWhile_append_cons (by simp)]

/-- A query of pieces with a `=` in each is read piece by piece. -/
theorem storeLoop_pieces {pieces : List Text} (hne : pieces ≠ [])
    (hpieces : ∀ p ∈ pieces, '=' ∈ p ∧ '&' ∉ p ∧ '\x00' ∉ p) {var : Text}
    (hroom : ∀ p ∈ pieces, p.length < var.length) (vars : List HttpVar) :
    storeLoop var 0 none vars (['&'].intercalate pieces) = pieces.foldl addPiece vars := by
  induction pieces generalizing var vars with
  | nil => exact absurd rfl hne
  | cons p pieces ih =>
    obtain ⟨heq, hand, hnul⟩ := hpieces p List.mem_cons_self
    have hp := hroom p List.mem_cons_self
    cases pieces with
    | nil =>
      obtain ⟨var', cp2, -, hvar, hloop⟩ := storeLoop_piece heq hand hnul hp vars []
      rw [List.append_nil] at hloop
      rw [List.intercalate_singleton, hloop, storeLoop, hvar]
      rfl
    | cons q rest =>
      obtain ⟨var', cp2, hlen, hvar, hloop⟩ :=
        storeLoop_piece heq hand hnul hp vars ('&' :: ['&'].intercalate (q :: rest))
      rw [List.intercalate_cons_cons, List.append_assoc, List.singleton_append, hloop, storeLoop,
        if_neg (by simp), if_pos (by simp), hvar, List.foldl_cons]
      refine ih (by simp) (fun r hr => hpieces r (List.mem_cons_of_mem p hr)) (fun r hr => ?_) _
      rw [hlen]
      exact hroom r (List.mem_cons_of_mem p hr)

theorem length_le_of_mem_intercalate {d : Char} {ws : List Text} {w : Text} (h : w ∈ ws) :
    w.length ≤ ([d].intercalate ws).length := by
  induction ws with
  | nil => cases h
  | cons v ws ih =>
    cases ws with
    | nil =>
      rw [List.mem_singleton.mp h, List.intercalate_singleton]
    | cons u us =>
      rw [List.intercalate_cons_cons, List.length_append, List.length_append]
      rcases List.mem_cons.mp h with rfl | h
      · omega
      · have := ih h
        omega

theorem httpdStoreData_eq {query : Text} (hnul : '\x00' ∉ query)
    (h : ∀ p ∈ query.splitOn '&', '=' ∈ p) (vars : List HttpVar) :
    httpdStoreData vars query = (query.splitOn '&').foldl addPiece vars := by
  have hjoin : ['&'].intercalate (query.splitOn '&') = query := List.intercalate_splitOn '&'
  have hpieces : ∀ p ∈ query.splitOn '&', '=' ∈ p ∧ '&' ∉ p ∧ '\x00' ∉ p := fun p hp =>
    ⟨h p hp, sep_not_mem_piece hp, fun hc => hnul (mem_of_mem_piece hp hc)⟩
  have hroom : ∀ p ∈ query.splitOn '&',
      p.length < (List.replicate (query.length + 1) '\x00').length := by
    intro p hp
    have hle := length_le_of_mem_intercalate (d := '&') hp
    rw [hjoin] at hle
    rw [List.length_replicate]
    omega
  have hne : query.splitOn '&' ≠ [] := List.splitOnP_ne_nil _ _
  rw [httpdStoreData, ← storeLoop_pieces hne hpieces hroom, hjoin]

/-! ## Looking up -/

theorem httpdGetVariableByName_cons (v : HttpVar) (vars : List HttpVar) (n : Text) :
    httpdGetVariableByName (v :: vars) n =
      if v.name = n then some v.value else httpdGetVariableByName vars n := by
  unfold httpdGetVariableByName
  rw [List.find?_cons]
  split
  · next h => rw [if_pos (by simpa using h), Option.map_some]
  · next h => rw [if_neg (by simpa using h)]

/-- A variable that is there keeps its value; further values of its name follow it. -/
theorem httpdGetVariableByName_append (name value : Text) (vars : List HttpVar) (n : Text) :
    httpdGetVariableByName (appendVariable name value vars) n =
      (httpdGetVariableByName vars n).or (if name = n then some value else none) := by
  induction vars with
  | nil => exact httpdGetVariableByName_cons _ [] n
  | cons v vars ih =>
    rw [appendVariable, httpdGetVariableByName_cons v vars]
    split
    · rw [httpdGetVariableByName_cons, ih]
      split <;> rfl
    · next hname =>
      have hv : v.name = name := by simpa using hname
      rw [httpdGetVariableByName_cons]
      dsimp only
      split
      · rfl
      · next hn => rw [if_neg (hv ▸ hn), Option.or_none]

/-- The name under which a piece is found. -/
def pieceName (piece : Text) : Text := (piece.takeWhile (· != '=')).dropWhile isBlank

theorem httpdGetVariableByName_foldl (pieces : List Text) (vars : List HttpVar) (n : Text) :
    httpdGetVariableByName (pieces.foldl addPiece vars) n =
      (httpdGetVariableByName vars n).or
        ((pieces.find? fun p => pieceName p == n).map fun p =>
          httpdUnescape (p.rtakeWhile (· != '='))) := by
  induction pieces generalizing vars with
  | nil => simp
  | cons p pieces ih =>
    have hadd : httpdGetVariableByName (addPiece vars p) n =
        (httpdGetVariableByName vars n).or (if pieceName p = n then
          some (httpdUnescape (p.rtakeWhile (· != '='))) else none) :=
      httpdGetVariableByName_append _ _ vars n
    rw [List.foldl_cons, ih, hadd, Option.or_assoc, List.find?_cons]
    by_cases hp : pieceName p = n
    · simp [hp]
    · have hp' : (pieceName p == n) = false := by simpa using hp
      simp [hp, hp']

/-- What a query says about a name: the first piece with that name counts. -/
theorem query_variable {query : Text} (hnul : '\x00' ∉ query)
    (h : ∀ p ∈ query.splitOn '&', '=' ∈ p) (n : Text) :
    httpdGetVariableByName (httpdStoreData [] query) n =
      ((query.splitOn '&').find? fun p => pieceName p == n).map fun p =>
        httpdUnescape (p.rtakeWhile (· != '=')) := by
  rw [httpdStoreData_eq hnul h, httpdGetVariableByName_foldl]
  rfl

/-! ## Forms -/

/-- A name that a query can carry as it is. -/
structure PlainName (name : Text) : Prop where
  noEq : '=' ∉ name
  noAnd : '&' ∉ name
  noNul : '\x00' ∉ name
  noBlank : ∀ c ∈ name.head?, isBlank c = false

instance (name : Text) : Decidable (PlainName name) :=
  decidable_of_iff ('=' ∉ name ∧ '&' ∉ name ∧ '\x00' ∉ name ∧
      ∀ c ∈ name.head?, isBlank c = false)
    ⟨fun ⟨h1, h2, h3, h4⟩ => ⟨h1, h2, h3, h4⟩, fun ⟨h1, h2, h3, h4⟩ => ⟨h1, h2, h3, h4⟩⟩

/-- A variable as it stands in a URL. -/
def formPiece (pair : Text × Text) : Text := pair.1 ++ '=' :: httpdUrlEncode pair.2

/-- The query of a URL with these variables. -/
def formQuery (pairs : List (Text × Text)) : Text := ['&'].intercalate (pairs.map formPiece)

/-- The names can stand in a query, the values are C strings. -/
def FormPairs (pairs : List (Text × Text)) : Prop :=
  ∀ pair ∈ pairs, PlainName pair.1 ∧ ∀ c ∈ pair.2, StringByte c

theorem takeWhile_formPiece {pair : Text × Text} (h : '=' ∉ pair.1) :
    (formPiece pair).takeWhile (· != '=') = pair.1 := by
  rw [formPiece,
    List.takeWhile_append_of_pos fun c hc => by simpa using ne_of_mem_of_not_mem hc h]
  simp

theorem pieceName_formPiece {pair : Text × Text} (h : PlainName pair.1) :
    pieceName (formPiece pair) = pair.1 := by
  rw [pieceName, takeWhile_formPiece h.noEq]
  cases hname : pair.1 with
  | nil => rfl
  | cons c name =>
    have hc := h.noBlank c (by rw [hname]; rfl)
    rw [List.dropWhile_cons_of_neg (by simp [hc])]

theorem value_formPiece {pair : Text × Text} (h : ∀ c ∈ pair.2, StringByte c) :
    httpdUnescape ((formPiece pair).rtakeWhile (· != '=')) = pair.2.map plusToBlank := by
  have hvalue : (formPiece pair).rtakeWhile (· != '=') = httpdUrlEncode pair.2 := by
    rw [formPiece, rtakeWhile_append_cons (by simp)]
    refine List.rtakeWhile_eq_self_iff.mpr fun c hc => ?_
    have hne : c ≠ '=' := by
      rintro rfl
      exact not_mem_httpdUrlEncode (by decide) (by decide) _ hc
    simpa using hne
  rw [hvalue, httpdUnescape_httpdUrlEncode h]

theorem not_mem_formPiece {pair : Text × Text} {d : Char} (hd : acceptable d = false)
    (hp : d ≠ '%') (heq : d ≠ '=') (hname : d ∉ pair.1) : d ∉ formPiece pair := by
  simp only [formPiece, List.mem_append, List.mem_cons, not_or]
  exact ⟨hname, heq, not_mem_httpdUrlEncode hd hp _⟩

theorem splitOn_formQuery {pairs : List (Text × Text)} (hne : pairs ≠ []) (h : FormPairs pairs) :
    (formQuery pairs).splitOn '&' = pairs.map formPiece := by
  refine List.splitOn_intercalate '&' (fun p hp => ?_) (by simpa using hne)
  obtain ⟨pair, hpair, rfl⟩ := List.mem_map.mp hp
  exact not_mem_formPiece (by decide) (by decide) (by decide) (h pair hpair).1.noAnd

theorem nul_not_mem_formQuery {pairs : List (Text × Text)} (h : FormPairs pairs) :
    '\x00' ∉ formQuery pairs := by
  intro hmem
  rcases mem_of_mem_intercalate hmem with hc | ⟨p, hp, hc⟩
  · exact absurd hc (by decide)
  · obtain ⟨pair, hpair, rfl⟩ := List.mem_map.mp hp
    exact not_mem_formPiece (by decide) (by decide) (by decide) (h pair hpair).1.noNul hc

/-- A form comes back: every variable has the value it was written with, its plusses blanks; of
    several variables with one name the first counts. -/
theorem form_round_trip {pairs : List (Text × Text)} (hne : pairs ≠ []) (h : FormPairs pairs)
    (n : Text) :
    httpdGetVariableByName (httpdStoreData [] (formQuery pairs)) n =
      (pairs.find? fun pair => pair.1 == n).map fun pair => pair.2.map plusToBlank := by
  have hsplit := splitOn_formQuery hne h
  have heq : ∀ p ∈ (formQuery pairs).splitOn '&', '=' ∈ p := by
    intro p hp
    rw [hsplit] at hp
    obtain ⟨pair, _, rfl⟩ := List.mem_map.mp hp
    simp [formPiece]
  rw [query_variable (nul_not_mem_formQuery h) heq, hsplit, List.find?_map]
  have hfind : pairs.find? ((fun p => pieceName p == n) ∘ formPiece) =
      pairs.find? fun pair => pair.1 == n :=
    List.find?_congr fun pair hpair => by
      simp only [Function.comp, pieceName_formPiece (h pair hpair).1]
  rw [hfind, Option.map_map]
  cases hfound : pairs.find? fun pair => pair.1 == n with
  | none => rfl
  | some pair =>
    have hpair := h pair (List.mem_of_find?_eq_some hfound)
    simp only [Option.map_some, Function.comp, value_formPiece hpair.2]

-- a bare word at the end is dropped, and one in the middle runs on
example : httpdStoreData [] "token=x&logout".toList = [⟨"token".toList, "x".toList, []⟩] := by
  decide +kernel

example : httpdStoreData [] "logout&a&token=x".toList =
    [⟨"logout".toList, [], []⟩, ⟨"aogout".toList, [], []⟩, ⟨"token".toList, "x".toList, []⟩] := by
  decide +kernel

end Wifidog
