/-
  The hand-over of the client list from parent to child.

  The parent writes tokens as they are, and prints unsigned numbers that the child reads with
  signed conversions. So the child gets the parent's list exactly when no token has one of the
  separators and every number is below `2^63` (`handed_over_iff`). The order is reversed, since
  the child inserts at the head.
-/
import Wifidog.Restart.Reading

namespace Wifidog

open CText Runs

/-- What is handed over of a client. -/
structure Handed where
  ip : Option Text
  mac : Option Text
  token : Option Text
  fwConnectionState : Int
  incoming : UInt64
  outgoing : UInt64
  lastUpdated : Int64
  deriving DecidableEq, Repr

def Client.handed (c : Client) : Handed :=
  ⟨some c.ip, some c.mac, some c.token, c.fwConnectionState, c.counters.incoming,
    c.counters.outgoing, c.counters.lastUpdated⟩

def RawClient.handed (c : RawClient) : Handed :=
  ⟨c.ip, c.mac, c.token, c.fwConnectionState, c.counters.incoming, c.counters.outgoing,
    c.counters.lastUpdated⟩

/-- The child has one client for each client of the parent, and no other. -/
def HandedOver (l : ClientList) : Prop :=
  ∃ l', getClientsFromParent (wdctlRestart l) = some l' ∧
    (l'.clients.map RawClient.handed).Perm (l.clients.map Client.handed)

/-- A client as the gateway makes it: the address is printed by `inet_ntoa`, the mac was read
    by `arp_get`, the token was decoded from a request. -/
structure Client.Sendable (c : Client) : Prop where
  ip : c.ip.length ≤ 15 ∧ ∀ x ∈ c.ip, x.isDigit = true ∨ x = '.'
  mac : c.mac.length ≤ 17 ∧ ∀ x ∈ c.mac, x.isAlphanum = true ∨ x = ':'
  token : c.token.length < 1024 ∧ '\x00' ∉ c.token
  state : c.fwConnectionState ∈ [fwMarkNone, fwMarkProbation, fwMarkKnown]
  fd : -2 ^ 31 ≤ c.fd ∧ c.fd < 2 ^ 31

/-! ## The line of a client -/

/-- A value that no pass of the reader cuts. -/
def Uncut (v : Text) : Prop := Separated v ∧ '\x00' ∉ v

theorem uncut_of_forall {v : Text} {P : Char → Bool} (h : ∀ c ∈ v, P c = true)
    (hP : P '|' = false ∧ P '=' = false ∧ P '\n' = false ∧ P '\x00' = false) : Uncut v := by
  have hno : ∀ c, P c = false → c ∉ v := by
    intro c hc hmem
    rw [h c hmem] at hc
    cases hc
  exact ⟨⟨hno _ hP.1, hno _ hP.2.1, hno _ hP.2.2.1⟩, hno _ hP.2.2.2⟩

theorem uncut_dec (n : Nat) : Uncut (dec n) :=
  uncut_of_forall (fun _ h => isDigit_of_mem_dec h) (by decide)

theorem uncut_decInt (n : Int) : Uncut (decInt n) := by
  cases n with
  | ofNat n => exact uncut_dec n
  | negSucc n =>
    have hdigits := uncut_dec (n + 1)
    unfold Uncut Separated at hdigits ⊢
    simpa [decInt] using hdigits

/-- The fields of the line, as keys and values. -/
def Client.slots (c : Client) : List (Text × Text) :=
  [("ip".toList, c.ip), ("mac".toList, c.mac), ("token".toList, c.token),
    ("fw_connection_state".toList, dec (c.fwConnectionState % 2 ^ 32).toNat),
    ("fd".toList, decInt c.fd),
    ("counters_incoming".toList, dec c.counters.incoming.toNat),
    ("counters_outgoing".toList, dec c.counters.outgoing.toNat),
    ("counters_last_updated".toList, dec c.counters.lastUpdated.toUInt64.toNat)]

def fieldText (kv : Text × Text) : Text := kv.1 ++ '=' :: kv.2

theorem clientLine_eq (c : Client) :
    clientLine c = ['|'].intercalate (clientWord :: c.slots.map fieldText) ++ ['\n'] := by
  have hip : "CLIENT|ip=".toList = clientWord ++ '|' :: ("ip".toList ++ ['=']) := by decide
  have hmac : "|mac=".toList = '|' :: ("mac".toList ++ ['=']) := by decide
  have htoken : "|token=".toList = '|' :: ("token".toList ++ ['=']) := by decide
  have hstate : "|fw_connection_state=".toList =
      '|' :: ("fw_connection_state".toList ++ ['=']) := by decide
  have hfd : "|fd=".toList = '|' :: ("fd".toList ++ ['=']) := by decide
  have hincoming : "|counters_incoming=".toList =
      '|' :: ("counters_incoming".toList ++ ['=']) := by decide
  have houtgoing : "|counters_outgoing=".toList =
      '|' :: ("counters_outgoing".toList ++ ['=']) := by decide
  have hupdated : "|counters_last_updated=".toList =
      '|' :: ("counters_last_updated".toList ++ ['=']) := by decide
  have hnl : "\n".toList = ['\n'] := by decide
  unfold clientLine Client.slots
  rw [hip, hmac, htoken, hstate, hfd, hincoming, houtgoing, hupdated, hnl]
  simp only [List.map_cons, List.map_nil, fieldText, List.intercalate_cons_cons,
    List.intercalate_singleton, List.append_assoc, List.cons_append, List.nil_append]

theorem uncut_slots {c : Client} (h : c.Sendable) (htoken : Separated c.token) :
    ∀ kv ∈ c.slots, Uncut kv.1 ∧ Uncut kv.2 := by
  have hip : Uncut c.ip := uncut_of_forall (P := fun x => x.isDigit || x == '.')
    (fun x hx => by simpa using h.ip.2 x hx) (by decide)
  have hmac : Uncut c.mac := uncut_of_forall (P := fun x => x.isAlphanum || x == ':')
    (fun x hx => by simpa using h.mac.2 x hx) (by decide)
  have hkeys : ∀ key ∈ slotNames, Uncut key := by unfold Uncut Separated; decide
  intro kv hkv
  refine ⟨hkeys kv.1 ?_, ?_⟩
  · have hmem := List.mem_map_of_mem (f := Prod.fst) hkv
    exact hmem
  · simp only [Client.slots, List.mem_cons, List.not_mem_nil, or_false] at hkv
    rcases hkv with rfl | rfl | rfl | rfl | rfl | rfl | rfl | rfl
    · exact hip
    · exact hmac
    · exact ⟨htoken, h.token.2⟩
    · exact uncut_dec _
    · exact uncut_decInt _
    · exact uncut_dec _
    · exact uncut_dec _
    · exact uncut_dec _

theorem assignField_fieldText (c : RawClient) {kv : Text × Text} (h : Uncut kv.1 ∧ Uncut kv.2) :
    c.assignField (fieldText kv) = c.assign kv.1 kv.2 := by
  unfold RawClient.assignField fieldText
  rw [List.splitOn_append_cons_self_of_not_mem h.1.1.2.1, List.splitOn_eq_singleton h.2.1.2.1]

theorem length_dec_le_twenty {n : Nat} (h : n < 2 ^ 64) : (dec n).length ≤ 20 :=
  length_dec_le (by decide) (by omega)

theorem length_decInt_le {n : Int} (h : -2 ^ 31 ≤ n ∧ n < 2 ^ 31) : (decInt n).length ≤ 21 := by
  cases n with
  | ofNat n =>
    have hn : (n : Int) < 2 ^ 31 := h.2
    have hle : (dec n).length ≤ 20 := length_dec_le_twenty (by omega)
    exact Nat.le_succ_of_le hle
  | negSucc n =>
    have hn := h.1
    have hle : (dec (n + 1)).length ≤ 20 := length_dec_le_twenty (by omega)
    exact Nat.succ_le_succ hle

theorem length_clientLine_le {c : Client} (h : c.Sendable) : (clientLine c).length ≤ maxBuf := by
  have hip := h.ip.1
  have hmac := h.mac.1
  have htoken := h.token.1
  have hstate : (dec (c.fwConnectionState % 2 ^ 32).toNat).length ≤ 20 :=
    length_dec_le_twenty (by omega)
  have hfd := length_decInt_le h.fd
  have hincoming := length_dec_le_twenty c.counters.incoming.toNat_lt
  have houtgoing := length_dec_le_twenty c.counters.outgoing.toNat_lt
  have hupdated := length_dec_le_twenty c.counters.lastUpdated.toUInt64.toNat_lt
  unfold clientLine maxBuf
  simp only [List.length_append]
  rw [show "CLIENT|ip=".toList.length = 10 from by decide,
    show "|mac=".toList.length = 5 from by decide,
    show "|token=".toList.length = 7 from by decide,
    show "|fw_connection_state=".toList.length = 21 from by decide,
    show "|fd=".toList.length = 4 from by decide,
    show "|counters_incoming=".toList.length = 19 from by decide,
    show "|counters_outgoing=".toList.length = 19 from by decide,
    show "|counters_last_updated=".toList.length = 23 from by decide,
    show "\n".toList.length = 1 from by decide]
  omega

/-- What the child makes of a client whose token has no separator. -/
def Client.readBack (c : Client) : Handed :=
  ⟨some c.ip, some c.mac, some c.token, c.fwConnectionState,
    UInt64.ofInt (min c.counters.incoming.toNat (2 ^ 63 - 1)),
    UInt64.ofInt (min c.counters.outgoing.toNat (2 ^ 63 - 1)),
    Int64.ofInt (min c.counters.lastUpdated.toUInt64.toNat (2 ^ 63 - 1))⟩

/-- The fields of the line, assigned to a new client. -/
def Client.received (c : Client) : RawClient :=
  c.slots.foldl (fun r kv => r.assign kv.1 kv.2) clientGetNew

theorem handed_received {c : Client} (h : c.Sendable) : c.received.handed = c.readBack := by
  have hcompute : c.received.handed =
      ⟨some c.ip, some c.mac, some c.token, atoi (dec (c.fwConnectionState % 2 ^ 32).toNat),
        UInt64.ofInt (atol (dec c.counters.incoming.toNat)),
        UInt64.ofInt (atol (dec c.counters.outgoing.toNat)),
        Int64.ofInt (atol (dec c.counters.lastUpdated.toUInt64.toNat))⟩ := rfl
  have hrange : 0 ≤ c.fwConnectionState ∧ c.fwConnectionState < 2 ^ 31 := by
    have hstate := h.state
    simp only [fwMarkNone, fwMarkProbation, fwMarkKnown, List.mem_cons, List.not_mem_nil,
      or_false] at hstate
    omega
  have hatoi : atoi (dec (c.fwConnectionState % 2 ^ 32).toNat) = c.fwConnectionState := by
    rw [atoi_dec (by omega)]
    omega
  rw [hcompute, hatoi, atol_dec, atol_dec, atol_dec]
  rfl

theorem foldl_fieldText {kvs : List (Text × Text)} (h : ∀ kv ∈ kvs, Uncut kv.1 ∧ Uncut kv.2)
    (r : RawClient) :
    (kvs.map fieldText).foldl RawClient.assignField r =
      kvs.foldl (fun r kv => r.assign kv.1 kv.2) r := by
  induction kvs generalizing r with
  | nil => rfl
  | cons kv kvs ih =>
    simp only [List.mem_cons, forall_eq_or_imp] at h
    rw [List.map_cons, List.foldl_cons, List.foldl_cons, assignField_fieldText r h.1, ih h.2]

theorem getLast?_slots (c : Client) :
    ∃ d, (['|'].intercalate (c.slots.map fieldText)).getLast? = some d ∧ d.isDigit = true := by
  let n := c.counters.lastUpdated.toUInt64.toNat
  have hfield : dec n <:+ fieldText ("counters_last_updated".toList, dec n) := by
    refine List.IsSuffix.trans ?_ (List.suffix_append _ _)
    exact List.suffix_cons _ _
  have hlast : fieldText ("counters_last_updated".toList, dec n) <:+
      ['|'].intercalate (c.slots.map fieldText) :=
    suffix_intercalate '|' (c.slots.dropLast.map fieldText) _
  obtain ⟨pre, hpre⟩ := hfield.trans hlast
  have hd := List.getLast?_eq_some_getLast (dec_ne_nil n)
  refine ⟨_, ?_, isDigit_of_mem_dec (List.mem_of_getLast? hd)⟩
  rw [← hpre, List.getLast?_append, hd]
  rfl

/-- The text of a client's line, without the newline. -/
def Client.line (c : Client) : Text := ['|'].intercalate (clientWord :: c.slots.map fieldText)

theorem uncut_line {c : Client} (h : c.Sendable) (htoken : Separated c.token) :
    '\x00' ∉ c.line ∧ '\n' ∉ c.line := by
  have hslots := uncut_slots h htoken
  have hno : ∀ x : Char, x ≠ '|' → x ≠ '=' → x ∉ clientWord →
      (∀ kv ∈ c.slots, x ∉ kv.1 ∧ x ∉ kv.2) → x ∉ c.line := by
    intro x hbar heq hword hkv hmem
    rcases mem_of_mem_intercalate hmem with hx | ⟨w, hw, hx⟩
    · exact hbar hx
    · rcases List.mem_cons.mp hw with rfl | hw
      · exact hword hx
      · obtain ⟨kv, hkvmem, rfl⟩ := List.mem_map.mp hw
        simp only [fieldText, List.mem_append, List.mem_cons] at hx
        rcases hx with hx | hx | hx
        · exact (hkv kv hkvmem).1 hx
        · exact heq hx
        · exact (hkv kv hkvmem).2 hx
  constructor
  · exact hno _ (by decide) (by decide) (by decide) fun kv hkv =>
      ⟨(hslots kv hkv).1.2, (hslots kv hkv).2.2⟩
  · exact hno _ (by decide) (by decide) (by decide) fun kv hkv =>
      ⟨(hslots kv hkv).1.1.2.2, (hslots kv hkv).2.1.2.2⟩

/-- The line of a client gives the client, whatever the pointers of the line before are. -/
theorem lineClient_line {c : Client} (h : c.Sendable) (htoken : Separated c.token)
    (p : LineParse) (n : Nat) :
    p.lineClient c.line (List.replicate n '\x00') = some c.received := by
  have hslots := uncut_slots h htoken
  have hbar : ∀ w ∈ clientWord :: c.slots.map fieldText, '|' ∉ w := by
    intro w hw
    rcases List.mem_cons.mp hw with rfl | hw
    · decide
    · obtain ⟨kv, hkv, rfl⟩ := List.mem_map.mp hw
      simp only [fieldText, List.mem_append, List.mem_cons, not_or]
      exact ⟨(hslots kv hkv).1.1.1, by decide, (hslots kv hkv).2.1.1⟩
  have hsplit : c.line.splitOn '|' = clientWord :: c.slots.map fieldText :=
    List.splitOn_intercalate '|' hbar (by simp)
  obtain ⟨h0, _⟩ := uncut_line h htoken
  have hbody : '\x00' ∉ ['|'].intercalate (c.slots.map fieldText) := by
    intro hmem
    refine h0 ?_
    unfold Client.line
    rw [List.intercalate_cons_of_ne_nil (by simp [Client.slots])]
    exact List.mem_append_right _ hmem
  obtain ⟨m, hbuf⟩ := afterCommand h0 hsplit n
  obtain ⟨d, hlast, hd⟩ := getLast?_slots c
  unfold LineParse.lineClient Client.received
  rw [hsplit, hbuf, assignAt_of_digit hbody hlast hd]
  dsimp only
  rw [if_pos rfl, foldl_fieldText hslots]

/-- The id that the insertion sets is not handed over. -/
theorem map_handed_insertParsed (l : RawList) (c : RawClient) :
    (l.insertParsed (some c)).clients.map RawClient.handed =
      c.handed :: l.clients.map RawClient.handed := rfl

/-- The child's list after the lines of some clients. -/
theorem read_clients {cs : List Client} (hsend : ∀ c ∈ cs, c.Sendable)
    (hsep : ∀ c ∈ cs, Separated c.token) {s : Inherit} (h : Reading [] s) :
    ∃ s', run Inherit.readChar s (cs.flatMap clientLine) = some s' ∧ Reading [] s' ∧
      s'.list.clients.map RawClient.handed =
        (cs.map Client.readBack).reverse ++ s.list.clients.map RawClient.handed := by
  induction cs generalizing s with
  | nil => exact ⟨s, rfl, h, by simp⟩
  | cons c cs ih =>
    simp only [List.mem_cons, forall_eq_or_imp] at hsend hsep
    have hline : clientLine c = c.line ++ ['\n'] := clientLine_eq c
    have hfits : c.line.length < maxBuf := by
      have hle := length_clientLine_le hsend.1
      rw [hline, List.length_append, List.length_singleton] at hle
      omega
    obtain ⟨h0, hnl⟩ := uncut_line hsend.1 hsep.1
    obtain ⟨s1, hrun, hread, hlist⟩ := read_line h0 hnl hfits h
    have hclient := lineClient_line hsend.1 hsep.1 s.parse (maxBuf - c.line.length - 1)
    obtain ⟨s2, hrun', hread', hlist'⟩ := ih hsend.2 hsep.2 hread
    refine ⟨s2, ?_, hread', ?_⟩
    · rw [List.flatMap_cons, hline]
      exact run_append_iff.mpr ⟨s1, hrun, hrun'⟩
    · have hhead : s1.list.clients.map RawClient.handed =
          c.readBack :: s.list.clients.map RawClient.handed := by
        rw [hlist, ← handed_received hsend.1]
        unfold listAfter
        rw [hclient, map_handed_insertParsed]
      rw [hlist', hhead]
      simp

/-! ## The hand-over -/

/-- The numbers of a client that are read back as they were. -/
def Client.Readable (c : Client) : Prop :=
  c.counters.incoming.toNat < 2 ^ 63 ∧ c.counters.outgoing.toNat < 2 ^ 63 ∧
    0 ≤ c.counters.lastUpdated

theorem toNat_ofInt_min (n : UInt64) :
    (UInt64.ofInt (min n.toNat (2 ^ 63 - 1))).toNat = min n.toNat (2 ^ 63 - 1) := by
  unfold UInt64.ofInt
  rw [UInt64.toNat_ofNat']
  omega

theorem ofInt_min_eq {n : UInt64} (h : n.toNat < 2 ^ 63) :
    UInt64.ofInt (min n.toNat (2 ^ 63 - 1)) = n := by
  refine UInt64.toNat_inj.mp ?_
  rw [toNat_ofInt_min]
  omega

theorem toInt_ofInt_min (n : Nat) :
    (Int64.ofInt (min n (2 ^ 63 - 1))).toInt = min (n : Int) (2 ^ 63 - 1) := by
  have hnonneg := Int.natCast_nonneg n
  exact Int64.toInt_ofInt_of_le (by omega) (by omega)

theorem ofInt_min_toUInt64 {t : Int64} (h : 0 ≤ t) :
    Int64.ofInt (min t.toUInt64.toNat (2 ^ 63 - 1)) = t := by
  refine Int64.toInt_inj.mp ?_
  have hnat : (t.toUInt64.toNat : Int) = t.toInt := by
    rw [Int64.toNat_toUInt64_of_le h, Int64.cast_toNatClampNeg t h]
  have hlt := t.toInt_lt
  rw [toInt_ofInt_min, hnat]
  omega

theorem readBack_eq {c : Client} (h : c.Readable) : c.readBack = c.handed := by
  unfold Client.readBack Client.handed
  rw [ofInt_min_eq h.1, ofInt_min_eq h.2.1, ofInt_min_toUInt64 h.2.2]

/-- Numbers that were read back are in the range that can be read. -/
theorem readable_of_readBack {c d : Client} (h : d.readBack = c.handed) : c.Readable := by
  have hin : UInt64.ofInt (min d.counters.incoming.toNat (2 ^ 63 - 1)) = c.counters.incoming :=
    congrArg Handed.incoming h
  have hout : UInt64.ofInt (min d.counters.outgoing.toNat (2 ^ 63 - 1)) = c.counters.outgoing :=
    congrArg Handed.outgoing h
  have htime : Int64.ofInt (min d.counters.lastUpdated.toUInt64.toNat (2 ^ 63 - 1)) =
      c.counters.lastUpdated := congrArg Handed.lastUpdated h
  refine ⟨?_, ?_, ?_⟩
  · rw [← hin, toNat_ofInt_min]
    omega
  · rw [← hout, toNat_ofInt_min]
    omega
  · rw [← htime, Int64.le_iff_toInt_le, toInt_ofInt_min]
    change 0 ≤ _
    omega

/-- Every token of the parent is a token of the child, and those have no separator. -/
theorem separated_of_handedOver {l : ClientList} (h : HandedOver l) :
    ∀ c ∈ l.clients, Separated c.token := by
  obtain ⟨l', hdecode, hperm⟩ := h
  intro c hc
  have hmem : c.handed ∈ l'.clients.map RawClient.handed :=
    hperm.mem_iff.mpr (List.mem_map_of_mem hc)
  obtain ⟨r, hr, hhanded⟩ := List.mem_map.mp hmem
  exact decoded_tokenSeparated hdecode r hr c.token (congrArg Handed.token hhanded)

/-- The child gets exactly the clients of the parent if and only if no token has a `|`, a `=` or
    a newline in it, the totals are below `2^63` and the time of the last update is not
    negative. -/
theorem handed_over_iff (l : ClientList) (hsend : ∀ c ∈ l.clients, c.Sendable) :
    HandedOver l ↔ ∀ c ∈ l.clients, Separated c.token ∧ c.Readable := by
  constructor
  · intro hover
    have hsep := separated_of_handedOver hover
    obtain ⟨l', hdecode, hperm⟩ := hover
    -- so the child's list is known, and the numbers in it are numbers that were read
    obtain ⟨s, hrun, _, hlist⟩ := read_clients hsend hsep reading_start
    have hl' : l' = s.list := by
      unfold getClientsFromParent wdctlRestart at hdecode
      rw [hrun] at hdecode
      exact (Option.some.inj hdecode).symm
    rw [hl', hlist] at hperm
    intro c hc
    refine ⟨hsep c hc, ?_⟩
    have hmem : c.handed ∈ (l.clients.map Client.readBack).reverse ++ [] :=
      hperm.mem_iff.mpr (List.mem_map_of_mem hc)
    rw [List.append_nil, List.mem_reverse] at hmem
    obtain ⟨d, _, hd⟩ := List.mem_map.mp hmem
    exact readable_of_readBack hd
  · intro hall
    obtain ⟨s, hrun, _, hlist⟩ :=
      read_clients hsend (fun c hc => (hall c hc).1) reading_start
    refine ⟨s.list, ?_, ?_⟩
    · unfold getClientsFromParent wdctlRestart
      rw [hrun]
      rfl
    · have hback : l.clients.map Client.readBack = l.clients.map Client.handed :=
        List.map_congr_left fun c hc => readBack_eq (hall c hc).2
      rw [hlist, hback]
      simp [Inherit.start, List.reverse_perm]

def plainParent : Client :=
  ⟨1, "10.0.0.5".toList, "00:16:3e:00:00:05".toList, "f3a9".toList, fwMarkKnown, 7,
    ⟨1200, 3400, 0, 0, 0, 0, 1700000000⟩⟩

/-- The token of a request with `token=f3|a9`. -/
def cutParent : Client := { plainParent with token := "f3|a9".toList }

theorem sendable_with_token {t : Text} (ht : t.length < 1024 ∧ '\x00' ∉ t) :
    ({ plainParent with token := t } : Client).Sendable := by
  have hip : plainParent.ip.all (fun x => x.isDigit || x == '.') = true := by decide
  have hmac : plainParent.mac.all (fun x => x.isAlphanum || x == ':') = true := by decide
  refine ⟨⟨?_, ?_⟩, ⟨?_, ?_⟩, ht, ?_, ?_⟩
  · exact (by decide : plainParent.ip.length ≤ 15)
  · exact fun x hx => by simpa using List.all_eq_true.mp hip x hx
  · exact (by decide : plainParent.mac.length ≤ 17)
  · exact fun x hx => by simpa using List.all_eq_true.mp hmac x hx
  · exact (by decide : plainParent.fwConnectionState ∈ [fwMarkNone, fwMarkProbation, fwMarkKnown])
  · exact (by decide : -2 ^ 31 ≤ plainParent.fd ∧ plainParent.fd < 2 ^ 31)

/-- A client with other values, and shorter ones, on the line after. -/
def otherParent : Client :=
  ⟨2, "10.0.0.16".toList, "00:16:3e:00:00:1c".toList, "u".toList, fwMarkProbation, 12,
    ⟨5, 70, 0, 0, 0, 0, 1700000100⟩⟩

theorem handed_over_plainParent : HandedOver ⟨[plainParent, otherParent], 3⟩ := by
  refine (handed_over_iff ⟨[plainParent, otherParent], 3⟩ ?_).mpr ?_
  · intro c hc
    simp only [List.mem_cons, List.not_mem_nil, or_false] at hc
    rcases hc with rfl | rfl
    · exact sendable_with_token (by decide)
    · exact ⟨by decide, by decide, by decide, by decide, by decide⟩
  · intro c hc
    simp only [List.mem_cons, List.not_mem_nil, or_false] at hc
    rcases hc with rfl | rfl <;>
      · unfold Separated Client.Readable
        decide

/-- The child does not get a client whose token has a `|` in it. -/
theorem cut_token_not_handed_over :
    (∀ c ∈ [cutParent], c.Sendable) ∧ ¬ HandedOver ⟨[cutParent], 2⟩ := by
  constructor
  · intro c hc
    obtain rfl := List.mem_singleton.mp hc
    exact sendable_with_token (by decide)
  · intro hover
    have hsep := separated_of_handedOver hover cutParent List.mem_cons_self
    exact hsep.1 (by decide)

end Wifidog
