/-
  A carriage return behind an argument.

  At top level the LF is cut from a line before anything else, and then CR LF is looked for. In a
  file with CR LF the argument of a line therefore ends in a CR. This module says what the consumers
  of an argument make of it: numbers and MAC addresses stop before it, a boolean is no boolean any
  more, and a text keeps it.
-/
import Wifidog.Config.Settings

namespace Wifidog

open CText

/-! ## Scanning up to a character -/

section Scan

variable {p : Char → Bool} {c : Char}

theorem takeWhile_concat (h : p c = false) (s : Text) :
    (s ++ [c]).takeWhile p = s.takeWhile p := by
  induction s with
  | nil => simp [h]
  | cons d s ih =>
    cases hd : p d with
    | false => simp [hd]
    | true => simpa [hd] using ih

theorem takeWhile_take_concat (h : p c = false) (n : Nat) (s : Text) :
    ((s ++ [c]).take n).takeWhile p = (s.take n).takeWhile p := by
  by_cases hn : n ≤ s.length
  · rw [List.take_append_of_le_length hn]
  · rw [List.take_of_length_le (by simp; omega), List.take_of_length_le (by omega),
      takeWhile_concat h]

theorem dropWhile_concat (h : p c = false) (s : Text) :
    (s ++ [c]).dropWhile p = s.dropWhile p ++ [c] := by
  induction s with
  | nil => simp [h]
  | cons d s ih =>
    cases hd : p d with
    | false => simp [hd]
    | true => simpa [hd] using ih

/-- When the character is skipped too, nothing or the character is left. -/
theorem dropWhile_concat_pos (h : p c = true) (s : Text) :
    s.dropWhile p = [] ∧ (s ++ [c]).dropWhile p = [] ∨
      (s ++ [c]).dropWhile p = s.dropWhile p ++ [c] := by
  induction s with
  | nil => simp [h]
  | cons d s ih =>
    cases hd : p d with
    | false => simp [hd]
    | true => simpa [hd] using ih

end Scan

/-! ## Numbers -/

theorem leadingNat_concat {c : Char} (h : c.isDigit = false) (s : Text) :
    leadingNat (s ++ [c]) = leadingNat s := by
  unfold leadingNat
  rw [takeWhile_concat h]

/-- The text behind white space, with and without the CR. -/
theorem afterSpace_cr (s : Text) :
    (s ++ ['\r']).dropWhile isSpace = s.dropWhile isSpace ∨
      (s ++ ['\r']).dropWhile isSpace = s.dropWhile isSpace ++ ['\r'] := by
  rcases dropWhile_concat_pos (by decide : isSpace '\r' = true) s with ⟨h, h'⟩ | h'
  · exact Or.inl (h'.trans h.symm)
  · exact Or.inr h'

theorem atol_cr (s : Text) : atol (s ++ ['\r']) = atol s := by
  unfold atol
  rcases afterSpace_cr s with h | h
  · rw [h]
  · rw [h]
    cases s.dropWhile isSpace with
    | nil => decide
    | cons c t =>
      have htail := leadingNat_concat (by decide : '\r'.isDigit = false) t
      have hall := leadingNat_concat (by decide : '\r'.isDigit = false) (c :: t)
      rw [List.cons_append] at hall ⊢
      by_cases hminus : c = '-'
      · simp [hminus, htail]
      · by_cases hplus : c = '+'
        · simp [hplus, htail]
        · simp [hminus, hplus, hall]

theorem scanInt_cr (s : Text) : scanInt (s ++ ['\r']) = scanInt s := by
  have hdigit : (afterSign (s ++ ['\r'])).head?.any Char.isDigit =
      (afterSign s).head?.any Char.isDigit := by
    unfold afterSign
    rcases afterSpace_cr s with h | h
    · rw [h]
    · rw [h]
      cases s.dropWhile isSpace with
      | nil => decide
      | cons c t =>
        have htail : (t ++ ['\r']).head?.any Char.isDigit = t.head?.any Char.isDigit := by
          cases t <;> rfl
        rw [List.cons_append]
        by_cases hminus : c = '-'
        · simp only [hminus, htail]
        · by_cases hplus : c = '+'
          · simp only [hplus, htail]
          · simp [hminus, hplus]
  unfold scanInt atoi
  rw [hdigit, atol_cr]

theorem scanNumber_cr (s : Text) (old : Int) : scanNumber (s ++ ['\r']) old = scanNumber s old := by
  unfold scanNumber
  rw [scanInt_cr]

/-! ## Booleans -/

theorem parseBooleanValue_cr (s : Text) : parseBooleanValue (s ++ ['\r']) = -1 := by
  have hcase : ∀ w : Text, '\r' ∉ w.map Char.toLower → strcaseEq (s ++ ['\r']) w = false := by
    intro w hw
    rw [strcaseEq, beq_eq_false_iff_ne]
    intro heq
    refine hw ?_
    rw [← heq]
    simp
  have hne : ∀ w : Text, '\r' ∉ w → s ++ ['\r'] ≠ w := by
    rintro w hw rfl
    simp at hw
  unfold parseBooleanValue
  rw [hcase _ (by decide), hcase _ (by decide), if_neg (hne _ (by decide)),
    if_neg (hne _ (by decide))]
  rfl

/-! ## MAC addresses -/

theorem scanMacGroups_cr (groups : Nat) (s : Text) :
    scanMacGroups groups (s ++ ['\r']) = scanMacGroups groups s := by
  induction groups generalizing s with
  | zero => rfl
  | succ groups ih =>
    have hgroup := takeWhile_take_concat (by decide : isHex '\r' = false) 2 s
    have hlen : ((s.take 2).takeWhile isHex).length ≤ s.length :=
      ((List.takeWhile_prefix _).length_le).trans (List.length_take_le' 2 s)
    unfold scanMacGroups
    simp only [hgroup, List.drop_append_of_le_length hlen]
    cases s.drop ((s.take 2).takeWhile isHex).length with
    | nil => rfl
    | cons c rest =>
      by_cases hc : c = ':'
      · simp [hc, ih]
      · simp [hc]

theorem scanMac_cr (s : Text) : scanMac (s ++ ['\r']) = scanMac s := by
  unfold scanMac
  rcases afterSpace_cr s with h | h
  · rw [h]
  · rw [h, takeWhile_take_concat (by decide)]

theorem splitOn_last {a b : Text} (hb : ',' ∉ b) :
    (a ++ ',' :: b).splitOn ',' = a.splitOn ',' ++ [b] := by
  have hall : ∀ c ∈ b, (c == ',') = false := by
    intro c hc
    simpa using ne_of_mem_of_not_mem hc hb
  rw [List.splitOn_eq_splitOnP, List.splitOn_eq_splitOnP,
    List.splitOnP_append_cons a b (by simp), List.splitOnP_eq_singleton hall]

theorem rtakeWhile_last {a b : Text} (hb : ',' ∉ b) :
    (a ++ ',' :: b).rtakeWhile (· != ',') = b := by
  have hall : ∀ c ∈ b.reverse, (c != ',') = true := by
    intro c hc
    simpa using ne_of_mem_of_not_mem (List.mem_reverse.mp hc) hb
  rw [List.rtakeWhile, List.reverse_append, List.reverse_cons, List.append_assoc,
    List.takeWhile_append_of_pos hall]
  simp

/-- The pieces of a list: the CR goes to the last one. -/
theorem splitOn_cr (s : Text) : ∃ init, s.splitOn ',' = init ++ [s.rtakeWhile (· != ',')] ∧
    (s ++ ['\r']).splitOn ',' = init ++ [s.rtakeWhile (· != ',') ++ ['\r']] := by
  by_cases hs : ',' ∈ s
  · obtain ⟨b, a, hrev, hb⟩ := List.eq_append_cons_of_mem (List.mem_reverse.mpr hs)
    have hsplit : s = a.reverse ++ ',' :: b.reverse := by
      rw [← List.reverse_reverse s, hrev]
      simp
    have hb' : ',' ∉ b.reverse := by simpa using hb
    have hbcr : ',' ∉ b.reverse ++ ['\r'] := by simpa using hb
    refine ⟨a.reverse.splitOn ',', ?_, ?_⟩
    · rw [hsplit, splitOn_last hb', rtakeWhile_last hb']
    · rw [hsplit, rtakeWhile_last hb', List.append_assoc, List.cons_append, splitOn_last hbcr]
  · have hone : ∀ t : Text, ',' ∉ t → t.splitOn ',' = [t] := by
      intro t ht
      rw [List.splitOn_eq_splitOnP, List.splitOnP_eq_singleton]
      intro c hc
      simpa using ne_of_mem_of_not_mem hc ht
    have hself : s.rtakeWhile (· != ',') = s := by
      rw [List.rtakeWhile_eq_self_iff]
      intro c hc
      simpa using ne_of_mem_of_not_mem hc hs
    refine ⟨[], ?_, ?_⟩
    · rw [hself, hone s hs, List.nil_append]
    · rw [hself, hone _ (by simpa using hs), List.nil_append]

theorem addTrustedMacs_cr (macs init : List Text) (last : Text) :
    addTrustedMacs macs (init ++ [last ++ ['\r']]) = addTrustedMacs macs (init ++ [last]) := by
  induction init generalizing macs with
  | nil =>
    simp only [List.nil_append, addTrustedMacs, checkMacFormat, scanMacGroups_cr, scanMac_cr]
    rfl
  | cons piece init ih =>
    simp only [List.cons_append, addTrustedMacs, ih]

theorem parseTrustedMacList_cr (macs : List Text) (s : Text) :
    parseTrustedMacList macs (s ++ ['\r']) = parseTrustedMacList macs s := by
  obtain ⟨init, h, h'⟩ := splitOn_cr s
  unfold parseTrustedMacList
  rw [h, h', addTrustedMacs_cr]

/-! ## Popular servers -/

theorem popularServer_cr (piece : Text) : popularServer (piece ++ ['\r']) =
    some ((piece.dropWhile isBlank ++ ['\r']).takeWhile (!isBlank ·)) := by
  unfold popularServer
  rw [dropWhile_concat (by decide)]
  simp

/-- The last server of a list is the same just when a blank follows its name. -/
theorem popularServer_cr_iff (piece : Text) :
    popularServer (piece ++ ['\r']) = popularServer piece ↔
      ∃ c ∈ piece.dropWhile isBlank, isBlank c = true := by
  rw [popularServer_cr]
  unfold popularServer
  simp only
  generalize piece.dropWhile isBlank = host
  constructor
  · intro h
    by_contra hnone
    have hall : ∀ t : Text, (∀ c ∈ t, isBlank c = false) → t.takeWhile (!isBlank ·) = t := by
      intro t ht
      rw [List.takeWhile_eq_self_iff]
      intro c hc
      simp [ht c hc]
    have hhost : ∀ c ∈ host, isBlank c = false := by
      intro c hc
      by_contra hb
      exact hnone ⟨c, hc, by simpa using hb⟩
    rw [hall host hhost, hall (host ++ ['\r'])] at h
    · split at h
      · cases h
      · simp at h
    · intro c hc
      rcases List.mem_append.mp hc with hc | hc
      · exact hhost c hc
      · rw [List.mem_singleton.mp hc]
        decide
  · rintro ⟨c, hc, hb⟩
    have hne : host ≠ [] := List.ne_nil_of_mem hc
    have hshort : (host.takeWhile (!isBlank ·)).length ≠ host.length := by
      intro hlen
      have hall := (List.takeWhile_prefix (!isBlank ·)).eq_of_length hlen
      have hnot := List.takeWhile_eq_self_iff.mp hall c hc
      simp [hb] at hnot
    rw [List.takeWhile_append, if_neg hshort, if_neg (by simpa using hne)]

theorem parsePopularServers_cr_iff (servers : List Text) (s : Text) :
    parsePopularServers servers (s ++ ['\r']) = parsePopularServers servers s ↔
      ∃ c ∈ (s.rtakeWhile (· != ',')).dropWhile isBlank, isBlank c = true := by
  obtain ⟨init, h, h'⟩ := splitOn_cr s
  rw [← popularServer_cr_iff]
  unfold parsePopularServers
  rw [h, h']
  cases hlast : popularServer (s.rtakeWhile (· != ',')) <;>
    simp [popularServer_cr, hlast]

/-! ## The line -/

theorem cutAt_hit {c : Char} {a : Text} (h : c ∉ a) (b : Text) :
    cutAt c (a ++ c :: b) = some (a, b) := by
  have hall : ∀ d ∈ a, (d != c) = true := by
    intro d hd
    simpa using ne_of_mem_of_not_mem hd h
  unfold cutAt
  rw [List.dropWhile_append_of_pos hall, List.takeWhile_append_of_pos hall]
  simp

theorem cutAt_miss {c : Char} {s : Text} (h : c ∉ s) : cutAt c s = none := by
  have hall : s.dropWhile (· != c) = [] := by
    rw [List.dropWhile_eq_nil_iff]
    intro d hd
    simpa using ne_of_mem_of_not_mem hd h
  unfold cutAt
  rw [hall]

/-- The CR stays behind the cut. -/
theorem cutAt_cr {c : Char} (hc : c ≠ '\r') (s : Text) :
    cutAt c (s ++ ['\r']) = (cutAt c s).map fun p => (p.1, p.2 ++ ['\r']) := by
  by_cases hs : c ∈ s
  · obtain ⟨a, b, rfl, ha⟩ := List.eq_append_cons_of_mem hs
    rw [List.append_assoc, List.cons_append, cutAt_hit ha, cutAt_hit ha]
    rfl
  · rw [cutAt_miss hs, cutAt_miss (by simp [hs, hc])]
    rfl

theorem keyAndArgument_cr (s : Text) :
    keyAndArgument (s ++ ['\r']) = (keyAndArgument s).map fun p => (p.1, p.2 ++ ['\r']) := by
  unfold keyAndArgument
  rw [cutAt_cr (by decide), cutAt_cr (by decide)]
  cases cutAt ' ' s <;> rfl

/-- What follows the key is part of the line. -/
theorem keyAndArgument_suffix {s key arg : Text} (h : keyAndArgument s = some (key, arg)) :
    arg <:+ s := by
  have hcut : ∀ c, cutAt c s = some (key, arg) → arg <:+ s := by
    intro c hc
    unfold cutAt at hc
    cases hd : s.dropWhile (· != c) with
    | nil => simp [hd] at hc
    | cons d rest =>
      simp only [hd, Option.some.injEq, Prod.mk.injEq] at hc
      rw [← hc.2]
      exact (List.suffix_cons d rest).trans (hd ▸ List.dropWhile_suffix _)
  rcases Option.or_eq_some_iff.mp h with h | ⟨_, h⟩
  · exact hcut _ h
  · exact hcut _ h

theorem cutArgument_eq {p : Text} (h : '\n' ∉ p) : cutArgument p = p.takeWhile (· != ' ') := by
  unfold cutArgument
  by_cases hp : ' ' ∈ p
  · obtain ⟨a, b, rfl, ha⟩ := List.eq_append_cons_of_mem hp
    have hall : ∀ d ∈ a, (d != ' ') = true := by
      intro d hd
      simpa using ne_of_mem_of_not_mem hd ha
    rw [cutAt_hit ha, List.takeWhile_append_of_pos hall]
    simp
  · have hfind : strstr p "\r\n".toList = none := by
      rw [Option.eq_none_iff_forall_ne_some]
      intro i hi
      obtain ⟨rest, hrest⟩ := (strstr_eq_some_iff.mp hi).1
      refine h (List.mem_of_mem_drop (i := i) ?_)
      rw [← hrest]
      simp
    have hall : p.takeWhile (· != ' ') = p := by
      rw [List.takeWhile_eq_self_iff]
      intro d hd
      simpa using ne_of_mem_of_not_mem hd hp
    rw [cutAt_miss hp, hfind, cutAt_miss h, hall]

/-- An option at top level, with the argument as it stands in the line. -/
def configArgument (cfg : FileConfig) (op : OpCode) (rawarg : Text) : Option Reader :=
  if rawarg.takeWhile (· != ' ') = [] then some ⟨cfg, .top⟩
  else configOption cfg op (rawarg.takeWhile (· != ' ')) rawarg

theorem configText_eq (cfg : FileConfig) {s : Text} (h : '\n' ∉ s) : configText cfg s =
    match keyAndArgument s with
    | none => some ⟨cfg, .top⟩
    | some (key, arg) =>
      if key.head? = some '#' then some ⟨cfg, .top⟩
      else configArgument cfg (configParseToken key) (arg.dropWhile (· == ' ')) := by
  unfold configText
  cases hkey : keyAndArgument s with
  | none => rfl
  | some p =>
    obtain ⟨key, arg⟩ := p
    have hn : '\n' ∉ arg.dropWhile (· == ' ') := fun hmem =>
      h ((keyAndArgument_suffix hkey).subset ((List.dropWhile_suffix _).subset hmem))
    simp only [cutArgument_eq hn, configArgument]
    by_cases hhead : key.head? = some '#'
    · rw [if_pos hhead, if_pos hhead, ite_self]
    · rw [if_neg hhead, if_neg hhead]

/-! ## Arguments that a carriage return does not change -/

/-- The argument `rawarg` of the option means the same with a CR behind it. -/
def ArgumentSafe (op : OpCode) (rawarg : Text) : Prop :=
  match op with
  | .gatewayPort | .httpdMaxConn | .checkInterval | .clientTimeout | .syslogFacility | .proxyPort
  | .trustedMACList => True
  | .popularServers => ∃ c ∈ (rawarg.rtakeWhile (· != ',')).dropWhile isBlank, isBlank c = true
  | .daemon => ' ' ∈ rawarg ∨ parseBooleanValue rawarg = -1
  | .deltaTraffic | .sslPeerVerification | .sslUseSNI =>
    ' ' ∈ rawarg ∨ rawarg ≠ [] ∧ parseBooleanValue rawarg = -1
  | .externalInterface | .gatewayID | .gatewayInterface | .gatewayAddress | .httpdName
  | .httpdRealm | .httpdUsername | .httpdPassword | .wdctlSocket | .htmlMessageFile | .sslCertPath
  | .sslAllowedCipherList | .firewallRuleSet => ' ' ∈ rawarg
  | _ => rawarg ≠ []

section Argument

variable {cfg : FileConfig} {op : OpCode} {rawarg : Text}

theorem configOption_rawarg (hop : op ≠ .popularServers) (p1 a b : Text) :
    configOption cfg op p1 a = configOption cfg op p1 b := by
  cases op with
  | popularServers => exact absurd rfl hop
  | _ => rfl

/-- Behind a space nothing is read, but by the list of popular servers. -/
theorem configArgument_space (hop : op ≠ .popularServers) (hspace : ' ' ∈ rawarg) :
    configArgument cfg op (rawarg ++ ['\r']) = configArgument cfg op rawarg := by
  obtain ⟨a, b, rfl, ha⟩ := List.eq_append_cons_of_mem hspace
  have htake : ∀ t : Text, (a ++ ' ' :: t).takeWhile (· != ' ') = a := by
    intro t
    rw [List.takeWhile_append_of_pos, List.takeWhile_cons_of_neg (by simp), List.append_nil]
    intro d hd
    simpa using ne_of_mem_of_not_mem hd ha
  unfold configArgument
  rw [List.append_assoc, List.cons_append, htake, htake,
    configOption_rawarg hop a _ (a ++ ' ' :: b)]

theorem configArgument_word (hspace : ' ' ∉ rawarg) : configArgument cfg op rawarg =
    if rawarg = [] then some ⟨cfg, .top⟩ else configOption cfg op rawarg rawarg := by
  have hall : rawarg.takeWhile (· != ' ') = rawarg := by
    rw [List.takeWhile_eq_self_iff]
    intro d hd
    simpa using ne_of_mem_of_not_mem hd hspace
  unfold configArgument
  rw [hall]

theorem configArgument_word_cr (hspace : ' ' ∉ rawarg) :
    configArgument cfg op (rawarg ++ ['\r']) =
      configOption cfg op (rawarg ++ ['\r']) (rawarg ++ ['\r']) := by
  rw [configArgument_word (by simpa using hspace), if_neg (by simp)]

theorem configArgument_popular (hne : rawarg ≠ []) (hhead : ∀ c ∈ rawarg.head?, c ≠ ' ') :
    configArgument cfg .popularServers rawarg = some ⟨{ cfg with
      popularServers := parsePopularServers cfg.popularServers rawarg }, .top⟩ := by
  unfold configArgument
  rw [if_neg]
  · rfl
  · obtain ⟨c, t, rfl⟩ := List.exists_cons_of_ne_nil hne
    have hc : (c != ' ') = true := by simpa using hhead c rfl
    simp [hc]

theorem configArgument_same (hhead : ∀ c ∈ rawarg.head?, c ≠ ' ') (hsafe : ArgumentSafe op rawarg)
    {r : Reader} (h : configArgument cfg op rawarg = some r) :
    configArgument cfg op (rawarg ++ ['\r']) = some r := by
  by_cases hop : op = .popularServers
  · subst hop
    have hsame := (parsePopularServers_cr_iff cfg.popularServers rawarg).mpr hsafe
    have hne : rawarg ≠ [] := by
      rintro rfl
      simp [ArgumentSafe, List.rtakeWhile] at hsafe
    have hhead' : ∀ c ∈ (rawarg ++ ['\r']).head?, c ≠ ' ' := by
      obtain ⟨c, t, rfl⟩ := List.exists_cons_of_ne_nil hne
      simpa using hhead
    rw [configArgument_popular hne hhead] at h
    rw [configArgument_popular (by simp) hhead', hsame, h]
  · by_cases hspace : ' ' ∈ rawarg
    · rwa [configArgument_space hop hspace]
    · rw [configArgument_word hspace] at h
      rw [configArgument_word_cr hspace]
      by_cases hne : rawarg = []
      · subst hne
        have hnumber : ∀ old, scanNumber ([] ++ ['\r']) old = old := fun old => scanNumber_cr [] old
        have hmacs : ∀ macs, parseTrustedMacList macs ([] ++ ['\r']) = macs :=
          fun macs => parseTrustedMacList_cr macs []
        have hbool : parseBooleanValue ([] ++ ['\r']) = -1 := parseBooleanValue_cr []
        rw [if_pos rfl] at h
        cases op <;>
          simp_all [ArgumentSafe, configOption]
      · rw [if_neg hne] at h
        cases op <;>
          simp_all [ArgumentSafe, configOption, scanNumber_cr, parseTrustedMacList_cr,
            parseBooleanValue_cr]

/-! ## The other arguments are seen -/

theorem close_top {cfg : FileConfig} (h : cfg.httpdpassword.isSome) :
    Reader.close ⟨cfg, .top⟩ = some cfg := by
  obtain ⟨password, h⟩ := Option.isSome_iff_exists.mp h
  simp [Reader.close, h]

/-- Where no block begins, the configurations differ when the file ends. -/
theorem configArgument_seen (hblock : op ≠ .authServer ∧ op ≠ .firewallRuleSet)
    (hhead : ∀ c ∈ rawarg.head?, c ≠ ' ') (hdanger : ¬ ArgumentSafe op rawarg) :
    ∃ out, (configArgument passwordOnly op rawarg).bind Reader.close = some out ∧
      (configArgument passwordOnly op (rawarg ++ ['\r'])).bind Reader.close ≠ some out := by
  by_cases hop : op = .popularServers
  · subst hop
    have hcr : ∀ c ∈ (rawarg ++ ['\r']).head?, c ≠ ' ' := by
      cases rawarg with
      | nil => decide
      | cons c t => simpa using hhead
    have hread : configArgument passwordOnly .popularServers rawarg = some ⟨{ passwordOnly with
        popularServers := parsePopularServers passwordOnly.popularServers rawarg }, .top⟩ := by
      by_cases hne : rawarg = []
      · rw [hne]
        rfl
      · exact configArgument_popular hne hhead
    rw [hread, configArgument_popular (by simp) hcr, Option.bind_some, Option.bind_some]
    refine ⟨_, close_top rfl, ?_⟩
    rw [close_top rfl, ne_eq, Option.some.injEq]
    intro hsame
    have hservers := congrArg FileConfig.popularServers hsame
    exact hdanger ((parsePopularServers_cr_iff passwordOnly.popularServers rawarg).mp hservers)
  · have hspace : ' ' ∉ rawarg := by
      intro hmem
      have hne : rawarg ≠ [] := List.ne_nil_of_mem hmem
      cases op <;> simp_all [ArgumentSafe]
    rw [configArgument_word hspace, configArgument_word_cr hspace]
    by_cases hne : rawarg = []
    · subst hne
      have hbool : parseBooleanValue ([] ++ ['\r']) = -1 := parseBooleanValue_cr []
      have hempty : parseBooleanValue [] = -1 := by decide
      rw [if_pos rfl]
      cases op <;>
        simp_all [ArgumentSafe, configOption, Reader.close, passwordOnly, configInit]
    · rw [if_neg hne]
      rcases parseBooleanValue_cases rawarg with hb | hb | hb <;> cases op <;>
        simp_all [ArgumentSafe, configOption, Reader.close, passwordOnly, configInit,
          parseBooleanValue_cr]

end Argument

/-- A file of one line. -/
theorem configRead_one {line key arg : Text} (hkey : keyAndArgument line = some (key, arg))
    (hhead : key.head? ≠ some '#') (hspace : ' ' ∉ arg) (hne : arg ≠ []) (hn : '\n' ∉ line)
    (hlen : line.length + 1 < maxBuf) (cfg : FileConfig) :
    configRead cfg (line ++ '\n' :: []) =
      (configOption cfg (configParseToken key) arg arg).bind Reader.close := by
  have hdrop : arg.dropWhile (· == ' ') = arg := by
    obtain ⟨c, t, rfl⟩ := List.exists_cons_of_ne_nil hne
    have hc : c ≠ ' ' := fun hc => hspace (hc ▸ List.mem_cons_self)
    simp [hc]
  have hline : readTo ⟨cfg, .top⟩ (line ++ '\n' :: []) =
      (Reader.step ⟨cfg, .top⟩ (line ++ ['\n'])).bind fun r' => readTo r' [] :=
    readTo_line (r := ⟨cfg, .top⟩) hn hlen []
  rw [configRead_eq, hline, Reader.step_top, configText_eq _ hn, hkey]
  simp only [if_neg hhead, hdrop, configArgument_word hspace, if_neg hne, readTo_nil,
    Option.bind_fun_some]

end Wifidog
