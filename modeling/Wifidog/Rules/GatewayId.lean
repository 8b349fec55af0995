/-
  The interface name in the place of `$ID$`.

  `substituteId id s` is what `iptables_insert_gateway_id` is for: `s` with every `$ID$`, from the
  left to the right, replaced by `id`. The code overwrites the marks with `%1$s`, each time from
  the beginning of the text, and then prints the text as a format string.

  The first half does what it should: a replacement does not change what the marks are
  (`substituteId_replaced`) and takes a `$` away, so the loop ends with all marks replaced
  (`replaceIds_eq`). The second half reads every other `%` of the text as well. Without one it
  prints the literal substitution (`formatOne_substituteId`). With one it never does, if the name
  has no `%` and no `$`: the characters `%` and `$` of text and output do not add up
  (`formatOne_counts`).

  Proved: `gateway_id_literal_iff`.
-/
import Wifidog.Model.CommandLine
import Wifidog.Lib.CScan

namespace Wifidog

open CText

/-- Every mark, from the left to the right, replaced by `id`. -/
def substituteId (id : Text) : Text → Text
  | '$' :: 'I' :: 'D' :: '$' :: s => id ++ substituteId id s
  | c :: s => c :: substituteId id s
  | [] => []

/-! ## Where the marks are -/

theorem substituteId_mark (id s : Text) :
    substituteId id (idMark ++ s) = id ++ substituteId id s := rfl

theorem substituteId_copy {c : Char} {s : Text}
    (h : ∀ t, c = '$' → s = 'I' :: 'D' :: '$' :: t → False) (id : Text) :
    substituteId id (c :: s) = c :: substituteId id s := by
  rw [substituteId]
  exact h

theorem substituteId_cons {c : Char} {s : Text} (h : ¬ idMark <+: c :: s) (id : Text) :
    substituteId id (c :: s) = c :: substituteId id s := by
  apply substituteId_copy
  rintro t rfl rfl
  exact h ⟨t, rfl⟩

/-- A part of the text in which no mark begins stays as it is. -/
theorem substituteId_skip {s : Text} {i : Nat} (h : ∀ j < i, ¬ idMark <+: s.drop j) (id : Text) :
    substituteId id s = s.take i ++ substituteId id (s.drop i) := by
  induction i generalizing s with
  | zero => simp
  | succ i ih =>
    cases s with
    | nil => rfl
    | cons c s =>
      have hhere : ¬ idMark <+: c :: s := h 0 (Nat.succ_pos i)
      have hrest := ih fun j hj => h (j + 1) (by omega)
      rw [substituteId_cons hhere, hrest]
      rfl

theorem substituteId_of_no_mark {s : Text} (h : strstr s idMark = none) (id : Text) :
    substituteId id s = s := by
  have hnone : ∀ j < s.length, ¬ idMark <+: s.drop j := by
    intro j _ hj
    exact strstr_eq_none_iff.mp h (hj.isInfix.trans (List.drop_suffix j s).isInfix)
  rw [substituteId_skip hnone, List.take_length, List.drop_length, substituteId, List.append_nil]

/-- The text around the first mark. -/
theorem exists_first_mark {s : Text} {i : Nat} (h : strstr s idMark = some i) :
    ∃ a b, s = a ++ (idMark ++ b) ∧ a.length = i ∧ s.drop (i + idMark.length) = b ∧
      ∀ j < i, ¬ idMark <+: s.drop j := by
  obtain ⟨⟨b, hb⟩, hfirst⟩ := strstr_eq_some_iff.mp h
  have hi : i ≤ s.length := by
    by_contra hlong
    rw [List.drop_eq_nil_of_le (by omega)] at hb
    cases hb
  refine ⟨s.take i, b, ?_, List.length_take_of_le hi, ?_, hfirst⟩
  · rw [hb, List.take_append_drop]
  · rw [← List.drop_drop, ← hb, List.drop_left]

/-- A text without the separator that begins in front of it ends there. -/
theorem prefix_of_prefix_append_cons {v a b : Text} {c : Char} (h : c ∉ v)
    (hv : v <+: a ++ c :: b) : v <+: a := by
  rcases List.prefix_or_prefix_of_prefix hv (List.prefix_append a (c :: b)) with hshort | hlong
  · exact hshort
  · obtain ⟨w, rfl⟩ := hlong
    cases w with
    | nil => rw [List.append_nil]
    | cons d w =>
      obtain ⟨rfl, _⟩ := List.cons_prefix_cons.mp ((List.prefix_append_right_inj a).mp hv)
      exact absurd (List.mem_append_right a List.mem_cons_self) h

/-- The directive in the place of the first mark is no part of a mark. -/
theorem substituteId_replaced {a b : Text}
    (h : ∀ j < a.length, ¬ idMark <+: (a ++ (idMark ++ b)).drop j) :
    substituteId idDirective (a ++ (idDirective ++ b)) =
      substituteId idDirective (a ++ (idMark ++ b)) := by
  have hnone : ∀ j < a.length, ¬ idMark <+: (a ++ (idDirective ++ b)).drop j := by
    intro j hj hmark
    rw [List.drop_append_of_le_length (Nat.le_of_lt hj)] at hmark
    have hinside : idMark <+: a.drop j := prefix_of_prefix_append_cons (by decide) hmark
    apply h j hj
    rw [List.drop_append_of_le_length (Nat.le_of_lt hj)]
    exact hinside.trans (List.prefix_append _ _)
  have hdirective : substituteId idDirective (idDirective ++ b) =
      idDirective ++ substituteId idDirective b := rfl
  rw [substituteId_skip hnone, substituteId_skip h, List.take_left, List.take_left,
    List.drop_left, List.drop_left, hdirective, substituteId_mark]

/-! ## The loop -/

/-- The loop ends with every mark replaced. Each round takes a `$` away. -/
theorem replaceIds_eq {fuel : Nat} {s : Text} (h : s.count '$' ≤ fuel) :
    replaceIds fuel s = substituteId idDirective s ∧ strstr (replaceIds fuel s) idMark = none := by
  induction fuel generalizing s with
  | zero =>
    have hnone : strstr s idMark = none :=
      strstr_of_not_mem (List.count_eq_zero.mp (Nat.le_zero.mp h)) _
    exact ⟨(substituteId_of_no_mark hnone _).symm, hnone⟩
  | succ fuel ih =>
    rw [replaceIds]
    cases hs : strstr s idMark with
    | none => exact ⟨(substituteId_of_no_mark hs _).symm, hs⟩
    | some i =>
      obtain ⟨a, b, rfl, rfl, hb, hfirst⟩ := exists_first_mark hs
      have hcount : (a ++ (idDirective ++ b)).count '$' ≤ fuel := by
        have hmark : idMark.count '$' = 2 := by decide
        have hdirective : idDirective.count '$' = 1 := by decide
        rw [List.count_append, List.count_append] at h ⊢
        omega
      simp only
      rw [List.take_left, hb, List.append_assoc, ← substituteId_replaced hfirst]
      exact ih hcount

/-! ## The second pass -/

/-- Without a `%` the second pass prints the literal substitution. -/
theorem formatOne_substituteId {s : Text} (h : '%' ∉ s) (id : Text) :
    formatOne id (substituteId idDirective s) = some (substituteId id s) := by
  induction s using substituteId.induct with
  | case1 s ih =>
    have hs : '%' ∉ s := fun hmem => h (List.mem_append_right idMark hmem)
    change formatOne id (idDirective ++ substituteId idDirective s) =
      some (id ++ substituteId id s)
    rw [formatOne_directive, ih hs]
    rfl
  | case2 c s hmark ih =>
    simp only [List.mem_cons, not_or] at h
    rw [substituteId_copy hmark, substituteId_copy hmark, formatOne_cons (Ne.symm h.1), ih h.2]
    rfl
  | case3 => rfl

theorem directive_cases {id s printed : Text} {len : Nat}
    (h : directive id s = some (printed, len)) :
    (∃ rest, s = '%' :: rest ∧ printed = ['%'] ∧ len = 1) ∨
      ∃ spec rest, s = '1' :: '$' :: (spec ++ 's' :: rest) ∧ (∀ c ∈ spec, isSpecChar c = true) ∧
        len = spec.length + 3 ∧ formatString id spec = some printed := by
  unfold directive at h
  split at h
  · next rest =>
    simp only [Option.some.injEq, Prod.mk.injEq] at h
    exact Or.inl ⟨rest, rfl, h.1.symm, h.2.symm⟩
  · next s =>
    obtain ⟨hs, h⟩ := Option.ite_none_right_eq_some.mp h
    obtain ⟨text, htext, heq⟩ := Option.map_eq_some_iff.mp h
    obtain ⟨rfl, rfl⟩ := Prod.mk.inj heq
    have hsplit := List.takeWhile_append_dropWhile (p := isSpecChar) (l := s)
    have hlast : (s.dropWhile isSpecChar).head? = some 's' := by
      rw [← hs]
      conv_rhs => rw [← hsplit]
      rw [List.getElem?_append_right (by simp)]
      simp [List.head?_eq_getElem?]
    obtain ⟨rest, hrest⟩ := List.head?_eq_some_iff.mp hlast
    refine Or.inr ⟨s.takeWhile isSpecChar, rest, ?_, ?_, rfl, htext⟩
    · rw [← hrest, hsplit]
    · exact fun c hc => List.mem_takeWhile_imp hc
  · cases h

/-- A string directive prints characters of its argument, and blanks. -/
theorem mem_of_formatString {id spec printed : Text} {c : Char}
    (h : formatString id spec = some printed) (hc : c ∈ printed) : c = ' ' ∨ c ∈ id := by
  have hfield : ∀ {left : Bool} {width : Nat} {shown : Text}, c ∈ padField left width shown →
      (∀ x ∈ shown, x ∈ id) → c = ' ' ∨ c ∈ id := by
    intro left width shown hmem hshown
    unfold padField at hmem
    split at hmem <;> rcases List.mem_append.mp hmem with hmem | hmem
    · exact Or.inr (hshown c hmem)
    · exact Or.inl (List.eq_of_mem_replicate hmem)
    · exact Or.inl (List.eq_of_mem_replicate hmem)
    · exact Or.inr (hshown c hmem)
  unfold formatString at h
  simp only at h
  split at h
  · cases h
  · split at h
    · cases h
      exact hfield hc fun x hx => hx
    · split at h
      · cases h
        exact hfield hc fun x hx => List.mem_of_mem_take hx
      · cases h
    · cases h

/-- A directive `%%` prints one of its two `%`; any other goes away with its `%` and its `$`. -/
theorem directive_counts {id s printed : Text} {len : Nat} (hpercent : '%' ∉ id)
    (hdollar : '$' ∉ id) (h : directive id s = some (printed, len)) :
    ∃ a b, (s.take len).count '%' + 1 = 2 * a + b ∧ printed.count '%' = a ∧
      printed.count '$' + b = (s.take len).count '$' := by
  rcases directive_cases h with ⟨rest, rfl, rfl, rfl⟩ | ⟨spec, rest, rfl, hspec, rfl, hprinted⟩
  · exact ⟨1, 0, by simp, by simp, by simp⟩
  · have htake : ('1' :: '$' :: (spec ++ 's' :: rest)).take (spec.length + 3) =
        '1' :: '$' :: (spec ++ ['s']) := by
      simp [List.take_append]
    have hspec' : ∀ x, isSpecChar x = false → spec.count x = 0 := by
      intro x hx
      refine List.count_eq_zero.mpr fun hmem => ?_
      rw [hspec x hmem] at hx
      cases hx
    have hprinted' : ∀ x, x ≠ ' ' → x ∉ id → printed.count x = 0 := by
      intro x hx hid
      refine List.count_eq_zero.mpr fun hmem => ?_
      rcases mem_of_formatString hprinted hmem with rfl | hmem
      · exact hx rfl
      · exact hid hmem
    refine ⟨0, 1, ?_, hprinted' '%' (by decide) hpercent, ?_⟩
    · simp [htake, hspec' '%' (by decide)]
    · simp [htake, hspec' '$' (by decide), hprinted' '$' (by decide) hdollar]

/-- What the second pass does to the characters `%` and `$`: it meets `a` directives `%%` and `b`
    others. -/
theorem formatOne_counts {id r out : Text} (hpercent : '%' ∉ id) (hdollar : '$' ∉ id)
    (h : formatOne id r = some out) :
    ∃ a b, r.count '%' = 2 * a + b ∧ out.count '%' = a ∧ out.count '$' + b = r.count '$' := by
  induction hn : r.length using Nat.strong_induction_on generalizing r out with
  | _ n ih =>
  cases r with
  | nil =>
    cases h
    exact ⟨0, 0, rfl, rfl, rfl⟩
  | cons c s =>
    rw [List.length_cons] at hn
    by_cases hc : c = '%'
    · subst hc
      rw [formatOne_percent] at h
      obtain ⟨⟨printed, len⟩, hprinted, h⟩ := Option.bind_eq_some_iff.mp h
      obtain ⟨out', hout, rfl⟩ := Option.map_eq_some_iff.mp h
      have hshort : (s.drop len).length < n := by
        rw [List.length_drop]
        omega
      obtain ⟨a, b, h1, h2, h3⟩ := directive_counts hpercent hdollar hprinted
      obtain ⟨a', b', h1', h2', h3'⟩ := ih _ hshort hout rfl
      have hsplit : ∀ x, s.count x = (s.take len).count x + (s.drop len).count x := by
        intro x
        rw [← List.count_append, List.take_append_drop]
      have hp := hsplit '%'
      have hd := hsplit '$'
      refine ⟨a + a', b + b', ?_, ?_, ?_⟩
      · rw [List.count_cons_self]
        omega
      · rw [List.count_append, h2, h2']
      · rw [List.count_append, List.count_cons_of_ne (by decide)]
        omega
    · rw [formatOne_cons hc] at h
      obtain ⟨out', hout, rfl⟩ := Option.map_eq_some_iff.mp h
      obtain ⟨a, b, h1, h2, h3⟩ := ih s.length (by omega) hout rfl
      refine ⟨a, b, ?_, ?_, ?_⟩
      · rw [List.count_cons_of_ne hc, h1]
      · rw [List.count_cons_of_ne hc, h2]
      · rw [List.count_cons, List.count_cons]
        omega

/-- How often a character is in the text after the substitution, with `m` marks in the text. -/
theorem exists_marks (s : Text) :
    ∃ m, ∀ id c, (substituteId id s).count c + m * idMark.count c = s.count c + m * id.count c := by
  induction s using substituteId.induct with
  | case1 s ih =>
    obtain ⟨m, hm⟩ := ih
    refine ⟨m + 1, fun id c => ?_⟩
    have hrest := hm id c
    change (id ++ substituteId id s).count c + (m + 1) * idMark.count c =
      (idMark ++ s).count c + (m + 1) * id.count c
    rw [List.count_append, List.count_append, Nat.add_mul, Nat.add_mul]
    omega
  | case2 c s hmark ih =>
    obtain ⟨m, hm⟩ := ih
    refine ⟨m, fun id x => ?_⟩
    have hrest := hm id x
    rw [substituteId_copy hmark, List.count_cons, List.count_cons]
    omega
  | case3 => exact ⟨0, fun id c => by simp [substituteId]⟩

/-- With a `%` in the text, the second pass does not print the literal substitution. -/
theorem formatOne_ne_substituteId {id s : Text} (hpercent : '%' ∉ id) (hdollar : '$' ∉ id)
    (hs : '%' ∈ s) : formatOne id (substituteId idDirective s) ≠ some (substituteId id s) := by
  intro h
  obtain ⟨a, b, h1, h2, h3⟩ := formatOne_counts hpercent hdollar h
  obtain ⟨m, hm⟩ := exists_marks s
  have hpos : 0 < s.count '%' := List.count_pos_iff.mpr hs
  have hid : id.count '%' = 0 ∧ id.count '$' = 0 :=
    ⟨List.count_eq_zero.mpr hpercent, List.count_eq_zero.mpr hdollar⟩
  have hmark : idMark.count '%' = 0 ∧ idMark.count '$' = 2 := by decide
  have hdirective : idDirective.count '%' = 1 ∧ idDirective.count '$' = 1 := by decide
  have e1 := hm idDirective '%'
  have e2 := hm idDirective '$'
  have e3 := hm id '%'
  have e4 := hm id '$'
  rw [hmark.1] at e1 e3
  rw [hmark.2] at e2 e4
  rw [hdirective.1] at e1
  rw [hdirective.2] at e2
  rw [hid.1] at e3
  rw [hid.2] at e4
  omega

/-! ## The substitution -/

/-- The chain names of `fw_iptables.h`. -/
def chainConstants : List Chain := [.outgoing, .toInternet, .toRouter, .incoming, .authservers,
  .global, .validate, .known, .unknown, .locked, .trusted, .authIsDown]

/-- The code substitutes literally, the loop ends, and the names of the chains are short enough for
    `iptables`. -/
structure LiteralIn (cfg : Config) (s : Text) : Prop where
  text : iptablesInsertGatewayId cfg s = some (substituteId cfg.chainId s)
  ends : strstr (replaceIds s.length s) idMark = none
  names : ∀ c ∈ chainConstants, ∃ name, iptablesInsertGatewayId cfg c.text = some name ∧
    name = substituteId cfg.chainId c.text ∧ name.length ≤ 28

/-- The text has no mark, or no `%`. -/
def PlainForId (s : Text) : Prop := ¬ idMark <:+: s ∨ '%' ∉ s

theorem iptablesInsertGatewayId_of_mark (cfg : Config) {s : Text} (h : idMark <:+: s) :
    iptablesInsertGatewayId cfg s = formatOne cfg.chainId (substituteId idDirective s) := by
  have hfound : ¬ (strstr s idMark).isNone := by
    rw [Option.isNone_iff_eq_none, strstr_eq_none_iff]
    exact not_not_intro h
  unfold iptablesInsertGatewayId
  rw [if_neg hfound, (replaceIds_eq List.count_le_length).1]

theorem iptablesInsertGatewayId_plain (cfg : Config) {s : Text} (h : PlainForId s) :
    iptablesInsertGatewayId cfg s = some (substituteId cfg.chainId s) := by
  by_cases hmark : idMark <:+: s
  · have hpercent : '%' ∉ s := h.resolve_left (not_not_intro hmark)
    rw [iptablesInsertGatewayId_of_mark cfg hmark, formatOne_substituteId hpercent]
  · have hnone := strstr_eq_none_iff.mpr hmark
    unfold iptablesInsertGatewayId
    rw [if_pos (Option.isNone_iff_eq_none.mpr hnone), substituteId_of_no_mark hnone]

theorem length_chainId_le (cfg : Config) : cfg.chainId.length ≤ 15 := List.length_take_le _ _

/-- The fixed part of a chain name has at most 13 characters. -/
theorem chain_name_fits (cfg : Config) {c : Chain} (h : c ∈ chainConstants) :
    (substituteId cfg.chainId c.text).length ≤ 28 := by
  have hid := length_chainId_le cfg
  have hfixed : ∀ c ∈ chainConstants, ∃ rest, c.text = "WD_".toList ++ (idMark ++ rest) ∧
      '$' ∉ rest ∧ rest.length ≤ 10 := by
    simp only [chainConstants, List.forall_mem_cons]
    exact ⟨⟨"_Outgoing".toList, by decide⟩, ⟨"_Internet".toList, by decide⟩,
      ⟨"_Router".toList, by decide⟩, ⟨"_Incoming".toList, by decide⟩,
      ⟨"_AuthServs".toList, by decide⟩, ⟨"_Global".toList, by decide⟩,
      ⟨"_Validate".toList, by decide⟩, ⟨"_Known".toList, by decide⟩,
      ⟨"_Unknown".toList, by decide⟩, ⟨"_Locked".toList, by decide⟩,
      ⟨"_Trusted".toList, by decide⟩, ⟨"_AuthDown".toList, by decide⟩, by simp⟩
  obtain ⟨rest, htext, hdollar, hrest⟩ := hfixed c h
  have hname : substituteId cfg.chainId c.text = "WD_".toList ++ (cfg.chainId ++ rest) := by
    rw [htext]
    change "WD_".toList ++ substituteId cfg.chainId (idMark ++ rest) = _
    rw [substituteId_mark, substituteId_of_no_mark (strstr_of_not_mem hdollar _)]
  have hwd : "WD_".toList.length = 3 := by decide
  rw [hname, List.length_append, List.length_append]
  omega

theorem literalIn_of_plain (cfg : Config) {s : Text} (h : PlainForId s) : LiteralIn cfg s := by
  refine ⟨iptablesInsertGatewayId_plain cfg h, (replaceIds_eq List.count_le_length).2, ?_⟩
  intro c hc
  have hplain : ∀ c ∈ chainConstants, '%' ∉ c.text := by decide
  exact ⟨_, iptablesInsertGatewayId_plain cfg (Or.inr (hplain c hc)), rfl, chain_name_fits cfg hc⟩

theorem plain_of_literal {cfg : Config} {s : Text} (hpercent : '%' ∉ cfg.chainId)
    (hdollar : '$' ∉ cfg.chainId)
    (h : iptablesInsertGatewayId cfg s = some (substituteId cfg.chainId s)) : PlainForId s := by
  by_contra hplain
  obtain ⟨hmark, hs⟩ := not_or.mp hplain
  rw [not_not] at hmark hs
  rw [iptablesInsertGatewayId_of_mark cfg hmark] at h
  exact formatOne_ne_substituteId hpercent hdollar hs h

/-- The texts that every interface name is put into literally are those without a mark or without
    `%`. For one name they are the same texts, if the name itself has no `%` and no `$`. -/
theorem gateway_id_literal_iff (s : Text) :
    ((∀ cfg, LiteralIn cfg s) ↔ PlainForId s) ∧
      ∀ cfg : Config, '%' ∉ cfg.chainId → '$' ∉ cfg.chainId →
        (LiteralIn cfg s ↔ PlainForId s) := by
  have hname : ∀ cfg : Config, '%' ∉ cfg.chainId → '$' ∉ cfg.chainId →
      (LiteralIn cfg s ↔ PlainForId s) := by
    intro cfg hpercent hdollar
    constructor
    · intro h
      exact plain_of_literal hpercent hdollar h.text
    · exact literalIn_of_plain cfg
  refine ⟨⟨fun h => ?_, fun h cfg => literalIn_of_plain cfg h⟩, hname⟩
  exact (hname smallConfig (by decide) (by decide)).mp (h smallConfig)

/-- A command line of the global ruleset. -/
theorem gateway_id_literal_br0 :
    LiteralIn smallConfig "iptables -t nat -A WD_$ID$_Global -d 10.0.0.9 -j ACCEPT".toList :=
  ((gateway_id_literal_iff _).2 smallConfig (by decide) (by decide)).mpr (Or.inr (by decide))

/-- Two `%` in the text become one. -/
theorem percent_not_kept :
    iptablesInsertGatewayId smallConfig
        "iptables -t nat -A WD_$ID$_Global -d a%%b -j ACCEPT".toList =
      some "iptables -t nat -A WD_br0_Global -d a%b -j ACCEPT".toList ∧
    ¬ LiteralIn smallConfig "iptables -t nat -A WD_$ID$_Global -d a%%b -j ACCEPT".toList := by
  have hcode : iptablesInsertGatewayId smallConfig
      "iptables -t nat -A WD_$ID$_Global -d a%%b -j ACCEPT".toList =
        some "iptables -t nat -A WD_br0_Global -d a%b -j ACCEPT".toList := by
    decide +kernel
  refine ⟨hcode, fun h => ?_⟩
  have hliteral := h.text
  rw [hcode] at hliteral
  exact absurd hliteral (by decide +kernel)

end Wifidog
