/-
  Deleting every rule that mentions a word, by number.

  A rule is found by its line in the listing, and the word is looked for in the whole line. When a
  rule is deleted, the rules behind it move up and their lines begin with other numbers, so that a
  word with digits in it may be found in a line that did not have it, or no longer be found. What
  the calls leave is `Renumber.sieve`: every rule is tested under the number that it has once the
  rules before it are tested (`destroyMentionText_deletes`). It is what the first listing promises
  if and only if no rule is tested otherwise under its new number (`StableMentions`).

  `%9[0-9]` takes nine digits of the number. A longer number is cut and another rule is deleted, so
  the condition asks for shorter ones where the word is found.

  Proved: `destroy_mention_filters_iff`, and `destroyMentionText_refines`, which connects the calls
  with the deletion of rules in `Model.Counters`.
-/
import Wifidog.Model.Listing
import Wifidog.Model.Mention
import Wifidog.Rules.GatewayId

namespace Wifidog

open CText Netfilter Renumber

/-! ## The listing -/

/-- A line of the listing: the number, the rest, the line end, and it fits the buffer. -/
structure ListedLine (num : Nat) (text : Text) : Prop where
  shape : ∃ rest, text = dec num ++ (rest ++ ['\n']) ∧ '\n' ∉ rest ∧
    ∀ c ∈ rest.head?, c.isDigit = false
  fits : text.length < maxBuf

/-- The lines of the rules, numbered from `n` on. -/
def listed (line : Nat → Rule Chain → Text) : Nat → List (Rule Chain) → Text
  | _, [] => []
  | n, r :: rs => line n r ++ listed line (n + 1) rs

/-- `iptables -L` prints two lines and then a line for each rule. -/
structure ListsChain (list : Tables Chain → Table → Chain → Text)
    (line : Nat → Rule Chain → Text) (table : Table) (chain : Chain) (rs : List (Rule Chain)) :
    Prop where
  printed : ∀ t rs', t.view table chain = some rs' → rs'.Sublist rs →
    ∃ head1 head2, '\n' ∉ head1 ∧ '\n' ∉ head2 ∧
      list t table chain = head1 ++ '\n' :: (head2 ++ '\n' :: listed line 1 rs')
  line : ∀ r ∈ rs, ∀ num, 1 ≤ num → num ≤ rs.length → ListedLine num (line num r)

/-- The line of the rule has the word when the rule's number is `num`. -/
def mentioned (line : Nat → Rule Chain → Text) (victim : Text) (num : Nat) (r : Rule Chain) :
    Bool := (strstr (line num r) victim).isSome

section Calls
variable {list : Tables Chain → Table → Chain → Text} {line : Nat → Rule Chain → Text}
  {table : Table} {chain : Chain} {rs : List (Rule Chain)} {cfg : Config}
  {mention victim : Text} {t : Tables Chain}

theorem ListsChain.sublist (h : ListsChain list line table chain rs) {rs' : List (Rule Chain)}
    (hsub : rs'.Sublist rs) : ListsChain list line table chain rs' := by
  refine ⟨fun t rs'' hview hsub' => h.printed t rs'' hview (hsub'.trans hsub), ?_⟩
  intro r hr num h1 hle
  exact h.line r (hsub.subset hr) num h1 (Nat.le_trans hle hsub.length_le)

theorem skipLine_line {head : Text} (h : '\n' ∉ head) (rest : Text) :
    skipLine (head ++ '\n' :: rest) = rest := by
  have hdrop : (head ++ '\n' :: rest).dropWhile (· != '\n') = '\n' :: rest := by
    rw [List.dropWhile_append_of_pos, List.dropWhile_cons_of_neg (by simp)]
    intro c hc
    simpa using ne_of_mem_of_not_mem hc h
  rw [skipLine, hdrop, List.drop_one, List.tail_cons]

theorem findVictim_eq (victim out : Text) : findVictim victim out =
    match fgets maxBuf out with
    | none => none
    | some (line, rest) =>
      if (strstr line victim).isSome then
        (readRulenum line).orElse fun _ => findVictim victim rest
      else findVictim victim rest := by
  rw [findVictim]
  split
  · rename_i h
    rw [h]
  · rename_i line rest h
    rw [h]

theorem findVictim_nil (victim : Text) : findVictim victim [] = none := by
  rw [findVictim_eq]
  rfl

/-- One line is one round of the loop. -/
theorem findVictim_line {num : Nat} {text : Text} (h : ListedLine num text) (rest : Text) :
    findVictim victim (text ++ rest) =
      if (strstr text victim).isSome then
        (readRulenum text).orElse fun _ => findVictim victim rest
      else findVictim victim rest := by
  obtain ⟨⟨tail, rfl, hline, _⟩, hfits⟩ := h
  have hbody : '\n' ∉ dec num ++ tail := by
    rw [List.mem_append, not_or]
    exact ⟨fun hmem => absurd (isDigit_of_mem_dec hmem) (by decide), hline⟩
  have hlen : (dec num ++ tail).length + 1 < maxBuf := by
    rw [← List.append_assoc, List.length_append, List.length_singleton] at hfits
    exact hfits
  have hshape : dec num ++ (tail ++ ['\n']) ++ rest = (dec num ++ tail) ++ '\n' :: rest := by simp
  rw [findVictim_eq, hshape, fgets_line hbody hlen]
  simp only [List.append_assoc]

/-- The first hit of the loop, up to the digits that are cut. -/
theorem findVictim_listed (victim : Text) {n : Nat} (hn : 1 ≤ n)
    (h : ∀ r ∈ rs, ∀ num, n ≤ num → num < n + rs.length → ListedLine num (line num r)) :
    match hitNumbers (mentioned line victim) n rs with
    | [] => findVictim victim (listed line n rs) = none
    | m :: _ => ∃ num, findVictim victim (listed line n rs) = some num ∧ 1 ≤ num ∧ num ≤ m ∧
        (m < 10 ^ 9 → num = m) := by
  induction rs generalizing n with
  | nil => exact findVictim_nil victim
  | cons r rs ih =>
    rw [List.length_cons] at h
    have hline : ListedLine n (line n r) := h r List.mem_cons_self n (Nat.le_refl n) (by omega)
    rw [hitNumbers, listed, findVictim_line hline, mentioned]
    by_cases hit : (strstr (line n r) victim).isSome
    · obtain ⟨rest, hshape, _, hdigit⟩ := hline.shape
      have hrest : ∀ c ∈ (rest ++ ['\n']).head?, c.isDigit = false := by
        cases rest with
        | nil => simp
        | cons c rest => exact hdigit
      obtain ⟨num, hnum, hbounds⟩ := readRulenum_dec hn hrest
      rw [if_pos hit, if_pos hit]
      refine ⟨num, ?_, hbounds⟩
      rw [hshape, hnum]
      rfl
    · rw [if_neg hit, if_neg hit]
      exact ih (by omega) fun q hq num hle hlt =>
        h q (List.mem_cons_of_mem r hq) num (by omega) (by omega)

theorem findVictim_bounds (hlist : ListsChain list line table chain rs) {num : Nat}
    (h : findVictim victim (listed line 1 rs) = some num) : 1 ≤ num ∧ num ≤ rs.length := by
  have hfind := findVictim_listed victim (Nat.le_refl 1)
    fun r hr num h1 hlt => hlist.line r hr num h1 (by omega)
  cases hhits : hitNumbers (mentioned line victim) 1 rs with
  | nil =>
    rw [hhits, h] at hfind
    cases hfind
  | cons m ms =>
    rw [hhits, h] at hfind
    obtain ⟨num', heq, h1, hle, _⟩ := hfind
    obtain rfl := Option.some.inj heq
    have hm : m < 1 + rs.length := (hitNumbers_bounds (hhits ▸ List.mem_cons_self)).2
    exact ⟨h1, by omega⟩

/-! ## The calls -/

/-- What the calls do to the chain, whatever the numbers that are read. -/
structure Deletes (table : Table) (chain : Chain) (hit : Nat → Rule Chain → Bool)
    (t : Tables Chain) (rs : List (Rule Chain)) (d : Destroyed) : Prop where
  tables : d.tables = t.setRules table chain (d.numbers.foldl (deleteNumber 1) rs)
  length : (d.numbers.foldl (deleteNumber 1) rs).length + d.numbers.length = rs.length
  deleted : d.deleted = if d.numbers = [] then 0 else 1
  numbers : (∀ m ∈ hitNumbers hit 1 rs, m < 10 ^ 9) → d.numbers = hitNumbers hit 1 rs

/-- A call reads the lines of the rules behind the two header lines. -/
theorem ListsChain.entries (h : ListsChain list line table chain rs)
    (hview : t.view table chain = some rs) :
    skipLine (skipLine (list t table chain)) = listed line 1 rs := by
  obtain ⟨head1, head2, h1, h2, hprinted⟩ := h.printed t rs hview (List.Sublist.refl rs)
  rw [hprinted, skipLine_line h1, skipLine_line h2]

theorem destroyMentionText_none (hlist : ListsChain list line table chain rs)
    (hvictim : iptablesInsertGatewayId cfg mention = some victim)
    (hview : t.view table chain = some rs)
    (hfind : findVictim victim (listed line 1 rs) = none) (fuel : Nat) :
    destroyMentionText list cfg table chain mention (fuel + 1) t = some ⟨t, [], 0⟩ := by
  simp only [destroyMentionText, hvictim, Option.bind_some, hlist.entries hview, hfind]

theorem destroyMentionText_some {num : Nat} (hlist : ListsChain list line table chain rs)
    (hvictim : iptablesInsertGatewayId cfg mention = some victim)
    (hview : t.view table chain = some rs)
    (hfind : findVictim victim (listed line 1 rs) = some num) (fuel : Nat) :
    destroyMentionText list cfg table chain mention (fuel + 1) t =
      (destroyMentionText list cfg table chain mention fuel
        (t.exec ⟨table, .deleteAt chain num⟩)).map fun d => ⟨d.tables, num :: d.numbers, 1⟩ := by
  simp only [destroyMentionText, hvictim, Option.bind_some, hlist.entries hview, hfind]

/-- A call that finds nothing. -/
theorem deletes_nothing {hit : Nat → Rule Chain → Bool} (hview : t.view table chain = some rs)
    (hnone : hitNumbers hit 1 rs = []) :
    Deletes table chain hit t rs ⟨t, [], 0⟩ where
  tables := (Tables.setRules_view hview).symm
  length := rfl
  deleted := rfl
  numbers := fun _ => hnone.symm

/-- A call that deletes a rule, and the calls behind it. -/
theorem Deletes.cons {hit : Nat → Rule Chain → Bool} {d : Destroyed} {m num : Nat}
    {ms : List Nat} (hhits : hitNumbers hit 1 rs = m :: ms)
    (hlength : (deleteNumber 1 rs num).length + 1 = rs.length) (hnum : m < 10 ^ 9 → num = m)
    (h : Deletes table chain hit (t.setRules table chain (deleteNumber 1 rs num))
      (deleteNumber 1 rs num) d) :
    Deletes table chain hit t rs ⟨d.tables, num :: d.numbers, 1⟩ where
  tables := by
    rw [h.tables, Tables.setRules_setRules]
    rfl
  length := by
    have hrest := h.length
    rw [List.foldl_cons, List.length_cons]
    omega
  deleted := rfl
  numbers := by
    intro hsmall
    rw [hhits] at hsmall ⊢
    obtain rfl := hnum (hsmall m List.mem_cons_self)
    have hms := hitNumbers_deleteNumber hhits
    rw [h.numbers (by rw [hms]; exact fun x hx => hsmall x (List.mem_cons_of_mem num hx)), hms]

/-- The calls come to an end: each deletes a rule, but the last. -/
theorem destroyMentionText_deletes (hlist : ListsChain list line table chain rs)
    (hvictim : iptablesInsertGatewayId cfg mention = some victim)
    (hview : t.view table chain = some rs) :
    ∃ d, (∀ fuel, rs.length < fuel →
        destroyMentionText list cfg table chain mention fuel t = some d) ∧
      Deletes table chain (mentioned line victim) t rs d := by
  induction hk : rs.length using Nat.strong_induction_on generalizing t rs with
  | _ k ih =>
    have hfind := findVictim_listed victim (Nat.le_refl 1)
      fun r hr num h1 hlt => hlist.line r hr num h1 (by omega)
    cases hhits : hitNumbers (mentioned line victim) 1 rs with
    | nil =>
      rw [hhits] at hfind
      refine ⟨⟨t, [], 0⟩, fun fuel hfuel => ?_, deletes_nothing hview hhits⟩
      obtain ⟨fuel, rfl⟩ := Nat.exists_eq_add_one_of_ne_zero (by omega : fuel ≠ 0)
      exact destroyMentionText_none hlist hvictim hview hfind fuel
    | cons m ms =>
      rw [hhits] at hfind
      obtain ⟨num, hfound, h1, hle, hnum⟩ := hfind
      have hm : m < 1 + rs.length := (hitNumbers_bounds (hhits ▸ List.mem_cons_self)).2
      obtain ⟨hdelete, hview', hsub, hlength⟩ := exec_deleteNumber hview h1 (by omega)
      obtain ⟨d, hruns, hdeletes⟩ := ih _ (by omega) (hlist.sublist hsub) hview' rfl
      refine ⟨_, fun fuel hfuel => ?_, hdeletes.cons hhits hlength hnum⟩
      obtain ⟨fuel, rfl⟩ := Nat.exists_eq_add_one_of_ne_zero (by omega : fuel ≠ 0)
      rw [destroyMentionText_some hlist hvictim hview hfound, hdelete, hruns fuel (by omega),
        Option.map_some]

/-! ## The deletion of rules -/

/-- `Model.Counters` looks for the victim in the line without its end. -/
theorem strstr_line_end {victim : Text} (h : '\n' ∉ victim) (text : Text) :
    (strstr (text ++ ['\n']) victim).isSome = (strstr text victim).isSome := by
  rw [Bool.eq_iff_iff, strstr_isSome_iff, strstr_isSome_iff]
  cases victim with
  | nil => simp
  | cons c victim =>
    rw [infix_append_cons_iff h (List.cons_ne_nil c victim), or_iff_left]
    simp

theorem findVictim_eq_mentionAt {print : Rule Chain → Text} (hvictim : '\n' ∉ victim) {n : Nat}
    (h : ∀ r ∈ rs, ∀ num, n ≤ num → num < n + rs.length →
      ListedLine num (listingLine print num r ++ ['\n'])) :
    findVictim victim (listed (fun num r => listingLine print num r ++ ['\n']) n rs) =
      mentionAt print victim n rs := by
  induction rs generalizing n with
  | nil => exact findVictim_nil victim
  | cons r rs ih =>
    rw [List.length_cons] at h
    have hrest := ih fun q hq num hle hlt =>
      h q (List.mem_cons_of_mem r hq) num (Nat.le_of_succ_le hle) (by omega)
    have hread : readRulenum (listingLine print n r ++ ['\n']) =
        readRulenum (listingLine print n r) := by
      unfold readRulenum listingLine
      rw [List.append_assoc, List.takeWhile_append_of_pos fun c hc => isDigit_of_mem_dec hc,
        List.takeWhile_append_of_pos fun c hc => isDigit_of_mem_dec hc]
      rfl
    rw [listed, findVictim_line (h r List.mem_cons_self n (Nat.le_refl n) (by omega)), hrest,
      strstr_line_end hvictim, hread, mentionAt]

/-- The calls do to the tables what `destroyMention` does, on which the other modules build. -/
theorem destroyMentionText_refines {print : Rule Chain → Text}
    (hlist : ListsChain list (fun num r => listingLine print num r ++ ['\n']) table chain rs)
    (hvictim : iptablesInsertGatewayId cfg mention = some victim) (hend : '\n' ∉ victim)
    (hview : t.view table chain = some rs) {fuel : Nat} (hfuel : rs.length ≤ fuel) :
    (destroyMentionText list cfg table chain mention (fuel + 1) t).map Destroyed.tables =
      some (destroyMention print table chain victim fuel t) := by
  induction fuel generalizing t rs with
  | zero =>
    obtain rfl := List.eq_nil_of_length_eq_zero (Nat.le_zero.mp hfuel)
    rw [destroyMentionText_none hlist hvictim hview (findVictim_nil victim)]
    rfl
  | succ fuel ih =>
    have hfind := findVictim_eq_mentionAt hend
      fun r hr num h1 hlt => hlist.line r hr num h1 (by omega)
    rw [destroyMention, hview, Option.getD_some]
    cases hmention : mentionAt print victim 1 rs with
    | none =>
      rw [destroyMentionText_none hlist hvictim hview (hfind.trans hmention)]
      rfl
    | some num =>
      obtain ⟨h1, hle⟩ := findVictim_bounds hlist (hfind.trans hmention)
      obtain ⟨hdelete, hview', hsub, hlength⟩ := exec_deleteNumber hview h1 hle
      simp only
      rw [destroyMentionText_some hlist hvictim hview (hfind.trans hmention), hdelete,
        ← ih (hlist.sublist hsub) hview' (by omega), Option.map_map]
      rfl

/-! ## What is left -/

/-- The chain is the one of before without the rules that the first listing shows with the word,
    the other chains are as before. -/
structure FiltersMentions (table : Table) (chain : Chain) (hit : Nat → Rule Chain → Bool)
    (t : Tables Chain) (rs : List (Rule Chain)) (d : Destroyed) : Prop where
  removed : d.numbers.foldl (deleteNumber 1) (rs.zipIdx 1) = kept hit 1 rs
  rules : d.tables.view table chain = some ((kept hit 1 rs).map Prod.fst)
  others : ∀ tb ch, ¬ (tb = table ∧ ch = chain) → d.tables.view tb ch = t.view tb ch

/-- The call returns 1 if the chain has lost a rule, and 0 otherwise. -/
def ReturnsRemoved (table : Table) (chain : Chain) (rs : List (Rule Chain)) (d : Destroyed) :
    Prop :=
  ∃ rs', d.tables.view table chain = some rs' ∧ rs'.length ≤ rs.length ∧
    d.deleted = if rs'.length < rs.length then 1 else 0

/-- A rule has the word under its number if and only if it has the word under the number that it
    gets when the rules before it that have the word are gone; and this number has at most nine
    digits. -/
def StableMentions (hit : Nat → Rule Chain → Bool) (rs : List (Rule Chain)) : Prop :=
  Stable hit 1 rs ∧ ∀ pre r post, rs = pre ++ r :: post → hit (1 + pre.length) r = true →
    1 + (kept hit 1 pre).length < 10 ^ 9

section Left
variable {hit : Nat → Rule Chain → Bool} {d : Destroyed}

theorem Deletes.view (h : Deletes table chain hit t rs d) (hview : t.view table chain = some rs)
    (tb : Table) (ch : Chain) : d.tables.view tb ch =
      if tb = table ∧ ch = chain then some (d.numbers.foldl (deleteNumber 1) rs)
      else t.view tb ch := by
  rw [h.tables, Tables.view_setRules hview]

theorem Deletes.returns (h : Deletes table chain hit t rs d)
    (hview : t.view table chain = some rs) : ReturnsRemoved table chain rs d := by
  have hlength := h.length
  refine ⟨_, by rw [h.view hview, if_pos ⟨rfl, rfl⟩], by omega, ?_⟩
  rw [h.deleted]
  cases hnumbers : d.numbers with
  | nil => simp
  | cons m ms =>
    rw [hnumbers, List.length_cons] at hlength
    rw [if_neg (List.cons_ne_nil m ms), if_pos (by omega)]

theorem Deletes.filters_iff (h : Deletes table chain hit t rs d)
    (hview : t.view table chain = some rs) : FiltersMentions table chain hit t rs d ↔
      d.numbers.foldl (deleteNumber 1) (rs.zipIdx 1) = kept hit 1 rs := by
  refine ⟨FiltersMentions.removed, fun hremoved => ⟨hremoved, ?_, ?_⟩⟩
  · rw [h.view hview, if_pos ⟨rfl, rfl⟩, ← hremoved, map_foldl_deleteNumber, List.zipIdx_map_fst]
  · intro tb ch hne
    rw [h.view hview, if_neg hne]

theorem Deletes.filters (h : Deletes table chain hit t rs d)
    (hview : t.view table chain = some rs) (hstable : StableMentions hit rs) :
    FiltersMentions table chain hit t rs d := by
  have hsmall : ∀ m ∈ hitNumbers hit 1 rs, m < 10 ^ 9 := by
    intro m hm
    obtain ⟨pre, r, post, hrs, hr, rfl⟩ := hstable.1.exists_of_mem_hitNumbers hm
    exact hstable.2 pre r post hrs hr
  rw [h.filters_iff hview, h.numbers hsmall]
  exact foldl_hitNumbers_eq_kept_iff.mpr hstable.1

theorem stableMentions_of_few (h : Stable hit 1 rs) (hfew : rs.length < 10 ^ 9) :
    StableMentions hit rs := by
  refine ⟨h, fun pre r post hrs _ => ?_⟩
  have hkept : (kept hit 1 pre).length ≤ pre.length := by
    have := List.length_filter_le (fun p => !hit p.2 p.1) (pre.zipIdx 1)
    rwa [List.length_zipIdx] at this
  rw [hrs, List.length_append, List.length_cons] at hfew
  omega

theorem Deletes.stable (h : Deletes table chain hit t rs d) (hfew : rs.length < 10 ^ 9)
    (hfilters : FiltersMentions table chain hit t rs d) : StableMentions hit rs := by
  have hsmall : ∀ m ∈ hitNumbers hit 1 rs, m < 10 ^ 9 := by
    intro m hm
    have := (hitNumbers_bounds hm).2
    omega
  have hremoved := hfilters.removed
  rw [h.numbers hsmall] at hremoved
  exact stableMentions_of_few (foldl_hitNumbers_eq_kept_iff.mp hremoved) hfew

end Left

/-- The calls always come to an end and return 1 if and only if a rule is gone. They leave exactly
    the rules whose line in the first listing does not have the word if the lines have it or not
    under the later numbers as well, and only then in a chain that can be numbered with nine
    digits. -/
theorem destroy_mention_filters_iff (cfg : Config)
    (hlist : ListsChain list line table chain rs) (hmention : '%' ∉ mention)
    (hview : t.view table chain = some rs) :
    ∃ d, (∀ fuel, rs.length < fuel →
        destroyMentionText list cfg table chain mention fuel t = some d) ∧
      ReturnsRemoved table chain rs d ∧
      (StableMentions (mentioned line (substituteId cfg.chainId mention)) rs →
        FiltersMentions table chain (mentioned line (substituteId cfg.chainId mention)) t rs d) ∧
      (rs.length < 10 ^ 9 →
        FiltersMentions table chain (mentioned line (substituteId cfg.chainId mention)) t rs d →
        StableMentions (mentioned line (substituteId cfg.chainId mention)) rs) := by
  have hvictim := iptablesInsertGatewayId_plain cfg (Or.inr hmention)
  obtain ⟨d, hruns, hdeletes⟩ := destroyMentionText_deletes hlist hvictim hview
  exact ⟨d, hruns, hdeletes.returns hview, hdeletes.filters hview, hdeletes.stable⟩

end Calls

/-! ## A small listing -/

/-- The target behind the number. -/
def targetText (r : Rule Chain) : Text :=
  match r.target with
  | .accept => " ACCEPT".toList
  | .drop => " DROP".toList
  | _ => " RETURN".toList

def targetLine (num : Nat) (r : Rule Chain) : Text := dec num ++ (targetText r ++ ['\n'])

def targetListing (t : Tables Chain) (table : Table) (chain : Chain) : Text :=
  "Chain".toList ++ '\n' :: ("num  target".toList ++ '\n' ::
    listed targetLine 1 ((t.view table chain).getD []))

theorem targetListing_lists (table : Table) (chain : Chain) {rs : List (Rule Chain)}
    (h : rs.length < 10 ^ 9) : ListsChain targetListing targetLine table chain rs := by
  refine ⟨fun t rs' hview _ => ⟨_, _, ?_, ?_, by rw [targetListing, hview, Option.getD_some]⟩, ?_⟩
  · decide
  · decide
  · intro r _ num _ hle
    have hdec : (dec num).length ≤ 9 := length_dec_le (by decide) (by omega)
    have htext : '\n' ∉ targetText r ∧ (∀ c ∈ (targetText r).head?, c.isDigit = false) ∧
        (targetText r).length ≤ 7 := by
      unfold targetText
      split <;> decide
    refine ⟨⟨targetText r, rfl, htext.1, htext.2.1⟩, ?_⟩
    rw [targetLine, List.length_append, List.length_append, List.length_singleton, maxBuf]
    omega

/-- Two rules of the chain `Outgoing`. -/
def acceptDrop : List (Rule Chain) := [⟨[], .accept⟩, ⟨[], .drop⟩]

def acceptDropTables : Tables Chain := ⟨[], [], [(.outgoing, acceptDrop)]⟩

/-- The rule that accepts is deleted, and the other one stays. -/
theorem destroy_mention_filters_accept :
    ∃ d, destroyMentionText targetListing smallConfig .mangle .outgoing "ACCEPT".toList 3
        acceptDropTables = some d ∧
      d.tables.view .mangle .outgoing = some [⟨[], .drop⟩] := by
  have hlist : ListsChain targetListing targetLine .mangle .outgoing acceptDrop :=
    targetListing_lists _ _ (by decide)
  have hview : acceptDropTables.view .mangle .outgoing = some acceptDrop := rfl
  obtain ⟨d, hruns, _, hfilters, _⟩ :=
    destroy_mention_filters_iff smallConfig hlist (show '%' ∉ "ACCEPT".toList by decide) hview
  have hconst : ∀ num r,
      mentioned targetLine (substituteId smallConfig.chainId "ACCEPT".toList) num r =
        (strstr (targetText r ++ ['\n']) "ACCEPT".toList).isSome := by
    intro num r
    have hdigits : 'A' ∉ dec num := fun hmem => absurd (isDigit_of_mem_dec hmem) (by decide)
    have hskip := strstr_skip hdigits "CCEPT".toList (targetText r ++ ['\n'])
    change (strstr (dec num ++ (targetText r ++ ['\n'])) "ACCEPT".toList).isSome = _
    exact (congrArg Option.isSome hskip).trans Option.isSome_map
  have hstable : StableMentions
      (mentioned targetLine (substituteId smallConfig.chainId "ACCEPT".toList)) acceptDrop :=
    stableMentions_of_few (stable_of_const (fun r _ m m' => by rw [hconst, hconst]) 1) (by decide)
  refine ⟨d, hruns 3 (by decide), ?_⟩
  rw [(hfilters hstable).rules]
  decide +kernel

/-- The word `1` is in the line of the first rule only, but when that is deleted the second rule is
    number 1, and it is deleted as well. -/
theorem number_deletes_rule :
    ListsChain targetListing targetLine .mangle .outgoing acceptDrop ∧
    kept (mentioned targetLine (substituteId smallConfig.chainId "1".toList)) 1 acceptDrop =
      [(⟨[], .drop⟩, 2)] ∧
    ∃ d, destroyMentionText targetListing smallConfig .mangle .outgoing "1".toList 3
        acceptDropTables = some d ∧
      d.tables.view .mangle .outgoing = some [] ∧
      ¬ FiltersMentions .mangle .outgoing
        (mentioned targetLine (substituteId smallConfig.chainId "1".toList)) acceptDropTables
        acceptDrop d := by
  have hlist : ListsChain targetListing targetLine .mangle .outgoing acceptDrop :=
    targetListing_lists _ _ (by decide)
  have hview : acceptDropTables.view .mangle .outgoing = some acceptDrop := rfl
  have hvictim : iptablesInsertGatewayId smallConfig "1".toList = some "1".toList := by
    decide +kernel
  have hkept : kept (mentioned targetLine (substituteId smallConfig.chainId "1".toList)) 1
      acceptDrop = [(⟨[], .drop⟩, 2)] := by
    decide +kernel
  have hhits : hitNumbers (mentioned targetLine "1".toList) 1 acceptDrop = [1, 1] := by
    decide +kernel
  obtain ⟨d, hruns, hdeletes⟩ := destroyMentionText_deletes hlist hvictim hview
  have hnumbers : d.numbers = [1, 1] := by
    rw [hdeletes.numbers (by rw [hhits]; decide), hhits]
  have hempty : d.tables.view .mangle .outgoing = some [] := by
    rw [hdeletes.view hview, hnumbers, if_pos ⟨rfl, rfl⟩]
    rfl
  refine ⟨hlist, hkept, d, hruns 3 (by decide), hempty, fun h => ?_⟩
  have hrules := h.rules
  rw [hempty, hkept] at hrules
  cases hrules

end Wifidog
