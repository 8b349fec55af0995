/-
  What deleting by mention takes out of a chain.

  A victim counts as mentioned wherever it stands in the printed line. When that does not depend
  on the number in front (`hit`), and the chain is short enough for `%9[0-9]` to take in every
  number, `iptables_fw_destroy_mention` deletes exactly the rules whose line mentions the victim
  (`iptablesFwDestroyMention_eq`).
-/
import Wifidog.Lib.Renumber
import Wifidog.Lib.Teardown
import Wifidog.Model.Counters

namespace Wifidog

open CText Netfilter Renumber

/-- Every chain has fewer rules than the nine digits of a rule number reach. The kernel takes a
    table as one block of at most 2^32 bytes, of which every rule needs more than a hundred. -/
def FewRules (t : Tables Chain) : Prop :=
  ∀ tb ch rs, t.view tb ch = some rs → rs.length < 10 ^ 9

/-- On given tables it can be checked chain by chain. -/
theorem fewRules_of_chains {t : Tables Chain}
    (h : ∀ tb ∈ [Table.filter, .nat, .mangle], ∀ d ∈ t.chains tb, d.2.length < 10 ^ 9) :
    FewRules t := by
  intro tb ch rs hview
  refine h tb ?_ (ch, rs) (Chains.mem_of_get_eq hview)
  cases tb <;> decide

/-! ## Rule numbers -/

/-- `%9[0-9]` takes the number in front of a line, or its first nine digits. -/
theorem readRulenum_dec {num : Nat} (hnum : 1 ≤ num) {rest : Text}
    (hrest : ∀ c ∈ rest.head?, c.isDigit = false) :
    ∃ m, readRulenum (dec num ++ rest) = some m ∧ 1 ≤ m ∧ m ≤ num ∧ (num < 10 ^ 9 → m = num) := by
  have hdigits : (dec num ++ rest).takeWhile Char.isDigit = dec num := by
    rw [List.takeWhile_append_of_pos fun c hc => isDigit_of_mem_dec hc]
    cases rest with
    | nil => simp
    | cons c rest =>
      rw [List.takeWhile_cons_of_neg (by simp [hrest c rfl]), List.append_nil]
  obtain ⟨m, h1, hm, htake⟩ := exists_take_dec (k := 9) (by decide) hnum
  refine ⟨m, ?_, h1, hm, fun hlt => ?_⟩
  · have hread : Nat.ofDigitChars 10 (dec m) 0 = m := Nat.ofDigitChars_ten_toDigits
    unfold readRulenum
    rw [hdigits, htake]
    split
    · next hnil => exact absurd hnil (dec_ne_nil m)
    · rw [hread]
  · rw [List.take_of_length_le (length_dec_le (by decide) hlt)] at htake
    exact (dec_inj htake).symm

theorem readRulenum_listingLine (print : Rule Chain → Text) (r : Rule Chain) {num : Nat}
    (hnum : 1 ≤ num) (h : num < 10 ^ 9) : readRulenum (listingLine print num r) = some num := by
  have hblank : ∀ c ∈ (' ' :: print r).head?, c.isDigit = false := by simp
  obtain ⟨m, hread, _, _, heq⟩ := readRulenum_dec hnum hblank
  rw [listingLine, hread, heq h]

/-! ## The first mention -/

section Mention
variable {print : Rule Chain → Text} {victim : Text} {hit : Rule Chain → Bool}

theorem mentionAt_eq {rs : List (Rule Chain)}
    (hhit : ∀ r ∈ rs, ∀ num, (strstr (listingLine print num r) victim).isSome = hit r) {num : Nat}
    (h1 : 1 ≤ num) (hnum : num + rs.length ≤ 10 ^ 9) :
    mentionAt print victim num rs = (hitNumbers (fun _ => hit) num rs).head? := by
  induction rs generalizing num with
  | nil => rfl
  | cons r rs ih =>
    rw [List.length_cons] at hnum
    have hrest := ih (fun q hq => hhit q (List.mem_cons_of_mem r hq)) (by omega : 1 ≤ num + 1)
      (by omega)
    rw [mentionAt, hhit r List.mem_cons_self, hitNumbers, hrest]
    cases hit r with
    | true => simp [readRulenum_listingLine print r h1 (by omega)]
    | false => simp

/-! ## All mentions -/

/-- `-D` with the number of a rule. -/
theorem exec_deleteNumber {table : Table} {chain : Chain} {t : Tables Chain}
    {rs : List (Rule Chain)} {num : Nat} (hview : t.view table chain = some rs) (h1 : 1 ≤ num)
    (hle : num ≤ rs.length) :
    t.exec ⟨table, .deleteAt chain num⟩ = t.setRules table chain (deleteNumber 1 rs num) ∧
      (t.setRules table chain (deleteNumber 1 rs num)).view table chain =
        some (deleteNumber 1 rs num) ∧
      (deleteNumber 1 rs num).Sublist rs ∧ (deleteNumber 1 rs num).length + 1 = rs.length := by
  refine ⟨Tables.exec_deleteAt hview h1 hle, ?_, List.eraseIdx_sublist rs (num - 1), ?_⟩
  · rw [Tables.view_setRules hview, if_pos ⟨rfl, rfl⟩]
  · rw [deleteNumber, List.length_eraseIdx_of_lt (by omega)]
    omega

theorem destroyMention_eq {table : Table} {chain : Chain} {fuel : Nat} {t : Tables Chain}
    {rs : List (Rule Chain)} (hview : t.view table chain = some rs)
    (hhit : ∀ r ∈ rs, ∀ num, (strstr (listingLine print num r) victim).isSome = hit r)
    (hlen : rs.length < 10 ^ 9) (hfuel : rs.length ≤ fuel) :
    destroyMention print table chain victim fuel t =
      t.setRules table chain (rs.filter fun r => !hit r) := by
  rw [← sieve_const hit 1 rs]
  induction fuel generalizing t rs with
  | zero =>
    obtain rfl := List.eq_nil_of_length_eq_zero (Nat.le_zero.mp hfuel)
    exact (Tables.setRules_view hview).symm
  | succ fuel ih =>
    rw [destroyMention, hview, Option.getD_some, mentionAt_eq hhit (by omega) (by omega)]
    cases hhits : hitNumbers (fun _ => hit) 1 rs with
    | nil =>
      rw [sieve_of_no_hit hhits, Tables.setRules_view hview]
      rfl
    | cons num nums =>
      have hnum := hitNumbers_bounds (hhits ▸ List.mem_cons_self)
      obtain ⟨hdelete, hview', hsub, hlength⟩ := exec_deleteNumber hview hnum.1 (by omega)
      rw [List.head?_cons]
      dsimp only
      rw [hdelete, ih hview' (fun r hr => hhit r (hsub.subset hr)) (by omega) (by omega),
        Tables.setRules_setRules, sieve_deleteNumber hhits]

/-- `iptables_fw_destroy_mention` deletes the rules that mention the victim. -/
theorem iptablesFwDestroyMention_eq {table : Table} {chain : Chain} {t : Tables Chain}
    {rs : List (Rule Chain)} (hview : t.view table chain = some rs)
    (hhit : ∀ r ∈ rs, ∀ num, (strstr (listingLine print num r) victim).isSome = hit r)
    (hlen : rs.length < 10 ^ 9) :
    iptablesFwDestroyMention print t table chain victim =
      t.setRules table chain (rs.filter fun r => !hit r) := by
  unfold iptablesFwDestroyMention
  rw [hview, Option.getD_some]
  exact destroyMention_eq hview hhit hlen (Nat.le_refl _)

theorem iptablesFwDestroyMention_absent {table : Table} {chain : Chain} {t : Tables Chain}
    (hview : t.view table chain = none) :
    iptablesFwDestroyMention print t table chain victim = t := by
  unfold iptablesFwDestroyMention
  rw [hview]
  rfl

end Mention

end Wifidog
