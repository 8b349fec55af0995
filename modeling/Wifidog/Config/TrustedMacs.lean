/-
  The list of trusted MACs (`parse_trusted_mac_list`).

  An item is checked by one `sscanf` pattern and the MAC is taken out of it by another. The
  first only bounds the groups from above and does not look behind the sixth; the second takes
  up to 17 characters. So an item with a short group, or with anything behind the sixth group,
  passes the check and puts in a MAC that was not written (`only_written_macs_iff`).

  The search for a duplicate is part of the walk to the last entry and does not compare that
  entry, the case of a single one apart. So a MAC is listed again when it is accepted again
  right after it was new (`trusted_once_iff`).
-/
import Wifidog.Model.ConfFile
import Mathlib.Data.List.Nodup

namespace Wifidog

open CText

/-! ## The MACs accepted -/

/-- The MACs that the loop takes out of the items, up to the first that fails the check. -/
def acceptedMacs : List Text → List Text
  | [] => []
  | item :: rest =>
    if checkMacFormat item then (scanMac item).toList ++ acceptedMacs rest else []

/-- One MAC goes through the search and, if it is not found, to the end of the list. -/
def addMac (macs : List Text) (mac : Text) : List Text :=
  if skipMac macs mac then macs else macs ++ [mac]

theorem addTrustedMacs_eq (macs items : List Text) :
    addTrustedMacs macs items = (acceptedMacs items).foldl addMac macs := by
  induction items generalizing macs with
  | nil => rfl
  | cons item rest ih =>
    unfold addTrustedMacs acceptedMacs
    cases checkMacFormat item with
    | false => rfl
    | true =>
      cases scanMac item with
      | none => exact ih macs
      | some mac => exact ih (addMac macs mac)

/-- The list after a sequence of arguments, from the empty list. -/
def trustedAfter (args : List Text) : List Text := args.foldl parseTrustedMacList []

/-- The MACs that the arguments give, in order. -/
def acceptedOf (args : List Text) : List Text :=
  args.flatMap fun ptr => acceptedMacs (ptr.splitOn ',')

theorem foldl_parseTrustedMacList (macs args : List Text) :
    args.foldl parseTrustedMacList macs = (acceptedOf args).foldl addMac macs := by
  induction args generalizing macs with
  | nil => rfl
  | cons ptr args ih =>
    rw [List.foldl_cons, ih, acceptedOf, acceptedOf, List.flatMap_cons, List.foldl_append,
      parseTrustedMacList, addTrustedMacs_eq]

theorem trustedAfter_eq (args : List Text) :
    trustedAfter args = (acceptedOf args).foldl addMac [] :=
  foldl_parseTrustedMacList [] args

theorem acceptedOf_append (args args' : List Text) :
    acceptedOf (args ++ args') = acceptedOf args ++ acceptedOf args' :=
  List.flatMap_append

/-! ## One MAC -/

theorem skipMac_iff (macs : List Text) (mac : Text) :
    skipMac macs mac = true ↔ macs.head? = some mac ∨ mac ∈ macs.dropLast := by
  simp [skipMac]

theorem mem_of_skipMac {macs : List Text} {mac : Text} (h : skipMac macs mac = true) :
    mac ∈ macs := by
  rcases (skipMac_iff macs mac).mp h with h | h
  · exact List.mem_of_mem_head? h
  · exact List.dropLast_subset macs h

theorem addMac_extends (macs : List Text) (mac : Text) : macs <+: addMac macs mac := by
  unfold addMac
  split
  · exact List.prefix_rfl
  · exact List.prefix_append _ _

theorem mem_addMac (macs : List Text) (mac : Text) : mac ∈ addMac macs mac := by
  unfold addMac
  split
  · next h => exact mem_of_skipMac h
  · simp

/-- What adding a MAC that may be there already is meant to do. -/
def addNew (macs : List Text) (mac : Text) : List Text :=
  if mac ∈ macs then macs else macs ++ [mac]

/-- The search misses a MAC just when it is the last of two or more entries. -/
theorem skipMac_eq_false_iff {macs : List Text} (h : macs.Nodup) {mac : Text} (hmem : mac ∈ macs) :
    skipMac macs mac = false ↔ macs.getLast? = some mac ∧ 2 ≤ macs.length := by
  obtain ⟨init, last, rfl⟩ : ∃ init last, macs = init ++ [last] :=
    ⟨macs.dropLast, macs.getLast (List.ne_nil_of_mem hmem), (List.dropLast_append_getLast _).symm⟩
  rw [← Bool.not_eq_true, skipMac_iff, List.dropLast_concat, List.getLast?_concat]
  cases init with
  | nil =>
    have : mac = last := by simpa using hmem
    simp [this]
  | cons first init =>
    have hnot : last ∉ first :: init := fun hin =>
      (List.nodup_append.mp h).2.2 last hin last (by simp) rfl
    constructor
    · intro hno
      rw [not_or] at hno
      have hlast : last = mac := by
        rcases List.mem_append.mp hmem with hin | hin
        · exact absurd hin hno.2
        · exact (List.mem_singleton.mp hin).symm
      exact ⟨congrArg some hlast, by simp⟩
    · rintro ⟨hlast, -⟩
      obtain rfl := Option.some.inj hlast
      rw [not_or]
      refine ⟨fun hhead => ?_, hnot⟩
      exact hnot (by simpa using Or.inl (Option.some.inj hhead).symm)

/-- Whenever a MAC comes it is not the newest of two or more. -/
def NotNewest (macs : List Text) : List Text → Prop
  | [] => True
  | mac :: rest =>
    (macs.getLast? = some mac → macs.length ≤ 1) ∧ NotNewest (addNew macs mac) rest

theorem addNew_nodup {macs : List Text} (h : macs.Nodup) (mac : Text) :
    (addNew macs mac).Nodup := by
  unfold addNew
  split
  · exact h
  · next hnot =>
    rw [← List.concat_eq_append]
    exact h.concat hnot

/-- The code does what is meant unless the search misses the MAC. -/
theorem addMac_eq_addNew {macs : List Text} (h : macs.Nodup) {mac : Text}
    (hnewest : macs.getLast? = some mac → macs.length ≤ 1) : addMac macs mac = addNew macs mac := by
  unfold addMac addNew
  by_cases hmem : mac ∈ macs
  · have hskip : skipMac macs mac = true := by
      by_contra hno
      obtain ⟨hlast, hlen⟩ := (skipMac_eq_false_iff h hmem).mp (Bool.not_eq_true _ ▸ hno)
      have := hnewest hlast
      omega
    rw [if_pos hskip, if_pos hmem]
  · rw [if_neg (fun hskip => hmem (mem_of_skipMac hskip)), if_neg hmem]

theorem addMac_not_nodup {macs : List Text} (h : macs.Nodup) {mac : Text}
    (hlast : macs.getLast? = some mac) (hlen : ¬ macs.length ≤ 1) : ¬ (addMac macs mac).Nodup := by
  have hmem : mac ∈ macs := List.mem_of_getLast? hlast
  have hskip := (skipMac_eq_false_iff h hmem).mpr ⟨hlast, by omega⟩
  unfold addMac
  rw [hskip]
  intro hnodup
  exact (List.nodup_append.mp hnodup).2.2 mac hmem mac (by simp) rfl

/-! ## Sequences of MACs -/

theorem foldl_addMac_extends (macs ms : List Text) : macs <+: ms.foldl addMac macs := by
  induction ms generalizing macs with
  | nil => exact List.prefix_rfl
  | cons mac ms ih => exact (addMac_extends macs mac).trans (ih _)

theorem mem_foldl_addMac {mac : Text} {ms : List Text} (h : mac ∈ ms) (macs : List Text) :
    mac ∈ ms.foldl addMac macs := by
  induction ms generalizing macs with
  | nil => cases h
  | cons m ms ih =>
    rcases List.mem_cons.mp h with rfl | h
    · exact (foldl_addMac_extends _ ms).subset (mem_addMac macs mac)
    · exact ih h _

/-- The list only grows, so one duplicate is there for good. -/
theorem foldl_addMac_nodup_iff {macs : List Text} (h : macs.Nodup) (ms : List Text) :
    (ms.foldl addMac macs).Nodup ↔ NotNewest macs ms := by
  induction ms generalizing macs with
  | nil => exact ⟨fun _ => trivial, fun _ => h⟩
  | cons mac ms ih =>
    rw [List.foldl_cons, NotNewest]
    by_cases hnewest : macs.getLast? = some mac → macs.length ≤ 1
    · rw [addMac_eq_addNew h hnewest, ih (addNew_nodup h mac)]
      exact ⟨fun hrest => ⟨hnewest, hrest⟩, fun hboth => hboth.2⟩
    · obtain ⟨hlast, hlen⟩ := Classical.not_imp.mp hnewest
      constructor
      · intro hnodup
        exact absurd (hnodup.sublist (foldl_addMac_extends _ ms).sublist)
          (addMac_not_nodup h hlast hlen)
      · exact fun hboth => absurd hboth.1 hnewest

theorem trustedAfter_take_prefix (args : List Text) (n : Nat) :
    trustedAfter (args.take n) <+: trustedAfter args := by
  conv_rhs => rw [← List.take_append_drop n args]
  rw [trustedAfter_eq, trustedAfter_eq, acceptedOf_append, List.foldl_append]
  exact foldl_addMac_extends _ _

/-- Along a sequence of arguments no MAC is listed twice, and every MAC accepted is listed from
    then on at one place, just when no MAC is accepted again while it is the newest of two or
    more. -/
theorem trusted_once_iff (args : List Text) :
    (∀ n, (trustedAfter (args.take n)).Nodup ∧
      (∀ mac ∈ acceptedOf (args.take n), mac ∈ trustedAfter (args.take n)) ∧
      trustedAfter (args.take n) <+: trustedAfter args) ↔ NotNewest [] (acceptedOf args) := by
  rw [← foldl_addMac_nodup_iff List.nodup_nil, ← trustedAfter_eq]
  constructor
  · intro h
    have hall := (h args.length).1
    rwa [List.take_length] at hall
  · intro h n
    have hpre := trustedAfter_take_prefix args n
    refine ⟨h.sublist hpre.sublist, ?_, hpre⟩
    intro mac hmac
    rw [trustedAfter_eq]
    exact mem_foldl_addMac hmac []

/-- Three items, the last two the same: it is listed twice. -/
theorem second_mac_twice :
    trustedAfter ["00:00:00:00:00:01,00:00:00:00:00:02,00:00:00:00:00:02".toList] =
        ["00:00:00:00:00:01".toList, "00:00:00:00:00:02".toList, "00:00:00:00:00:02".toList] ∧
      ¬ (trustedAfter
        ["00:00:00:00:00:01,00:00:00:00:00:02,00:00:00:00:00:02".toList]).Nodup := by
  decide

/-! ## What is written and what is added -/

/-- Six groups of two hexadecimal digits, joined by colons. -/
def MacForm (t : Text) : Prop :=
  ∃ groups : List Text, groups.length = 6 ∧
    (∀ g ∈ groups, g.length = 2 ∧ ∀ c ∈ g, isHex c = true) ∧ t = [':'].intercalate groups

/-- The MACs that one argument adds, each with the item it is taken from. -/
def additions (macs : List Text) : List Text → List (Text × Text)
  | [] => []
  | item :: rest =>
    if !checkMacFormat item then []
    else
      match scanMac item with
      | none => additions macs rest
      | some mac =>
        if skipMac macs mac then additions macs rest
        else (item, mac) :: additions (macs ++ [mac]) rest

theorem addTrustedMacs_additions (macs items : List Text) :
    addTrustedMacs macs items = macs ++ (additions macs items).map Prod.snd := by
  induction items generalizing macs with
  | nil => simp [addTrustedMacs, additions]
  | cons item rest ih =>
    unfold addTrustedMacs additions
    cases checkMacFormat item with
    | false => simp
    | true =>
      cases scanMac item with
      | none => simpa using ih macs
      | some mac =>
        cases hskip : skipMac macs mac with
        | false => simpa [hskip] using ih (macs ++ [mac])
        | true => simpa [hskip] using ih macs

/-- The text of the groups: three characters each, the first without its colon. -/
theorem intercalate_groups {groups : List Text}
    (h : ∀ g ∈ groups, g.length = 2 ∧ ∀ c ∈ g, isHex c = true) :
    ([':'].intercalate groups).length = 3 * groups.length - 1 ∧
      ∀ c ∈ [':'].intercalate groups, (isHex c || c == ':') = true := by
  induction groups with
  | nil => simp
  | cons g groups ih =>
    obtain ⟨hlen, hhex⟩ := h g List.mem_cons_self
    have hrest := ih fun g' hg' => h g' (List.mem_cons_of_mem _ hg')
    cases groups with
    | nil =>
      rw [List.intercalate_singleton]
      exact ⟨by simp [hlen], fun c hc => by simp [hhex c hc]⟩
    | cons g' groups =>
      rw [List.intercalate_cons_cons]
      constructor
      · simp only [List.length_append, List.length_cons, List.length_nil, hlen, hrest.1]
        omega
      · intro c hc
        rcases List.mem_append.mp hc with hc | hc
        · rcases List.mem_append.mp hc with hc | hc
          · simp [hhex c hc]
          · simp [List.mem_singleton.mp hc]
        · exact hrest.2 c hc

theorem not_isSpace_of_macChar {c : Char} (h : (isHex c || c == ':') = true) :
    isSpace c = false := by
  by_contra hspace
  simp only [Bool.not_eq_false, isSpace, Bool.or_eq_true, beq_iff_eq, or_assoc] at hspace
  rcases hspace with rfl | rfl | rfl | rfl | rfl | rfl <;> exact absurd h (by decide)

/-- A MAC that is written is taken as it is. -/
theorem scanMac_of_macForm {t : Text} (h : MacForm t) : scanMac t = some t := by
  obtain ⟨groups, hsix, hgroups, rfl⟩ := h
  obtain ⟨hlen, hchars⟩ := intercalate_groups hgroups
  generalize [':'].intercalate groups = t at hlen hchars
  rw [hsix] at hlen
  have hdrop : t.dropWhile isSpace = t := by
    cases t with
    | nil => rfl
    | cons c t =>
      rw [List.dropWhile_cons_of_neg]
      simpa using not_isSpace_of_macChar (hchars c List.mem_cons_self)
  have htake : ((t.dropWhile isSpace).take 17).takeWhile (fun c => isHex c || c == ':') = t := by
    rw [hdrop, List.take_of_length_le (by omega)]
    exact List.takeWhile_eq_self_iff.mpr hchars
  have hne : t.isEmpty = false := by
    cases t with
    | nil => simp at hlen
    | cons c t => rfl
  unfold scanMac
  simp only [htake, hne, Bool.false_eq_true, if_false]

/-- Every item that passes the check, up to the first that does not, is a MAC as it should be
    written, or nothing new is taken out of it. -/
def OnlyMacs (macs : List Text) : List Text → Prop
  | [] => True
  | item :: rest =>
    checkMacFormat item = true →
      (MacForm item ∨ (scanMac item).all (skipMac macs) = true) ∧
        OnlyMacs (addTrustedMacs macs [item]) rest

/-- The same, item by item: the MACs of the items before it stand in the list where they were
    accepted and not found. -/
theorem onlyMacs_iff (macs items : List Text) : OnlyMacs macs items ↔
    ∀ pre item post, items = pre ++ item :: post →
      (∀ i ∈ pre, checkMacFormat i = true) → checkMacFormat item = true →
        MacForm item ∨ ∀ mac ∈ scanMac item,
          skipMac ((acceptedMacs pre).foldl addMac macs) mac = true := by
  induction items generalizing macs with
  | nil =>
    refine iff_of_true trivial fun pre item post heq => ?_
    cases pre <;> cases heq
  | cons first rest ih =>
    unfold OnlyMacs
    rw [ih, addTrustedMacs_eq]
    constructor
    · intro h pre item post heq hpre hitem
      cases pre with
      | nil =>
        obtain ⟨rfl, -⟩ := List.cons.inj heq
        simpa [acceptedMacs, Option.all_eq_true] using (h hitem).1
      | cons i pre =>
        obtain ⟨rfl, rfl⟩ := List.cons.inj heq
        have hfirst := hpre first List.mem_cons_self
        have hrest := (h hfirst).2 pre item post rfl
          (fun j hj => hpre j (List.mem_cons_of_mem _ hj)) hitem
        simpa [acceptedMacs, hfirst] using hrest
    · intro h hfirst
      constructor
      · have hhead := h [] first rest rfl (fun _ hi => absurd hi List.not_mem_nil) hfirst
        simpa [acceptedMacs, Option.all_eq_true] using hhead
      · intro pre item post heq hpre hitem
        have hrest := h (first :: pre) item post (by rw [heq]; rfl)
          (List.forall_mem_cons.mpr ⟨hfirst, hpre⟩) hitem
        simpa [acceptedMacs, hfirst] using hrest

theorem additions_form_iff (macs items : List Text) :
    (∀ p ∈ additions macs items, p.2 = p.1 ∧ MacForm p.1) ↔ OnlyMacs macs items := by
  induction items generalizing macs with
  | nil => simp [additions, OnlyMacs]
  | cons item rest ih =>
    unfold additions OnlyMacs addTrustedMacs
    cases checkMacFormat item with
    | false => simp
    | true =>
      cases hscan : scanMac item with
      | none => simpa [addTrustedMacs] using ih macs
      | some mac =>
        cases hskip : skipMac macs mac with
        | true => simpa [addTrustedMacs, hskip] using ih macs
        | false =>
          have hform : mac = item ∧ MacForm item ↔ MacForm item := by
            refine and_iff_right_of_imp fun hmac => ?_
            rw [scanMac_of_macForm hmac] at hscan
            exact (Option.some.inj hscan).symm
          simpa [addTrustedMacs, hskip, hform] using fun _ => ih (macs ++ [mac])

theorem additions_items {macs items : List Text} {p : Text × Text}
    (h : p ∈ additions macs items) : p.1 ∈ items := by
  induction items generalizing macs with
  | nil => cases h
  | cons item rest ih =>
    unfold additions at h
    split at h
    · cases h
    · split at h
      · exact List.mem_cons_of_mem _ (ih h)
      · split at h
        · exact List.mem_cons_of_mem _ (ih h)
        · rcases List.mem_cons.mp h with rfl | h
          · exact List.mem_cons_self
          · exact List.mem_cons_of_mem _ (ih h)

/-- An argument puts the MACs of `additions` behind the list. Each is one of the items, of six
    groups of two digits, just when the items that pass the check are of that form or add
    nothing. -/
theorem only_written_macs_iff (macs : List Text) (ptr : Text) :
    parseTrustedMacList macs ptr = macs ++ (additions macs (ptr.splitOn ',')).map Prod.snd ∧
      ((∀ p ∈ additions macs (ptr.splitOn ','),
        p.1 ∈ ptr.splitOn ',' ∧ p.2 = p.1 ∧ MacForm p.1) ↔ OnlyMacs macs (ptr.splitOn ',')) := by
  refine ⟨addTrustedMacs_additions macs _, ?_⟩
  rw [← additions_form_iff]
  exact ⟨fun h p hp => (h p hp).2, fun h p hp => ⟨additions_items hp, h p hp⟩⟩

/-- A seventh digit behind the last group is cut off, and the MAC that is left is trusted. -/
theorem cut_mac_trusted :
    parseTrustedMacList [] "00:11:22:33:44:556".toList = ["00:11:22:33:44:55".toList] ∧
      "00:11:22:33:44:55".toList ∉ "00:11:22:33:44:556".toList.splitOn ',' := by
  decide

end Wifidog
