/-
  What becomes of a request's path (`_httpd_sanitiseUrl`).

  The three passes go through the text by characters; here each is read off on the segments between
  the slashes (`removeSlashes_path`, `removeDots_path`, `removeParents_path`). Together they are
  `Paths.normalise` (`httpdSanitiseUrl_eq`).

  The last segment is left as it is, so a path may end in a dot or two; and of several `..` in a row
  only the first takes a segment away.
-/
import Wifidog.Lib.Paths
import Wifidog.Model.Httpd

namespace Wifidog

open CText Paths

/-! ## The passes, segment by segment -/

/-- A segment without a slash is copied. -/
theorem removeSlashes_segment {x : Text} (hx : '/' ∉ x) (s : Text) :
    removeSlashes (x ++ s) = x ++ removeSlashes s := by
  induction x with
  | nil => rfl
  | cons c x ih =>
    rw [List.mem_cons, not_or] at hx
    have hc : (c == '/') = false := by simpa using Ne.symm hx.1
    rw [List.cons_append, removeSlashes, hc, Bool.false_and, if_neg (by simp), ih hx.2,
      List.cons_append]

theorem removeSlashes_behind {segs : List Text} (hsegs : ∀ x ∈ segs, '/' ∉ x) :
    removeSlashes (behind segs) = behind (keepInner (· != []) segs) := by
  induction segs with
  | nil => rfl
  | cons x segs ih =>
    have hx := hsegs x List.mem_cons_self
    have ih' := ih fun y hy => hsegs y (List.mem_cons_of_mem x hy)
    rw [behind_cons, removeSlashes]
    cases segs with
    | nil =>
      -- the last segment has no slash behind it
      have hhead : (x.head? == some '/') = false := by
        cases x with
        | nil => rfl
        | cons c x => simpa using fun h : c = '/' => hx (h ▸ List.mem_cons_self)
      rw [behind_nil, List.append_nil, hhead, Bool.and_false, if_neg (by simp)]
      have hcopy := removeSlashes_segment hx []
      rw [List.append_nil] at hcopy
      rw [hcopy]
      simp [removeSlashes, keepInner]
    | cons y rest =>
      rw [keepInner_cons (by simp)]
      cases x with
      | nil =>
        rw [List.nil_append, if_pos (by simp), if_neg (by simp), ih']
      | cons c x =>
        have hc : c ≠ '/' := fun h => hx (h ▸ List.mem_cons_self)
        rw [if_neg (by simpa using hc), if_pos (by simp), removeSlashes_segment hx, ih',
          behind_cons]

theorem removeDots_segment {x : Text} (hx : '/' ∉ x) (s : Text) :
    removeDots 0 (x ++ s) = x ++ removeDots 0 s := by
  induction x with
  | nil => rfl
  | cons c x ih =>
    rw [List.mem_cons, not_or] at hx
    have hno : "/./".toList.isPrefixOf (c :: (x ++ s)) = false := by
      have hc : ('/' == c) = false := by simpa using hx.1
      simp [List.isPrefixOf, hc]
    rw [List.cons_append, removeDots, hno, if_neg (by simp), ih hx.2, List.cons_append]

/-- A sequence between slashes stands at a slash exactly when it is the next segment, and not the
    last. -/
theorem isPrefixOf_behind {w x : Text} (hw : '/' ∉ w) (hx : '/' ∉ x) (segs : List Text) :
    ('/' :: (w ++ ['/'])).isPrefixOf (behind (x :: segs)) = true ↔ x = w ∧ segs ≠ [] := by
  rw [behind_cons, List.isPrefixOf_iff_prefix, List.cons_prefix_cons]
  constructor
  · rintro ⟨-, hpre⟩
    cases segs with
    | nil =>
      rw [behind_nil, List.append_nil] at hpre
      exact absurd (hpre.subset (by simp)) hx
    | cons y rest =>
      refine ⟨?_, by simp⟩
      rw [behind_cons] at hpre
      -- both sides are cut at their first slash
      have hall : ∀ (v : Text), '/' ∉ v → ∀ c ∈ v, (c != '/') = true := by
        intro v hv c hc
        simpa using ne_of_mem_of_not_mem hc hv
      obtain ⟨t, ht⟩ := hpre
      have h1 := congrArg (List.takeWhile (· != '/')) ht
      rw [List.append_assoc, List.takeWhile_append_of_pos (hall w hw),
        List.takeWhile_append_of_pos (hall x hx)] at h1
      simpa using h1.symm
  · rintro ⟨rfl, hne⟩
    cases segs with
    | nil => exact absurd rfl hne
    | cons y rest =>
      refine ⟨rfl, ?_⟩
      rw [behind_cons]
      exact ⟨y ++ behind rest, by simp⟩

theorem removeDots_behind {segs : List Text} (hsegs : ∀ x ∈ segs, '/' ∉ x) :
    removeDots 0 (behind segs) = behind (keepInner (· != dot) segs) := by
  induction segs with
  | nil => rfl
  | cons x segs ih =>
    have hx := hsegs x List.mem_cons_self
    have ih' := ih fun y hy => hsegs y (List.mem_cons_of_mem x hy)
    have hat : "/./".toList.isPrefixOf (behind (x :: segs)) = true ↔ x = dot ∧ segs ≠ [] :=
      @isPrefixOf_behind dot x (by decide) hx segs
    by_cases hdot : x = dot ∧ segs ≠ []
    · -- the slash and the dot are passed over, the slash behind them is copied
      have hpass : removeDots 0 (behind (x :: segs)) = removeDots 1 (x ++ behind segs) := by
        rw [behind_cons, removeDots, ← behind_cons, if_pos (hat.mpr hdot)]
      rw [hpass, keepInner_cons hdot.2, hdot.1, if_neg (by simp), ← ih']
      rfl
    · have hcopy : removeDots 0 (behind (x :: segs)) = '/' :: removeDots 0 (x ++ behind segs) := by
        rw [behind_cons, removeDots, ← behind_cons, if_neg (fun h => hdot (hat.mp h))]
      rw [hcopy, removeDots_segment hx, ih']
      cases segs with
      | nil => simp [keepInner]
      | cons y rest =>
        have hne : x ≠ dot := fun h => hdot ⟨h, by simp⟩
        have hkeep : keepInner (· != dot) (x :: y :: rest) = x :: keepInner (· != dot) (y :: rest) := by
          rw [keepInner, if_pos (by simpa using hne)]
        rw [hkeep, behind_cons]

theorem removeParents_segment {x : Text} (hx : '/' ∉ x) (out : Text) (last : Nat) (s : Text) :
    removeParents 0 out last (x ++ s) = removeParents 0 (out ++ x) last s := by
  induction x generalizing out with
  | nil => simp
  | cons c x ih =>
    rw [List.mem_cons, not_or] at hx
    have hc : (c == '/') = false := by simpa using Ne.symm hx.1
    have hno : "/../".toList.isPrefixOf (c :: (x ++ s)) = false := by
      have hc' : ('/' == c) = false := by simpa using hx.1
      simp [List.isPrefixOf, hc']
    rw [List.cons_append, removeParents, hno, if_neg (by simp), hc, if_neg (by simp), ih hx.2]
    simp

/-- What the pass has written, and where the last slash in it is. -/
structure WrittenTo (kept : List Text) (cur : Option Text) (out : Text) (last : Nat) : Prop where
  out_eq : out = join (kept ++ cur.toList)
  last_eq : last = (join kept).length

/-- The pass takes away what `cancelParents` takes away. -/
theorem removeParents_behind {kept : List Text} {cur : Option Text} {out : Text} {last : Nat}
    (hw : WrittenTo kept cur out last) (hdone : kept ++ cur.toList ≠ []) {segs : List Text}
    (hsegs : ∀ x ∈ segs, '/' ∉ x) :
    removeParents 0 out last (behind segs) = join (cancelParents kept cur segs) := by
  induction segs generalizing kept cur out last with
  | nil => exact hw.out_eq
  | cons x segs ih =>
    have hx := hsegs x List.mem_cons_self
    have hrest : ∀ y ∈ segs, '/' ∉ y := fun y hy => hsegs y (List.mem_cons_of_mem x hy)
    have hat : "/../".toList.isPrefixOf (behind (x :: segs)) = true ↔ x = dots ∧ segs ≠ [] :=
      @isPrefixOf_behind dots x (by decide) hx segs
    have htake : out.take last = join kept := by
      rw [hw.out_eq, hw.last_eq]
      cases kept with
      | nil => rfl
      | cons first kept => simp [join, behind_append, ← List.append_assoc]
    by_cases hup : x = dots ∧ segs ≠ []
    · have hpass : removeParents 0 out last (behind (x :: segs)) =
          removeParents 2 (out.take last) last (x ++ behind segs) := by
        rw [behind_cons, removeParents, ← behind_cons, if_pos (hat.mpr hup)]
      have hpassed : removeParents 2 (out.take last) last (x ++ behind segs) =
          removeParents 0 (out.take last) last (behind segs) := by
        rw [hup.1]
        rfl
      rw [hpass, hpassed, htake]
      obtain ⟨y, rest, rfl⟩ := List.exists_cons_of_ne_nil hup.2
      rw [cancelParents, if_pos hup.1]
      refine ih ?_ ?_ hrest
      · cases kept with
        | nil => exact ⟨rfl, hw.last_eq⟩
        | cons first kept => exact ⟨by simp, hw.last_eq⟩
      · cases kept with
        | nil => simp
        | cons first kept => simp
    · have hcopy : removeParents 0 out last (behind (x :: segs)) =
          removeParents 0 (out ++ ['/'] ++ x) out.length (behind segs) := by
        rw [behind_cons, removeParents, ← behind_cons, if_neg (fun h => hup (hat.mp h)),
          removeParents_segment hx]
        rfl
      have hout : out ++ ['/'] ++ x = join (kept ++ cur.toList ++ [x]) := by
        rw [join_append_single hdone, ← hw.out_eq]
        simp
      rw [hcopy]
      cases segs with
      | nil => rw [behind_nil, removeParents, cancelParents, hout]
      | cons y rest =>
        have hne : x ≠ dots := fun h => hup ⟨h, by simp⟩
        rw [cancelParents, if_neg hne]
        exact ih ⟨hout, by rw [hw.out_eq]⟩ (by simp) hrest

/-! ## The whole function -/

theorem httpdSanitiseUrl_eq (url : Text) :
    httpdSanitiseUrl url = join (normalise (url.splitOn '/')) := by
  obtain ⟨first, rest, hsplit⟩ := List.exists_cons_of_ne_nil (List.splitOnP_ne_nil (· == '/') url)
  have hsegs : ∀ x ∈ first :: rest, '/' ∉ x := fun x hx =>
    sep_not_mem_piece (s := url) (by rw [List.splitOn, hsplit]; exact hx)
  have hfirst := hsegs first List.mem_cons_self
  have hrest : ∀ x ∈ rest, '/' ∉ x := fun x hx => hsegs x (List.mem_cons_of_mem first hx)
  have hkept : ∀ x ∈ keepInner (· != []) rest, '/' ∉ x :=
    fun x hx => hrest x ((keepInner_sublist _ rest).subset hx)
  have hsolid : keepInner (· != dot) (keepInner (· != []) rest) = keepInner solid rest :=
    keepInner_keepInner _ _ rest
  have hurl : url = first ++ behind rest := by
    rw [← join_splitOn url, List.splitOn, hsplit]
    rfl
  rw [List.splitOn, hsplit, normalise, httpdSanitiseUrl]
  conv_lhs => rw [hurl]
  rw [removeSlashes_segment hfirst, removeSlashes_behind hrest, removeDots_segment hfirst,
    removeDots_behind hkept, hsolid, removeParents_segment hfirst]
  have hstart : WrittenTo [] (some first) ([] ++ first) 0 := ⟨by simp [join], rfl⟩
  exact removeParents_behind hstart (by simp) fun x hx =>
    hrest x ((keepInner_sublist _ rest).subset hx)

theorem splitOn_httpdSanitiseUrl (url : Text) :
    (httpdSanitiseUrl url).splitOn '/' = normalise (url.splitOn '/') := by
  rw [httpdSanitiseUrl_eq]
  refine splitOn_join (normalise_ne_nil (List.splitOnP_ne_nil _ _)) fun x hx => ?_
  rcases mem_normalise hx with rfl | hx
  · simp
  · exact sep_not_mem_piece hx

theorem length_removeSlashes_le (s : Text) : (removeSlashes s).length ≤ s.length := by
  induction s with
  | nil => exact Nat.le_refl _
  | cons c s ih =>
    unfold removeSlashes
    split
    · exact Nat.le_succ_of_le ih
    · exact Nat.succ_le_succ ih

theorem length_removeDots_le (skip : Nat) (s : Text) : (removeDots skip s).length ≤ s.length := by
  induction s generalizing skip with
  | nil => cases skip <;> exact Nat.le_refl _
  | cons c s ih =>
    cases skip with
    | succ skip => exact Nat.le_succ_of_le (ih skip)
    | zero =>
      unfold removeDots
      split
      · exact Nat.le_succ_of_le (ih 1)
      · exact Nat.succ_le_succ (ih 0)

theorem length_removeParents_le (skip : Nat) (out : Text) (last : Nat) (s : Text) :
    (removeParents skip out last s).length ≤ out.length + s.length := by
  induction s generalizing skip out last with
  | nil => cases skip <;> simp [removeParents]
  | cons c s ih =>
    rw [List.length_cons]
    cases skip with
    | succ skip =>
      have h := ih skip out last
      rw [removeParents]
      omega
    | zero =>
      unfold removeParents
      split
      · have h := ih 2 (out.take last) last
        have htake := List.length_take_le' last out
        omega
      · have h := ih 0 (out ++ [c]) (if c == '/' then out.length else last)
        rw [List.length_append, List.length_singleton] at h
        omega

theorem length_httpdSanitiseUrl_le (url : Text) : (httpdSanitiseUrl url).length ≤ url.length := by
  have hparents := length_removeParents_le 0 [] 0 (removeDots 0 (removeSlashes url))
  have hdots := length_removeDots_le 0 (removeSlashes url)
  have hslashes := length_removeSlashes_le url
  rw [List.length_nil, Nat.zero_add] at hparents
  exact Nat.le_trans hparents (Nat.le_trans hdots hslashes)

/-- What a sanitised path is, next to the path it was made from. -/
structure Sanitised (url path : Text) : Prop where
  noSlashes : ¬ "//".toList <:+: path
  noDots : ¬ "/./".toList <:+: path
  noParents : ¬ "/../".toList <:+: path
  /-- it is the path itself if that is sanitised already -/
  stable : httpdSanitiseUrl path = path
  /-- behind the first, every segment is one of the path's, in its order -/
  segments : (path.splitOn '/').tail.Sublist (url.splitOn '/').tail
  /-- without two `..` in a row, each has taken away the segment before it -/
  resolved : ¬ RepeatedParents (url.splitOn '/') → path = join (resolve (url.splitOn '/'))

/-- Every path is sanitised. -/
theorem path_sanitised (url : Text) : Sanitised url (httpdSanitiseUrl url) := by
  have hclean : Tidy ((httpdSanitiseUrl url).splitOn '/') := by
    rw [splitOn_httpdSanitiseUrl]
    exact middle_normalise _
  refine ⟨fun h => ?_, fun h => ?_, fun h => ?_, ?_, ?_, fun h => ?_⟩
  · exact (hclean [] (mem_middle_of_enclosed (by simp) h)).1 rfl
  · exact (hclean dot (mem_middle_of_enclosed (by decide) h)).2.1 rfl
  · exact (hclean dots (mem_middle_of_enclosed (by decide) h)).2.2 rfl
  · rw [httpdSanitiseUrl_eq (httpdSanitiseUrl url), normalise_of_tidy hclean, join_splitOn]
  · rw [splitOn_httpdSanitiseUrl]
    exact tail_normalise_sublist _
  · rw [httpdSanitiseUrl_eq, normalise_eq_resolve h]

-- of two `..` in a row the second is dropped
example : httpdSanitiseUrl "/a/b/../../c".toList = "/a/c".toList := by decide

end Wifidog
