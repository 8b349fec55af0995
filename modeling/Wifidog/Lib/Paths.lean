/-
  Paths as segments between slashes.

  A path is cut at every slash; the first segment stands in front of the first slash and the last
  one behind the last, and either may be empty. The segments between them are the middle ones.
  `normalise` drops the middle segments that are empty or a single dot, and lets a middle `..` take
  away the segment before it, once: a second `..` right behind finds nothing to take away. A first
  segment that is taken away leaves an empty one.

  `resolve` is the usual reading, in which every `..` takes away one more segment.

  Proved: `middle_normalise` (what is left is tidy), `normalise_of_tidy` (a tidy path stays as it
  is), `tail_normalise_sublist` (no segment is made up), `normalise_eq_resolve` (the two readings
  agree where no two `..` follow each other), and `join_splitOn`, which takes results on segments
  to texts.
-/
import Wifidog.Lib.CText

namespace Wifidog.Paths

open CText

/-- A dot, and two. -/
def dot : Text := ['.']
def dots : Text := ['.', '.']

/-- Segments with a slash in front of each. -/
def behind (segs : List Text) : Text := segs.flatMap ('/' :: ·)

@[simp] theorem behind_nil : behind [] = [] := rfl

@[simp] theorem behind_cons (x : Text) (segs : List Text) :
    behind (x :: segs) = '/' :: (x ++ behind segs) := by
  simp [behind]

theorem behind_append (segs more : List Text) :
    behind (segs ++ more) = behind segs ++ behind more :=
  List.flatMap_append

/-- The text of a path. -/
def join : List Text → Text
  | [] => []
  | first :: rest => first ++ behind rest

theorem join_eq_intercalate (segs : List Text) : join segs = ['/'].intercalate segs := by
  induction segs with
  | nil => rfl
  | cons x segs ih =>
    cases segs with
    | nil => simp [join]
    | cons y segs =>
      rw [List.intercalate_cons_cons, ← ih]
      simp [join]

theorem join_splitOn (path : Text) : join (path.splitOn '/') = path := by
  rw [join_eq_intercalate]
  exact List.intercalate_splitOn '/'

theorem splitOn_join {segs : List Text} (hne : segs ≠ []) (h : ∀ x ∈ segs, '/' ∉ x) :
    (join segs).splitOn '/' = segs := by
  rw [join_eq_intercalate]
  exact List.splitOn_intercalate '/' h hne

theorem join_append_single {done : List Text} (h : done ≠ []) (x : Text) :
    join (done ++ [x]) = join done ++ '/' :: x := by
  cases done with
  | nil => exact absurd rfl h
  | cons first rest => simp [join, behind_append]

/-! ## Normal paths -/

/-- Keep a segment that is not the last only if it has the property. -/
def keepInner (p : Text → Bool) : List Text → List Text
  | [] => []
  | [x] => [x]
  | x :: y :: rest => if p x then x :: keepInner p (y :: rest) else keepInner p (y :: rest)

/-- Take away: `kept` are the segments that stay, `cur` is the one that the next `..` takes away. -/
def cancelParents : (kept : List Text) → (cur : Option Text) → List Text → List Text
  | kept, cur, [] => kept ++ cur.toList
  | kept, cur, [x] => kept ++ cur.toList ++ [x]
  | kept, cur, x :: y :: rest =>
    if x = dots then cancelParents kept (if kept.isEmpty then some [] else none) (y :: rest)
    else cancelParents (kept ++ cur.toList) (some x) (y :: rest)

/-- Neither empty nor a dot. -/
def solid (x : Text) : Bool := x != [] && x != dot

def normalise : List Text → List Text
  | [] => []
  | first :: rest => cancelParents [] (some first) (keepInner solid rest)

/-- The segments between the first and the last. -/
def middle (segs : List Text) : List Text := segs.tail.dropLast

/-- No middle segment is empty, a dot or two dots. -/
def Tidy (segs : List Text) : Prop := ∀ x ∈ middle segs, x ≠ [] ∧ x ≠ dot ∧ x ≠ dots

theorem keepInner_ne_nil {p : Text → Bool} {segs : List Text} (h : segs ≠ []) :
    keepInner p segs ≠ [] := by
  induction segs with
  | nil => exact absurd rfl h
  | cons x segs ih =>
    cases segs with
    | nil => simp [keepInner]
    | cons y rest =>
      unfold keepInner
      split
      · simp
      · exact ih (by simp)

theorem keepInner_cons {p : Text → Bool} {x : Text} {rest : List Text} (h : rest ≠ []) :
    keepInner p (x :: rest) = if p x then x :: keepInner p rest else keepInner p rest := by
  cases rest with
  | nil => exact absurd rfl h
  | cons y rest => rfl

theorem keepInner_sublist (p : Text → Bool) (segs : List Text) :
    (keepInner p segs).Sublist segs := by
  induction segs with
  | nil => exact List.Sublist.refl _
  | cons x segs ih =>
    cases segs with
    | nil => exact List.Sublist.refl _
    | cons y rest =>
      unfold keepInner
      split
      · exact ih.cons_cons x
      · exact ih.cons x

/-- What stands in front of the last segment has the property. -/
theorem of_mem_dropLast_keepInner {p : Text → Bool} {segs : List Text} {x : Text}
    (h : x ∈ (keepInner p segs).dropLast) : p x = true := by
  induction segs with
  | nil => cases h
  | cons y segs ih =>
    cases segs with
    | nil => simp [keepInner] at h
    | cons z rest =>
      rw [keepInner_cons (by simp)] at h
      split at h
      · next hy =>
        rw [List.dropLast_cons_of_ne_nil (keepInner_ne_nil (by simp))] at h
        rcases List.mem_cons.mp h with rfl | h
        · exact hy
        · exact ih h
      · exact ih h

theorem keepInner_eq_self {p : Text → Bool} {segs : List Text}
    (h : ∀ x ∈ segs.dropLast, p x = true) : keepInner p segs = segs := by
  induction segs with
  | nil => rfl
  | cons x segs ih =>
    cases segs with
    | nil => rfl
    | cons y rest =>
      rw [List.dropLast_cons_of_ne_nil (by simp)] at h
      have hx := h x List.mem_cons_self
      rw [keepInner, if_pos hx, ih fun z hz => h z (List.mem_cons_of_mem x hz)]

theorem keepInner_concat (p : Text → Bool) (segs : List Text) (x : Text) :
    keepInner p (segs ++ [x]) = segs.filter p ++ [x] := by
  induction segs with
  | nil => rfl
  | cons y segs ih =>
    rw [List.cons_append, keepInner_cons (by simp), ih, List.filter_cons]
    split <;> rfl

/-- One property after the other. -/
theorem keepInner_keepInner (p q : Text → Bool) (segs : List Text) :
    keepInner p (keepInner q segs) = keepInner (fun x => q x && p x) segs := by
  rcases segs.eq_nil_or_concat with rfl | ⟨segs, x, rfl⟩
  · rfl
  · rw [List.concat_eq_append, keepInner_concat, keepInner_concat, keepInner_concat,
      List.filter_filter]
    simp only [Bool.and_comm]

/-! ## Taking away -/

/-- The segments taken over by the loop: the first, and behind it none that is to be dropped. -/
structure Settled (done : List Text) : Prop where
  ne_nil : done ≠ []
  clean : ∀ x ∈ done.tail, solid x = true ∧ x ≠ dots

theorem Settled.single (x : Text) : Settled [x] := ⟨by simp, by simp⟩

theorem Settled.push {done : List Text} (h : Settled done) {x : Text} (hx : solid x = true)
    (hdots : x ≠ dots) : Settled (done ++ [x]) := by
  refine ⟨by simp, ?_⟩
  rw [List.tail_append_of_ne_nil h.ne_nil]
  intro y hy
  rcases List.mem_append.mp hy with hy | hy
  · exact h.clean y hy
  · rw [List.mem_singleton.mp hy]
    exact ⟨hx, hdots⟩

/-- What is left when the last segment is taken away. -/
theorem Settled.pop {kept : List Text} {cur : Option Text} (h : Settled (kept ++ cur.toList)) :
    Settled (kept ++ (if kept.isEmpty then some [] else none : Option Text).toList) := by
  cases kept with
  | nil => exact Settled.single []
  | cons first kept =>
    refine ⟨by simp, fun x hx => h.clean x ?_⟩
    simp only [List.isEmpty_cons, Bool.false_eq_true, if_false, Option.toList_none,
      List.append_nil] at hx
    exact List.mem_append_left _ hx

theorem middle_append_last {done : List Text} (h : done ≠ []) (x : Text) :
    middle (done ++ [x]) = done.tail := by
  unfold middle
  rw [List.tail_append_of_ne_nil h, List.dropLast_concat]

/-- Two texts one after the other: the last segment of the first runs on into the second. -/
theorem splitOn_append (p q : Text) : ∃ init last first rest,
    p.splitOn '/' = init ++ [last] ∧ q.splitOn '/' = first :: rest ∧
      (p ++ q).splitOn '/' = init ++ (last ++ first) :: rest := by
  obtain ⟨init, last, hp⟩ : ∃ init last, p.splitOn '/' = init ++ [last] :=
    ⟨_, _, (List.dropLast_append_getLast (List.splitOnP_ne_nil (· == '/') p)).symm⟩
  obtain ⟨first, rest, hq⟩ : ∃ first rest, q.splitOn '/' = first :: rest :=
    List.exists_cons_of_ne_nil (List.splitOnP_ne_nil (· == '/') q)
  refine ⟨init, last, first, rest, hp, hq, ?_⟩
  have hpsegs : ∀ x ∈ init ++ [last], '/' ∉ x := fun x hx => sep_not_mem_piece (hp ▸ hx)
  have hqsegs : ∀ x ∈ first :: rest, '/' ∉ x := fun x hx => sep_not_mem_piece (hq ▸ hx)
  have hjoin : p ++ q = join (init ++ (last ++ first) :: rest) := by
    conv_lhs => rw [← join_splitOn p, ← join_splitOn q, hp, hq]
    cases init with
    | nil => simp [join]
    | cons x init => simp [join, behind_append]
  rw [hjoin, splitOn_join (by simp)]
  intro x hx
  simp only [List.mem_append, List.mem_cons] at hx
  rcases hx with hx | rfl | hx
  · exact hpsegs x (List.mem_append_left _ hx)
  · rw [List.mem_append, not_or]
    exact ⟨hpsegs last (by simp), hqsegs first List.mem_cons_self⟩
  · exact hqsegs x (List.mem_cons_of_mem _ hx)

theorem middle_concat (init : List Text) (x : Text) : middle (init ++ [x]) = init.tail := by
  cases init with
  | nil => rfl
  | cons y init => exact middle_append_last (by simp) x

/-- What stands behind the last slash does not matter for the segments before it. -/
theorem tidy_append {path more : Text} (h : Tidy (path.splitOn '/')) (hmore : '/' ∉ more) :
    Tidy ((path ++ more).splitOn '/') := by
  obtain ⟨init, last, first, rest, hpath, hsplit, happend⟩ := splitOn_append path more
  have hrest : rest = [] := by
    have hone : more.splitOn '/' = [more] :=
      List.splitOnP_eq_singleton fun x hx => by simpa using ne_of_mem_of_not_mem hx hmore
    rw [hone] at hsplit
    exact (List.cons.inj hsplit).2.symm
  unfold Tidy at h ⊢
  rw [hpath, middle_concat] at h
  rw [happend, hrest, middle_concat]
  exact h

theorem tidy_left {p q : Text} (h : Tidy ((p ++ q).splitOn '/')) : Tidy (p.splitOn '/') := by
  obtain ⟨init, last, first, rest, hpath, hsplit, happend⟩ := splitOn_append p q
  unfold Tidy at h ⊢
  rw [happend] at h
  rw [hpath, middle_concat]
  intro x hx
  refine h x ?_
  cases init with
  | nil => cases hx
  | cons y init =>
    rw [middle, List.cons_append, List.tail_cons, List.dropLast_append_of_ne_nil (by simp)]
    exact List.mem_append_left _ hx

/-- The loop leaves no middle segment that is to be dropped. -/
theorem middle_cancelParents {kept : List Text} {cur : Option Text} {segs : List Text}
    (hdone : Settled (kept ++ cur.toList)) (hsegs : ∀ x ∈ segs.dropLast, solid x = true) {x : Text}
    (hx : x ∈ middle (cancelParents kept cur segs)) : solid x = true ∧ x ≠ dots := by
  induction segs generalizing kept cur with
  | nil => exact hdone.clean x (List.mem_of_mem_dropLast hx)
  | cons y segs ih =>
    cases segs with
    | nil =>
      rw [cancelParents, middle_append_last hdone.ne_nil] at hx
      exact hdone.clean x hx
    | cons z rest =>
      rw [List.dropLast_cons_of_ne_nil (by simp)] at hsegs
      have hrest : ∀ x ∈ (z :: rest).dropLast, solid x = true :=
        fun x hx => hsegs x (List.mem_cons_of_mem y hx)
      rw [cancelParents] at hx
      split at hx
      · exact ih hdone.pop hrest hx
      · next hy => exact ih (hdone.push (hsegs y List.mem_cons_self) hy) hrest hx

theorem tail_cancelParents_sublist {kept : List Text} {cur : Option Text} {segs : List Text}
    (hdone : kept ++ cur.toList ≠ []) :
    (cancelParents kept cur segs).tail.Sublist ((kept ++ cur.toList).tail ++ segs) := by
  induction segs generalizing kept cur with
  | nil => simp [cancelParents]
  | cons y segs ih =>
    cases segs with
    | nil =>
      rw [cancelParents, List.tail_append_of_ne_nil hdone]
    | cons z rest =>
      rw [cancelParents]
      split
      · cases kept with
        | nil =>
          refine (ih (by simp)).trans ?_
          simp
        | cons first kept =>
          refine (ih (by simp)).trans ?_
          simp only [List.isEmpty_cons, Bool.false_eq_true, if_false, Option.toList_none,
            List.append_nil, List.cons_append, List.tail_cons, List.append_assoc]
          exact (List.Sublist.refl kept).append ((List.sublist_cons_self y _).trans
            (List.sublist_append_right _ _))
      · refine (ih (by simp)).trans ?_
        rw [Option.toList_some, List.tail_append_of_ne_nil hdone, List.append_assoc,
          List.singleton_append]

/-- Without `..` in front of the last segment nothing is taken away. -/
theorem cancelParents_eq {kept : List Text} {cur : Option Text} {segs : List Text}
    (h : dots ∉ segs.dropLast) : cancelParents kept cur segs = kept ++ cur.toList ++ segs := by
  induction segs generalizing kept cur with
  | nil => simp [cancelParents]
  | cons y segs ih =>
    cases segs with
    | nil => rfl
    | cons z rest =>
      rw [List.dropLast_cons_of_ne_nil (by simp), List.mem_cons, not_or] at h
      rw [cancelParents, if_neg (Ne.symm h.1), ih h.2]
      simp

/-! ## `normalise` -/

theorem middle_normalise (segs : List Text) : Tidy (normalise segs) := by
  cases segs with
  | nil => intro x hx; cases hx
  | cons first rest =>
    intro x hx
    have hfirst : Settled ([] ++ (some first).toList) := Settled.single first
    obtain ⟨hsolid, hdots⟩ := middle_cancelParents hfirst
      (fun y hy => of_mem_dropLast_keepInner hy) hx
    simp only [solid, Bool.and_eq_true, bne_iff_ne] at hsolid
    exact ⟨hsolid.1, hsolid.2, hdots⟩

theorem normalise_of_tidy {segs : List Text} (h : Tidy segs) : normalise segs = segs := by
  cases segs with
  | nil => rfl
  | cons first rest =>
    have hkeep : keepInner solid rest = rest :=
      keepInner_eq_self fun x hx => by simp [solid, (h x hx).1, (h x hx).2.1]
    have hdots : dots ∉ rest.dropLast := fun hmem => (h dots hmem).2.2 rfl
    rw [normalise, hkeep, cancelParents_eq hdots]
    rfl

theorem tail_normalise_sublist (segs : List Text) : (normalise segs).tail.Sublist segs.tail := by
  cases segs with
  | nil => exact List.Sublist.refl _
  | cons first rest =>
    have hfirst : [] ++ (some first).toList ≠ [] := by simp
    refine (tail_cancelParents_sublist hfirst).trans ?_
    simpa using keepInner_sublist solid rest

theorem mem_cancelParents {kept : List Text} {cur : Option Text} {segs : List Text} {x : Text}
    (h : x ∈ cancelParents kept cur segs) : x = [] ∨ x ∈ kept ++ cur.toList ∨ x ∈ segs := by
  induction segs generalizing kept cur with
  | nil => exact .inr (.inl h)
  | cons y segs ih =>
    cases segs with
    | nil => exact .inr (List.mem_append.mp h)
    | cons z rest =>
      rw [cancelParents] at h
      split at h
      · rcases ih h with h | h | h
        · exact .inl h
        · rcases List.mem_append.mp h with h | h
          · exact .inr (.inl (List.mem_append_left _ h))
          · split at h
            · exact .inl (by simpa using h)
            · cases h
        · exact .inr (.inr (List.mem_cons_of_mem y h))
      · rcases ih h with h | h | h
        · exact .inl h
        · rcases List.mem_append.mp h with h | h
          · exact .inr (.inl h)
          · rw [Option.toList_some, List.mem_singleton] at h
            exact .inr (.inr (h ▸ List.mem_cons_self))
        · exact .inr (.inr (List.mem_cons_of_mem y h))

/-- A segment of the result is one of the path's, or the empty one in the place of the first. -/
theorem mem_normalise {segs : List Text} {x : Text} (h : x ∈ normalise segs) :
    x = [] ∨ x ∈ segs := by
  cases segs with
  | nil => cases h
  | cons first rest =>
    rcases mem_cancelParents h with h | h | h
    · exact .inl h
    · exact .inr (by simpa using Or.inl h)
    · exact .inr (List.mem_cons_of_mem first ((keepInner_sublist solid rest).subset h))

theorem cancelParents_ne_nil {kept : List Text} {cur : Option Text} {segs : List Text}
    (hdone : kept ++ cur.toList ≠ []) : cancelParents kept cur segs ≠ [] := by
  induction segs generalizing kept cur with
  | nil => exact hdone
  | cons y segs ih =>
    cases segs with
    | nil => simp [cancelParents]
    | cons z rest =>
      rw [cancelParents]
      split
      · cases kept with
        | nil => exact ih (by simp)
        | cons first kept => exact ih (by simp)
      · exact ih (by simp)

theorem normalise_ne_nil {segs : List Text} (h : segs ≠ []) : normalise segs ≠ [] := by
  cases segs with
  | nil => exact absurd rfl h
  | cons first rest => exact cancelParents_ne_nil (by simp)

/-- A sequence between two slashes is an middle segment. -/
theorem mem_middle_of_enclosed {w path : Text} (hw : '/' ∉ w)
    (h : '/' :: (w ++ ['/']) <:+: path) : w ∈ middle (path.splitOn '/') := by
  obtain ⟨a, b, rfl⟩ := h
  have hshape : a ++ '/' :: (w ++ ['/']) ++ b = a ++ '/' :: (w ++ '/' :: b) := by simp
  have hsplit : (a ++ '/' :: (w ++ '/' :: b)).splitOn '/' =
      a.splitOn '/' ++ ([w] ++ b.splitOn '/') := by
    have hword : w.splitOn '/' = [w] :=
      List.splitOnP_eq_singleton fun c hc => by simpa using ne_of_mem_of_not_mem hc hw
    rw [← hword]
    exact (List.splitOnP_append_cons a _ (by simp)).trans
      (congrArg (a.splitOn '/' ++ ·) (List.splitOnP_append_cons w b (by simp)))
  have ha : a.splitOn '/' ≠ [] := List.splitOnP_ne_nil _ _
  have hb : b.splitOn '/' ≠ [] := List.splitOnP_ne_nil _ _
  rw [hshape, middle, hsplit, List.tail_append_of_ne_nil ha,
    List.dropLast_append_of_ne_nil (by simp), List.dropLast_append_of_ne_nil hb]
  exact List.mem_append_right _ (List.mem_append_left _ List.mem_cons_self)

/-! ## The usual reading -/

/-- Take away the last segment; the first leaves an empty one. -/
def pop (stack : List Text) : List Text := if stack.length ≤ 1 then [[]] else stack.dropLast

def resolveParents : (stack : List Text) → List Text → List Text
  | stack, [] => stack
  | stack, [x] => stack ++ [x]
  | stack, x :: y :: rest =>
    if x = dots then resolveParents (pop stack) (y :: rest)
    else resolveParents (stack ++ [x]) (y :: rest)

/-- Every middle `..` takes away one segment. -/
def resolve : List Text → List Text
  | [] => []
  | first :: rest => resolveParents [first] (keepInner solid rest)

/-- Two `..` in a row, with empty segments and dots passed over. -/
def RepeatedParents (segs : List Text) : Prop :=
  [dots, dots] <:+: (keepInner solid segs.tail).dropLast

theorem cancelParents_eq_resolveParents {kept : List Text} {cur : Option Text} {segs : List Text}
    (hfirst : cur = none → segs.head? ≠ some dots ∨ segs.length ≤ 1)
    (h : ¬ [dots, dots] <:+: segs.dropLast) :
    cancelParents kept cur segs = resolveParents (kept ++ cur.toList) segs := by
  induction segs generalizing kept cur with
  | nil => rfl
  | cons x segs ih =>
    cases segs with
    | nil => rfl
    | cons y rest =>
      rw [List.dropLast_cons_of_ne_nil (by simp)] at h
      have hrest : ¬ [dots, dots] <:+: (y :: rest).dropLast :=
        fun hin => h (hin.trans (List.suffix_cons x _).isInfix)
      rw [cancelParents, resolveParents]
      split
      · next hx =>
        obtain ⟨c, rfl⟩ : ∃ c, cur = some c := by
          cases cur with
          | some c => exact ⟨c, rfl⟩
          | none =>
            rcases hfirst rfl with hne | hlen
            · exact absurd (by rw [hx]; rfl) hne
            · simp at hlen
        -- the next segment is no `..`, so what is taken away is the segment just put there
        have hnext : (y :: rest).head? ≠ some dots ∨ (y :: rest).length ≤ 1 := by
          by_contra hcon
          rw [not_or, not_not, List.head?_cons, Option.some.injEq] at hcon
          refine h ?_
          cases rest with
          | nil => simp at hcon
          | cons z rest =>
            rw [hx, hcon.1, List.dropLast_cons_of_ne_nil (by simp)]
            exact (List.prefix_append [dots, dots] _).isInfix
        have hpop : pop (kept ++ [c]) =
            kept ++ (if kept.isEmpty then some [] else none : Option Text).toList := by
          cases kept with
          | nil => rfl
          | cons first kept =>
            rw [pop, if_neg (by simp), List.dropLast_concat]
            simp
        rw [ih (fun _ => hnext) hrest, Option.toList_some, hpop]
      · rw [ih (fun hnone => by cases hnone) hrest]
        rfl

/-- The two readings agree on paths without two `..` in a row. -/
theorem normalise_eq_resolve {segs : List Text} (h : ¬ RepeatedParents segs) :
    normalise segs = resolve segs := by
  cases segs with
  | nil => rfl
  | cons first rest => exact cancelParents_eq_resolveParents (fun hnone => by cases hnone) h

end Wifidog.Paths
