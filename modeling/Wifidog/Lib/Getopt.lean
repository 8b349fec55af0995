/-
  `getopt`, as POSIX splits a command line into options.

  A word `-abc` is a bundle of option letters. A letter that takes an argument takes what is left of
  its word, or the next word when nothing is left. Options end at `--` and at the first word that is
  not one. An unknown letter and a missing argument are the option `?`.

  Proved: `getopt_written` (options written as words of their own are read back), `mem_getopt` (what
  options there are).
-/
import Wifidog.Lib.CText

namespace Wifidog.Getopt

open CText

/-- The option letters; `true` for those with an argument. -/
abbrev Spec := Char → Option Bool

/-- What one call of `getopt` returns, and `optarg`. -/
abbrev Opt := Char × Option Text

/-- The options of a bundle, and the last letter if it waits for the next word. -/
def splitBundle (spec : Spec) : Text → List Opt × Option Char
  | [] => ([], none)
  | c :: cs =>
    match spec c with
    | none => (('?', none) :: (splitBundle spec cs).1, (splitBundle spec cs).2)
    | some false => ((c, none) :: (splitBundle spec cs).1, (splitBundle spec cs).2)
    | some true => if cs.isEmpty then ([], some c) else ([(c, some cs)], none)

/-- The letters of a word that is a bundle. -/
def bundle? : Text → Option Text
  | '-' :: '-' :: [] => none
  | '-' :: [] => none
  | '-' :: cs => some cs
  | _ => none

/-- All the options of a command line; `pending` is a letter that waits for its argument. -/
def getoptFrom (spec : Spec) : (pending : Option Char) → List Text → List Opt
  | none, [] => []
  | some _, [] => [('?', none)]
  | some c, word :: words => (c, some word) :: getoptFrom spec none words
  | none, word :: words =>
    match bundle? word with
    | none => []
    | some cs => (splitBundle spec cs).1 ++ getoptFrom spec (splitBundle spec cs).2 words

def getopt (spec : Spec) (words : List Text) : List Opt := getoptFrom spec none words

/-- An option as words of its own. -/
def written : Opt → List Text
  | (c, none) => [['-', c]]
  | (c, some arg) => [['-', c], arg]

/-- The letter is known, and the argument is there if the letter takes one. -/
def WellFormed (spec : Spec) (o : Opt) : Prop := spec o.1 = some o.2.isSome

/-- The options of one word, and the option that waits for its argument. -/
theorem mem_splitBundle (spec : Spec) (cs : Text) :
    (∀ o ∈ (splitBundle spec cs).1, o = ('?', none) ∨ WellFormed spec o) ∧
      ∀ c ∈ (splitBundle spec cs).2, spec c = some true := by
  induction cs with
  | nil => exact ⟨by simp [splitBundle], by simp [splitBundle]⟩
  | cons c cs ih =>
    unfold splitBundle
    cases hc : spec c with
    | none => exact ⟨by simpa using ih.1, ih.2⟩
    | some takes =>
      cases takes with
      | false =>
        refine ⟨?_, ih.2⟩
        intro o ho
        rcases List.mem_cons.mp ho with rfl | ho
        · exact Or.inr hc
        · exact ih.1 o ho
      | true =>
        show (∀ o ∈ (if cs.isEmpty then ([], some c) else ([(c, some cs)], none)).1, _) ∧ _
        split
        · refine ⟨by simp, ?_⟩
          rintro d hd
          rw [← Option.some.inj hd, hc]
        · refine ⟨?_, by simp⟩
          intro o ho
          rw [List.mem_singleton.mp ho]
          exact Or.inr hc

/-- What `getopt` returns is well-formed or `?`. -/
theorem mem_getoptFrom {spec : Spec} {pending : Option Char} {words : List Text}
    (hpending : ∀ c ∈ pending, spec c = some true) :
    ∀ o ∈ getoptFrom spec pending words, o = ('?', none) ∨ WellFormed spec o := by
  induction words generalizing pending with
  | nil =>
    cases pending with
    | none => simp [getoptFrom]
    | some c => simp [getoptFrom]
  | cons word words ih =>
    cases pending with
    | some c =>
      intro o ho
      rcases List.mem_cons.mp ho with rfl | ho
      · exact Or.inr (hpending c rfl)
      · exact ih (by simp) o ho
    | none =>
      unfold getoptFrom
      split
      · simp
      · rename_i cs _
        obtain ⟨hopts, hpending⟩ := mem_splitBundle spec cs
        intro o ho
        rcases List.mem_append.mp ho with ho | ho
        · exact hopts o ho
        · exact ih hpending o ho

/-- Options written as words of their own are read back. -/
theorem getopt_written {spec : Spec} (hdash : spec '-' = none) {opts : List Opt}
    (h : ∀ o ∈ opts, WellFormed spec o) (words : List Text) :
    getopt spec (opts.flatMap written ++ words) = opts ++ getopt spec words := by
  induction opts with
  | nil => rfl
  | cons o opts ih =>
    have ih' := ih fun p hp => h p (List.mem_cons_of_mem o hp)
    have ho := h o List.mem_cons_self
    obtain ⟨c, arg⟩ := o
    have hc : c ≠ '-' := by
      rintro rfl
      rw [WellFormed, hdash] at ho
      cases ho
    have hbundle : bundle? ['-', c] = some [c] := by
      unfold bundle?
      split <;> simp_all
    unfold getopt at ih' ⊢
    cases arg with
    | none =>
      rw [List.flatMap_cons, written, List.append_assoc, List.singleton_append, getoptFrom, hbundle]
      simp only [splitBundle, show spec c = some false from ho, List.nil_append, ih',
        List.cons_append]
    | some arg =>
      rw [List.flatMap_cons, written, List.append_assoc, List.cons_append, List.singleton_append,
        getoptFrom, hbundle]
      simp only [splitBundle, show spec c = some true from ho, List.isEmpty_nil, if_true,
        List.nil_append, getoptFrom, ih', List.cons_append]

end Wifidog.Getopt
