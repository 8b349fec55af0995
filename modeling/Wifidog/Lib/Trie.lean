/-
  Trees of directories.

  A node holds entries, newest first, and children under keys. `insert` walks along a path,
  makes the nodes that are missing and puts an entry in front of those at the end; `find?` walks
  along a path and stops where a node is missing. What a tree holds under a path (`entriesAt`) is
  what was inserted under exactly that path (`entriesAt_insert`).
-/
import Mathlib.Data.List.Basic

namespace Trie

/-- A node: its entries, and its children. -/
inductive Tree (κ β : Type) where
  | node (entries : List β) (children : List (κ × Tree κ β))

variable {κ β : Type}

def Tree.empty : Tree κ β := .node [] []

def Tree.entries : Tree κ β → List β
  | .node entries _ => entries

def Tree.children : Tree κ β → List (κ × Tree κ β)
  | .node _ children => children

variable [DecidableEq κ]

/-- The first child under a key. -/
def child? (x : κ) : List (κ × Tree κ β) → Option (Tree κ β)
  | [] => none
  | c :: cs => if c.1 = x then some c.2 else child? x cs

/-- Change the first child under a key, if there is one. -/
def alterChild (x : κ) (g : Tree κ β → Tree κ β) :
    List (κ × Tree κ β) → Option (List (κ × Tree κ β))
  | [] => none
  | c :: cs => if c.1 = x then some ((c.1, g c.2) :: cs) else (alterChild x g cs).map (c :: ·)

/-- The node at the end of a path. -/
def find? : List κ → Tree κ β → Option (Tree κ β)
  | [], t => some t
  | x :: path, t =>
    match child? x t.children with
    | none => none
    | some c => find? path c

/-- Put an entry in front of those at the end of a path; a missing child is made, in front of the
    others. -/
def insert (e : β) : List κ → Tree κ β → Tree κ β
  | [], .node entries children => .node (e :: entries) children
  | x :: path, .node entries children =>
    match alterChild x (insert e path) children with
    | some children => .node entries children
    | none => .node entries ((x, insert e path .empty) :: children)

/-- The entries at the end of a path, none where a node is missing. -/
def entriesAt (path : List κ) (t : Tree κ β) : List β :=
  match find? path t with
  | none => []
  | some d => d.entries

/-! ## Children -/

theorem alterChild_eq_none {x : κ} {g : Tree κ β → Tree κ β} {cs : List (κ × Tree κ β)} :
    alterChild x g cs = none ↔ child? x cs = none := by
  induction cs with
  | nil => simp [alterChild, child?]
  | cons c cs ih =>
    by_cases hc : c.1 = x
    · simp [alterChild, child?, hc]
    · simp [alterChild, child?, hc, ih]

theorem child?_alterChild {x : κ} {g : Tree κ β → Tree κ β} {cs cs' : List (κ × Tree κ β)}
    (h : alterChild x g cs = some cs') (y : κ) :
    child? y cs' = if y = x then (child? y cs).map g else child? y cs := by
  induction cs generalizing cs' with
  | nil => cases h
  | cons c cs ih =>
    unfold alterChild at h
    split at h
    · next hc =>
      cases h
      by_cases hy : y = x
      · simp [child?, hc, hy]
      · simp [child?, hc, Ne.symm hy, hy]
    · next hc =>
      obtain ⟨cs'', hcs, rfl⟩ := Option.map_eq_some_iff.mp h
      rw [child?, child?, ih hcs]
      by_cases hcy : c.1 = y
      · have hy : y ≠ x := hcy ▸ hc
        simp [hcy, hy]
      · simp [hcy]

/-! ## Paths -/

/-- A path that is one name longer leads to a child of the node. -/
theorem find?_concat (path : List κ) (x : κ) (t : Tree κ β) :
    find? (path ++ [x]) t = (find? path t).bind fun d => child? x d.children := by
  induction path generalizing t with
  | nil =>
    rw [List.nil_append, find?, find?, Option.bind_some]
    cases child? x t.children <;> rfl
  | cons y path ih =>
    rw [List.cons_append, find?, find?]
    cases child? y t.children with
    | none => rfl
    | some c => exact ih c

/-! ## Entries -/

@[simp] theorem entriesAt_nil (t : Tree κ β) : entriesAt [] t = t.entries := rfl

theorem entriesAt_cons (x : κ) (path : List κ) (t : Tree κ β) :
    entriesAt (x :: path) t =
      match child? x t.children with
      | none => []
      | some c => entriesAt path c := by
  unfold entriesAt
  rw [find?]
  cases child? x t.children <;> rfl

theorem entriesAt_empty (path : List κ) : entriesAt path (.empty : Tree κ β) = [] := by
  cases path <;> rfl

/-- An entry is found under its own path, in front of the others there, and changes nothing under
    any other path, above it or below. -/
theorem entriesAt_insert (e : β) (path q : List κ) (t : Tree κ β) :
    entriesAt q (insert e path t) = if q = path then e :: entriesAt q t else entriesAt q t := by
  induction path generalizing q t with
  | nil =>
    obtain ⟨entries, children⟩ := t
    cases q with
    | nil => rfl
    | cons y q => rfl
  | cons x path ih =>
    obtain ⟨entries, children⟩ := t
    cases q with
    | nil =>
      rw [if_neg (by simp), insert]
      cases alterChild x (insert e path) children <;> rfl
    | cons y q =>
      rw [insert, entriesAt_cons y q (.node entries children)]
      cases halter : alterChild x (insert e path) children with
      | some children' =>
        simp only [entriesAt_cons, Tree.children, child?_alterChild halter]
        by_cases hy : y = x
        · subst hy
          cases hchild : child? y children with
          | none => rw [alterChild_eq_none.mpr hchild] at halter; cases halter
          | some c => simp [ih]
        · simp [hy]
      | none =>
        have hchild := alterChild_eq_none.mp halter
        simp only [entriesAt_cons, Tree.children, child?]
        by_cases hy : y = x
        · subst hy
          simp [hchild, ih, entriesAt_empty]
        · simp [Ne.symm hy, hy]

end Trie
