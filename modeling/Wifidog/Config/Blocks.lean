/-
  The lines of a block, as texts.

  `blockWords` cuts a line in its buffer. Seen as a text, such a line is
  `lead ++ body ++ d :: tail`: leading blanks, what is read, the character `d` where the line is
  cut (a `#`, else a CR, else the LF), and what lies behind the cut. `blockText` is the result in
  these terms, and `blockWords_eq` says that it is. The tail matters in one case: when the body is
  a single word, the pointer that should go to the next word goes over the cut.
-/
import Wifidog.Model.ConfFile
import Mathlib.Data.List.DropRight

namespace Wifidog

open CText

/-- What `blockWords` makes of a body and the text behind the cut. -/
def blockText (trim : Bool) (body tail : Text) : Option (Text × Text) :=
  if body = [] then none
  else
    match body.dropWhile (!isBlank ·) with
    | [] => some (body, tail.dropWhile isBlank)
    | _ :: rest => some (body.takeWhile (!isBlank ·),
        (if trim then rest.rdropWhile isBlank else rest).dropWhile isBlank)

/-- `d` is where the line is cut. -/
def CutAt (d : Char) (body tail : Text) : Prop :=
  d = '#' ∧ '#' ∉ body ∨
    d = '\r' ∧ '#' ∉ body ++ tail ∧ '\r' ∉ body ∨
    d = '\n' ∧ '#' ∉ body ++ tail ∧ '\r' ∉ body ++ tail ∧ '\n' ∉ body

/-! ## The cut -/

theorem strchrAt_hit {lead body tail : Text} {d : Char} (hbody : '\x00' ∉ body) (hd : d ≠ '\x00')
    (hnot : d ∉ body) : strchrAt (lead ++ (body ++ d :: tail)) lead.length d =
      some (lead.length + body.length) := by
  have hall : ∀ c ∈ body, (c != '\x00') = true := by
    intro c hc
    simpa using ne_of_mem_of_not_mem hc hbody
  unfold strchrAt cstrAt
  rw [List.drop_left, List.takeWhile_append_of_pos hall,
    List.takeWhile_cons_of_pos (by simpa using hd), List.findIdx?_append,
    findIdx?_of_not_mem hnot, List.findIdx?_cons]
  simp

theorem strchrAt_miss {lead text rest : Text} {c : Char} (htext : '\x00' ∉ text) (hnot : c ∉ text) :
    strchrAt (lead ++ (text ++ '\x00' :: rest)) lead.length c = none := by
  unfold strchrAt
  rw [cstrAt_append htext, findIdx?_of_not_mem hnot]
  rfl

/-- Where the line is cut. -/
theorem cut_eq {lead body tail rest : Text} {d : Char} (h : CutAt d body tail)
    (hnul : '\x00' ∉ body ++ tail) :
    let buf := lead ++ (body ++ d :: (tail ++ '\x00' :: rest))
    (strchrAt buf lead.length '#').or
        ((strchrAt buf lead.length '\r').or (strchrAt buf lead.length '\n')) =
      some (lead.length + body.length) := by
  intro buf
  have hbody : '\x00' ∉ body := fun hmem => hnul (List.mem_append_left _ hmem)
  have hmiss : ∀ c, c ≠ d → d ≠ '\x00' → c ∉ body ++ tail → strchrAt buf lead.length c = none := by
    intro c hcd hd hc
    have htext : '\x00' ∉ body ++ d :: tail := by
      simp only [List.mem_append, List.mem_cons, not_or] at hnul ⊢
      exact ⟨hnul.1, Ne.symm hd, hnul.2⟩
    have hnot : c ∉ body ++ d :: tail := by
      simp only [List.mem_append, List.mem_cons, not_or] at hc ⊢
      exact ⟨hc.1, hcd, hc.2⟩
    have hshape : buf = lead ++ ((body ++ d :: tail) ++ '\x00' :: rest) := by simp [buf]
    rw [hshape, strchrAt_miss htext hnot]
  rcases h with ⟨rfl, hnot⟩ | ⟨rfl, hsharp, hnot⟩ | ⟨rfl, hsharp, hcr, hnot⟩
  · rw [strchrAt_hit hbody (by decide) hnot]
    rfl
  · rw [hmiss '#' (by decide) (by decide) hsharp, strchrAt_hit hbody (by decide) hnot]
    rfl
  · rw [hmiss '#' (by decide) (by decide) hsharp, hmiss '\r' (by decide) (by decide) hcr,
      strchrAt_hit hbody (by decide) hnot]
    rfl

/-! ## Trimming -/

theorem set_at (pre rest : Text) (c x : Char) :
    (pre ++ c :: rest).set pre.length x = pre ++ x :: rest := by
  rw [List.set_append_right _ _ (Nat.le_refl _)]
  simp

theorem getD_at (pre rest : Text) (c d : Char) : (pre ++ c :: rest).getD pre.length d = c := by
  simp

/-- The loop that trims blanks turns those behind the last other character into NULs. -/
theorem trimBlanks_eq {pre : Text} {p1 : Nat} (hp1 : p1 ≤ pre.length) {z : Char}
    (hz : isBlank z = false) {blanks : Text} (hblanks : ∀ c ∈ blanks, isBlank c = true)
    (rest : Text) :
    trimBlanks (pre ++ z :: (blanks ++ rest)) p1 (pre.length + blanks.length) =
      pre ++ z :: (List.replicate blanks.length '\x00' ++ rest) := by
  induction blanks using List.reverseRecOn generalizing rest with
  | nil =>
    rw [List.nil_append, List.length_nil, List.replicate_zero, List.nil_append, Nat.add_zero]
    cases hp : pre.length with
    | zero => rfl
    | succ p => rw [trimBlanks, ← hp, getD_at, hz]; rfl
  | append_singleton blanks x ih =>
    have hx : isBlank x = true := hblanks x (by simp)
    have hshape : pre ++ z :: (blanks ++ [x] ++ rest) = (pre ++ z :: blanks) ++ x :: rest := by simp
    have hpos : pre.length + (blanks ++ [x]).length = (pre ++ z :: blanks).length := by simp
    have hsucc : (pre ++ z :: blanks).length = pre.length + blanks.length + 1 := by simp; omega
    have hafter : pre.length + blanks.length + 1 > p1 := by omega
    rw [hshape, hpos, hsucc, trimBlanks, ← hsucc, getD_at, set_at, hx]
    rw [if_pos (by simp [hsucc, hafter])]
    have hfront : pre ++ z :: blanks ++ '\x00' :: rest =
        pre ++ z :: (blanks ++ '\x00' :: rest) := by simp
    rw [hfront, ih (fun c hc => hblanks c (List.mem_append_left _ hc)), List.length_append,
      List.length_singleton, List.replicate_succ']
    simp

/-- Trimming the body of a line. -/
theorem trimBlanks_body (lead : Text) {core blanks : Text} (hne : core ≠ [])
    (hlast : isBlank (core.getLast hne) = false) (hblanks : ∀ c ∈ blanks, isBlank c = true)
    (z : Text) :
    trimBlanks (lead ++ (core ++ blanks ++ '\x00' :: z)) lead.length
        (lead.length + (core ++ blanks).length - 1) =
      lead ++ (core ++ '\x00' :: (List.replicate blanks.length '\x00' ++ z)) := by
  have hcore := List.dropLast_append_getLast hne
  generalize core.getLast hne = last at hcore hlast
  generalize core.dropLast = front at hcore
  subst hcore
  have htrim := trimBlanks_eq (by simp : lead.length ≤ (lead ++ front).length) hlast hblanks
    ('\x00' :: z)
  have hstart : lead.length + (front ++ [last] ++ blanks).length - 1 =
      (lead ++ front).length + blanks.length := by
    simp
    omega
  have hshape : lead ++ (front ++ [last] ++ blanks ++ '\x00' :: z) =
      (lead ++ front) ++ last :: (blanks ++ '\x00' :: z) := by simp
  have hzeros : List.replicate blanks.length '\x00' ++ '\x00' :: z =
      '\x00' :: (List.replicate blanks.length '\x00' ++ z) := by
    rw [← List.cons_append, ← List.replicate_succ, List.replicate_succ', List.append_assoc]
    rfl
  rw [hshape, hstart, htrim, hzeros]
  simp

/-! ## The two words -/

theorem takeWhile_isBlank_nul (v rest : Text) :
    (v ++ '\x00' :: rest).takeWhile isBlank = v.takeWhile isBlank := by
  induction v with
  | nil => rfl
  | cons c v ih =>
    cases hc : isBlank c with
    | false => simp [hc]
    | true => simpa [hc] using ih

/-- The end of `blockWords`: the word is cut, and the pointer goes on behind it. -/
theorem wordValue_eq (lead rest : Text) {word v : Text} {y : Char} (hne : word ≠ [])
    (hword : ∀ c ∈ word, isBlank c = false ∧ c ≠ '\x00') (hy : isBlank y = true ∨ y = '\x00')
    (hv : '\x00' ∉ v) :
    let buf := lead ++ (word ++ y :: (v ++ '\x00' :: rest))
    let cut := lead ++ (word ++ '\x00' :: (v ++ '\x00' :: rest))
    (cstrAt buf lead.length).isEmpty = false ∧
      ((cstrAt buf lead.length).takeWhile (!isBlank ·)).length = word.length ∧
      buf.set (lead.length + word.length) '\x00' = cut ∧ cstrAt cut lead.length = word ∧
      cstrAt cut (skipBlanks cut (lead.length + word.length + 1)) = v.dropWhile isBlank := by
  intro buf cut
  have hnul : '\x00' ∉ word := fun hmem => (hword _ hmem).2 rfl
  have hcstr : cstrAt buf lead.length =
      word ++ (y :: (v ++ '\x00' :: rest)).takeWhile (· != '\x00') := by
    unfold cstrAt buf
    rw [List.drop_left, List.takeWhile_append_of_pos]
    intro c hc
    simpa using (hword c hc).2
  have hstop :
      ((y :: (v ++ '\x00' :: rest)).takeWhile (· != '\x00')).takeWhile (!isBlank ·) = [] := by
    rcases hy with hy | rfl
    · cases hyn : (y != '\x00') with
      | false => rw [List.takeWhile_cons_of_neg (by simp [hyn])]; rfl
      | true =>
        rw [List.takeWhile_cons_of_pos (by simpa using hyn),
          List.takeWhile_cons_of_neg (by simp [hy])]
    · rfl
  have hskip : skipBlanks cut (lead.length + word.length + 1) =
      (lead ++ (word ++ '\x00' :: v.takeWhile isBlank)).length := by
    have hdrop : cut.drop (lead.length + word.length + 1) = v ++ '\x00' :: rest := by
      have hshape : cut = (lead ++ (word ++ ['\x00'])) ++ (v ++ '\x00' :: rest) := by simp [cut]
      have hlen : lead.length + word.length + 1 = (lead ++ (word ++ ['\x00'])).length := by
        simp [Nat.add_assoc]
      rw [hshape, hlen, List.drop_left]
    unfold skipBlanks
    rw [hdrop, takeWhile_isBlank_nul]
    simp
    omega
  refine ⟨?_, ?_, ?_, cstrAt_append hnul lead _, ?_⟩
  · rw [hcstr]
    simp [hne]
  · rw [hcstr, List.takeWhile_append_of_pos fun c hc => by simp [(hword c hc).1], hstop,
      List.append_nil]
  · have hset := set_at (lead ++ word) (v ++ '\x00' :: rest) y '\x00'
    rw [List.length_append, List.append_assoc, List.append_assoc] at hset
    exact hset
  · have hshape : cut =
        (lead ++ (word ++ '\x00' :: v.takeWhile isBlank)) ++
          (v.dropWhile isBlank ++ '\x00' :: rest) := by
      have hsplit := List.takeWhile_append_dropWhile (p := isBlank) (l := v)
      simp only [cut, List.append_assoc, List.cons_append]
      rw [← List.append_assoc (v.takeWhile isBlank), hsplit]
    rw [hskip, hshape, cstrAt_append]
    exact fun hmem => hv ((List.dropWhile_suffix isBlank).subset hmem)

/-- Trimming when a blank follows the first word. -/
theorem trimmed_rest (lead : Text) {word rest : Text} {x : Char} (hne : word ≠ [])
    (hword : ∀ c ∈ word, isBlank c = false ∧ c ≠ '\x00') (hx : isBlank x = true)
    (hnul : '\x00' ∉ rest) (z : Text) :
    ∃ y v rest',
      trimBlanks (lead ++ (word ++ x :: rest ++ '\x00' :: z)) lead.length
          (lead.length + (word ++ x :: rest).length - 1) =
          lead ++ (word ++ y :: (v ++ '\x00' :: rest')) ∧
        (isBlank y = true ∨ y = '\x00') ∧ '\x00' ∉ v ∧ v = rest.rdropWhile isBlank := by
  have hsplit := List.rdropWhile_append_rtakeWhile (p := isBlank) (l := rest)
  have hblanks : ∀ c ∈ rest.rtakeWhile isBlank, isBlank c = true :=
    fun c hc => List.mem_rtakeWhile_imp hc
  have hvnul : '\x00' ∉ rest.rdropWhile isBlank :=
    fun hmem => hnul ((List.rdropWhile_prefix isBlank rest).subset hmem)
  have hlast := List.rdropWhile_last_not isBlank rest
  generalize rest.rdropWhile isBlank = v at hsplit hvnul hlast ⊢
  generalize rest.rtakeWhile isBlank = blanks at hsplit hblanks
  subst hsplit
  cases v with
  | nil =>
    -- nothing but blanks behind the word, which go with the one after it
    have htrim := trimBlanks_body lead hne (hword _ (List.getLast_mem hne)).1
      (by simpa [hx] using hblanks : ∀ c ∈ x :: blanks, isBlank c = true) z
    rw [List.nil_append, htrim, List.length_cons, List.replicate_succ]
    exact ⟨'\x00', [], _, rfl, Or.inr rfl, List.not_mem_nil, rfl⟩
  | cons c v =>
    have hcore : word ++ x :: c :: v ≠ [] := by simp
    have hend : isBlank ((word ++ x :: c :: v).getLast hcore) = false := by
      rw [List.getLast_append_of_right_ne_nil _ _ (by simp), List.getLast_cons (by simp)]
      simpa using hlast (by simp)
    have htrim := trimBlanks_body lead hcore hend hblanks z
    have hshape : word ++ x :: (c :: v ++ blanks) = word ++ x :: c :: v ++ blanks := by simp
    rw [hshape, htrim]
    refine ⟨x, c :: v, List.replicate blanks.length '\x00' ++ z, ?_, Or.inl hx, hvnul, rfl⟩
    simp

/-- The buffer when the first word is cut. -/
theorem trimmed_shape (trim : Bool) (lead z : Text) {body tail : Text} (hne : body ≠ [])
    (hhead : ∀ c ∈ body.head?, isBlank c = false) (hnul : '\x00' ∉ body ++ tail) :
    let buf := lead ++ (body ++ '\x00' :: (tail ++ '\x00' :: z))
    ∃ word y v rest,
      (if trim then trimBlanks buf lead.length (lead.length + body.length - 1) else buf) =
          lead ++ (word ++ y :: (v ++ '\x00' :: rest)) ∧
        word ≠ [] ∧ (∀ c ∈ word, isBlank c = false ∧ c ≠ '\x00') ∧
        (isBlank y = true ∨ y = '\x00') ∧ '\x00' ∉ v ∧
        blockText trim body tail = some (word, v.dropWhile isBlank) := by
  intro buf
  simp only [List.mem_append, not_or] at hnul
  have hbody := List.takeWhile_append_dropWhile (p := (!isBlank ·)) (l := body)
  have hword : ∀ c ∈ body.takeWhile (!isBlank ·), isBlank c = false ∧ c ≠ '\x00' := by
    intro c hc
    refine ⟨by simpa using List.mem_takeWhile_imp hc, ?_⟩
    exact ne_of_mem_of_not_mem ((List.takeWhile_prefix _).subset hc) hnul.1
  have hwne : body.takeWhile (!isBlank ·) ≠ [] := by
    obtain ⟨c, t, rfl⟩ := List.exists_cons_of_ne_nil hne
    rw [List.takeWhile_cons_of_pos (by simp [hhead c rfl])]
    simp
  unfold blockText
  rw [if_neg hne]
  cases hd : body.dropWhile (!isBlank ·) with
  | nil =>
    rw [hd, List.append_nil] at hbody
    refine ⟨body, '\x00', tail, z, ?_, hne, hbody ▸ hword, Or.inr rfl, hnul.2, rfl⟩
    have hlast : isBlank (body.getLast hne) = false := by
      rw [hbody] at hword
      exact (hword _ (List.getLast_mem hne)).1
    have htrim := trimBlanks_body lead hne hlast (by simp : ∀ c ∈ [], isBlank c = true)
      (tail ++ '\x00' :: z)
    rw [List.append_nil] at htrim
    cases trim with
    | false => rfl
    | true => exact htrim
  | cons x rest =>
    have hx : isBlank x = true := by
      have hhit := List.head?_dropWhile_not (!isBlank ·) body
      rw [hd] at hhit
      simpa using hhit
    have hrest : '\x00' ∉ rest := by
      rw [← hbody, hd] at hnul
      exact fun hmem => hnul.1 (List.mem_append_right _ (List.mem_cons_of_mem _ hmem))
    rw [hd] at hbody
    generalize body.takeWhile (!isBlank ·) = word at hbody hword hwne
    subst hbody
    cases trim with
    | false =>
      refine ⟨word, x, rest, tail ++ '\x00' :: z, ?_, hwne, hword, Or.inl hx, hrest, rfl⟩
      simp [buf]
    | true =>
      obtain ⟨y, v, rest', htrim, hy, hv, rfl⟩ :=
        trimmed_rest lead hwne hword hx hrest (tail ++ '\x00' :: z)
      exact ⟨word, y, _, rest', htrim, hwne, hword, hy, hv, rfl⟩

/-! ## The line -/

theorem skipBlanks_lead {lead rest : Text} (hlead : ∀ c ∈ lead, isBlank c = true)
    (hrest : ∀ c ∈ rest.head?, isBlank c = false) : skipBlanks (lead ++ rest) 0 = lead.length := by
  have hstop : rest.takeWhile isBlank = [] := by
    cases rest with
    | nil => rfl
    | cons c rest => exact List.takeWhile_cons_of_neg (by simp [hrest c rfl])
  unfold skipBlanks
  rw [List.drop_zero, List.takeWhile_append_of_pos hlead, hstop, List.append_nil, Nat.zero_add]

/-- The text of a block's line decides what is read, and the tail does only behind a single
    word. -/
theorem blockWords_eq (trim : Bool) {lead body tail : Text} {d : Char}
    (hlead : ∀ c ∈ lead, isBlank c = true) (hhead : ∀ c ∈ body.head?, isBlank c = false)
    (hcut : CutAt d body tail) (hnul : '\x00' ∉ body ++ tail)
    (hlen : (lead ++ (body ++ d :: tail)).length < maxBuf) :
    blockWords trim (lead ++ (body ++ d :: tail)) = blockText trim body tail := by
  have hd : isBlank d = false ∧ d ≠ '\x00' := by
    rcases hcut with ⟨rfl, _⟩ | ⟨rfl, _⟩ | ⟨rfl, _⟩ <;> decide
  obtain ⟨n, hn⟩ : ∃ n, maxBuf - (lead ++ (body ++ d :: tail)).length = n + 1 :=
    Nat.exists_eq_succ_of_ne_zero (by omega)
  have hbuf : (lead ++ (body ++ d :: tail)) ++
      List.replicate (maxBuf - (lead ++ (body ++ d :: tail)).length) '\x00' =
      lead ++ (body ++ d :: (tail ++ '\x00' :: List.replicate n '\x00')) := by
    rw [hn, List.replicate_succ]
    simp
  have hskip : skipBlanks (lead ++ (body ++ d :: (tail ++ '\x00' :: List.replicate n '\x00'))) 0 =
      lead.length := by
    refine skipBlanks_lead hlead ?_
    cases body with
    | nil => simpa using hd.1
    | cons c body => simpa using hhead
  have hset : (lead ++ (body ++ d :: (tail ++ '\x00' :: List.replicate n '\x00'))).set
      (lead.length + body.length) '\x00' =
      lead ++ (body ++ '\x00' :: (tail ++ '\x00' :: List.replicate n '\x00')) := by
    have hset := set_at (lead ++ body) (tail ++ '\x00' :: List.replicate n '\x00') d '\x00'
    rwa [List.length_append, List.append_assoc, List.append_assoc] at hset
  unfold blockWords
  simp only [hbuf, hskip, cut_eq hcut hnul, hset]
  by_cases hne : body = []
  · subst hne
    have hstay : ∀ b : Text, trimBlanks b lead.length (lead.length + 0 - 1) = b := by
      intro b
      rw [Nat.add_zero]
      cases hl : lead.length with
      | zero => rfl
      | succ p =>
        cases p with
        | zero => rfl
        | succ p => simp [trimBlanks]
    have hempty : cstrAt (lead ++ ([] ++ '\x00' :: (tail ++ '\x00' :: List.replicate n '\x00')))
        lead.length = [] := cstrAt_append List.not_mem_nil lead _
    simp only [List.length_nil, hstay, ite_self, hempty, List.isEmpty_nil, if_true, blockText]
  · obtain ⟨word, y, v, rest, hshape, hwne, hword, hy, hv, htext⟩ :=
      trimmed_shape trim lead (List.replicate n '\x00') hne hhead hnul
    obtain ⟨hcstr, hlen, hcut, hp1, hp2⟩ := wordValue_eq lead rest hwne hword hy hv
    rw [htext]
    simp only [hshape, hcstr, hlen, hcut, hp1, hp2]
    rfl

/-! ## What a line does -/

/-- The functions that read lines. -/
inductive Loop where
  | configRead
  | parseAuthServer
  | parseFirewallRuleset
  deriving DecidableEq, Repr

def Mode.loop : Mode → Loop
  | .top => .configRead
  | .authServer _ => .parseAuthServer
  | .ruleset _ => .parseFirewallRuleset

/-- The limit of the loop's `fgets`. -/
def Loop.limit : Loop → Nat
  | .configRead => maxBuf
  | _ => maxBuf - 1

/-- The loop trims blanks at the end of a line. -/
def Loop.trim : Loop → Bool
  | .parseAuthServer => true
  | _ => false

theorem Mode.limit_eq (m : Mode) : m.limit = m.loop.limit := by cases m <;> rfl

theorem Loop.limit_le (loop : Loop) : loop.limit ≤ maxBuf := by
  cases loop <;> simp [Loop.limit]

/-- An option in a block. -/
def Reader.option (r : Reader) (p1 p2 : Text) : Option Reader :=
  match r.mode with
  | .top => none
  | .authServer f =>
    (authServerOption f (configParseToken p1) p2).map fun f => ⟨r.config, .authServer f⟩
  | .ruleset name =>
    match configParseToken p1 with
    | .firewallRule =>
      some ⟨{ r.config with rulesets := (parseFirewallRule r.config.rulesets name p2).2 },
        .ruleset name⟩
    | _ => none

/-- The closing brace. -/
def Reader.leave (r : Reader) : Reader :=
  match r.mode with
  | .authServer f => ⟨addAuthServer r.config f, .top⟩
  | _ => ⟨r.config, .top⟩

/-- A line that begins with the text `a` and is cut behind it. -/
def Reader.blockStep (r : Reader) (a tail : Text) : Option Reader :=
  match blockText r.mode.loop.trim (a.dropWhile isBlank) tail with
  | none => some r
  | some (p1, p2) => r.option p1 p2

theorem Reader.step_block {r : Reader} (hblock : r.mode.loop ≠ .configRead) (line : Text) :
    r.step line = if '}' ∈ line then some r.leave
      else match blockWords r.mode.loop.trim line with
        | none => some r
        | some (p1, p2) => r.option p1 p2 := by
  obtain ⟨cfg, mode⟩ := r
  cases mode with
  | top => exact absurd rfl hblock
  | authServer f => rfl
  | ruleset name => rfl

theorem CutAt.dropWhile {d : Char} {a tail : Text} (h : CutAt d a tail) :
    CutAt d (a.dropWhile isBlank) tail := by
  have hsub : ∀ c, c ∉ a → c ∉ a.dropWhile isBlank :=
    fun c hc hmem => hc ((List.dropWhile_suffix isBlank).subset hmem)
  unfold CutAt at h ⊢
  simp only [List.mem_append, not_or] at h ⊢
  rcases h with ⟨hd, h1⟩ | ⟨hd, ⟨h1, h2⟩, h3⟩ | ⟨hd, ⟨h1, h2⟩, ⟨h3, h4⟩, h5⟩
  · exact Or.inl ⟨hd, hsub _ h1⟩
  · exact Or.inr (Or.inl ⟨hd, ⟨hsub _ h1, h2⟩, hsub _ h3⟩)
  · exact Or.inr (Or.inr ⟨hd, ⟨hsub _ h1, h2⟩, ⟨hsub _ h3, h4⟩, hsub _ h5⟩)

/-- A line of a block, in terms of its text. -/
theorem Reader.step_text {r : Reader} (hblock : r.mode.loop ≠ .configRead) {a tail : Text}
    {d : Char} (hcut : CutAt d a tail) (hnul : '\x00' ∉ a ++ tail)
    (hlen : (a ++ d :: tail).length < maxBuf) :
    r.step (a ++ d :: tail) = if '}' ∈ a ++ d :: tail then some r.leave
      else r.blockStep a tail := by
  have hlead : ∀ c ∈ a.takeWhile isBlank, isBlank c = true := fun c hc => List.mem_takeWhile_imp hc
  have hhead : ∀ c ∈ (a.dropWhile isBlank).head?, isBlank c = false := by
    intro c hc
    have hnot := List.head?_dropWhile_not isBlank a
    rw [hc] at hnot
    simpa using hnot
  have hsplit := List.takeWhile_append_dropWhile (p := isBlank) (l := a)
  have hline := blockWords_eq r.mode.loop.trim hlead hhead hcut.dropWhile
    (fun hmem => hnul (by
      rcases List.mem_append.mp hmem with h | h
      · exact List.mem_append_left _ ((List.dropWhile_suffix isBlank).subset h)
      · exact List.mem_append_right _ h))
    (by rwa [← List.append_assoc, hsplit])
  rw [← List.append_assoc, hsplit] at hline
  rw [Reader.step_block hblock, hline]
  rfl

theorem Reader.blockStep_text (r : Reader) {a tail p1 p2 : Text}
    (h : blockText r.mode.loop.trim (a.dropWhile isBlank) tail = some (p1, p2)) :
    r.blockStep a tail = r.option p1 p2 := by
  unfold Reader.blockStep
  rw [h]

/-! ## The text behind the cut -/

/-- A single word, directly before the cut. -/
def Bare (a : Text) : Prop :=
  a.dropWhile isBlank ≠ [] ∧ ∀ c ∈ a.dropWhile isBlank, isBlank c = false

instance (a : Text) : Decidable (Bare a) := inferInstanceAs (Decidable (_ ∧ _))

theorem blockText_bare (trim : Bool) {a : Text} (h : Bare a) (tail : Text) :
    blockText trim (a.dropWhile isBlank) tail =
      some (a.dropWhile isBlank, tail.dropWhile isBlank) := by
  have hall : (a.dropWhile isBlank).dropWhile (!isBlank ·) = [] := by
    rw [List.dropWhile_eq_nil_iff]
    intro c hc
    simp [h.2 c hc]
  unfold blockText
  rw [if_neg h.1, hall]

theorem blockText_of_not_bare (trim : Bool) {a : Text} (h : ¬ Bare a) (tail tail' : Text) :
    blockText trim (a.dropWhile isBlank) tail = blockText trim (a.dropWhile isBlank) tail' := by
  unfold blockText
  by_cases hne : a.dropWhile isBlank = []
  · rw [if_pos hne, if_pos hne]
  · cases hd : (a.dropWhile isBlank).dropWhile (!isBlank ·) with
    | nil =>
      refine absurd ⟨hne, fun c hc => ?_⟩ h
      simpa using List.dropWhile_eq_nil_iff.mp hd c hc
    | cons x rest => rfl

/-- Only behind a single word does the tail matter. -/
theorem Reader.blockStep_of_not_bare (r : Reader) {a : Text} (h : ¬ Bare a) (tail tail' : Text) :
    r.blockStep a tail = r.blockStep a tail' := by
  unfold Reader.blockStep
  rw [blockText_of_not_bare _ h tail tail']

theorem Reader.blockStep_bare (r : Reader) {a : Text} (h : Bare a) (tail : Text) :
    r.blockStep a tail = r.option (a.dropWhile isBlank) (tail.dropWhile isBlank) :=
  Reader.blockStep_text r (blockText_bare _ h tail)

end Wifidog
