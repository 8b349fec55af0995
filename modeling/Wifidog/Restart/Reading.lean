/-
  Reading the parent's bytes.

  `Reading` is the invariant of the byte loop of `get_clients_from_parent`: the buffer holds the
  line so far and NULs behind it. Each line then goes through `parse_line` of the module before.

  The pointers that a line leaves behind meet the next line when its command is looked at.
  Nothing comes of it when the line ends in a digit (`assignAt_of_digit`), and on any line the
  token that can come of it is harmless (`assignAt_tokenSeparated`). So, whatever the bytes are,
  no token of the child has a separator in it (`decoded_tokenSeparated`).
-/
import Wifidog.Restart.Lines

namespace Wifidog

open CText Runs

/-- The text has none of the three separators. -/
def Separated (t : Text) : Prop := '|' ∉ t ∧ '=' ∉ t ∧ '\n' ∉ t

/-! ## Reading -/

/-- The reader in the middle of a line. -/
structure Reading (cur : Text) (s : Inherit) : Prop where
  buf : s.linebuffer = cur ++ List.replicate (maxBuf - cur.length) '\x00'
  len : s.len = cur.length
  nul : '\x00' ∉ cur
  newline : '\n' ∉ cur
  command : s.parse.command = none
  client : s.parse.client = none
  ordered : s.parse.Ordered

theorem emptyBuffer_eq :
    emptyBuffer = [] ++ List.replicate (maxBuf - ([] : Text).length) '\x00' := by
  rw [List.nil_append, List.length_nil, Nat.sub_zero]
  rfl

theorem reading_start : Reading [] Inherit.start where
  buf := emptyBuffer_eq
  len := rfl
  nul := by simp
  newline := by simp
  command := rfl
  client := rfl
  ordered := fun _ _ hk => by cases hk

/-- The list after a line. -/
def listAfter (s : Inherit) (line : Text) : RawList :=
  s.list.insertParsed
    (s.parse.lineClient line (List.replicate (maxBuf - line.length - 1) '\x00'))

/-- The buffer after the next character of a line. -/
theorem Reading.set_eq {cur : Text} {s : Inherit} (h : Reading cur s)
    (hfits : cur.length < maxBuf) (c : Char) :
    s.linebuffer.set s.len c =
      cur ++ c :: List.replicate (maxBuf - cur.length - 1) '\x00' := by
  obtain ⟨n, hn⟩ : ∃ n, maxBuf - cur.length = n + 1 := ⟨maxBuf - cur.length - 1, by omega⟩
  rw [h.buf, h.len, hn, List.replicate_succ, List.set_append_right _ _ (Nat.le_refl _)]
  simp

theorem readChar_char {cur : Text} {s : Inherit} (h : Reading cur s)
    (hfits : cur.length < maxBuf) {c : Char} (hnul : c ≠ '\x00') (hnl : c ≠ '\n') :
    ∃ s', s.readChar c = some s' ∧ Reading (cur ++ [c]) s' ∧ s'.list = s.list ∧
      s'.parse = s.parse := by
  have hrun : s.readChar c =
      some { s with linebuffer := s.linebuffer.set s.len c, len := s.len + 1 } := by
    unfold Inherit.readChar
    simp only [if_neg hnl, h.len, if_pos hfits, if_neg hnul]
  refine ⟨_, hrun, ⟨?_, ?_, ?_, ?_, h.command, h.client, h.ordered⟩, rfl, rfl⟩
  · simp [h.set_eq hfits, Nat.sub_sub]
  · simp [h.len]
  · simp [h.nul, Ne.symm hnul]
  · simp [h.newline, Ne.symm hnl]

theorem readChar_end {cur : Text} {s : Inherit} (h : Reading cur s)
    (hfits : cur.length < maxBuf) {c : Char} (hc : c = '\x00' ∨ c = '\n') :
    ∃ s', s.readChar c = some s' ∧ Reading [] s' ∧ s'.list = listAfter s cur := by
  have hchar : (if c = '\n' then '\x00' else c) = '\x00' := by
    rcases hc with rfl | rfl <;> rfl
  have hrun : s.readChar c = some (Inherit.endLine
      { s with linebuffer := s.linebuffer.set s.len '\x00', len := s.len + 1 }) := by
    unfold Inherit.readChar
    simp only [hchar, h.len, if_pos hfits]
    rfl
  obtain ⟨hclient, hordered⟩ := parse_line h.nul h.command h.client h.ordered
    (List.replicate (maxBuf - cur.length - 1) '\x00') rfl
  rw [h.set_eq hfits] at hrun
  refine ⟨_, hrun, ⟨emptyBuffer_eq, rfl, by simp, by simp, rfl, rfl, hordered⟩, ?_⟩
  unfold listAfter
  rw [← hclient]
  rfl

theorem readChar_overflow {cur : Text} {s : Inherit} (h : Reading cur s)
    (hfull : ¬ cur.length < maxBuf) (c : Char) : s.readChar c = none := by
  unfold Inherit.readChar
  simp only [h.len, if_neg hfull]

theorem read_text {line : Text} (h0 : '\x00' ∉ line) (hnl : '\n' ∉ line) {cur : Text} {s : Inherit}
    (h : Reading cur s) (hfits : cur.length + line.length < maxBuf) :
    ∃ s', run Inherit.readChar s line = some s' ∧ Reading (cur ++ line) s' ∧
      s'.list = s.list ∧ s'.parse = s.parse := by
  induction line generalizing cur s with
  | nil => exact ⟨s, rfl, by simpa using h, rfl, rfl⟩
  | cons c line ih =>
    simp only [List.mem_cons, not_or] at h0 hnl
    simp only [List.length_cons] at hfits
    obtain ⟨s1, hstep, hread, hlist, hparse⟩ :=
      readChar_char h (by omega) (Ne.symm h0.1) (Ne.symm hnl.1)
    obtain ⟨s2, hrun, hread', hlist', hparse'⟩ := ih h0.2 hnl.2 hread (by
      simp only [List.length_append, List.length_singleton]
      omega)
    refine ⟨s2, run_cons_iff.mpr ⟨s1, hstep, hrun⟩, ?_, hlist'.trans hlist, hparse'.trans hparse⟩
    simpa using hread'

/-- A whole line is read and parsed. -/
theorem read_line {line : Text} (h0 : '\x00' ∉ line) (hnl : '\n' ∉ line)
    (hfits : line.length < maxBuf) {s : Inherit} (h : Reading [] s) :
    ∃ s', run Inherit.readChar s (line ++ ['\n']) = some s' ∧ Reading [] s' ∧
      s'.list = listAfter s line := by
  obtain ⟨s1, hrun, hread, hlist, hparse⟩ := read_text h0 hnl h (by simpa using hfits)
  obtain ⟨s2, hend, hread', hlist'⟩ := readChar_end hread (by simpa using hfits) (Or.inr rfl)
  refine ⟨s2, run_append_iff.mpr ⟨s1, hrun, run_cons_iff.mpr ⟨s2, hend, rfl⟩⟩, hread', ?_⟩
  rw [hlist']
  unfold listAfter
  rw [hlist, hparse, List.nil_append]

/-! ## The pointers of the line before -/

/-- The buffer behind the command token. -/
theorem afterCommand {line : Text} (h0 : '\x00' ∉ line) {cmd : Text} {fields : List Text}
    (hsplit : line.splitOn '|' = cmd :: fields) (n : Nat) :
    ∃ m, (strsep (line ++ '\x00' :: List.replicate n '\x00') (some 0) '|').2.2 =
      cmd ++ '\x00' :: (['|'].intercalate fields ++ List.replicate m '\x00') := by
  cases fields with
  | nil =>
    rw [strsep_only_command h0 hsplit]
    exact ⟨n, rfl⟩
  | cons f fs =>
    rw [strsep_command h0 hsplit]
    exact ⟨n + 1, rfl⟩

/-- The text at any place of that buffer. -/
theorem cstrAt_afterCommand {cmd body : Text} (hcmd : '\x00' ∉ cmd) (hbody : '\x00' ∉ body)
    (m k : Nat) :
    cstrAt (cmd ++ '\x00' :: (body ++ List.replicate m '\x00')) k =
      if k ≤ cmd.length then cmd.drop k else body.drop (k - cmd.length - 1) := by
  split
  · next hk => exact cstrAt_append_of_le hcmd hk _
  · next hk =>
    have hdrop : (cmd ++ '\x00' :: (body ++ List.replicate m '\x00')).drop k =
        (body ++ List.replicate m '\x00').drop (k - cmd.length - 1) := by
      obtain ⟨j, rfl⟩ : ∃ j, k = cmd.length + (j + 1) := ⟨k - cmd.length - 1, by omega⟩
      rw [List.drop_length_add_append, List.drop_succ_cons]
      congr 1
      omega
    have hpad := cstrAt_padded hbody m (k - cmd.length - 1)
    unfold cstrAt at hpad ⊢
    rw [hdrop, hpad]

/-- The keys that `assign` knows. -/
def slotNames : List Text :=
  ["ip".toList, "mac".toList, "token".toList, "fw_connection_state".toList, "fd".toList,
    "counters_incoming".toList, "counters_outgoing".toList, "counters_last_updated".toList]

theorem assign_of_not_mem {key : Text} (h : key ∉ slotNames) (c : RawClient) (value : Text) :
    c.assign key value = c := by
  simp only [slotNames, List.mem_cons, List.not_mem_nil, or_false, not_or] at h
  obtain ⟨h1, h2, h3, h4, h5, h6, h7, h8⟩ := h
  unfold RawClient.assign
  rw [if_neg h1, if_neg h2, if_neg h3, if_neg h4, if_neg h5, if_neg h6, if_neg h7, if_neg h8]

theorem drop_clientWord_not_mem {k : Nat} (hk : k ≤ clientWord.length) :
    clientWord.drop k ∉ slotNames := by
  have hall : ∀ k < 7, clientWord.drop k ∉ slotNames := by decide
  exact hall k (Nat.lt_succ_of_le hk)

/-- No key ends in a digit. -/
theorem slotNames_getLast {key : Text} (h : key ∈ slotNames) :
    ∃ c, key.getLast? = some c ∧ c.isDigit = false := by
  have hall : ∀ key ∈ slotNames, (key.getLast?.map Char.isDigit) = some false := by decide
  exact Option.map_eq_some_iff.mp (hall key h)

/-- A line that ends in a digit starts with a new client. -/
theorem assignAt_of_digit {body : Text} (hbody : '\x00' ∉ body) {d : Char}
    (hlast : body.getLast? = some d) (hd : d.isDigit = true) (p : LineParse) (m : Nat)
    (c : RawClient) :
    p.assignAt (clientWord ++ '\x00' :: (body ++ List.replicate m '\x00')) c = c := by
  unfold LineParse.assignAt
  split
  · next k v _ _ =>
    refine assign_of_not_mem ?_ c _
    rw [cstrAt_afterCommand (by decide) hbody]
    split
    · next hk => exact drop_clientWord_not_mem hk
    · intro hmem
      obtain ⟨e, he, hdigit⟩ := slotNames_getLast hmem
      rw [List.getLast?_drop] at he
      split at he
      · cases he
      · rw [hlast] at he
        obtain rfl := Option.some.inj he
        rw [hd] at hdigit
        cases hdigit
  · rfl

/-! ## Tokens that can be read -/

def RawClient.TokenSeparated (c : RawClient) : Prop := ∀ t, c.token = some t → Separated t

theorem assign_token (c : RawClient) (key value : Text) :
    (c.assign key value).token = if key = "token".toList then some value else c.token := by
  by_cases htoken : key = "token".toList
  · subst htoken
    rfl
  · rw [if_neg htoken]
    unfold RawClient.assign
    rw [if_neg htoken]
    repeat' split
    all_goals rfl

theorem assign_tokenSeparated {c : RawClient} (h : c.TokenSeparated) {key value : Text}
    (hvalue : key = "token".toList → Separated value) :
    (c.assign key value).TokenSeparated := by
  intro t ht
  rw [assign_token] at ht
  split at ht
  · next hkey =>
    obtain rfl := Option.some.inj ht
    exact hvalue hkey
  · exact h t ht

theorem assignField_tokenSeparated {c : RawClient} (h : c.TokenSeparated) {field : Text}
    (hbar : '|' ∉ field) (hnl : '\n' ∉ field) : (c.assignField field).TokenSeparated := by
  unfold RawClient.assignField
  split
  · next key value more hsplit =>
    have hmem : value ∈ field.splitOn '=' := by simp [hsplit]
    refine assign_tokenSeparated h fun _ => ⟨?_, ?_, ?_⟩
    · exact fun hc => hbar (mem_of_mem_piece hmem hc)
    · exact sep_not_mem_piece hmem
    · exact fun hc => hnl (mem_of_mem_piece hmem hc)
  · exact h

theorem foldl_tokenSeparated {fields : List Text} (hbar : ∀ f ∈ fields, '|' ∉ f)
    (hnl : ∀ f ∈ fields, '\n' ∉ f) {c : RawClient} (h : c.TokenSeparated) :
    (fields.foldl RawClient.assignField c).TokenSeparated := by
  induction fields generalizing c with
  | nil => exact h
  | cons f fields ih =>
    simp only [List.mem_cons, forall_eq_or_imp] at hbar hnl
    exact ih hbar.2 hnl.2 (assignField_tokenSeparated h hbar.1 hnl.1)

/-- Through the pointers of the line before, a token can only become a part of its own key: the
    key has to stand at the end of the line, and the value behind its start. -/
theorem assignAt_tokenSeparated {body : Text} (hbody : '\x00' ∉ body) {p : LineParse}
    (hordered : p.Ordered) (m : Nat) :
    (p.assignAt (clientWord ++ '\x00' :: (body ++ List.replicate m '\x00'))
      clientGetNew).TokenSeparated := by
  have hnew : clientGetNew.TokenSeparated := fun t ht => by cases ht
  unfold LineParse.assignAt
  split
  · next k v hk hv =>
    have hlt := hordered k v hk hv
    refine assign_tokenSeparated hnew fun hkey => ?_
    rw [cstrAt_afterCommand (by decide) hbody] at hkey ⊢
    split at hkey
    · next hle =>
      have hno := drop_clientWord_not_mem hle
      rw [hkey] at hno
      exact absurd (by decide) hno
    · next hle =>
      rw [if_neg (by omega)]
      have hsuffix : body.drop (v - clientWord.length - 1) = "token".toList.drop (v - k) := by
        rw [← hkey, List.drop_drop]
        congr 1
        omega
      rw [hsuffix]
      have hall : Separated "token".toList := by unfold Separated; decide
      exact ⟨fun hc => hall.1 (List.mem_of_mem_drop hc),
        fun hc => hall.2.1 (List.mem_of_mem_drop hc),
        fun hc => hall.2.2 (List.mem_of_mem_drop hc)⟩
  · exact hnew

theorem lineClient_tokenSeparated {p : LineParse} (hordered : p.Ordered) {line : Text}
    (h0 : '\x00' ∉ line) (hnl : '\n' ∉ line) {n : Nat} {c : RawClient}
    (h : p.lineClient line (List.replicate n '\x00') = some c) : c.TokenSeparated := by
  unfold LineParse.lineClient at h
  split at h
  · cases h
  · next cmd fields hsplit =>
    split at h
    · next hcmd =>
      obtain rfl := Option.some.inj h
      have hnul := not_mem_fields hsplit h0
      have hbody : '\x00' ∉ ['|'].intercalate fields := by
        intro hmem
        rcases mem_of_mem_intercalate hmem with hbar | ⟨f, hf, hc⟩
        · exact absurd hbar (by decide)
        · exact hnul f (List.mem_cons_of_mem cmd hf) hc
      obtain ⟨m, hbuf⟩ := afterCommand h0 hsplit n
      rw [hbuf, hcmd]
      refine foldl_tokenSeparated ?_ ?_ (assignAt_tokenSeparated hbody hordered m)
      · exact fun f hf => bar_not_mem_fields hsplit f (List.mem_cons_of_mem cmd hf)
      · exact fun f hf => not_mem_fields hsplit hnl f (List.mem_cons_of_mem cmd hf)
    · cases h

/-- The reader is in the middle of some line, and no token it has read has a separator in it. -/
structure Inherit.Sound (s : Inherit) : Prop where
  reading : ∃ cur, Reading cur s
  tokens : ∀ c ∈ s.list.clients, c.TokenSeparated

/-- Every byte keeps the reader so, as long as it does not write past the buffer. -/
theorem readChar_sound {s s' : Inherit} {c : Char} (h : s.Sound) (hstep : s.readChar c = some s') :
    s'.Sound := by
  obtain ⟨⟨cur, hread⟩, htokens⟩ := h
  by_cases hfits : cur.length < maxBuf
  · by_cases hend : c = '\x00' ∨ c = '\n'
    · obtain ⟨s1, hs1, hread', hlist⟩ := readChar_end hread hfits hend
      rw [hs1] at hstep
      obtain rfl := Option.some.inj hstep
      refine ⟨⟨[], hread'⟩, ?_⟩
      rw [hlist]
      unfold listAfter
      cases hclient : s.parse.lineClient cur
          (List.replicate (maxBuf - cur.length - 1) '\x00') with
      | none => exact htokens
      | some client =>
        intro d hd
        rcases List.mem_cons.mp hd with rfl | hd
        · -- the id that the insertion sets does not matter here
          exact fun t ht => lineClient_tokenSeparated hread.ordered hread.nul hread.newline
            hclient t ht
        · exact htokens d hd
    · rw [not_or] at hend
      obtain ⟨s1, hs1, hread', hlist, _⟩ := readChar_char hread hfits hend.1 hend.2
      rw [hs1] at hstep
      obtain rfl := Option.some.inj hstep
      exact ⟨⟨cur ++ [c], hread'⟩, by rw [hlist]; exact htokens⟩
  · rw [readChar_overflow hread hfits] at hstep
    cases hstep

/-- Whatever the bytes are, the child's tokens have no separator in them. -/
theorem decoded_tokenSeparated {bytes : Text} {l : RawList}
    (h : getClientsFromParent bytes = some l) : ∀ c ∈ l.clients, c.TokenSeparated := by
  obtain ⟨s, hrun, rfl⟩ := Option.map_eq_some_iff.mp h
  have hstart : Inherit.start.Sound := ⟨⟨[], reading_start⟩, by simp [Inherit.start]⟩
  have hsound : s.Sound :=
    run_inv Inherit.Sound (fun _ _ _ hs hstep => readChar_sound hs hstep) hstart hrun
  exact hsound.tokens

end Wifidog
