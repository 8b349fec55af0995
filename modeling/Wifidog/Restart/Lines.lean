/-
  What `get_clients_from_parent` makes of a line.

  The reader works on a buffer with pointers into it. Here it is brought to the level of texts:
  a line is cut at `|` into the command and its fields, a field at `=` into key and value, and
  the client is the fold of the fields over the client that the command token leaves
  (`parse_line`). That first client may already have a slot set, from the pointers of the line
  before.
-/
import Wifidog.Model.Handover

namespace Wifidog

open CText

/-- Assign a field `key=value`; what follows a second `=` is dropped, a field without `=` is
    passed over. -/
def RawClient.assignField (c : RawClient) (field : Text) : RawClient :=
  match field.splitOn '=' with
  | key :: value :: _ => c.assign key value
  | _ => c

/-- An assignment through the pointers `key` and `value`. -/
def LineParse.assignAt (p : LineParse) (buf : Text) (c : RawClient) : RawClient :=
  match p.key, p.value with
  | some k, some v => c.assign (cstrAt buf k) (cstrAt buf v)
  | _, _ => c

/-- The value stands behind the key. -/
def LineParse.Ordered (p : LineParse) : Prop :=
  ∀ k v, p.key = some k → p.value = some v → k < v

/-! ## A field -/

/-- The pointers to the first two pieces of a field that starts at `n`. -/
def keyValueAt (n : Nat) : List Text → Option Nat × Option Nat
  | [] => (none, none)
  | [_] => (some n, none)
  | k :: _ :: _ => (some n, some (n + k.length + 1))

/-- The pieces as the splitting leaves them in the buffer. -/
def terminated (ws : List Text) : Text := ws.flatMap (· ++ ['\x00'])

theorem terminated_eq {ws : List Text} (h : ws ≠ []) (d : Char) :
    ∃ w, terminated ws = w ++ ['\x00'] ∧ w.length = ([d].intercalate ws).length := by
  induction ws with
  | nil => exact absurd rfl h
  | cons v ws ih =>
    cases ws with
    | nil => exact ⟨v, by simp [terminated], by simp⟩
    | cons u us =>
      obtain ⟨w, hw, hlen⟩ := ih (by simp)
      refine ⟨v ++ '\x00' :: w, ?_, ?_⟩
      · have hcons : terminated (v :: u :: us) = (v ++ ['\x00']) ++ terminated (u :: us) := rfl
        rw [hcons, hw]
        simp
      · rw [List.intercalate_cons_cons]
        simp only [List.length_append, List.length_cons, List.length_nil, hlen]
        omega

/-- What the loop over the pieces of a field has done after some of them. -/
structure Pieces (pre : Text) (done : List Text) (pre' : Text) (kv : Option Nat × Option Nat) :
    Prop where
  buf : pre' = pre ++ terminated done
  pointers : kv = keyValueAt pre.length done

theorem keyValueBody_pieces {pre : Text} (done : List Text) (pre' w rest : Text)
    (kv : Option Nat × Option Nat) (h : Pieces pre done pre' kv) (_ : '\x00' ∉ w) (_ : '=' ∉ w) :
    ∃ w' kv', keyValueBody pre'.length (pre' ++ (w ++ '\x00' :: rest)) kv =
        (pre' ++ (w' ++ '\x00' :: rest), kv') ∧ w'.length = w.length ∧
      Pieces pre (done ++ [w]) (pre' ++ (w' ++ ['\x00'])) kv' := by
  obtain ⟨rfl, rfl⟩ := h
  have hpre : pre ++ terminated done ++ (w ++ ['\x00']) = pre ++ terminated (done ++ [w]) := by
    simp [terminated]
  match done with
  | [] => exact ⟨w, _, rfl, rfl, hpre, by simp [keyValueAt, terminated]⟩
  | [k] =>
    refine ⟨w, _, rfl, rfl, hpre, ?_⟩
    have hlen : (pre ++ terminated [k]).length = pre.length + k.length + 1 := by
      simp [terminated, Nat.add_assoc]
    rw [hlen]
    rfl
  | k :: v :: r => exact ⟨w, _, rfl, rfl, hpre, rfl⟩

theorem keyValueLoop_eq {ws : List Text} (hne : ws ≠ []) (h0 : ∀ w ∈ ws, '\x00' ∉ w)
    (hd : ∀ w ∈ ws, '=' ∉ w) {fuel : Nat} (hfuel : ws.length < fuel) (pre rest : Text) :
    strsepLoop '=' keyValueBody fuel (some pre.length)
        (pre ++ (['='].intercalate ws ++ '\x00' :: rest)) (none, none) =
      (pre ++ terminated ws ++ rest, keyValueAt pre.length ws) := by
  have hstart : Pieces pre [] pre (none, none) := ⟨by simp [terminated], rfl⟩
  obtain ⟨pre', kv', hrun, hbuf, hkv⟩ :=
    strsepLoop_rule (by decide) keyValueBody_pieces hne h0 hd hfuel hstart rest
  rw [hrun, hbuf, hkv, List.nil_append]

/-! ## A token of a line -/

theorem applyToken_eq {buf cmd : Text} {p : LineParse}
    (hcmd : p.command.map (cstrAt buf) = some cmd) :
    applyToken buf p = { p with
      client := if cmd = clientWord then some (p.assignAt buf (p.client.getD clientGetNew))
        else p.client } := by
  unfold applyToken LineParse.assignAt
  rw [hcmd]
  by_cases hword : cmd = clientWord
  · rw [if_pos (congrArg some hword), if_pos hword]
    cases p.key with
    | none => rfl
    | some k => cases p.value <;> rfl
  · rw [if_neg (fun h => hword (Option.some.inj h)), if_neg hword]

/-- The state of the parsing behind the command: `c` is the client so far. -/
structure InLine (cmd : Text) (c : RawClient) (pre : Text) (p : LineParse) : Prop where
  head : (cmd ++ ['\x00']) <+: pre
  command : p.command = some 0
  client : p.client = if cmd = clientWord then some c else none
  ordered : p.Ordered

theorem InLine.command_text {cmd : Text} {c : RawClient} {pre : Text} {p : LineParse}
    (h : InLine cmd c pre p) (h0 : '\x00' ∉ cmd) (rest : Text) :
    p.command.map (cstrAt (pre ++ rest)) = some cmd := by
  obtain ⟨tail, htail⟩ := h.head
  have hbuf : pre ++ rest = [] ++ (cmd ++ '\x00' :: (tail ++ rest)) := by
    rw [← htail]
    simp
  rw [h.command, Option.map_some, hbuf]
  exact congrArg some (cstrAt_append h0 [] _)

theorem keyValueAt_ordered {n : Nat} {ws : List Text} {k v : Nat}
    (hk : (keyValueAt n ws).1 = some k) (hv : (keyValueAt n ws).2 = some v) : k < v := by
  match ws with
  | [] => cases hk
  | [_] => cases hv
  | u :: _ :: _ =>
    obtain rfl := Option.some.inj hk
    obtain rfl := Option.some.inj hv
    omega

/-- The texts at the pointers to the first two pieces are these pieces. -/
theorem assignAt_pieces (c : RawClient) {w : Text} (h0 : ∀ v ∈ w.splitOn '=', '\x00' ∉ v)
    (pre rest : Text) {p : LineParse}
    (hp : (p.key, p.value) = keyValueAt pre.length (w.splitOn '=')) :
    p.assignAt (pre ++ terminated (w.splitOn '=') ++ rest) c = c.assignField w := by
  unfold LineParse.assignAt RawClient.assignField
  generalize w.splitOn '=' = ws at h0 hp
  match ws with
  | [] =>
    obtain ⟨hk, hv⟩ := Prod.mk.inj hp
    rw [hk]
  | [_] =>
    obtain ⟨hk, hv⟩ := Prod.mk.inj hp
    rw [hk, hv]
  | key :: value :: more =>
    obtain ⟨hk, hv⟩ := Prod.mk.inj hp
    have hkey := cstrAt_append (h0 key List.mem_cons_self) pre
      (value ++ '\x00' :: (terminated more ++ rest))
    have hvalue := cstrAt_append (h0 value (by simp)) (pre ++ (key ++ ['\x00']))
      (terminated more ++ rest)
    have hlen : (pre ++ (key ++ ['\x00'])).length = pre.length + key.length + 1 := by
      simp [Nat.add_assoc]
    have hbuf : pre ++ terminated (key :: value :: more) ++ rest =
        pre ++ (key ++ '\x00' :: (value ++ '\x00' :: (terminated more ++ rest))) := by
      simp [terminated]
    have hbuf' : pre ++ terminated (key :: value :: more) ++ rest =
        pre ++ (key ++ ['\x00']) ++ (value ++ '\x00' :: (terminated more ++ rest)) := by
      simp [terminated]
    rw [hlen, ← hbuf'] at hvalue
    rw [← hbuf] at hkey
    rw [hk, hv]
    simp only [hkey, hvalue]

/-- A field is split at `=` in its place and assigned to the client. -/
theorem tokenBody_field {cmd : Text} (hcmd0 : '\x00' ∉ cmd) {c : RawClient} {pre w : Text}
    {p : LineParse} (h : InLine cmd c pre p) (h0 : '\x00' ∉ w) (rest : Text) :
    ∃ w' p', tokenBody pre.length (pre ++ (w ++ '\x00' :: rest)) p =
        (pre ++ (w' ++ '\x00' :: rest), p') ∧ w'.length = w.length ∧
      InLine cmd (c.assignField w) (pre ++ (w' ++ ['\x00'])) p' := by
  have hjoin : ['='].intercalate (w.splitOn '=') = w := List.intercalate_splitOn '='
  have hne : w.splitOn '=' ≠ [] := List.splitOn_ne_nil '=' w
  have hpieces0 : ∀ v ∈ w.splitOn '=', '\x00' ∉ v := fun v hv hmem => h0 (mem_of_mem_piece hv hmem)
  have hfuel : (w.splitOn '=').length < (pre ++ (w ++ '\x00' :: rest)).length + 1 := by
    have hcount := length_le_intercalate '=' (w.splitOn '=')
    rw [hjoin] at hcount
    simp only [List.length_append, List.length_cons]
    omega
  have hloop := keyValueLoop_eq hne hpieces0 (fun v hv => sep_not_mem_piece hv) hfuel pre rest
  rw [hjoin] at hloop
  obtain ⟨w', hw', hlen⟩ := terminated_eq hne '='
  rw [hjoin] at hlen
  have hbuf : pre ++ terminated (w.splitOn '=') ++ rest = pre ++ (w' ++ '\x00' :: rest) := by
    rw [hw']
    simp
  let p1 : LineParse := ⟨some 0, (keyValueAt pre.length (w.splitOn '=')).1,
    (keyValueAt pre.length (w.splitOn '=')).2, p.client⟩
  have hrun : tokenBody pre.length (pre ++ (w ++ '\x00' :: rest)) p =
      (pre ++ (w' ++ '\x00' :: rest), applyToken (pre ++ (w' ++ '\x00' :: rest)) p1) := by
    unfold tokenBody splitToken
    rw [h.command]
    simp only [hloop, hbuf]
    rfl
  have hin : InLine cmd c pre p1 := ⟨h.head, rfl, h.client, fun _ _ => keyValueAt_ordered⟩
  have happly := applyToken_eq (hin.command_text hcmd0 (w' ++ '\x00' :: rest))
  have hassign : p1.assignAt (pre ++ (w' ++ '\x00' :: rest)) c = c.assignField w := by
    rw [← hbuf]
    exact assignAt_pieces c hpieces0 pre rest rfl
  refine ⟨w', _, hrun, hlen, ?_⟩
  rw [happly]
  refine ⟨hin.head.trans (List.prefix_append _ _), hin.command, ?_, hin.ordered⟩
  by_cases hword : cmd = clientWord
  · simp only [if_pos hword, hin.client, Option.getD_some, hassign]
  · simp only [if_neg hword, hin.client]

/-- The state behind some fields of a line, from the client `c` on. -/
def FieldsDone (cmd : Text) (c : RawClient) (fields : List Text) (pre : Text) (p : LineParse) :
    Prop :=
  InLine cmd (fields.foldl RawClient.assignField c) pre p

theorem tokenBody_fieldsDone {cmd : Text} (hcmd0 : '\x00' ∉ cmd) {c : RawClient}
    (fields : List Text) (pre w rest : Text) (p : LineParse) (h : FieldsDone cmd c fields pre p)
    (h0 : '\x00' ∉ w) (_ : '|' ∉ w) :
    ∃ w' p', tokenBody pre.length (pre ++ (w ++ '\x00' :: rest)) p =
        (pre ++ (w' ++ '\x00' :: rest), p') ∧ w'.length = w.length ∧
      FieldsDone cmd c (fields ++ [w]) (pre ++ (w' ++ ['\x00'])) p' := by
  obtain ⟨w', p', hrun, hlen, hin⟩ := tokenBody_field hcmd0 h h0 rest
  refine ⟨w', p', hrun, hlen, ?_⟩
  unfold FieldsDone
  rw [List.foldl_append]
  exact hin

/-- The first token is the command. The pointers are those of the line before. -/
theorem tokenBody_command {cmd : Text} (hcmd0 : '\x00' ∉ cmd) {p : LineParse}
    (hcommand : p.command = none) (hclient : p.client = none) (hordered : p.Ordered)
    (rest : Text) :
    ∃ p', tokenBody 0 (cmd ++ '\x00' :: rest) p = (cmd ++ '\x00' :: rest, p') ∧
      InLine cmd (p.assignAt (cmd ++ '\x00' :: rest) clientGetNew) (cmd ++ ['\x00']) p' := by
  let p1 : LineParse := { p with command := some 0 }
  have hrun : tokenBody 0 (cmd ++ '\x00' :: rest) p =
      (cmd ++ '\x00' :: rest, applyToken (cmd ++ '\x00' :: rest) p1) := by
    unfold tokenBody splitToken
    rw [hcommand]
  have htext : p1.command.map (cstrAt (cmd ++ '\x00' :: rest)) = some cmd :=
    congrArg some (cstrAt_append hcmd0 [] rest)
  refine ⟨_, hrun, ?_⟩
  rw [applyToken_eq htext]
  refine ⟨List.prefix_rfl, rfl, ?_, hordered⟩
  change (if cmd = clientWord then some (p.assignAt _ (p.client.getD clientGetNew))
    else p.client) = _
  rw [hclient]
  rfl

/-! ## A line -/

/-- The client that a line gives: nothing if the command is not `CLIENT`. -/
def LineParse.lineClient (p : LineParse) (line rest : Text) : Option RawClient :=
  match line.splitOn '|' with
  | [] => none
  | cmd :: fields =>
    if cmd = clientWord then
      some (fields.foldl RawClient.assignField
        (p.assignAt (strsep (line ++ '\x00' :: rest) (some 0) '|').2.2 clientGetNew))
    else none

theorem not_mem_fields {line cmd : Text} {fields : List Text}
    (hsplit : line.splitOn '|' = cmd :: fields) {c : Char} (hc : c ∉ line) :
    ∀ w ∈ cmd :: fields, c ∉ w := by
  intro w hw hmem
  rw [← hsplit] at hw
  exact hc (mem_of_mem_piece hw hmem)

theorem bar_not_mem_fields {line cmd : Text} {fields : List Text}
    (hsplit : line.splitOn '|' = cmd :: fields) : ∀ w ∈ cmd :: fields, '|' ∉ w := by
  intro w hw
  rw [← hsplit] at hw
  exact sep_not_mem_piece hw

/-- The first token of a line that has only a command. -/
theorem strsep_only_command {line cmd : Text} (h0 : '\x00' ∉ line)
    (hsplit : line.splitOn '|' = [cmd]) (rest : Text) :
    strsep (line ++ '\x00' :: rest) (some 0) '|' = (some 0, none, cmd ++ '\x00' :: rest) := by
  have hjoin : ['|'].intercalate (line.splitOn '|') = line := List.intercalate_splitOn '|'
  have hcmd := bar_not_mem_fields hsplit cmd List.mem_cons_self
  rw [hsplit, List.intercalate_singleton] at hjoin
  rw [← hjoin] at h0 ⊢
  exact strsep_last h0 hcmd [] rest

/-- The first token of a line with fields. -/
theorem strsep_command {line cmd f : Text} {fs : List Text} (h0 : '\x00' ∉ line)
    (hsplit : line.splitOn '|' = cmd :: f :: fs) (rest : Text) :
    strsep (line ++ '\x00' :: rest) (some 0) '|' = (some 0, some (cmd.length + 1),
      cmd ++ '\x00' :: (['|'].intercalate (f :: fs) ++ '\x00' :: rest)) := by
  have hjoin : ['|'].intercalate (line.splitOn '|') = line := List.intercalate_splitOn '|'
  have hline : line ++ '\x00' :: rest =
      cmd ++ '|' :: (['|'].intercalate (f :: fs) ++ '\x00' :: rest) := by
    rw [← hjoin, hsplit, List.intercalate_cons_cons]
    simp
  have hsep := strsep_found (not_mem_fields hsplit h0 cmd List.mem_cons_self)
    (bar_not_mem_fields hsplit cmd List.mem_cons_self) (by decide) []
    (['|'].intercalate (f :: fs) ++ '\x00' :: rest)
  rw [List.nil_append, List.nil_append, List.length_nil, Nat.zero_add, ← hline] at hsep
  exact hsep

/-- The loop over a line in the buffer computes `lineClient`. -/
theorem parse_line {line : Text} (h0 : '\x00' ∉ line) {p : LineParse} (hcommand : p.command = none)
    (hclient : p.client = none) (hordered : p.Ordered) (rest : Text) {p' : LineParse}
    (hp' : p' = (strsepLoop '|' tokenBody ((line ++ '\x00' :: rest).length + 1) (some 0)
      (line ++ '\x00' :: rest) p).2) :
    p'.client = p.lineClient line rest ∧ p'.Ordered := by
  unfold LineParse.lineClient
  match hws : line.splitOn '|' with
  | [] => exact absurd hws (List.splitOn_ne_nil '|' line)
  | [cmd] =>
    have hsep := strsep_only_command h0 hws rest
    have hcmd0 := not_mem_fields hws h0 cmd List.mem_cons_self
    obtain ⟨p1, hrun, hin⟩ := tokenBody_command hcmd0 hcommand hclient hordered rest
    rw [strsepLoop, hsep] at hp'
    simp only [hrun, strsepLoop_none] at hp'
    rw [hp', hsep]
    exact ⟨hin.client, hin.ordered⟩
  | cmd :: f :: fs =>
    have hsep := strsep_command h0 hws rest
    have hpieces0 := not_mem_fields hws h0
    have hpieces := bar_not_mem_fields hws
    have hcmd0 := hpieces0 cmd List.mem_cons_self
    have hfuel : (f :: fs).length < (line ++ '\x00' :: rest).length := by
      have hcount := length_le_intercalate '|' (line.splitOn '|')
      rw [List.intercalate_splitOn, hws] at hcount
      simp only [List.length_append, List.length_cons] at hcount ⊢
      omega
    -- the command by hand, since it meets the pointers of the line before
    obtain ⟨p1, hrun, hin⟩ := tokenBody_command hcmd0 hcommand hclient hordered
      (['|'].intercalate (f :: fs) ++ '\x00' :: rest)
    have hstart : FieldsDone cmd _ [] (cmd ++ ['\x00']) p1 := hin
    -- and the fields by the rule of the loop
    obtain ⟨pre', p2, hloop, hfin⟩ := strsepLoop_rule (by decide) (tokenBody_fieldsDone hcmd0)
      (by simp) (fun w hw => hpieces0 w (List.mem_cons_of_mem cmd hw))
      (fun w hw => hpieces w (List.mem_cons_of_mem cmd hw)) hfuel hstart rest
    have hcut : cmd ++ '\x00' :: (['|'].intercalate (f :: fs) ++ '\x00' :: rest) =
        (cmd ++ ['\x00']) ++ (['|'].intercalate (f :: fs) ++ '\x00' :: rest) := by simp
    have hlen : cmd.length + 1 = (cmd ++ ['\x00']).length := by simp
    rw [strsepLoop, hsep] at hp'
    simp only [hrun] at hp'
    rw [hcut, hlen, hloop] at hp'
    rw [hp', hsep]
    exact ⟨hfin.client, hfin.ordered⟩

end Wifidog
