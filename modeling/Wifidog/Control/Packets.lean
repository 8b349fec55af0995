/-
  Control commands and how they arrive.

  The state of the read loop is a function of the bytes read (`filled`), so what the handler
  makes of a stream depends only on how many bytes of it had been read when the loop ended. The
  loop ends with the read that brings a line end, and what follows the line end in that read
  stays in the buffer behind the NUL. Two kinds of stream are handled by how they are split
  (`packets_alike_iff`): after a line of just "reset" the argument is taken from behind the NUL;
  and a line end at index `MAX_BUF - 1` is seen only if its read starts before that index, since
  the loop stops one byte short of what it asks `read` for.

  A read longer than its room takes what fits, and the loop ends with it.
-/
import Wifidog.Control.ReadLoop

namespace Wifidog

open CText

/-! ## The state is a function of the bytes read -/

/-- The variables of the loop when it has read `t`. -/
def filled (t : Text) : WdctlRead :=
  ⟨t.map cutLineEnd ++ List.replicate (maxBuf - t.length) '\x00', t.length, t.any isLineEnd⟩

theorem filled_nil : filled [] = .init := rfl

theorem filled_fits {t : Text} (ht : t.length ≤ maxBuf) : (filled t).Fits := by
  refine ⟨?_, ht⟩
  simp only [filled, List.length_append, List.length_map, List.length_replicate]
  omega

/-- A round appends what fits. -/
theorem filled_step {t : Text} (ht : t.length ≤ maxBuf) (bytes : Text) :
    (filled t).step (.data bytes) = some (filled (t ++ bytes.take (maxBuf - t.length))) := by
  have hlen : (t.map cutLineEnd).length = t.length := List.length_map _
  rw [(filled t).step_data (filled_fits ht)]
  simp only [filled, List.take_left' hlen, ← List.drop_drop, List.drop_left' hlen,
    List.drop_replicate, List.map_append, List.length_append, List.any_append, Nat.sub_sub]

/-- With a line end, or full but for one byte, the loop is at its end. -/
theorem readLoop_filled_ended {t : Text} (ht : t.any isLineEnd ∨ maxBuf - 1 ≤ t.length)
    (results : List ReadResult) : readLoop (filled t) results = .ended (filled t) := by
  have hgo : (!(filled t).done && decide ((filled t).readBytes < maxBuf - 1)) = false := by
    obtain hline | hfull := ht
    · simp [filled, hline]
    · have hlt : ¬ t.length < maxBuf - 1 := by omega
      simp [filled, hlt]
  cases results with
  | nil => simp [readLoop, hgo]
  | cons x xs => simp [readLoop, hgo]

theorem readLoop_filled_cons {t : Text} (hline : t.any isLineEnd = false)
    (hroom : t.length < maxBuf - 1) (bytes : Text) (results : List ReadResult) :
    readLoop (filled t) (.data bytes :: results) =
      readLoop (filled (t ++ bytes.take (maxBuf - t.length))) results := by
  have hgo : (!(filled t).done && decide ((filled t).readBytes < maxBuf - 1)) = true := by
    simp [filled, hline, hroom]
  simp [readLoop, hgo, filled_step (by omega : t.length ≤ maxBuf)]

/-- The loop may end when it has read `k` bytes of the stream. -/
structure EndsWith (stream : Text) (k : Nat) : Prop where
  inBuffer : k ≤ maxBuf
  ends : (stream.take k).any isLineEnd ∨ maxBuf - 1 ≤ k

/-- Reads that bring all of a stream with a line end in it take the loop to its end. -/
theorem exists_readLoop_ended {t : Text} (ht : t.length ≤ maxBuf) (chunks : List Text)
    (hline : (t ++ chunks.flatten).any isLineEnd) :
    ∃ k, EndsWith (t ++ chunks.flatten) k ∧
      readLoop (filled t) (chunks.map .data) = .ended (filled ((t ++ chunks.flatten).take k)) := by
  induction chunks generalizing t with
  | nil =>
    rw [List.flatten_nil, List.append_nil] at hline ⊢
    refine ⟨t.length, ⟨ht, ?_⟩, ?_⟩
    · rw [List.take_length]
      exact .inl hline
    · rw [List.take_length, readLoop_filled_ended (.inl hline)]
  | cons c cs ih =>
    by_cases hend : t.any isLineEnd ∨ maxBuf - 1 ≤ t.length
    · refine ⟨t.length, ⟨ht, ?_⟩, ?_⟩
      · rwa [List.take_left]
      · rw [List.take_left, readLoop_filled_ended hend]
    obtain ⟨hnone, hroom⟩ := not_or.1 hend
    rw [List.flatten_cons, ← List.append_assoc] at hline ⊢
    rw [List.map_cons, readLoop_filled_cons (by simpa using hnone) (by omega)]
    by_cases hc : c.length ≤ maxBuf - t.length
    · rw [List.take_of_length_le hc]
      exact ih (by rw [List.length_append]; omega) hline
    · -- the read fills the buffer, so the loop ends here
      have hlen : (t ++ c.take (maxBuf - t.length)).length = maxBuf := by
        rw [List.length_append, List.length_take]
        omega
      have htake : (t ++ c ++ cs.flatten).take maxBuf = t ++ c.take (maxBuf - t.length) := by
        rw [List.append_assoc, List.take_append, List.take_of_length_le ht,
          List.take_append_of_le_length (by omega)]
      have hfull : maxBuf - 1 ≤ (t ++ c.take (maxBuf - t.length)).length := by omega
      refine ⟨maxBuf, ⟨Nat.le_refl _, .inr (by omega)⟩, ?_⟩
      rw [htake, readLoop_filled_ended (.inr hfull)]

/-! ## Commands -/

theorem prefix_append_nul {pat : Text} (hpat : '\x00' ∉ pat) (line rest : Text) :
    pat.isPrefixOf (line ++ '\x00' :: rest) = pat.isPrefixOf line := by
  induction pat generalizing line with
  | nil => simp
  | cons c pat ih =>
    obtain ⟨hc, hpat⟩ := not_or.1 (List.mem_cons.not.1 hpat)
    cases line with
    | nil =>
      have hne : (c == '\x00') = false := by simpa using Ne.symm hc
      simp [List.isPrefixOf, hne]
    | cons d line => simp [List.isPrefixOf, ih hpat line]

/-- An argument that starts at or before the NUL ends there. -/
theorem cstrAt_append_nul {line : Text} {off : Nat} (hoff : off ≤ line.length) (rest : Text) :
    cstrAt (line ++ '\x00' :: rest) off = cstrAt line off := by
  rw [cstrAt, cstrAt, List.drop_append_of_le_length hoff]
  generalize line.drop off = arg
  induction arg with
  | nil => rfl
  | cons c arg ih => simp only [List.cons_append, List.takeWhile_cons, ih]

theorem cstrAt_append_padding (arg : Text) (n : Nat) :
    cstrAt (arg ++ List.replicate n '\x00') 0 = cstrAt arg 0 := by
  cases n with
  | zero => rw [List.replicate_zero, List.append_nil]
  | succ n => rw [List.replicate_succ, cstrAt_append_nul (Nat.zero_le _)]

/-- What follows the NUL counts for one line only. -/
theorem wdctlDispatch_append_nul (line rest : Text) :
    wdctlDispatch (line ++ '\x00' :: rest) =
      if line = "reset".toList then some (.reset (cstrAt rest 0)) else wdctlDispatch line := by
  unfold wdctlDispatch
  rw [prefix_append_nul (by decide), prefix_append_nul (by decide), prefix_append_nul (by decide),
    prefix_append_nul (by decide)]
  by_cases hline : line = "reset".toList
  · subst hline
    rfl
  · rw [if_neg hline]
    by_cases hreset : "reset".toList.isPrefixOf line
    · obtain ⟨arg, rfl⟩ := List.isPrefixOf_iff_prefix.1 hreset
      have hlen : 6 ≤ ("reset".toList ++ arg).length := by
        cases arg with
        | nil => exact absurd rfl hline
        | cons c arg => simp
      rw [cstrAt_append_nul hlen]
    · simp only [hreset]
      rfl

/-! ## The handler -/

def Handled.ofDispatch : Option WdctlCommand → Handled
  | none => .notUnderstood
  | some command => .dispatched command

/-- What the handler makes of the bytes read. -/
def handleRead (t : Text) : Handled :=
  if (filled t).done then .ofDispatch (wdctlDispatch (filled t).request) else .invalid

theorem handler_of_ended {results : List ReadResult} {t : Text}
    (h : readLoop .init results = .ended (filled t)) :
    threadWdctlHandler results = handleRead t := by
  rw [threadWdctlHandler, h, handleRead]
  cases hdone : (filled t).done with
  | false => simp [hdone]
  | true => cases hc : wdctlDispatch (filled t).request <;> simp [hdone, hc, Handled.ofDispatch]

/-- The whole stream arrives, in reads of one byte or more each. -/
def Splits (stream : Text) (chunks : List Text) : Prop :=
  (∀ c ∈ chunks, c ≠ []) ∧ chunks.flatten = stream

/-- What a stream is handled as is decided by how much of it was read. -/
theorem exists_handled_of_splits {stream : Text} (hline : stream.any isLineEnd)
    {chunks : List Text} (h : Splits stream chunks) :
    ∃ k, EndsWith stream k ∧
      threadWdctlHandler (chunks.map .data) = handleRead (stream.take k) := by
  obtain ⟨-, rfl⟩ := h
  obtain ⟨k, hk, hended⟩ := exists_readLoop_ended (t := []) (Nat.zero_le _) chunks hline
  exact ⟨k, hk, handler_of_ended hended⟩

/-- The first read decides if it ends the loop. -/
theorem handled_first (bytes : Text)
    (h : (bytes.take maxBuf).any isLineEnd ∨ maxBuf - 1 ≤ bytes.length) (chunks : List Text) :
    threadWdctlHandler ((bytes :: chunks).map .data) = handleRead (bytes.take maxBuf) := by
  apply handler_of_ended
  rw [List.map_cons, ← filled_nil, readLoop_filled_cons rfl (by decide)]
  refine readLoop_filled_ended ?_ _
  obtain hline | hfull := h
  · exact .inl hline
  · right
    rw [List.nil_append, List.length_take, List.length_nil]
    omega

/-! ## Two ways to split a stream -/

def Handled.rejected : Handled → Bool
  | .invalid | .notUnderstood => true
  | _ => false

/-- Both reject the request, or both dispatch the same command with the same argument. -/
def Alike (a b : Handled) : Prop :=
  (a.rejected ∧ b.rejected) ∨ ∃ command, a = .dispatched command ∧ b = .dispatched command

section
variable {line : Text} {e : Char} (hline : line.any isLineEnd = false) (he : isLineEnd e)
include hline

theorem any_take_line (k : Nat) : (line.take k).any isLineEnd = false := by
  rw [List.any_eq_false] at hline ⊢
  exact fun c hc => hline c (List.mem_of_mem_take hc)

/-- Read up to the line end at most. -/
theorem handleRead_of_le {k : Nat} (hk : k ≤ line.length) (rest : Text) :
    handleRead ((line ++ rest).take k) = .invalid := by
  rw [handleRead, List.take_append_of_le_length hk]
  simp [filled, any_take_line hline k]

theorem map_cutLineEnd_line : line.map cutLineEnd = line := by
  rw [List.any_eq_false] at hline
  have hsame (c : Char) (hc : c ∈ line) : cutLineEnd c = c := by simp [cutLineEnd, hline c hc]
  exact (List.map_congr_left hsame).trans (List.map_id _)

include he

/-- Read past the line end: the rest of what was read is behind the NUL. -/
theorem handleRead_of_lt {k : Nat} (hk : line.length < k) (rest : Text) :
    handleRead ((line ++ e :: rest).take k) =
      .ofDispatch (if line = "reset".toList
        then some (.reset (cstrAt ((rest.take (k - (line.length + 1))).map cutLineEnd) 0))
        else wdctlDispatch line) := by
  have htake : (line ++ e :: rest).take k = line ++ e :: rest.take (k - (line.length + 1)) := by
    have hsub : k - line.length = k - (line.length + 1) + 1 := by omega
    rw [List.take_append, List.take_of_length_le (by omega), hsub, List.take_succ_cons]
  have hcut : cutLineEnd e = '\x00' := by simp [cutLineEnd, he]
  rw [htake, handleRead]
  simp only [filled, List.map_append, List.map_cons, map_cutLineEnd_line hline, hcut,
    List.any_append, List.any_cons, he, Bool.true_or, Bool.or_true, if_true, List.append_assoc,
    List.cons_append, wdctlDispatch_append_nul, cstrAt_append_padding]

end

/-- The request up to the first line end. -/
def firstLine (stream : Text) : Text := stream.takeWhile fun c => !isLineEnd c

theorem exists_firstLine {stream : Text} (h : stream.any isLineEnd) :
    ∃ e rest, stream = firstLine stream ++ e :: rest ∧
      (firstLine stream).any isLineEnd = false ∧ isLineEnd e := by
  have hsplit := List.takeWhile_append_dropWhile (p := fun c => !isLineEnd c) (l := stream)
  have hline : (firstLine stream).any isLineEnd = false := by
    rw [List.any_eq_false]
    intro c hc
    simpa using List.mem_takeWhile_imp hc
  cases hdrop : stream.dropWhile fun c => !isLineEnd c with
  | nil =>
    rw [hdrop, List.append_nil] at hsplit
    rw [firstLine, hsplit, h] at hline
    cases hline
  | cons e rest =>
    have he := List.head?_dropWhile_not (fun c => !isLineEnd c) stream
    rw [hdrop] at hsplit he
    exact ⟨e, rest, hsplit.symm, hline, by simpa using he⟩

theorem splits_two {stream : Text} {k : Nat} (h0 : 0 < k) (hk : k < stream.length) :
    Splits stream [stream.take k, stream.drop k] := by
  refine ⟨?_, by simp⟩
  simp only [List.mem_cons, List.not_mem_nil, or_false, forall_eq_or_imp, forall_eq]
  constructor
  · rw [← List.length_pos_iff, List.length_take]
    omega
  · rw [← List.length_pos_iff, List.length_drop]
    omega

theorem splits_one {stream : Text} (h : stream ≠ []) : Splits stream [stream] := by
  simp [Splits, h]

/-- The line is just "reset", and what follows it in the stream would be an argument. -/
def ResetRunsOn (stream : Text) : Prop :=
  firstLine stream = "reset".toList ∧
    ∃ c, stream[6]? = some c ∧ c ≠ '\x00' ∧ isLineEnd c = false

/-- A command whose line end is at the last index of the buffer. -/
def EndsAtLastIndex (stream : Text) : Prop :=
  (firstLine stream).length = maxBuf - 1 ∧ (wdctlDispatch (firstLine stream)).isSome

/-- What follows the line "reset" is no argument. -/
theorem cstrAt_rest_eq_nil {rest : Text}
    (h : ∀ c, rest.head? = some c → c ≠ '\x00' → isLineEnd c = true) (n : Nat) :
    cstrAt ((rest.take n).map cutLineEnd) 0 = [] := by
  cases n with
  | zero => rfl
  | succ n =>
    cases rest with
    | nil => rfl
    | cons c rest =>
      have hcut : cutLineEnd c = '\x00' := by
        by_cases hc : c = '\x00'
        · subst hc
          rfl
        · simp [cutLineEnd, h c rfl hc]
      simp [cstrAt, hcut]

/-- The character after the line end. -/
theorem getElem?_after_line (line : Text) (e : Char) (rest : Text) :
    (line ++ e :: rest)[line.length + 1]? = rest.head? := by
  rw [List.getElem?_append_right (by omega), Nat.add_sub_cancel_left, List.getElem?_cons_succ,
    List.head?_eq_getElem?]

section
variable {stream : Text} (hline : stream.any isLineEnd) {k : Nat} (hk : EndsWith stream k)
include hline hk

/-- A line end before the last index is always seen, and what is behind it does not count. -/
theorem handleRead_short (hshort : (firstLine stream).length < maxBuf - 1)
    (hreset : ¬ ResetRunsOn stream) :
    handleRead (stream.take k) = .ofDispatch (wdctlDispatch (firstLine stream)) := by
  obtain ⟨e, rest, hstream, hnone, he⟩ := exists_firstLine hline
  have hlt : (firstLine stream).length < k := by
    by_contra hle
    have hends := hk.ends
    rw [hstream, List.take_append_of_le_length (by omega), any_take_line hnone] at hends
    obtain hends | hends := hends
    · cases hends
    · omega
  have hread := handleRead_of_lt hnone he hlt rest
  rw [← hstream] at hread
  rw [hread]
  by_cases hline : firstLine stream = "reset".toList
  · have harg (c : Char) (hc : rest.head? = some c) (h0 : c ≠ '\x00') : isLineEnd c = true := by
      by_contra hend
      have hsix := getElem?_after_line (firstLine stream) e rest
      rw [← hstream, hline, hc] at hsix
      exact hreset ⟨hline, c, hsix, h0, by simpa using hend⟩
    rw [if_pos hline, cstrAt_rest_eq_nil harg, hline]
    rfl
  · rw [if_neg hline]

/-- A line end at the last index or behind it is no use to a request that is no command. -/
theorem handleRead_long (hlong : maxBuf - 1 ≤ (firstLine stream).length)
    (hlast : ¬ EndsAtLastIndex stream) : (handleRead (stream.take k)).rejected := by
  obtain ⟨e, rest, hstream, hnone, he⟩ := exists_firstLine hline
  by_cases hlt : (firstLine stream).length < k
  · have hbuf := hk.inBuffer
    have hlen : (firstLine stream).length = maxBuf - 1 := by omega
    have hread := handleRead_of_lt hnone he hlt rest
    rw [← hstream] at hread
    have hne : firstLine stream ≠ "reset".toList := by
      intro heq
      rw [heq] at hlen
      cases hlen
    have hcmd : wdctlDispatch (firstLine stream) = none := by
      rw [← Option.not_isSome_iff_eq_none]
      exact fun hsome => hlast ⟨hlen, hsome⟩
    rw [hread, if_neg hne, hcmd]
    rfl
  · have hread := handleRead_of_le hnone (by omega : k ≤ _) (e :: rest)
    rw [← hstream] at hread
    rw [hread]
    rfl

end

theorem alike_ofDispatch (d : Option WdctlCommand) : Alike (.ofDispatch d) (.ofDispatch d) := by
  cases d with
  | none => exact .inl ⟨rfl, rfl⟩
  | some command => exact .inr ⟨command, rfl, rfl⟩

/-- All ways to split the stream into reads are handled alike. -/
def PacketsAlike (stream : Text) : Prop :=
  ∀ xs ys, Splits stream xs → Splits stream ys →
    Alike (threadWdctlHandler (xs.map .data)) (threadWdctlHandler (ys.map .data))

/-- So a first read of `k` bytes, if it ends the loop, is as good as one that takes all. -/
theorem PacketsAlike.first {stream : Text} (h : PacketsAlike stream) {k : Nat} (h0 : 0 < k)
    (hlen : k < stream.length) (hk : EndsWith stream k) :
    Alike (handleRead (stream.take k)) (handleRead (stream.take maxBuf)) := by
  have hne : stream ≠ [] := List.length_pos_iff.1 (by omega)
  have htake : (stream.take k).take maxBuf = stream.take k := by
    rw [List.take_take, Nat.min_eq_right hk.inBuffer]
  have hfirst : ((stream.take k).take maxBuf).any isLineEnd ∨
      maxBuf - 1 ≤ (stream.take k).length := by
    rw [htake, List.length_take, Nat.min_eq_left (by omega)]
    exact hk.ends
  have hall : (stream.take maxBuf).any isLineEnd ∨ maxBuf - 1 ≤ stream.length := by
    obtain hline | hfull := hk.ends
    · left
      obtain ⟨c, hc, hend⟩ := List.any_eq_true.1 hline
      exact List.any_eq_true.2 ⟨c, (List.take_subset_take_left _ hk.inBuffer) hc, hend⟩
    · right
      omega
  have halike := h _ _ (splits_two h0 hlen) (splits_one hne)
  rw [handled_first _ hfirst, handled_first _ hall, htake] at halike
  exact halike

theorem not_resetRunsOn_of_alike {stream : Text} (hline : stream.any isLineEnd)
    (h : PacketsAlike stream) : ¬ ResetRunsOn stream := by
  rintro ⟨hreset, c, hc, h0, hend⟩
  obtain ⟨e, rest, hstream, hnone, he⟩ := exists_firstLine hline
  rw [hreset] at hstream hnone
  subst hstream
  have hhead : rest.head? = some c := (getElem?_after_line _ e rest).symm.trans hc
  obtain ⟨rest, rfl⟩ := List.head?_eq_some_iff.1 hhead
  -- one read up to the line end, against one that also takes what follows
  have hcut := h.first (k := 6) (by decide) (by simp) ⟨by decide, .inl (by simp [he])⟩
  rw [handleRead_of_lt hnone he (by decide), handleRead_of_lt hnone he (by decide)] at hcut
  have hkeep : cutLineEnd c = c := by simp [cutLineEnd, hend]
  rw [if_pos rfl, if_pos rfl] at hcut
  obtain ⟨hrej, -⟩ | ⟨command, hnone', hsome⟩ := hcut
  · cases hrej
  · have harg : cstrAt (((c :: rest).take (maxBuf - 6)).map cutLineEnd) 0 ≠ [] := by
      rw [show maxBuf - 6 = maxBuf - 7 + 1 from rfl, List.take_succ_cons]
      simp [cstrAt, hkeep, h0]
    cases hnone'
    exact harg (WdctlCommand.reset.inj (Handled.dispatched.inj hsome))

theorem not_endsAtLastIndex_of_alike {stream : Text} (hline : stream.any isLineEnd)
    (h : PacketsAlike stream) : ¬ EndsAtLastIndex stream := by
  rintro ⟨hlen, hsome⟩
  obtain ⟨e, rest, hstream, hnone, he⟩ := exists_firstLine hline
  obtain ⟨command, hcommand⟩ := Option.isSome_iff_exists.1 hsome
  generalize firstLine stream = line at *
  subst hstream
  -- one read that stops just before the line end, against one that takes it
  have hcut := h.first (k := maxBuf - 1) (by decide) (by simp; omega) ⟨by decide, .inr (by omega)⟩
  have hne : line ≠ "reset".toList := by
    rintro rfl
    cases hlen
  have hlt : line.length < maxBuf := by
    rw [hlen]
    decide
  rw [handleRead_of_le hnone (by omega), handleRead_of_lt hnone he hlt, if_neg hne,
    hcommand] at hcut
  obtain ⟨-, hrej⟩ | ⟨command', hinvalid, -⟩ := hcut
  · cases hrej
  · cases hinvalid

/-- For every stream with a line end in it: all ways to split it into reads are handled alike if
    and only if it is neither of the two kinds. -/
theorem packets_alike_iff {stream : Text} (hline : stream.any isLineEnd) :
    PacketsAlike stream ↔ ¬ ResetRunsOn stream ∧ ¬ EndsAtLastIndex stream := by
  constructor
  · intro h
    exact ⟨not_resetRunsOn_of_alike hline h, not_endsAtLastIndex_of_alike hline h⟩
  · rintro ⟨hreset, hlast⟩ xs ys hxs hys
    obtain ⟨k, hk, hx⟩ := exists_handled_of_splits hline hxs
    obtain ⟨l, hl, hy⟩ := exists_handled_of_splits hline hys
    rw [hx, hy]
    by_cases hshort : (firstLine stream).length < maxBuf - 1
    · rw [handleRead_short hline hk hshort hreset, handleRead_short hline hl hshort hreset]
      exact alike_ofDispatch _
    · exact .inl ⟨handleRead_long hline hk (by omega) hlast,
        handleRead_long hline hl (by omega) hlast⟩

theorem packets_alike_status : PacketsAlike "status\n".toList :=
  (packets_alike_iff (by decide)).2
    ⟨fun h => absurd h.1 (by decide), fun h => absurd h.1 (by decide)⟩

/-- A reset without an argument, and bytes after the line: read at once they are its argument,
    read one after the other the argument is empty. -/
theorem reset_argument_by_packets :
    threadWdctlHandler [.data "reset\n10.0.0.5".toList] =
        .dispatched (.reset "10.0.0.5".toList) ∧
      threadWdctlHandler [.data "reset\n".toList, .data "10.0.0.5".toList] =
        .dispatched (.reset []) ∧
      ¬ PacketsAlike "reset\n10.0.0.5".toList := by
  have hwhole := handled_first "reset\n10.0.0.5".toList (.inl (by decide)) []
  have hparts := handled_first "reset\n".toList (.inl (by decide)) ["10.0.0.5".toList]
  refine ⟨hwhole.trans (by decide), hparts.trans (by decide), fun h => ?_⟩
  have hruns : ResetRunsOn "reset\n10.0.0.5".toList := ⟨by decide, '1', by decide⟩
  exact not_resetRunsOn_of_alike (by decide) h hruns

end Wifidog
