/-
  When the control handler finishes reading.

  A read of 0 bytes leaves everything as it was, so at the end of file the loop goes on for
  ever. A failed read takes the position one back, since -1 is cast to a `size_t` and the sum
  wraps; from position 0 it wraps the other way, and the inner loop runs out of the buffer.

  While the loop waits, the position is the number of bytes delivered less the number of failed
  reads (`netBytes`). So the loop ends, without having looked outside of the buffer, just when
  a line end is delivered or that number gets to `MAX_BUF - 1`, and no read fails before at 0
  (`reading_finishes_iff`).
-/
import Mathlib.Data.Nat.Find
import Wifidog.Model.Wdctl

namespace Wifidog

open CText

/-! ## The inner loop -/

/-- A line end is replaced by NUL. -/
def cutLineEnd (c : Char) : Char := if isLineEnd c then '\x00' else c

/-- Inside of the buffer the inner loop replaces the line ends of what was read. -/
theorem scanRequest_append (pre got post : Text) (done : Bool) :
    scanRequest got.length pre.length (pre ++ got ++ post) done =
      some (pre ++ got.map cutLineEnd ++ post, done || got.any isLineEnd) := by
  induction got generalizing pre done with
  | nil => simp [scanRequest]
  | cons c got ih =>
    have hc : (pre ++ c :: got ++ post)[pre.length]? = some c := by simp
    -- the rest of the loop runs on the buffer in which `c` is done
    have hrest (d : Char) (b : Bool) :
        scanRequest got.length (pre.length + 1) (pre ++ d :: got ++ post) b =
          some (pre ++ d :: got.map cutLineEnd ++ post, b || got.any isLineEnd) := by
      simpa using ih (pre ++ [d]) b
    rw [List.length_cons, scanRequest, hc]
    cases hend : isLineEnd c with
    | false => simpa [hend, cutLineEnd] using hrest c done
    | true =>
      have hset : (pre ++ c :: got ++ post).set pre.length '\x00' =
          pre ++ '\x00' :: got ++ post := by simp
      simpa [hend, cutLineEnd, hset] using hrest '\x00' true

/-- With more rounds than characters left the inner loop leaves the buffer. -/
theorem scanRequest_outside {n i : Nat} {request : Text} (hi : i ≤ request.length)
    (hn : request.length < i + n) (done : Bool) : scanRequest n i request done = none := by
  induction n generalizing i request done with
  | zero => omega
  | succ n ih =>
    rw [scanRequest]
    by_cases hlt : i < request.length
    · rw [List.getElem?_eq_getElem hlt]
      cases hend : isLineEnd request[i] with
      | false => simpa [hend] using ih hlt (by omega) done
      | true =>
        have hlen : (request.set i '\x00').length = request.length := List.length_set
        have hset := ih (hlen ▸ hlt) (by rw [hlen]; omega) true
        simpa [hend] using hset
    · rw [List.getElem?_eq_none (by omega)]

/-! ## One round -/

/-- The loop is in its buffer. -/
structure WdctlRead.Fits (r : WdctlRead) : Prop where
  request : r.request.length = maxBuf
  readBytes : r.readBytes ≤ maxBuf

theorem WdctlRead.fits_init : WdctlRead.init.Fits := ⟨List.length_replicate, Nat.zero_le _⟩

theorem maxBuf_lt_sizeModulus : maxBuf + maxBuf < sizeModulus := by decide

/-- A round whose read gives bytes (or none). -/
theorem WdctlRead.step_data {r : WdctlRead} (h : r.Fits) (bytes : Text) :
    let got := bytes.take (maxBuf - r.readBytes)
    r.step (.data bytes) = some
      ⟨r.request.take r.readBytes ++ got.map cutLineEnd ++
          r.request.drop (r.readBytes + got.length),
        r.readBytes + got.length, r.done || got.any isLineEnd⟩ := by
  intro got
  have hgot : got.length ≤ maxBuf - r.readBytes := List.length_take_le _ _
  have hpre : (r.request.take r.readBytes).length = r.readBytes := by
    rw [List.length_take, h.request]
    exact Nat.min_eq_left h.readBytes
  have hbound : (r.readBytes + got.length) % sizeModulus = r.readBytes + got.length := by
    have := h.readBytes
    have := maxBuf_lt_sizeModulus
    exact Nat.mod_eq_of_lt (by omega)
  have hscan := scanRequest_append (r.request.take r.readBytes) got
    (r.request.drop (r.readBytes + got.length)) r.done
  rw [hpre] at hscan
  simp only [WdctlRead.step, WdctlRead.read, writeAt]
  rw [show bytes.take (maxBuf - r.readBytes) = got from rfl, hbound, Nat.add_sub_cancel_left,
    hscan]
  rfl

/-- A failed read takes the position one back. -/
theorem WdctlRead.step_error {r : WdctlRead} (h : r.Fits) (hpos : 0 < r.readBytes) :
    r.step .error = some ⟨r.request, r.readBytes - 1, r.done⟩ := by
  have hlt : r.readBytes - 1 < sizeModulus := by
    have := h.readBytes
    have := maxBuf_lt_sizeModulus
    omega
  have hbound : (r.readBytes + (sizeModulus - 1)) % sizeModulus = r.readBytes - 1 := by
    have hsum : r.readBytes + (sizeModulus - 1) = r.readBytes - 1 + sizeModulus := by omega
    rw [hsum, Nat.add_mod_right, Nat.mod_eq_of_lt hlt]
  have hrounds : r.readBytes - 1 - r.readBytes = 0 := by omega
  simp only [WdctlRead.step, WdctlRead.read]
  rw [hbound, hrounds]
  rfl

/-- At position 0 the sum does not wrap, and the inner loop is to look at all of memory. -/
theorem WdctlRead.step_error_zero {r : WdctlRead} (h : r.Fits) (hpos : r.readBytes = 0) :
    r.step .error = none := by
  have hlarge : r.request.length < 0 + (sizeModulus - 1) := by
    rw [h.request]
    decide
  have hbound : (0 + (sizeModulus - 1)) % sizeModulus = sizeModulus - 1 := by decide
  simp only [WdctlRead.step, WdctlRead.read, hpos]
  rw [hbound, Nat.sub_zero, scanRequest_outside (Nat.zero_le _) hlarge]
  rfl

/-! ## The loop -/

/-- The loop goes on from where it waits. -/
def LoopState.resume : LoopState → List ReadResult → LoopState
  | .waiting r, results => readLoop r results
  | .ended r, _ => .ended r
  | .outside, _ => .outside

theorem readLoop_append (r : WdctlRead) (xs ys : List ReadResult) :
    readLoop r (xs ++ ys) = (readLoop r xs).resume ys := by
  induction xs generalizing r with
  | nil =>
    cases hgo : !r.done && decide (r.readBytes < maxBuf - 1) with
    | true => simp [readLoop, hgo, LoopState.resume]
    | false => cases ys <;> simp [readLoop, hgo, LoopState.resume]
  | cons x xs ih =>
    cases hgo : !r.done && decide (r.readBytes < maxBuf - 1) with
    | true =>
      cases hstep : r.step x with
      | none => simp [readLoop, hgo, hstep, LoopState.resume]
      | some r' => simp [readLoop, hgo, hstep, ih]
    | false => simp [readLoop, hgo, LoopState.resume]

/-- The first `n` of the results. -/
def firstReads (results : Nat → ReadResult) (n : Nat) : List ReadResult :=
  (List.range n).map results

/-- The loop ends, and has looked at no index outside of the buffer. -/
def Finishes (results : Nat → ReadResult) : Prop :=
  ∃ n r, readLoop .init (firstReads results n) = .ended r

theorem readLoop_firstReads_succ (results : Nat → ReadResult) (n : Nat) :
    readLoop .init (firstReads results (n + 1)) =
      (readLoop .init (firstReads results n)).resume [results n] := by
  rw [firstReads, List.range_succ, List.map_append, readLoop_append]
  rfl

/-- Once outside, always outside. -/
theorem readLoop_outside_of_le {results : Nat → ReadResult} {k n : Nat} (hkn : k ≤ n)
    (h : readLoop .init (firstReads results k) = .outside) :
    readLoop .init (firstReads results n) = .outside := by
  induction n, hkn using Nat.le_induction with
  | base => exact h
  | succ n _ ih => rw [readLoop_firstReads_succ, ih]; rfl

/-! ## The position -/

/-- The result of `read`, as a signed number. -/
def ReadResult.len : ReadResult → Int
  | .data bytes => bytes.length
  | .error => -1

/-- The bytes that the first `n` reads deliver less the number of those that fail. -/
def netBytes (results : Nat → ReadResult) : Nat → Int
  | 0 => 0
  | n + 1 => netBytes results n + (results n).len

/-- With read `n` there is a line end, or the buffer is full. -/
def CompletesAt (results : Nat → ReadResult) (n : Nat) : Prop :=
  (∃ bytes, results n = .data bytes ∧ bytes.any isLineEnd) ∨
    (maxBuf : Int) - 1 ≤ netBytes results (n + 1)

/-- Read `n` fails with nothing in the buffer. -/
def FailsEmpty (results : Nat → ReadResult) (n : Nat) : Prop :=
  results n = .error ∧ netBytes results n ≤ 0

/-- The loop waits for read `n`, at the net number of bytes. -/
structure WaitsAt (results : Nat → ReadResult) (n : Nat) (r : WdctlRead) : Prop where
  loop : readLoop .init (firstReads results n) = .waiting r
  fits : r.Fits
  done : r.done = false
  room : r.readBytes < maxBuf - 1
  net : (r.readBytes : Int) = netBytes results n

theorem waitsAt_zero (results : Nat → ReadResult) : WaitsAt results 0 .init :=
  ⟨rfl, WdctlRead.fits_init, rfl, by decide, rfl⟩

/-- The next round, from a waiting loop. -/
theorem WaitsAt.next {results : Nat → ReadResult} {n : Nat} {r : WdctlRead}
    (h : WaitsAt results n r) :
    readLoop .init (firstReads results (n + 1)) =
      match r.step (results n) with
      | none => .outside
      | some r => readLoop r [] := by
  rw [readLoop_firstReads_succ, h.loop]
  cases hstep : r.step (results n) with
  | none => simp [LoopState.resume, readLoop, h.done, h.room, hstep]
  | some r' => simp [LoopState.resume, readLoop, h.done, h.room, hstep]

theorem readLoop_nil_of_room {r : WdctlRead} (hdone : r.done = false)
    (hroom : r.readBytes < maxBuf - 1) : readLoop r [] = .waiting r := by
  simp [readLoop, hdone, hroom]

theorem WaitsAt.outside_of_failsEmpty {results : Nat → ReadResult} {n : Nat} {r : WdctlRead}
    (h : WaitsAt results n r) (hfail : FailsEmpty results n) :
    readLoop .init (firstReads results (n + 1)) = .outside := by
  obtain ⟨herror, hnet⟩ := hfail
  have hpos : r.readBytes = 0 := by
    have := h.net
    omega
  rw [h.next, herror, r.step_error_zero h.fits hpos]

/-- A round that neither completes nor fails with nothing in the buffer. -/
theorem WaitsAt.waits_succ {results : Nat → ReadResult} {n : Nat} {r : WdctlRead}
    (h : WaitsAt results n r) (hfail : ¬ FailsEmpty results n)
    (hmore : ¬ CompletesAt results n) : ∃ r', WaitsAt results (n + 1) r' := by
  have hnet := h.net
  have hroom := h.room
  have hfits := h.fits.readBytes
  have hnext := h.next
  have hsucc : netBytes results (n + 1) = netBytes results n + (results n).len := rfl
  obtain ⟨hlines, hlt⟩ := not_or.1 hmore
  cases hres : results n with
  | error =>
    have hpos : 0 < r.readBytes := by
      have : ¬ netBytes results n ≤ 0 := fun hle => hfail ⟨hres, hle⟩
      omega
    rw [hres] at hsucc
    rw [hres, r.step_error h.fits hpos] at hnext
    refine ⟨_, hnext.trans (readLoop_nil_of_room h.done ?_), ⟨h.fits.request, ?_⟩, h.done, ?_, ?_⟩
    all_goals
      simp only [ReadResult.len] at *
      omega
  | data bytes =>
    rw [hres] at hsucc
    have hlen : netBytes results (n + 1) = r.readBytes + bytes.length := by
      rw [hsucc, ← hnet]
      rfl
    have htake : bytes.take (maxBuf - r.readBytes) = bytes :=
      List.take_of_length_le (by omega)
    have hnone : bytes.any isLineEnd = false := by
      rw [Bool.eq_false_iff]
      exact fun hany => hlines ⟨bytes, hres, hany⟩
    have hstep := r.step_data h.fits bytes
    simp only [htake, hnone, h.done, Bool.or_false] at hstep
    rw [hres, hstep] at hnext
    refine ⟨_, hnext.trans (readLoop_nil_of_room rfl ?_), ⟨?_, ?_⟩, rfl, ?_, hlen.symm⟩
    case refine_2 =>
      have := h.fits.request
      simp
      omega
    all_goals
      dsimp only
      omega

/-- A round that completes. -/
theorem WaitsAt.ended_of_completesAt {results : Nat → ReadResult} {n : Nat} {r : WdctlRead}
    (h : WaitsAt results n r) (hdone : CompletesAt results n) :
    ∃ r', readLoop .init (firstReads results (n + 1)) = .ended r' := by
  have hnet := h.net
  have hroom := h.room
  have hsucc : netBytes results (n + 1) = netBytes results n + (results n).len := rfl
  cases hres : results n with
  | error =>
    -- a failed read brings no line end and takes the position back
    rw [hres] at hsucc
    obtain ⟨bytes, hbytes, -⟩ | hfull := hdone
    · rw [hres] at hbytes
      cases hbytes
    · simp only [ReadResult.len] at hsucc
      omega
  | data bytes =>
    rw [hres] at hsucc
    have hnext := h.next
    rw [hres, r.step_data h.fits bytes] at hnext
    refine ⟨_, hnext.trans (if_neg ?_)⟩
    intro hgo
    obtain ⟨hnone, hless⟩ : ¬ (bytes.take (maxBuf - r.readBytes)).any isLineEnd ∧
        r.readBytes + (bytes.take (maxBuf - r.readBytes)).length < maxBuf - 1 := by
      simpa [h.done] using hgo
    -- so all that was delivered fits, and there is no line end among it
    have hshort : bytes.length ≤ maxBuf - r.readBytes := by
      rw [List.length_take] at hless
      omega
    rw [List.take_of_length_le hshort] at hnone hless
    obtain ⟨bytes', hbytes, hany⟩ | hfull := hdone
    · rw [hres] at hbytes
      cases hbytes
      exact hnone hany
    · simp only [ReadResult.len] at hsucc
      omega

/-! ## The whole run -/

/-- After read `n` the loop does not wait any more. -/
def StopsAt (results : Nat → ReadResult) (n : Nat) : Prop :=
  FailsEmpty results n ∨ CompletesAt results n

theorem waits_of_forall {results : Nat → ReadResult} {n : Nat}
    (h : ∀ m < n, ¬ StopsAt results m) : ∃ r, WaitsAt results n r := by
  induction n with
  | zero => exact ⟨.init, waitsAt_zero results⟩
  | succ n ih =>
    obtain ⟨r, hr⟩ := ih fun m hm => h m (by omega)
    obtain ⟨hfail, hmore⟩ := not_or.1 (h n (Nat.lt_succ_self n))
    exact hr.waits_succ hfail hmore

theorem exists_first_stop {results : Nat → ReadResult} {n : Nat} (h : StopsAt results n) :
    ∃ k ≤ n, StopsAt results k ∧ ∀ m < k, ¬ StopsAt results m := by
  classical
  have hex : ∃ k, StopsAt results k := ⟨n, h⟩
  exact ⟨Nat.find hex, Nat.find_min' hex h, Nat.find_spec hex, fun m => Nat.find_min hex⟩

/-- A loop that has ended was stopped by one of its reads. -/
theorem exists_stop_of_ended {results : Nat → ReadResult} {n : Nat} {r : WdctlRead}
    (h : readLoop .init (firstReads results n) = .ended r) : ∃ m < n, StopsAt results m := by
  by_contra hnone
  have hwaits : ∃ r, WaitsAt results n r :=
    waits_of_forall fun m hm hstop => hnone ⟨m, hm, hstop⟩
  obtain ⟨r', hr'⟩ := hwaits
  rw [hr'.loop] at h
  cases h

/-- For any results of the reads, those that end with end of file or with errors among them:
    the loop ends inside of its buffer if and only if some read completes it and no read up to
    there fails with nothing in the buffer. -/
theorem reading_finishes_iff (results : Nat → ReadResult) :
    Finishes results ↔
      ∃ n, CompletesAt results n ∧
        ∀ m ≤ n, results m = .error → 0 < netBytes results m := by
  constructor
  · rintro ⟨n, r, hended⟩
    obtain ⟨m, hmn, hm⟩ := exists_stop_of_ended hended
    obtain ⟨k, hkm, hk, hfirst⟩ := exists_first_stop hm
    obtain ⟨r', hr'⟩ := waits_of_forall hfirst
    have hsafe : ¬ FailsEmpty results k := by
      intro hfail
      have hout := readLoop_outside_of_le (by omega : k + 1 ≤ n) (hr'.outside_of_failsEmpty hfail)
      rw [hended] at hout
      cases hout
    refine ⟨k, hk.resolve_left hsafe, fun m hmk herror => ?_⟩
    by_contra hnet
    have hfail : FailsEmpty results m := ⟨herror, by omega⟩
    obtain rfl | hlt := Nat.eq_or_lt_of_le hmk
    · exact hsafe hfail
    · exact hfirst m hlt (.inl hfail)
  · rintro ⟨n, hdone, hsafe⟩
    obtain ⟨k, hkn, hk, hfirst⟩ := exists_first_stop (.inr hdone : StopsAt results n)
    obtain ⟨r, hr⟩ := waits_of_forall hfirst
    have hcompletes : CompletesAt results k := by
      obtain ⟨herror, hnet⟩ | hk := hk
      · have := hsafe k hkn herror
        omega
      · exact hk
    obtain ⟨r', hr'⟩ := hr.ended_of_completesAt hcompletes
    exact ⟨k + 1, r', hr'⟩

/-- A peer that sends a command without a line end and closes. -/
def unendedCommand (n : Nat) : ReadResult := .data (if n = 0 then "status".toList else [])

theorem netBytes_unendedCommand (n : Nat) : netBytes unendedCommand n ≤ 6 := by
  cases n with
  | zero => decide
  | succ n =>
    induction n with
    | zero => decide
    | succ n ih =>
      rw [netBytes]
      simpa [unendedCommand, ReadResult.len] using ih

/-- After such a command the loop does not end; and when the first read fails it leaves the
    buffer. -/
theorem unended_command_read_forever :
    ¬ Finishes unendedCommand ∧ readLoop .init [.error] = .outside := by
  constructor
  · rintro ⟨n, r, hended⟩
    obtain ⟨m, -, ⟨herror, -⟩ | ⟨bytes, hbytes, hany⟩ | hfull⟩ := exists_stop_of_ended hended
    · cases herror
    · have hnone : (if m = 0 then "status".toList else []).any isLineEnd = false := by
        split <;> decide
      cases hbytes
      rw [hnone] at hany
      cases hany
    · have hle := netBytes_unendedCommand (m + 1)
      have hbuf : maxBuf = 4096 := rfl
      omega
  · exact (waitsAt_zero fun _ => .error).outside_of_failsEmpty ⟨rfl, Int.le_refl 0⟩

end Wifidog
