/-
  What wdctl says and what the gateway did.

  Whatever the order of the steps, however the bytes are split into reads and writes and whatever
  the other threads do meanwhile: what wdctl reports is what the gateway did. "successfully reset"
  means that the gateway, when it came to the command, had a client with that address and logged
  it out, "was not active" that it had none, and a status is printed as it was written
  (`report_agrees`).

  The two never wait for each other for ever, with one exception: `wdctl reset` with an argument
  of more than 56 characters in one line sends a request without a line end. The gateway waits for
  one, and wdctl waits for the reply (`reset_ends_iff`).

  `Asking` and `Replying` are the invariant: while the gateway reads, the request is what it has
  read, what is under way and what is still to be sent; once it replies, the same holds of the
  reply. `Proceeds` says once what a step can do.
-/
import Wifidog.Access.Logout
import Wifidog.Control.Packets
import Wifidog.Lib.Runs
import Wifidog.Model.Exchange

namespace Wifidog

open CText Runs

/-! ## Requests -/

/-- The command that is meant: an argument ends at its first line end. -/
def CtlCommand.command : CtlCommand → WdctlCommand
  | .status => .status
  | .reset param => .reset (firstLine param)

/-- An argument is a C string. -/
def CtlCommand.Plain : CtlCommand → Prop
  | .status => True
  | .reset param => '\x00' ∉ param

/-- A line end is sent. -/
def CtlCommand.Ended : CtlCommand → Prop
  | .status => True
  | .reset param => param.length ≤ 56 ∨ (param.take 57).any isLineEnd

theorem request_reset (param : Text) : (CtlCommand.reset param).request = resetRequest param := rfl

theorem resetRequest_short {param : Text} (h : param.length ≤ 56) :
    resetRequest param = "reset ".toList ++ param ++
      '\r' :: ("\n\r\n".toList.take (56 - param.length)) := by
  have hlen : "reset ".toList.length = 6 := rfl
  have htake : param.take (64 - "reset ".toList.length - 1) = param :=
    List.take_of_length_le (by omega)
  have hroom : 64 - ("reset ".toList ++ param).length - 1 = 56 - param.length + 1 := by
    rw [List.length_append, hlen]
    omega
  unfold resetRequest
  simp only [htake, hroom]
  rfl

theorem resetRequest_long {param : Text} (h : 57 ≤ param.length) :
    resetRequest param = "reset ".toList ++ param.take 57 := by
  have hlen : "reset ".toList.length = 6 := rfl
  have hroom : 64 - ("reset ".toList ++ param.take (64 - "reset ".toList.length - 1)).length - 1 =
      0 := by
    rw [List.length_append, List.length_take, hlen]
    omega
  unfold resetRequest
  simp only [hroom, List.take_zero, List.append_nil]
  rfl

theorem length_request_le (cmd : CtlCommand) : cmd.request.length ≤ 63 := by
  cases cmd with
  | status => decide
  | reset param =>
    have hlen : "reset ".toList.length = 6 := rfl
    have hends : "\n\r\n".toList.length = 3 := rfl
    rw [request_reset]
    rcases Nat.lt_or_ge 56 param.length with hlong | hshort
    · rw [resetRequest_long hlong, List.length_append, List.length_take, hlen]
      omega
    · rw [resetRequest_short hshort, List.length_append, List.length_append, List.length_cons,
        List.length_take, hlen, hends]
      omega

theorem ended_iff (cmd : CtlCommand) : cmd.Ended ↔ cmd.request.any isLineEnd = true := by
  cases cmd with
  | status => exact ⟨fun _ => rfl, fun _ => trivial⟩
  | reset param =>
    have hword : "reset ".toList.any isLineEnd = false := rfl
    have hends : isLineEnd '\r' = true := rfl
    show param.length ≤ 56 ∨ _ ↔ _
    rw [request_reset]
    rcases Nat.lt_or_ge 56 param.length with hlong | hshort
    · rw [resetRequest_long hlong, List.any_append, hword, Bool.false_or]
      exact or_iff_right (by omega)
    · rw [resetRequest_short hshort, List.any_append, List.any_cons, hends, Bool.true_or,
        Bool.or_true]
      exact iff_of_true (.inl hshort) rfl

theorem firstLine_append_end (line : Text) {e : Char} (he : isLineEnd e = true) (rest : Text) :
    firstLine (line ++ e :: rest) = firstLine line := by
  unfold firstLine
  induction line with
  | nil => simp [he]
  | cons c line ih => rw [List.cons_append, List.takeWhile_cons, List.takeWhile_cons, ih]

theorem firstLine_append {a : Text} (h : a.any isLineEnd = true) (b : Text) :
    firstLine (a ++ b) = firstLine a := by
  obtain ⟨e, rest, ha, -, he⟩ := exists_firstLine h
  calc firstLine (a ++ b) = firstLine (firstLine a ++ e :: (rest ++ b)) := by
        rw [← List.cons_append, ← List.append_assoc, ← ha]
    _ = firstLine (firstLine a ++ e :: rest) := by
        rw [firstLine_append_end _ he, firstLine_append_end _ he]
    _ = firstLine a := by rw [← ha]

/-- The line of a request. -/
theorem firstLine_reset {param : Text} (h : (CtlCommand.reset param).Ended) :
    firstLine (resetRequest param) = "reset ".toList ++ firstLine param := by
  have hword (x : Text) : firstLine ("reset ".toList ++ x) = "reset ".toList ++ firstLine x := rfl
  by_cases hlong : 57 ≤ param.length
  · have hline : (param.take 57).any isLineEnd = true := h.resolve_left (by omega)
    rw [resetRequest_long hlong, hword, ← firstLine_append hline (param.drop 57),
      List.take_append_drop]
  · rw [resetRequest_short (by omega), firstLine_append_end _ rfl, hword]

theorem wdctlDispatch_reset {param : Text} (h : '\x00' ∉ param) :
    wdctlDispatch ("reset ".toList ++ param) = some (.reset param) := by
  have harg : cstrAt ("reset ".toList ++ param) 6 = param := by
    have hdrop : ("reset ".toList ++ param).drop 6 = param := rfl
    rw [cstrAt, hdrop]
    exact cstrAt_of_not_mem h
  unfold wdctlDispatch
  rw [harg]
  rfl

theorem wdctlDispatch_firstLine {cmd : CtlCommand} (hplain : cmd.Plain) (hended : cmd.Ended) :
    wdctlDispatch (firstLine cmd.request) = some cmd.command ∧ ¬ ResetRunsOn cmd.request := by
  cases cmd with
  | status => exact ⟨rfl, fun h => absurd h.1 (by decide)⟩
  | reset param =>
    rw [request_reset, ResetRunsOn, firstLine_reset hended]
    constructor
    · exact wdctlDispatch_reset fun hmem => hplain (List.takeWhile_subset _ hmem)
    · rintro ⟨hline, -⟩
      have hlen := congrArg List.length hline
      simp at hlen

/-- A request of which a line end has been read is the command that is meant. -/
theorem dispatch_of_read {cmd : CtlCommand} (hplain : cmd.Plain) {t more : Text}
    (hbytes : t ++ more = cmd.request) (hline : t.any isLineEnd = true) :
    wdctlDispatch (filled t).request = some cmd.command := by
  have htake : cmd.request.take t.length = t := by rw [← hbytes, List.take_left]
  have hall : cmd.request.any isLineEnd = true := by
    rw [← hbytes, List.any_append, hline, Bool.true_or]
  obtain ⟨hdispatch, hruns⟩ := wdctlDispatch_firstLine hplain ((ended_iff cmd).mpr hall)
  have h63 := length_request_le cmd
  have hmax : 64 < maxBuf := by decide
  have hlen : t.length ≤ cmd.request.length := by rw [← hbytes, List.length_append]; omega
  have hfirst : (firstLine cmd.request).length ≤ cmd.request.length :=
    (List.takeWhile_sublist _).length_le
  have hread := handleRead_short hall (k := t.length) ⟨by omega, .inl (by rwa [htake])⟩
    (by omega) hruns
  have hdone : (filled t).done = true := hline
  rw [htake, hdispatch, handleRead, if_pos hdone] at hread
  cases hd : wdctlDispatch (filled t).request with
  | none => rw [hd] at hread; cases hread
  | some command =>
    rw [hd] at hread
    rw [Handled.dispatched.inj hread]

/-! ## Steps -/

/-- What a step can do. -/
inductive Proceeds (cfg : Config) (cmd : CtlCommand) (x : Exchange) :
    ExchangeAction → Exchange → Prop
  | writeFails {rest : Text} {n : Nat} (hc : x.client = .sending rest) (hs : x.server = .closed) :
    Proceeds cfg cmd x (.clientWrite n) { x with client := .killed }
  | clientWrites {rest : Text} {n : Nat} (hc : x.client = .sending rest) (h0 : 1 ≤ n)
      (hn : n ≤ rest.length) :
    Proceeds cfg cmd x (.clientWrite n)
      { x with
        client := if n = rest.length then .reading [] else .sending (rest.drop n)
        toServer := x.toServer ++ rest.take n }
  | serverReads {r r' : WdctlRead} {n : Nat} (hs : x.server = .reading r) (hgo : r.goesOn = true)
      (h0 : 1 ≤ n) (hn : n ≤ x.toServer.length) (hroom : n ≤ maxBuf - r.readBytes)
      (hr : r.step (.data (x.toServer.take n)) = some r') :
    Proceeds cfg cmd x (.serverRead n)
      { x with server := .reading r', toServer := x.toServer.drop n }
  | rejects {r : WdctlRead} {status : Text} (hs : x.server = .reading r) (hgo : r.goesOn = false)
      (hno : r.done = false ∨ wdctlDispatch r.request = none) :
    Proceeds cfg cmd x (.serverHandle status) { x with server := .closed }
  | handles {r : WdctlRead} {status : Text} {command : WdctlCommand} {s : State} {reply : Text}
      (hs : x.server = .reading r) (hdone : r.done = true)
      (hd : wdctlDispatch r.request = some command)
      (hh : handleCommand cfg x.gateway status command = some (s, reply)) :
    Proceeds cfg cmd x (.serverHandle status)
      { x with
        gateway := s
        server := .replying reply
        handled := some ⟨command, x.gateway, s, reply⟩ }
  | serverWrites {rest : Text} {n : Nat} (hs : x.server = .replying rest) (h0 : 1 ≤ n)
      (hn : n ≤ rest.length) :
    Proceeds cfg cmd x (.serverWrite n)
      { x with server := .replying (rest.drop n), toClient := x.toClient ++ rest.take n }
  | closes (hs : x.server = .replying []) :
    Proceeds cfg cmd x .serverClose { x with server := .closed }
  | clientReads {buffer : Text} {n : Nat} (hc : x.client = .reading buffer) (h0 : 1 ≤ n)
      (hn : n ≤ x.toClient.length) (hroom : n ≤ cmd.room buffer) :
    Proceeds cfg cmd x (.clientRead n)
      { x with
        client := .reading (buffer ++ cmd.take (x.toClient.take n))
        toClient := x.toClient.drop n }
  | reports {buffer : Text} (hc : x.client = .reading buffer)
      (hend : (x.toClient = [] ∧ x.server = .closed) ∨ cmd.room buffer = 0) :
    Proceeds cfg cmd x .clientEnd { x with client := .reported (cmd.report buffer) }
  | other {a : Action} {s : State} (hstep : step cfg x.gateway a = some s) :
    Proceeds cfg cmd x (.other a) { x with gateway := s }

theorem proceeds_of_step {cfg : Config} {cmd : CtlCommand} {x x' : Exchange} {a : ExchangeAction}
    (h : exchangeStep cfg cmd x a = some x') : Proceeds cfg cmd x a x' := by
  unfold exchangeStep at h
  cases a with
  | clientWrite n =>
    dsimp only at h
    split at h
    · next rest hc =>
      split at h
      · next hs =>
        cases h
        exact .writeFails hc hs
      · split at h
        · next hn =>
          cases h
          exact .clientWrites hc hn.1 hn.2
        · cases h
    · cases h
  | serverRead n =>
    dsimp only at h
    split at h
    · next r hs =>
      split at h
      · next hn =>
        obtain ⟨r', hr, rfl⟩ := Option.map_eq_some_iff.mp h
        exact .serverReads hs hn.1 hn.2.1 hn.2.2.1 hn.2.2.2 hr
      · cases h
    · cases h
  | serverHandle status =>
    dsimp only at h
    split at h
    · next r hs =>
      split at h
      · cases h
      · next hgo =>
        split at h
        · next hdone =>
          cases h
          exact .rejects hs (by simpa using hgo) (.inl (by simpa using hdone))
        · next hdone =>
          split at h
          · next hd =>
            cases h
            exact .rejects hs (by simpa using hgo) (.inr hd)
          · next command hd =>
            obtain ⟨⟨s, reply⟩, hh, rfl⟩ := Option.map_eq_some_iff.mp h
            exact .handles hs (by simpa using hdone) hd hh
    · cases h
  | serverWrite n =>
    dsimp only at h
    split at h
    · next rest hs =>
      split at h
      · next hn =>
        cases h
        exact .serverWrites hs hn.1 hn.2
      · cases h
    · cases h
  | serverClose =>
    dsimp only at h
    split at h
    · next hs =>
      cases h
      exact .closes hs
    · cases h
  | clientRead n =>
    dsimp only at h
    split at h
    · next buffer hc =>
      split at h
      · next hn =>
        cases h
        exact .clientReads hc hn.1 hn.2.1 hn.2.2
      · cases h
    · cases h
  | clientEnd =>
    dsimp only at h
    split at h
    · next buffer hc =>
      split at h
      · next hend =>
        cases h
        exact .reports hc hend
      · cases h
    · cases h
  | other a =>
    obtain ⟨s, hs, rfl⟩ := Option.map_eq_some_iff.mp h
    exact .other hs

/-! ## The invariant -/

def CtlClient.unsent : CtlClient → Text
  | .sending rest => rest
  | _ => []

def CtlServer.unsent : CtlServer → Text
  | .replying rest => rest
  | _ => []

/-- The gateway is reading. -/
structure Asking (cmd : CtlCommand) (x : Exchange) : Prop where
  bytes : ∃ t, x.server = .reading (filled t) ∧ t ++ x.toServer ++ x.client.unsent = cmd.request
  client : x.client = .reading [] ∨ ∃ rest, rest ≠ [] ∧ x.client = .sending rest
  toClient : x.toClient = []
  handled : x.handled = none
  wf : x.gateway.list.Wf

/-- The command was carried out, and the reply is its result. -/
def CtlCommand.Right (cfg : Config) : CtlCommand → Handling → Prop
  | .status, h => '\x00' ∉ h.reply ∧ h.after = h.before
  | .reset param, h =>
    h.after = wdctlReset cfg h.before (firstLine param) ∧
      h.reply = if (resetNode h.before.list (firstLine param)).isSome then "Yes".toList
        else "No".toList

/-- What wdctl has of the reply, when `pending` has yet to come. -/
inductive Gets (cmd : CtlCommand) (reply : Text) : CtlClient → (pending : Text) → Prop
  | sending {rest : Text} (hne : rest ≠ []) : Gets cmd reply (.sending rest) reply
  | reading {buffer pending : Text} (hbytes : buffer ++ pending = reply) :
    Gets cmd reply (.reading buffer) pending
  | reported {pending : Text} : Gets cmd reply (.reported (cmd.report reply)) pending
  | killed {pending : Text} : Gets cmd reply .killed pending

theorem Gets.pending_eq {cmd : CtlCommand} {reply rest pending : Text}
    (h : Gets cmd reply (.sending rest) pending) : pending = reply := by
  cases h with
  | sending hne => rfl

/-- The gateway has handled the command. -/
structure Replying (cfg : Config) (cmd : CtlCommand) (x : Exchange) (h : Handling) : Prop where
  handled : x.handled = some h
  command : h.command = cmd.command
  ended : cmd.Ended
  right : cmd.Right cfg h
  wf : h.before.list.Wf
  server : x.server = .closed ∨ ∃ rest, x.server = .replying rest
  client : Gets cmd h.reply x.client (x.toClient ++ x.server.unsent)

def Talk (cfg : Config) (cmd : CtlCommand) (x : Exchange) : Prop :=
  Asking cmd x ∨ ∃ h, Replying cfg cmd x h

theorem asking_start {s : State} (hwf : s.list.Wf) (cmd : CtlCommand) :
    Asking cmd (.start s cmd) := by
  have hne : cmd.request ≠ [] := by
    cases cmd with
    | status => decide
    | reset param =>
      have hword : "reset ".toList ≠ [] := by decide
      exact List.append_ne_nil_of_left_ne_nil (List.append_ne_nil_of_left_ne_nil hword _) _
  exact ⟨⟨[], rfl, rfl⟩, .inr ⟨_, hne, rfl⟩, rfl, rfl, hwf⟩

theorem goesOn_filled (t : Text) :
    (filled t).goesOn = true ↔ t.any isLineEnd = false ∧ t.length < maxBuf - 1 := by
  rw [WdctlRead.goesOn, Bool.and_eq_true, Bool.not_eq_true', decide_eq_true_iff]
  rfl

theorem CtlCommand.right_of_handle {cfg : Config} {cmd : CtlCommand} {s s' : State}
    {status reply : Text} (h : handleCommand cfg s status cmd.command = some (s', reply)) :
    cmd.Right cfg ⟨cmd.command, s, s', reply⟩ := by
  cases cmd with
  | status =>
    cases h
    exact ⟨nul_not_mem_cstrAt _ _, rfl⟩
  | reset param =>
    cases h
    exact ⟨rfl, rfl⟩

section
variable {cfg : Config} {cmd : CtlCommand} {x x' : Exchange} {a : ExchangeAction}

theorem Asking.step (hplain : cmd.Plain) (h : Asking cmd x) (hp : Proceeds cfg cmd x a x') :
    Talk cfg cmd x' := by
  obtain ⟨t, hserver, hbytes⟩ := h.bytes
  have hlen : t.length ≤ 63 := by
    have h63 := length_request_le cmd
    rw [← hbytes, List.append_assoc, List.length_append] at h63
    omega
  have hmax : 64 < maxBuf - 1 := by decide
  cases hp with
  | writeFails hc hs => rw [hserver] at hs; cases hs
  | @clientWrites rest n hc h0 hn =>
    rw [hc] at hbytes
    have hnext : t ++ (x.toServer ++ rest.take n) ++ rest.drop n = cmd.request := by
      rw [← hbytes, List.append_assoc, List.append_assoc, List.take_append_drop, List.append_assoc]
      rfl
    refine .inl ⟨⟨t, hserver, ?_⟩, ?_, h.toClient, h.handled, h.wf⟩
    · by_cases hall : n = rest.length
      · subst hall
        rw [List.drop_length] at hnext
        simpa [CtlClient.unsent] using hnext
      · simpa [hall, CtlClient.unsent] using hnext
    · by_cases hall : n = rest.length
      · exact .inl (if_pos hall)
      · refine .inr ⟨rest.drop n, ?_, if_neg hall⟩
        rw [Ne, List.drop_eq_nil_iff]
        omega
  | @serverReads r r' n hs hgo h0 hn hroom hr =>
    obtain rfl : filled t = r := CtlServer.reading.inj (hserver.symm.trans hs)
    have htake : (x.toServer.take n).take (maxBuf - t.length) = x.toServer.take n :=
      List.take_of_length_le (Nat.le_trans (List.length_take_le _ _) hroom)
    rw [filled_step (by omega), htake] at hr
    refine .inl ⟨⟨_, congrArg _ (Option.some.inj hr).symm, ?_⟩, h.client, h.toClient, h.handled,
      h.wf⟩
    show t ++ x.toServer.take n ++ x.toServer.drop n ++ _ = _
    rw [List.append_assoc t, List.take_append_drop]
    exact hbytes
  | @rejects r status hs hgo hno =>
    obtain rfl : filled t = r := CtlServer.reading.inj (hserver.symm.trans hs)
    have hline : t.any isLineEnd = true := by
      by_contra hnone
      rw [(goesOn_filled t).mpr ⟨by simpa using hnone, by omega⟩] at hgo
      cases hgo
    rw [List.append_assoc] at hbytes
    rcases hno with hdone | hdispatch
    · have hdone' : (filled t).done = true := hline
      rw [hdone'] at hdone
      cases hdone
    · rw [dispatch_of_read hplain hbytes hline] at hdispatch
      cases hdispatch
  | @handles r status command s reply hs hdone hd hh =>
    obtain rfl : filled t = r := CtlServer.reading.inj (hserver.symm.trans hs)
    rw [List.append_assoc] at hbytes
    rw [dispatch_of_read hplain hbytes hdone] at hd
    obtain rfl := Option.some.inj hd
    have hended : cmd.Ended := by
      have hline : t.any isLineEnd = true := hdone
      rw [ended_iff, ← hbytes, List.any_append, hline, Bool.true_or]
    refine .inr ⟨_, rfl, rfl, hended, CtlCommand.right_of_handle hh, h.wf, .inr ⟨reply, rfl⟩, ?_⟩
    show Gets cmd reply x.client (x.toClient ++ reply)
    rw [h.toClient]
    rcases h.client with hc | ⟨rest, hne, hc⟩
    · rw [hc]
      exact .reading rfl
    · rw [hc]
      exact .sending hne
  | serverWrites hs h0 hn => rw [hserver] at hs; cases hs
  | closes hs => rw [hserver] at hs; cases hs
  | clientReads hc h0 hn hroom =>
    rw [h.toClient, List.length_nil] at hn
    omega
  | @reports buffer hc hend =>
    have hbuffer : buffer = [] := by
      rcases h.client with hc' | ⟨rest, -, hc'⟩
      · exact CtlClient.reading.inj (hc.symm.trans hc')
      · rw [hc'] at hc
        cases hc
    rcases hend with ⟨-, hs⟩ | hroom
    · rw [hserver] at hs
      cases hs
    · subst hbuffer
      cases cmd <;> cases hroom
  | other hstep =>
    exact .inl ⟨h.bytes, h.client, h.toClient, h.handled,
      run_wf h.wf (run_cons_iff.mpr ⟨_, hstep, run_nil _⟩)⟩

/-- There is room for the reply. -/
theorem CtlCommand.Right.room {h : Handling} (hright : cmd.Right cfg h) {buffer more : Text}
    (hbytes : buffer ++ more = h.reply) : cmd.room buffer ≠ 0 := by
  cases cmd with
  | status => exact Nat.succ_ne_zero _
  | reset param =>
    have hlen : h.reply.length ≤ 3 := by
      rw [hright.2]
      split <;> decide
    rw [← hbytes, List.length_append] at hlen
    show 4096 - buffer.length ≠ 0
    omega

/-- All that is read is kept. -/
theorem CtlCommand.Right.take {h : Handling} (hright : cmd.Right cfg h) {pre bytes post : Text}
    (hbytes : pre ++ bytes ++ post = h.reply) : cmd.take bytes = bytes := by
  cases cmd with
  | status =>
    refine cstrAt_of_not_mem fun hmem => hright.1 ?_
    rw [← hbytes]
    exact List.mem_append_left _ (List.mem_append_right _ hmem)
  | reset param => rfl

theorem Replying.step {h : Handling} (hx : Replying cfg cmd x h) (hp : Proceeds cfg cmd x a x') :
    Replying cfg cmd x' h := by
  have hreads {r : WdctlRead} (hs : x.server = .reading r) : False := by
    rcases hx.server with hs' | ⟨rest, hs'⟩
    · rw [hs'] at hs
      cases hs
    · rw [hs'] at hs
      cases hs
  have hclient := hx.client
  cases hp with
  | writeFails hc hs =>
    exact ⟨hx.handled, hx.command, hx.ended, hx.right, hx.wf, hx.server, .killed⟩
  | @clientWrites rest n hc h0 hn =>
    refine ⟨hx.handled, hx.command, hx.ended, hx.right, hx.wf, hx.server, ?_⟩
    have hpending : x.toClient ++ x.server.unsent = h.reply := by
      rw [hc] at hclient
      exact hclient.pending_eq
    show Gets cmd h.reply (if n = rest.length then .reading [] else .sending (rest.drop n))
      (x.toClient ++ x.server.unsent)
    rw [hpending]
    by_cases hall : n = rest.length
    · rw [if_pos hall]
      exact .reading rfl
    · rw [if_neg hall]
      refine .sending ?_
      rw [Ne, List.drop_eq_nil_iff]
      omega
  | serverReads hs => exact (hreads hs).elim
  | rejects hs => exact (hreads hs).elim
  | handles hs => exact (hreads hs).elim
  | @serverWrites rest n hs h0 hn =>
    refine ⟨hx.handled, hx.command, hx.ended, hx.right, hx.wf, .inr ⟨_, rfl⟩, ?_⟩
    have hkeep : x.toClient ++ rest.take n ++ rest.drop n = x.toClient ++ x.server.unsent := by
      rw [List.append_assoc, List.take_append_drop, hs]
      rfl
    rw [← hkeep] at hclient
    exact hclient
  | closes hs =>
    refine ⟨hx.handled, hx.command, hx.ended, hx.right, hx.wf, .inl rfl, ?_⟩
    rw [hs] at hclient
    exact hclient
  | @clientReads buffer n hc h0 hn hroom =>
    refine ⟨hx.handled, hx.command, hx.ended, hx.right, hx.wf, hx.server, ?_⟩
    rw [hc] at hclient
    cases hclient with
    | reading hbytes =>
      rw [← List.take_append_drop n x.toClient, List.append_assoc, ← List.append_assoc] at hbytes
      rw [hx.right.take hbytes]
      exact .reading hbytes
  | @reports buffer hc hend =>
    refine ⟨hx.handled, hx.command, hx.ended, hx.right, hx.wf, hx.server, ?_⟩
    rw [hc] at hclient
    cases hclient with
    | reading hbytes =>
      obtain ⟨hempty, hs⟩ := hend.resolve_right (hx.right.room hbytes)
      rw [hempty, hs] at hbytes
      have hall : buffer = h.reply := (List.append_nil _).symm.trans hbytes
      rw [hall]
      exact .reported
  | other hstep => exact ⟨hx.handled, hx.command, hx.ended, hx.right, hx.wf, hx.server, hclient⟩

theorem talk_step (hplain : cmd.Plain) (h : Talk cfg cmd x)
    (hstep : exchangeStep cfg cmd x a = some x') : Talk cfg cmd x' := by
  have hp := proceeds_of_step hstep
  rcases h with hasking | ⟨h, hreplying⟩
  · exact hasking.step hplain hp
  · exact .inr ⟨h, hreplying.step hp⟩

theorem talk_run {s : State} (hwf : s.list.Wf) (hplain : cmd.Plain) {acts : List ExchangeAction}
    (hrun : run (exchangeStep cfg cmd) (.start s cmd) acts = some x) : Talk cfg cmd x :=
  run_inv (Talk cfg cmd) (fun _ _ _ h hs => talk_step hplain h hs) (.inl (asking_start hwf cmd))
    hrun

end

/-! ## What is reported -/

/-- The report says what was done. -/
def CtlCommand.Agrees : CtlCommand → Handling → CtlReport → Prop
  | .status, h, rep => rep = .printed h.reply ∧ h.after = h.before
  | .reset param, h, rep =>
    (rep = .reset ∧ ∃ c ∈ h.before.list.clients,
        (c.ip = firstLine param ∨ c.mac = firstLine param) ∧
        h.after.list.clients = h.before.list.clients.filter (fun e => e.id ≠ c.id) ∧
        h.after.tables = (fwDeny h.before.tables c).1) ∨
      (rep = .notActive ∧
        (∀ c ∈ h.before.list.clients, c.ip ≠ firstLine param ∧ c.mac ≠ firstLine param) ∧
        h.after = h.before)

theorem mem_of_resetNode {l : ClientList} {arg : Text} {c : Client}
    (h : resetNode l arg = some c) : c ∈ l.clients ∧ (c.ip = arg ∨ c.mac = arg) := by
  unfold resetNode at h
  cases hip : clientListFindByIp l arg with
  | some d =>
    rw [hip] at h
    obtain rfl : d = c := Option.some.inj h
    exact ⟨(mem_of_findByIp hip).1, .inl (mem_of_findByIp hip).2⟩
  | none =>
    rw [hip] at h
    have hmac : clientListFindByMac l arg = some c := h
    exact ⟨(mem_of_findByMac hmac).1, .inr (mem_of_findByMac hmac).2⟩

theorem resetNode_eq_none {l : ClientList} {arg : Text} (h : resetNode l arg = none) :
    ∀ c ∈ l.clients, c.ip ≠ arg ∧ c.mac ≠ arg := by
  have hnone : clientListFindByIp l arg = none ∧ clientListFindByMac l arg = none := by
    unfold resetNode at h
    cases hip : clientListFindByIp l arg with
    | some d => rw [hip] at h; cases h
    | none => rw [hip] at h; exact ⟨rfl, h⟩
  intro c hc
  have hip := hnone.1
  have hmac := hnone.2
  simp only [clientListFindByIp, clientListFindByMac, List.find?_eq_none] at hip hmac
  exact ⟨by simpa using hip c hc, by simpa using hmac c hc⟩

theorem clients_remove {l : ClientList} (hwf : l.Wf) {c d : Client} (hc : c ∈ l.clients)
    (hid : d.id = c.id) :
    (clientListRemove l d).clients = l.clients.filter fun e => e.id ≠ c.id := by
  obtain ⟨pre, post, hl, -, hremove⟩ := hwf.split hc
  have hs := hwf.sorted
  rw [hl, List.pairwise_append, List.pairwise_cons] at hs
  have hpre : pre.filter (fun e => e.id ≠ c.id) = pre := by
    refine List.filter_eq_self.mpr fun e he => ?_
    have := hs.2.2 e he c List.mem_cons_self
    exact decide_eq_true (by omega)
  have hpost : post.filter (fun e => e.id ≠ c.id) = post := by
    refine List.filter_eq_self.mpr fun e he => ?_
    have := hs.2.1.1 e he
    exact decide_eq_true (by omega)
  rw [hremove d hid, hl, List.filter_append, hpre,
    List.filter_cons_of_neg (by simp), hpost]

theorem CtlCommand.Right.agrees {cfg : Config} {cmd : CtlCommand} {h : Handling}
    (hright : cmd.Right cfg h) (hwf : h.before.list.Wf) : cmd.Agrees h (cmd.report h.reply) := by
  cases cmd with
  | status => exact ⟨rfl, hright.2⟩
  | reset param =>
    obtain ⟨hafter, hreply⟩ := hright
    cases hnode : resetNode h.before.list (firstLine param) with
    | none =>
      rw [hnode] at hreply
      refine .inr ⟨by rw [hreply]; rfl, resetNode_eq_none hnode, ?_⟩
      rw [hafter, wdctlReset]
      simp only [show (clientListFindByIp h.before.list (firstLine param)).orElse (fun _ =>
        clientListFindByMac h.before.list (firstLine param)) = none from hnode]
    | some c =>
      rw [hnode] at hreply
      obtain ⟨hc, haddr⟩ := mem_of_resetNode hnode
      have hdone : h.after = h.before.logoutHandler cfg c := by
        rw [hafter, wdctlReset]
        simp only [show (clientListFindByIp h.before.list (firstLine param)).orElse (fun _ =>
          clientListFindByMac h.before.list (firstLine param)) = some c from hnode]
      refine .inl ⟨by rw [hreply]; rfl, c, hc, haddr, ?_, by rw [hdone]; rfl⟩
      rw [hdone]
      exact clients_remove hwf hc rfl

/-- In every run, whatever the order of the steps, the sizes of the reads and writes and the other
    threads: what wdctl reports is what the gateway did when it came to the command. Of the argument
    of a reset it read the first line. -/
theorem report_agrees (cfg : Config) {s0 s : State} {as : List Action} (h0 : Fresh s0)
    (hs : run (step cfg) s0 as = some s) {cmd : CtlCommand} (hplain : cmd.Plain)
    {acts : List ExchangeAction} {x : Exchange}
    (hrun : run (exchangeStep cfg cmd) (.start s cmd) acts = some x) {rep : CtlReport}
    (hrep : x.client = .reported rep) :
    ∃ h, x.handled = some h ∧ h.command = cmd.command ∧ cmd.Agrees h rep := by
  rcases talk_run (run_wf h0.wf hs) hplain hrun with hasking | ⟨h, hreplying⟩
  · rcases hasking.client with hc | ⟨rest, -, hc⟩
    · rw [hc] at hrep
      cases hrep
    · rw [hc] at hrep
      cases hrep
  · refine ⟨h, hreplying.handled, hreplying.command, ?_⟩
    have hclient := hreplying.client
    rw [hrep] at hclient
    cases hclient with
    | reported => exact hreplying.right.agrees hreplying.wf

/-- A reset in which everything is written and read at once. -/
def smallReset : List ExchangeAction :=
  [.clientWrite 18, .serverRead 18, .serverHandle [], .serverWrite 3, .serverClose, .clientRead 3,
    .clientEnd]

theorem exists_run_smallReset : ∃ x,
    run (exchangeStep smallConfig (.reset smallIp)) (.start (smallRun smallLogin) (.reset smallIp))
      smallReset = some x ∧ x.client = .reported .reset := by
  have hclient : (run (exchangeStep smallConfig (.reset smallIp))
      (.start (smallRun smallLogin) (.reset smallIp)) smallReset).map Exchange.client =
        some (.reported .reset) := by
    decide +kernel
  exact Option.map_eq_some_iff.mp hclient

theorem report_agrees_smallReset : ∃ x h,
    run (exchangeStep smallConfig (.reset smallIp)) (.start (smallRun smallLogin) (.reset smallIp))
        smallReset = some x ∧
      x.handled = some h ∧ h.command = .reset smallIp ∧
      (CtlCommand.reset smallIp).Agrees h .reset := by
  obtain ⟨x, hrun, hrep⟩ := exists_run_smallReset
  have hs : run (step smallConfig) smallStart smallLogin = some (smallRun smallLogin) := rfl
  have hplain : (CtlCommand.reset smallIp).Plain := (by decide : '\x00' ∉ smallIp)
  obtain ⟨h, hhandled, hcommand, hagrees⟩ :=
    report_agrees smallConfig smallStart_fresh hs hplain hrun hrep
  exact ⟨x, h, hrun, hhandled, hcommand, hagrees⟩

/-! ## The end -/

/-- A step of wdctl or of the thread that serves it. -/
def ExchangeAction.theirs : ExchangeAction → Bool
  | .other _ => false
  | _ => true

def CtlClient.rank : CtlClient → Nat
  | .sending _ | .reading _ => 1
  | .reported _ | .killed => 0

def CtlServer.rank : CtlServer → Nat
  | .reading _ => 2
  | .replying _ => 1
  | .closed => 0

/-- What is left to do. A byte that is not sent is yet to be written and read. -/
def Exchange.left (x : Exchange) : Nat :=
  2 * x.client.unsent.length + x.toServer.length + 2 * x.server.unsent.length + x.toClient.length +
    x.client.rank + x.server.rank

def Exchange.replied (x : Exchange) : Nat := (x.handled.map fun h => h.reply.length).getD 0

section
variable {cfg : Config} {cmd : CtlCommand} {x y : Exchange} {a : ExchangeAction}

/-- Every step of the two leaves less to do, but for the reply that is added when the command is
    handled. -/
theorem left_step (h : Talk cfg cmd x) (hp : Proceeds cfg cmd x a y) :
    (if a.theirs then 1 else 0) + y.left + 2 * x.replied ≤ x.left + 2 * y.replied := by
  cases hp with
  | writeFails hc hs =>
    simp only [ExchangeAction.theirs, Exchange.left, Exchange.replied, hc, hs, CtlClient.unsent,
      CtlClient.rank, if_true, List.length_nil]
    omega
  | @clientWrites rest n hc h0 hn =>
    by_cases hall : n = rest.length
    · simp only [ExchangeAction.theirs, Exchange.left, Exchange.replied, hc, if_pos hall,
        CtlClient.unsent, CtlClient.rank, if_true, List.length_append, List.length_take,
        List.length_nil]
      omega
    · simp only [ExchangeAction.theirs, Exchange.left, Exchange.replied, hc, if_neg hall,
        CtlClient.unsent, CtlClient.rank, if_true, List.length_append, List.length_take,
        List.length_drop]
      omega
  | serverReads hs hgo h0 hn hroom hr =>
    simp only [ExchangeAction.theirs, Exchange.left, Exchange.replied, hs, CtlServer.unsent,
      CtlServer.rank, if_true, List.length_drop]
    omega
  | rejects hs hgo hno =>
    simp only [ExchangeAction.theirs, Exchange.left, Exchange.replied, hs, CtlServer.unsent,
      CtlServer.rank, if_true]
    omega
  | handles hs hdone hd hh =>
    have hnone : x.handled = none := by
      rcases h with hasking | ⟨h, hreplying⟩
      · exact hasking.handled
      · rcases hreplying.server with hs' | ⟨rest, hs'⟩
        · rw [hs'] at hs
          cases hs
        · rw [hs'] at hs
          cases hs
    simp only [ExchangeAction.theirs, Exchange.left, Exchange.replied, hs, hnone,
      CtlServer.unsent, CtlServer.rank, if_true, Option.map_some, Option.map_none,
      Option.getD_some, Option.getD_none, List.length_nil]
    omega
  | serverWrites hs h0 hn =>
    simp only [ExchangeAction.theirs, Exchange.left, Exchange.replied, hs, CtlServer.unsent,
      CtlServer.rank, if_true, List.length_drop, List.length_append, List.length_take]
    omega
  | closes hs =>
    simp only [ExchangeAction.theirs, Exchange.left, Exchange.replied, hs, CtlServer.unsent,
      CtlServer.rank, if_true]
    omega
  | clientReads hc h0 hn hroom =>
    simp only [ExchangeAction.theirs, Exchange.left, Exchange.replied, hc, CtlClient.unsent,
      CtlClient.rank, if_true, List.length_drop]
    omega
  | reports hc hend =>
    simp only [ExchangeAction.theirs, Exchange.left, Exchange.replied, hc, CtlClient.unsent,
      CtlClient.rank, if_true]
    omega
  | other hstep =>
    simp only [ExchangeAction.theirs, Exchange.left, Exchange.replied, Bool.false_eq_true, if_false]
    omega

theorem left_run (hplain : cmd.Plain) (h : Talk cfg cmd x) {acts : List ExchangeAction}
    (hrun : run (exchangeStep cfg cmd) x acts = some y) :
    acts.countP ExchangeAction.theirs + y.left + 2 * x.replied ≤ x.left + 2 * y.replied := by
  induction acts generalizing x with
  | nil =>
    obtain rfl : x = y := Option.some.inj hrun
    rw [List.countP_nil]
    omega
  | cons a acts ih =>
    obtain ⟨z, hz, hrun⟩ := run_cons_iff.mp hrun
    have hrest := ih (talk_step hplain h hz) hrun
    have hstep := left_step h (proceeds_of_step hz)
    rw [List.countP_cons]
    omega

def CtlClient.Over (c : CtlClient) : Prop := c.rank = 0

/-- Neither of the two can go on. -/
def Stuck (cfg : Config) (cmd : CtlCommand) (x : Exchange) : Prop :=
  ∀ a : ExchangeAction, a.theirs → exchangeStep cfg cmd x a = none

theorem handleCommand_isSome (cfg : Config) (s : State) (status : Text) (cmd : CtlCommand) :
    (handleCommand cfg s status cmd.command).isSome := by
  cases cmd <;> rfl

theorem Asking.stuck (hplain : cmd.Plain) (h : Asking cmd x) (hstuck : Stuck cfg cmd x) :
    ¬ cmd.Ended ∧ ¬ x.client.Over := by
  obtain ⟨t, hserver, hbytes⟩ := h.bytes
  have hlen : t.length ≤ 63 := by
    have h63 := length_request_le cmd
    rw [← hbytes, List.append_assoc, List.length_append] at h63
    omega
  have hmax : 64 < maxBuf - 1 := by decide
  -- the gateway has seen no line end, or it would handle the command
  have hnone : t.any isLineEnd = false := by
    by_contra hline
    have hline : t.any isLineEnd = true := by simpa using hline
    have hgo : (filled t).goesOn = false := by simp [WdctlRead.goesOn, filled, hline]
    have hdone : (filled t).done = true := hline
    have hdispatch := dispatch_of_read hplain ((List.append_assoc _ _ _).symm.trans hbytes) hline
    have hstep := hstuck (.serverHandle []) rfl
    simp only [exchangeStep, hserver, hgo, hdone, hdispatch] at hstep
    have hsome := handleCommand_isSome cfg x.gateway [] cmd
    rw [Option.map_eq_none_iff.mp hstep] at hsome
    cases hsome
  -- nothing is under way, or it would read
  have hserved : x.toServer = [] := by
    cases hbuf : x.toServer with
    | nil => rfl
    | cons c rest =>
      have hgo := (goesOn_filled t).mpr ⟨hnone, by omega⟩
      have hroom : 1 ≤ maxBuf - (filled t).readBytes := by
        show 1 ≤ maxBuf - t.length
        omega
      have hstep := hstuck (.serverRead 1) rfl
      simp only [exchangeStep, hserver, hbuf] at hstep
      rw [if_pos ⟨hgo, Nat.le_refl _, Nat.succ_le_succ (Nat.zero_le _), hroom⟩,
        filled_step (by omega)] at hstep
      cases hstep
  -- and all has been sent
  rcases h.client with hc | ⟨rest, hne, hc⟩
  · rw [hserved, hc, List.append_nil] at hbytes
    have hreq : t = cmd.request := (List.append_nil _).symm.trans hbytes
    rw [ended_iff, ← hreq, hnone, hc]
    exact ⟨Bool.false_ne_true, Nat.one_ne_zero⟩
  · have hpos : 1 ≤ rest.length := List.length_pos_iff.mpr hne
    have hstep := hstuck (.clientWrite 1) rfl
    simp only [exchangeStep, hserver, hc] at hstep
    rw [if_neg CtlServer.noConfusion, if_pos ⟨Nat.le_refl _, hpos⟩] at hstep
    cases hstep

theorem Replying.stuck {h : Handling} (hx : Replying cfg cmd x h) (hstuck : Stuck cfg cmd x) :
    x.client.Over := by
  have hclosed : x.server = .closed := by
    rcases hx.server with hs | ⟨rest, hs⟩
    · exact hs
    cases rest with
    | nil =>
      have hstep := hstuck .serverClose rfl
      simp only [exchangeStep, hs, if_true] at hstep
      cases hstep
    | cons c rest =>
      have hstep := hstuck (.serverWrite 1) rfl
      simp only [exchangeStep, hs] at hstep
      rw [if_pos ⟨Nat.le_refl _, Nat.succ_le_succ (Nat.zero_le _)⟩] at hstep
      cases hstep
  have hclient := hx.client
  cases hc : x.client with
  | sending rest =>
    have hstep := hstuck (.clientWrite 1) rfl
    simp only [exchangeStep, hc, hclosed, if_true] at hstep
    cases hstep
  | reading buffer =>
    rw [hc] at hclient
    cases hbuf : x.toClient with
    | nil =>
      have hstep := hstuck .clientEnd rfl
      simp only [exchangeStep, hc, hbuf, hclosed] at hstep
      rw [if_pos (.inl ⟨trivial, trivial⟩)] at hstep
      cases hstep
    | cons c rest =>
      have hroom : 1 ≤ cmd.room buffer := by
        cases hclient with
        | reading hbytes => exact Nat.pos_of_ne_zero (hx.right.room hbytes)
      have hstep := hstuck (.clientRead 1) rfl
      simp only [exchangeStep, hc, hbuf] at hstep
      rw [if_pos ⟨Nat.le_refl _, Nat.succ_le_succ (Nat.zero_le _), hroom⟩] at hstep
      cases hstep
  | reported rep => rfl
  | killed => rfl

end

theorem Talk.stuck {cfg : Config} {cmd : CtlCommand} {x : Exchange} (hplain : cmd.Plain)
    (h : Talk cfg cmd x) (hstuck : Stuck cfg cmd x) : x.client.Over ↔ cmd.Ended := by
  rcases h with hasking | ⟨h, hreplying⟩
  · obtain ⟨hended, hover⟩ := hasking.stuck hplain hstuck
    exact iff_of_false hover hended
  · exact iff_of_true (hreplying.stuck hstuck) hreplying.ended

theorem replied_le {cfg : Config} {param : Text} {x : Exchange}
    (h : Talk cfg (.reset param) x) : x.replied ≤ 3 := by
  rcases h with hasking | ⟨h, hreplying⟩
  · rw [Exchange.replied, hasking.handled]
    exact Nat.zero_le _
  · rw [Exchange.replied, hreplying.handled]
    show h.reply.length ≤ 3
    rw [hreplying.right.2]
    split <;> decide

/-- Whatever the order of the steps, wdctl and the gateway take no more than 135 to reset a client,
    and when neither can go on, wdctl has come to its end just if a line end was sent. -/
theorem reset_ends_iff (cfg : Config) {s0 s : State} {as : List Action} (h0 : Fresh s0)
    (hs : run (step cfg) s0 as = some s) {param : Text} (hplain : '\x00' ∉ param)
    {acts : List ExchangeAction} {x : Exchange}
    (hrun : run (exchangeStep cfg (.reset param)) (.start s (.reset param)) acts = some x) :
    acts.countP ExchangeAction.theirs ≤ 135 ∧
      (Stuck cfg (.reset param) x →
        (x.client.Over ↔ param.length ≤ 56 ∨ (param.take 57).any isLineEnd = true)) := by
  have hcmd : (CtlCommand.reset param).Plain := hplain
  have hstart := asking_start (run_wf h0.wf hs) (.reset param)
  have htalk := talk_run (run_wf h0.wf hs) hcmd hrun
  constructor
  · have hleft := left_run hcmd (.inl hstart) hrun
    have hreplied := replied_le htalk
    have h63 := length_request_le (.reset param)
    have hwork : (Exchange.start s (.reset param)).left =
        2 * (CtlCommand.reset param).request.length + 3 := by
      simp only [Exchange.start, Exchange.left, CtlClient.unsent, CtlServer.unsent,
        CtlClient.rank, CtlServer.rank, List.length_nil]
    omega
  · exact htalk.stuck hcmd

theorem reset_ends_smallReset : ∃ x,
    run (exchangeStep smallConfig (.reset smallIp)) (.start (smallRun smallLogin) (.reset smallIp))
        smallReset = some x ∧
      smallReset.countP ExchangeAction.theirs ≤ 135 ∧
      (Stuck smallConfig (.reset smallIp) x →
        (x.client.Over ↔ smallIp.length ≤ 56 ∨ (smallIp.take 57).any isLineEnd = true)) := by
  obtain ⟨x, hrun, -⟩ := exists_run_smallReset
  have hs : run (step smallConfig) smallStart smallLogin = some (smallRun smallLogin) := rfl
  exact ⟨x, hrun, reset_ends_iff smallConfig smallStart_fresh hs (by decide) hrun⟩

end Wifidog
