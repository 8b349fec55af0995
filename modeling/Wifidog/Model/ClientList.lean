/-
  The list of connected clients (`client_list.c`).

  The linked list is a Lean list, head first. A pointer to a member is the member's `id`:
  `clientListInsertClient` hands out every id once (`clientId` stands for the 64-bit counter
  `client_id`, taken here as unbounded), so "the record at this address" is "the member with
  this id", and `clientListWrite` and `clientListRemove` go by id.

  `ClientList.Wf` is the invariant of the list: ids below the next id and strictly decreasing
  from the head, and no two members with the same ip and mac. Proved: every operation keeps it
  when `clientListAdd` is called, as in the source, only for an (ip, mac) pair that
  `clientListFind` did not find; the lookups return members (`mem_of_find` and its variants).
-/
import Wifidog.Lib.CText
import Mathlib.Data.List.Pairwise
import Mathlib.Data.List.Perm.Basic

namespace Wifidog

open CText

/-- `t_counters` -/
structure Counters where
  incoming : UInt64
  outgoing : UInt64
  incomingHistory : UInt64
  outgoingHistory : UInt64
  incomingDelta : UInt64
  outgoingDelta : UInt64
  lastUpdated : Int64
  deriving DecidableEq, Repr

/-- `t_client` -/
structure Client where
  id : Nat
  ip : Text
  mac : Text
  token : Text
  fwConnectionState : Int
  fd : Int
  counters : Counters
  deriving DecidableEq, Repr

/-- `t_fw_marks` -/
def fwMarkNone : Int := 0
def fwMarkProbation : Int := 1
def fwMarkKnown : Int := 2
def fwMarkAuthIsDown : Int := 253
def fwMarkLocked : Int := 254

structure ClientList where
  clients : List Client
  /-- the next `client_id` -/
  clientId : Nat
  deriving DecidableEq, Repr

/-- `client_list_init`, in a fresh process. -/
def clientListInit : ClientList := ⟨[], 1⟩

/-- `client_list_insert_client` -/
def clientListInsertClient (l : ClientList) (c : Client) : ClientList :=
  ⟨{ c with id := l.clientId } :: l.clients, l.clientId + 1⟩

/-- The counters of a client that was just added at time `now`. -/
def Counters.fresh (now : Int64) : Counters := ⟨0, 0, 0, 0, 0, 0, now⟩

/-- `client_list_add`; `client_get_new` returns zeroed memory. -/
def clientListAdd (l : ClientList) (ip mac token : Text) (now : Int64) : ClientList :=
  clientListInsertClient l ⟨0, ip, mac, token, fwMarkNone, 0, .fresh now⟩

/-- `client_dup`: state and fd are not copied and stay zero. -/
def clientDup (c : Client) : Client := { c with fwConnectionState := 0, fd := 0 }

/-- `client_list_dup` -/
def clientListDup (l : ClientList) : List Client := l.clients.map clientDup

/-- `client_list_find_by_client` -/
def clientListFindByClient (l : ClientList) (c : Client) : Option Client :=
  l.clients.find? fun d => d.id == c.id

/-- `client_list_find` -/
def clientListFind (l : ClientList) (ip mac : Text) : Option Client :=
  l.clients.find? fun d => d.ip == ip && d.mac == mac

/-- `client_list_find_by_ip` -/
def clientListFindByIp (l : ClientList) (ip : Text) : Option Client :=
  l.clients.find? fun d => d.ip == ip

/-- `client_list_find_by_mac` -/
def clientListFindByMac (l : ClientList) (mac : Text) : Option Client :=
  l.clients.find? fun d => d.mac == mac

/-- Write the record `c` back to its place in the list. -/
def clientListWrite (l : ClientList) (c : Client) : ClientList :=
  { l with clients := l.clients.map fun d => if d.id = c.id then c else d }

/-- `client_list_remove` -/
def clientListRemove (l : ClientList) (c : Client) : ClientList :=
  { l with clients := l.clients.eraseP fun d => d.id == c.id }

/-! ## The invariant of the list -/

structure ClientList.Wf (l : ClientList) : Prop where
  /-- ids decrease from the head -/
  sorted : l.clients.Pairwise fun c d => d.id < c.id
  bound : ∀ c ∈ l.clients, c.id < l.clientId
  /-- (ip, mac) is unique -/
  keys : l.clients.Pairwise fun c d => ¬ (c.ip = d.ip ∧ c.mac = d.mac)

theorem clientListInit_wf : clientListInit.Wf :=
  ⟨List.Pairwise.nil, by simp [clientListInit], List.Pairwise.nil⟩

theorem mem_of_findByClient {l : ClientList} {c d : Client}
    (h : clientListFindByClient l c = some d) : d ∈ l.clients ∧ d.id = c.id := by
  have hp := List.find?_some h
  exact ⟨List.mem_of_find?_eq_some h, by simpa using hp⟩

theorem mem_of_find {l : ClientList} {ip mac : Text} {d : Client}
    (h : clientListFind l ip mac = some d) : d ∈ l.clients ∧ d.ip = ip ∧ d.mac = mac := by
  have hp := List.find?_some h
  exact ⟨List.mem_of_find?_eq_some h, by simpa using hp⟩

theorem mem_of_findByIp {l : ClientList} {ip : Text} {d : Client}
    (h : clientListFindByIp l ip = some d) : d ∈ l.clients ∧ d.ip = ip := by
  have hp := List.find?_some h
  exact ⟨List.mem_of_find?_eq_some h, by simpa using hp⟩

theorem mem_of_findByMac {l : ClientList} {mac : Text} {d : Client}
    (h : clientListFindByMac l mac = some d) : d ∈ l.clients ∧ d.mac = mac := by
  have hp := List.find?_some h
  exact ⟨List.mem_of_find?_eq_some h, by simpa using hp⟩

namespace ClientList.Wf

variable {l : ClientList}

theorem id_inj (h : l.Wf) {c d : Client} (hc : c ∈ l.clients) (hd : d ∈ l.clients)
    (hid : c.id = d.id) : c = d := by
  have hp : l.clients.Pairwise fun a b => a.id = b.id → a = b :=
    h.sorted.imp fun hlt heq => absurd heq (Nat.ne_of_gt hlt)
  have hflip : l.clients.Pairwise (flip fun a b : Client => a.id = b.id → a = b) :=
    h.sorted.imp fun hlt heq => absurd heq (Nat.ne_of_lt hlt)
  exact hp.forall_of_forall_of_flip (fun _ _ _ => rfl) hflip hc hd hid

theorem key_inj (h : l.Wf) {c d : Client} (hc : c ∈ l.clients) (hd : d ∈ l.clients)
    (hip : c.ip = d.ip) (hmac : c.mac = d.mac) : c = d := by
  have hp : l.clients.Pairwise fun a b => a.ip = b.ip ∧ a.mac = b.mac → a = b :=
    h.keys.imp fun hne heq => absurd heq hne
  have hflip : l.clients.Pairwise
      (flip fun a b : Client => a.ip = b.ip ∧ a.mac = b.mac → a = b) :=
    h.keys.imp fun hne heq => absurd ⟨heq.1.symm, heq.2.symm⟩ hne
  exact hp.forall_of_forall_of_flip (fun _ _ _ => rfl) hflip hc hd ⟨hip, hmac⟩

theorem add (h : l.Wf) {ip mac : Text} (hnew : clientListFind l ip mac = none) (token : Text)
    (now : Int64) : (clientListAdd l ip mac token now).Wf := by
  have hnone : ∀ d ∈ l.clients, d.ip = ip → d.mac ≠ mac := by
    simpa [clientListFind] using hnew
  refine ⟨?_, ?_, ?_⟩
  · exact List.pairwise_cons.mpr ⟨fun d hd => h.bound d hd, h.sorted⟩
  · intro c hc
    rcases List.mem_cons.mp hc with rfl | hc
    · exact Nat.lt_succ_self _
    · exact Nat.lt_succ_of_lt (h.bound c hc)
  · refine List.pairwise_cons.mpr ⟨?_, h.keys⟩
    rintro d hd ⟨hip, hmac⟩
    exact hnone d hd hip.symm hmac.symm

/-- Writing back a record with the ip and mac its place already has keeps the invariant. -/
theorem write (h : l.Wf) {c d : Client} (hc : c ∈ l.clients) (hid : d.id = c.id)
    (hip : d.ip = c.ip) (hmac : d.mac = c.mac) : (clientListWrite l d).Wf := by
  -- the record written at each place has the id, ip and mac of the one before
  have hsame : ∀ e ∈ l.clients, (if e.id = d.id then d else e).id = e.id ∧
      (if e.id = d.id then d else e).ip = e.ip ∧ (if e.id = d.id then d else e).mac = e.mac := by
    intro e he
    split
    · next heq =>
      obtain rfl : e = c := h.id_inj he hc (heq.trans hid)
      exact ⟨hid, hip, hmac⟩
    · exact ⟨rfl, rfl, rfl⟩
  refine ⟨?_, ?_, ?_⟩
  · refine List.pairwise_map.mpr (h.sorted.imp_of_mem ?_)
    intro a b ha hb hlt
    rw [(hsame a ha).1, (hsame b hb).1]
    exact hlt
  · intro e he
    obtain ⟨e', he', rfl⟩ := List.mem_map.mp he
    rw [(hsame e' he').1]
    exact h.bound e' he'
  · refine List.pairwise_map.mpr (h.keys.imp_of_mem ?_)
    intro a b ha hb hne
    rw [(hsame a ha).2.1, (hsame b hb).2.1, (hsame a ha).2.2, (hsame b hb).2.2]
    exact hne

theorem remove (h : l.Wf) (c : Client) : (clientListRemove l c).Wf := by
  have hsub : (clientListRemove l c).clients.Sublist l.clients := List.eraseP_sublist
  exact ⟨h.sorted.sublist hsub, fun d hd => h.bound d (hsub.subset hd), h.keys.sublist hsub⟩

end ClientList.Wf

/-! ## What the operations do to the members -/

theorem mem_clientListWrite {l : ClientList} {d e : Client}
    (h : e ∈ (clientListWrite l d).clients) :
    e = d ∨ (e ∈ l.clients ∧ e.id ≠ d.id) := by
  obtain ⟨f, hf, rfl⟩ := List.mem_map.mp h
  by_cases hid : f.id = d.id
  · simp [hid]
  · simp [hid, hf]

theorem mem_clientListRemove {l : ClientList} {c e : Client}
    (h : e ∈ (clientListRemove l c).clients) : e ∈ l.clients :=
  List.eraseP_sublist.subset h

/-- A member of a well-formed list has a place of its own: writing changes only that place,
    removing takes only it out. -/
theorem ClientList.Wf.split {l : ClientList} (h : l.Wf) {c : Client} (hc : c ∈ l.clients) :
    ∃ pre post, l.clients = pre ++ c :: post ∧
      (∀ d : Client, d.id = c.id → (clientListWrite l d).clients = pre ++ d :: post) ∧
      (∀ d : Client, d.id = c.id → (clientListRemove l d).clients = pre ++ post) := by
  obtain ⟨pre, post, hl⟩ := List.append_of_mem hc
  have hs := h.sorted
  rw [hl, List.pairwise_append, List.pairwise_cons] at hs
  have hpre : ∀ e ∈ pre, e.id ≠ c.id := fun e he =>
    Nat.ne_of_gt (hs.2.2 e he c List.mem_cons_self)
  have hpost : ∀ e ∈ post, e.id ≠ c.id := fun e he => Nat.ne_of_lt (hs.2.1.1 e he)
  refine ⟨pre, post, hl, ?_, ?_⟩
  · intro d hd
    have hkeep : ∀ es : List Client, (∀ e ∈ es, e.id ≠ c.id) →
        es.map (fun e => if e.id = d.id then d else e) = es := by
      intro es hes
      conv_rhs => rw [← List.map_id es]
      refine List.map_congr_left fun e he => ?_
      rw [if_neg (by rw [hd]; exact hes e he), id]
    unfold clientListWrite
    rw [hl, List.map_append, List.map_cons, hkeep pre hpre, hkeep post hpost, if_pos hd.symm]
  · intro d hd
    unfold clientListRemove
    rw [hl, List.eraseP_append_right _ (by simpa [hd] using hpre)]
    simp [hd]

end Wifidog
