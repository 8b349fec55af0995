/-
  Failover: which server a connection ends at, and which one the request is written for.

  A server is passed over when it refuses the connection, or when it does not resolve while
  some popular server does. `connectAuthServerAt_pass` is one such level: the server goes to
  the end of the list with its new `last_ip`. `connectAuthServerAt_passes` takes a whole
  prefix of the list so, `connectAuthServerAt_stop` is the level at which the search ends. The
  three together give the result for every list (`connectAuthServer_cases`).

  Proved: the servers are tried in list order, the socket is that of the first server that
  accepts after servers that are passed over, and the list afterwards is a rotation of the
  list before (`connectAuthServer_failover`). A request is addressed to the server it is sent
  to exactly when that server looks like the head of the list (`sendQuery_addressed_iff`).
-/
import Mathlib.Data.List.Rotate
import Wifidog.Model.CentralServer

namespace Wifidog

open CText Netfilter

section Outcomes
variable (c : Central) (net : Net) (level : Nat) (s : AuthServer)

/-- The server resolves but refuses the connection. -/
def Refuses : Prop :=
  ∃ ip, net.gethostbyname level 0 s.hostname = some ip ∧ net.socket level = true ∧
    net.connect level ip (c.port s) = false

/-- The server resolves and accepts the connection. -/
def Accepts : Prop :=
  ∃ ip, net.gethostbyname level 0 s.hostname = some ip ∧ net.socket level = true ∧
    net.connect level ip (c.port s) = true

/-- Some popular server resolves. -/
def PopularResolves : Prop :=
  ∃ (k : Nat) (hostname : Text), c.popularServers[k]? = some hostname ∧
    (net.gethostbyname level (k + 1) hostname).isSome

/-- The server does not resolve, some popular server does. -/
def Unresolved : Prop :=
  net.gethostbyname level 0 s.hostname = none ∧ PopularResolves c net level

/-- The search goes on with the next server. -/
def Passes : Prop := Refuses c net level s ∨ Unresolved c net level s

/-- The `last_ip` of a server that was tried. -/
def lastIpAfter : Option Text :=
  match net.gethostbyname level 0 s.hostname with
  | some ip => some ip
  | none => if resolvePopular net level 1 c.popularServers then none else s.lastIp

/-- The record of a server that was tried. -/
def tried : AuthServer := { s with lastIp := lastIpAfter c net level s }

/-- The tables after the head of the list was tried. -/
def tablesAfter (rest : List AuthServer) (t : Tables Chain) : Tables Chain :=
  if (net.gethostbyname level 0 s.hostname).isNone ∨
      net.gethostbyname level 0 s.hostname = s.lastIp then t
  else fwRewriteAuthservers c t (tried c net level s :: rest)

end Outcomes

/-- All servers of a list are passed over, the first one at level `level`. -/
def PassesFrom (c : Central) (net : Net) (level : Nat) (pre : List AuthServer) : Prop :=
  ∀ i s, pre[i]? = some s → Passes c net (level + i) s

section Levels
variable {c : Central} {net : Net} {level : Nat} {s : AuthServer}

theorem resolvePopular_iff (k : Nat) (hostnames : List Text) :
    resolvePopular net level k hostnames = true ↔
      ∃ (i : Nat) (hostname : Text), hostnames[i]? = some hostname ∧
        (net.gethostbyname level (i + k) hostname).isSome := by
  induction hostnames generalizing k with
  | nil => simp [resolvePopular]
  | cons h hs ih =>
    unfold resolvePopular
    by_cases hh : (net.gethostbyname level k h).isSome
    · simp only [hh, if_true, true_iff]
      exact ⟨0, h, rfl, by simpa using hh⟩
    · rw [if_neg hh, ih]
      constructor
      · rintro ⟨i, name, hi, hr⟩
        exact ⟨i + 1, name, hi, by rw [show i + 1 + k = i + (k + 1) by omega]; exact hr⟩
      · rintro ⟨i, name, hi, hr⟩
        cases i with
        | zero =>
          obtain rfl : h = name := by simpa using hi
          exact absurd (by simpa using hr) hh
        | succ i =>
          exact ⟨i, name, hi, by rw [show i + (k + 1) = i + 1 + k by omega]; exact hr⟩

theorem popularResolves_iff :
    PopularResolves c net level ↔ resolvePopular net level 1 c.popularServers = true :=
  (resolvePopular_iff 1 c.popularServers).symm

theorem not_passes_of_accepts (h : Accepts c net level s) : ¬ Passes c net level s := by
  obtain ⟨ip, hip, hsock, hconn⟩ := h
  rintro (⟨ip', hip', _, hconn'⟩ | ⟨hnone, _⟩)
  · obtain rfl : ip = ip' := Option.some.inj (hip.symm.trans hip')
    rw [hconn] at hconn'
    cases hconn'
  · rw [hip] at hnone
    cases hnone

theorem markAuthServerBad_cons (s : AuthServer) (rest : List AuthServer) :
    markAuthServerBad (s :: rest) = rest ++ [s] := by
  cases rest <;> rfl

variable {rest : List AuthServer} (t : Tables Chain) (attempts : List AuthServer)

theorem tablesAfter_of_none (h : net.gethostbyname level 0 s.hostname = none) :
    tablesAfter c net level s rest t = t := by
  simp [tablesAfter, h]

theorem tablesAfter_of_some {ip : Text} (h : net.gethostbyname level 0 s.hostname = some ip) :
    tablesAfter c net level s rest t = if s.lastIp = some ip then t
      else fwRewriteAuthservers c t (tried c net level s :: rest) := by
  simp [tablesAfter, h, eq_comm]

theorem tried_of_some {ip : Text} (h : net.gethostbyname level 0 s.hostname = some ip) :
    tried c net level s = { s with lastIp := some ip } := by
  simp [tried, lastIpAfter, h]

/-- One level at which the server is passed over. -/
theorem connectAuthServerAt_pass (hlevel : level ≤ rest.length) (h : Passes c net level s) :
    connectAuthServerAt c net level (s :: rest) t attempts =
      connectAuthServerAt c net (level + 1) (rest ++ [tried c net level s])
        (tablesAfter c net level s rest t) (attempts ++ [s]) := by
  have hgo : ¬ level + 1 > (s :: rest).length := by
    rw [List.length_cons]
    omega
  rw [connectAuthServerAt, if_neg hgo]
  rcases h with ⟨ip, hip, hsock, hconn⟩ | ⟨hnone, hpop⟩
  · rw [hip]
    dsimp only
    rw [hsock, hconn, markAuthServerBad_cons, tablesAfter_of_some t hip, tried_of_some hip]
    rfl
  · rw [hnone]
    dsimp only
    rw [popularResolves_iff] at hpop
    rw [if_pos hpop, markAuthServerBad_cons, tablesAfter_of_none t hnone]
    simp [tried, lastIpAfter, hnone, hpop]

/-- The level at which the search ends. -/
theorem connectAuthServerAt_stop (hlevel : level ≤ rest.length) (h : ¬ Passes c net level s) :
    ∃ sockfd, (sockfd = some (tried c net level s) ∧ Accepts c net level s ∨
        sockfd = none ∧ ¬ Accepts c net level s) ∧
      connectAuthServerAt c net level (s :: rest) t attempts =
        ⟨tried c net level s :: rest, tablesAfter c net level s rest t, sockfd,
          attempts ++ [s]⟩ := by
  have hgo : ¬ level + 1 > (s :: rest).length := by
    rw [List.length_cons]
    omega
  rw [connectAuthServerAt, if_neg hgo]
  cases hip : net.gethostbyname level 0 s.hostname with
  | none =>
    have hpop : ¬ resolvePopular net level 1 c.popularServers = true := fun hpop =>
      h (Or.inr ⟨hip, popularResolves_iff.mpr hpop⟩)
    have hno : ¬ Accepts c net level s := by
      rintro ⟨ip, hsome, _⟩
      rw [hip] at hsome
      cases hsome
    refine ⟨none, Or.inr ⟨rfl, hno⟩, ?_⟩
    dsimp only
    rw [if_neg hpop, tablesAfter_of_none t hip]
    simp [tried, lastIpAfter, hip, hpop]
  | some ip =>
    dsimp only
    rw [tablesAfter_of_some t hip, tried_of_some hip]
    cases hsock : net.socket level with
    | false =>
      have hno : ¬ Accepts c net level s := by
        rintro ⟨_, _, hs, _⟩
        rw [hsock] at hs
        cases hs
      exact ⟨none, Or.inr ⟨rfl, hno⟩, rfl⟩
    | true =>
      cases hconn : net.connect level ip (c.port s) with
      | false => exact absurd (Or.inl ⟨ip, hip, hsock, hconn⟩) h
      | true => exact ⟨_, Or.inl ⟨rfl, ip, hip, hsock, hconn⟩, rfl⟩

/-- The level after the last server. -/
theorem connectAuthServerAt_end {servers : List AuthServer} (hlevel : servers.length ≤ level) :
    connectAuthServerAt c net level servers t attempts = ⟨servers, t, none, attempts⟩ := by
  cases servers with
  | nil => rw [connectAuthServerAt]
  | cons s rest => rw [connectAuthServerAt, if_pos (Nat.lt_succ_of_le hlevel)]

end Levels

/-! ## Whole searches -/

section Search
variable (c : Central) (net : Net)

/-- The records of servers that were tried one after another. -/
def triedFrom (level : Nat) (pre : List AuthServer) : List AuthServer :=
  pre.mapIdx fun i s => tried c net (level + i) s

/-- The tables after the servers `pre` at the front of the list were passed over. -/
def tablesFrom : (level : Nat) → (pre rest : List AuthServer) → Tables Chain → Tables Chain
  | _, [], _, t => t
  | level, s :: pre, rest, t =>
    tablesFrom (level + 1) pre (rest ++ [tried c net level s])
      (tablesAfter c net level s (pre ++ rest) t)

variable {c net}

theorem triedFrom_cons (level : Nat) (s : AuthServer) (pre : List AuthServer) :
    triedFrom c net level (s :: pre) = tried c net level s :: triedFrom c net (level + 1) pre := by
  simp [triedFrom, List.mapIdx_cons, Nat.add_comm, Nat.add_left_comm]

@[simp] theorem length_triedFrom (level : Nat) (pre : List AuthServer) :
    (triedFrom c net level pre).length = pre.length := by
  simp [triedFrom]

theorem passesFrom_cons {level : Nat} {s : AuthServer} {pre : List AuthServer} :
    PassesFrom c net level (s :: pre) ↔
      Passes c net level s ∧ PassesFrom c net (level + 1) pre := by
  constructor
  · intro h
    refine ⟨h 0 s rfl, fun i s' hi => ?_⟩
    rw [show level + 1 + i = level + (i + 1) by omega]
    exact h (i + 1) s' hi
  · rintro ⟨hs, hpre⟩ i s' hi
    cases i with
    | zero =>
      obtain rfl : s = s' := by simpa using hi
      exact hs
    | succ i =>
      rw [show level + (i + 1) = level + 1 + i by omega]
      exact hpre i s' hi

/-- Passing over the servers `pre`. -/
theorem connectAuthServerAt_passes {level : Nat} {pre rest : List AuthServer} (t : Tables Chain)
    (attempts : List AuthServer) (hlevel : level ≤ rest.length)
    (h : PassesFrom c net level pre) :
    connectAuthServerAt c net level (pre ++ rest) t attempts =
      connectAuthServerAt c net (level + pre.length) (rest ++ triedFrom c net level pre)
        (tablesFrom c net level pre rest t) (attempts ++ pre) := by
  induction pre generalizing level rest t attempts with
  | nil => simp [triedFrom, tablesFrom]
  | cons s pre ih =>
    obtain ⟨hs, hpre⟩ := passesFrom_cons.mp h
    have hfit : level ≤ (pre ++ rest).length := by
      rw [List.length_append]
      omega
    have hnext : level + 1 ≤ (rest ++ [tried c net level s]).length := by
      rw [List.length_append, List.length_singleton]
      omega
    rw [List.cons_append, connectAuthServerAt_pass t attempts hfit hs, List.append_assoc,
      ih _ _ hnext hpre, triedFrom_cons, tablesFrom]
    simp only [List.append_assoc, List.singleton_append, List.length_cons]
    rw [show level + 1 + pre.length = level + (pre.length + 1) by omega]

/-- Every list starts with the servers that are passed over. -/
theorem exists_passesFrom (c : Central) (net : Net) (level : Nat) (servers : List AuthServer) :
    ∃ pre post, servers = pre ++ post ∧ PassesFrom c net level pre ∧
      ∀ s ∈ post.head?, ¬ Passes c net (level + pre.length) s := by
  induction servers generalizing level with
  | nil => exact ⟨[], [], rfl, by simp [PassesFrom], by simp⟩
  | cons s rest ih =>
    by_cases hs : Passes c net level s
    · obtain ⟨pre, post, rfl, hpre, hstop⟩ := ih (level + 1)
      refine ⟨s :: pre, post, rfl, passesFrom_cons.mpr ⟨hs, hpre⟩, fun s' hs' => ?_⟩
      rw [List.length_cons, show level + (pre.length + 1) = level + 1 + pre.length by omega]
      exact hstop s' hs'
    · refine ⟨[], s :: rest, rfl, by simp [PassesFrom], ?_⟩
      rintro s' hs'
      obtain rfl : s = s' := by simpa using hs'
      exact hs

/-- How a connection ends: every server is passed over, or `s` is the first that is not. -/
theorem connectAuthServer_cases (c : Central) (net : Net) (servers : List AuthServer)
    (t : Tables Chain) :
    (PassesFrom c net 0 servers ∧
      connectAuthServer c net servers t =
        ⟨triedFrom c net 0 servers, tablesFrom c net 0 servers [] t, none, servers⟩) ∨
    ∃ pre s post sockfd, servers = pre ++ s :: post ∧ PassesFrom c net 0 pre ∧
      ¬ Passes c net pre.length s ∧
      (sockfd = some (tried c net pre.length s) ∧ Accepts c net pre.length s ∨
        sockfd = none ∧ ¬ Accepts c net pre.length s) ∧
      connectAuthServer c net servers t =
        ⟨tried c net pre.length s :: (post ++ triedFrom c net 0 pre),
          tablesAfter c net pre.length s (post ++ triedFrom c net 0 pre)
            (tablesFrom c net 0 pre (s :: post) t), sockfd, pre ++ [s]⟩ := by
  obtain ⟨pre, post, rfl, hpre, hstop⟩ := exists_passesFrom c net 0 servers
  unfold connectAuthServer
  rw [connectAuthServerAt_passes t [] (Nat.zero_le _) hpre]
  cases post with
  | nil =>
    refine Or.inl ⟨by simpa using hpre, ?_⟩
    rw [connectAuthServerAt_end _ _ (by simp)]
    simp
  | cons s post =>
    have hs : ¬ Passes c net (0 + pre.length) s := hstop s (by simp)
    have hfit : 0 + pre.length ≤ (post ++ triedFrom c net 0 pre).length := by simp
    rw [List.cons_append]
    obtain ⟨sockfd, hsock, heq⟩ := connectAuthServerAt_stop
      (tablesFrom c net 0 pre (s :: post) t) ([] ++ pre) hfit hs
    rw [Nat.zero_add] at hs hsock heq
    refine Or.inr ⟨pre, s, post, sockfd, rfl, hpre, hs, hsock, ?_⟩
    rw [Nat.zero_add, heq]
    rfl

/-- There is at most one place in the list where a server is not passed over after servers
    that are. -/
theorem passesFrom_split_unique {pre pre' post post' : List AuthServer} {s s' : AuthServer}
    (heq : pre ++ s :: post = pre' ++ s' :: post') (hpre : PassesFrom c net 0 pre)
    (hs : ¬ Passes c net pre.length s) (hpre' : PassesFrom c net 0 pre')
    (hs' : ¬ Passes c net pre'.length s') : pre = pre' ∧ s = s' ∧ post = post' := by
  have hlen : ∀ {pre pre' post post' : List AuthServer} {s s' : AuthServer},
      pre ++ s :: post = pre' ++ s' :: post' → PassesFrom c net 0 pre' →
      ¬ Passes c net pre.length s → pre'.length ≤ pre.length := by
    intro pre pre' post post' s s' heq hpre' hs
    by_contra hlt
    have hget : pre'[pre.length]? = some s := by
      have : (pre' ++ s' :: post')[pre.length]? = some s := by
        rw [← heq]
        simp
      rwa [List.getElem?_append_left (by omega)] at this
    exact hs (by simpa using hpre' _ _ hget)
  have hlength : pre.length = pre'.length :=
    Nat.le_antisymm (hlen heq.symm hpre hs') (hlen heq hpre' hs)
  obtain ⟨rfl, htail⟩ := List.append_inj heq hlength
  obtain ⟨rfl, rfl⟩ := List.cons.inj htail
  exact ⟨rfl, rfl, rfl⟩

theorem connectAuthServer_of_accepts {pre : List AuthServer} {s : AuthServer}
    (post : List AuthServer) (t : Tables Chain) (hpre : PassesFrom c net 0 pre)
    (hs : Accepts c net pre.length s) :
    ∃ t', connectAuthServer c net (pre ++ s :: post) t =
      ⟨tried c net pre.length s :: (post ++ triedFrom c net 0 pre), t',
        some (tried c net pre.length s), pre ++ [s]⟩ := by
  have hstop := not_passes_of_accepts hs
  rcases connectAuthServer_cases c net (pre ++ s :: post) t with
    ⟨hall, _⟩ | ⟨pre', s', post', sockfd, hsplit, hpre', hs', hsock, heq⟩
  · exact absurd (by simpa using hall pre.length s (by simp)) hstop
  · obtain ⟨rfl, rfl, rfl⟩ := passesFrom_split_unique hsplit hpre hstop hpre' hs'
    rcases hsock with ⟨rfl, _⟩ | ⟨_, hno⟩
    · exact ⟨_, heq⟩
    · exact absurd hs hno

/-- A socket is that of a server that accepts after servers that are passed over. -/
theorem accepts_of_sockfd {servers : List AuthServer} {t : Tables Chain} {peer : AuthServer}
    (h : (connectAuthServer c net servers t).sockfd = some peer) :
    ∃ pre s post, servers = pre ++ s :: post ∧ PassesFrom c net 0 pre ∧
      Accepts c net pre.length s ∧ peer = tried c net pre.length s := by
  rcases connectAuthServer_cases c net servers t with
    ⟨_, heq⟩ | ⟨pre, s, post, sockfd, hsplit, hpre, _, hsock, heq⟩
  · rw [heq] at h
    cases h
  · rw [heq] at h
    rcases hsock with ⟨rfl, hacc⟩ | ⟨rfl, _⟩
    · exact ⟨pre, s, post, hsplit, hpre, hacc, (Option.some.inj h).symm⟩
    · cases h

theorem triedFrom_concat (pre : List AuthServer) (s : AuthServer) :
    triedFrom c net 0 (pre ++ [s]) = triedFrom c net 0 pre ++ [tried c net pre.length s] := by
  simp [triedFrom, List.mapIdx_concat]

theorem mapIdx_tried (c : Central) (net : Net) (pre post : List AuthServer) :
    (pre ++ post).mapIdx (fun i s => if i < pre.length then tried c net i s else s) =
      triedFrom c net 0 pre ++ post := by
  refine List.ext_getElem? fun i => ?_
  rw [List.getElem?_mapIdx]
  by_cases hi : i < pre.length
  · rw [List.getElem?_append_left hi, List.getElem?_append_left (by simpa using hi)]
    simp [triedFrom, hi]
  · rw [List.getElem?_append_right (by omega), List.getElem?_append_right (by simpa using hi)]
    simp [hi]

end Search

/-- Servers are tried in list order and none is lost. The servers tried are the first ones of
    the list. A socket is returned exactly when some server accepts while all before it are
    passed over, and it is that server's, which is then at the head of the list. In every case
    the list is a rotation of the list before, where a server differs from its old record at
    most by the `last_ip` it got when it was tried. -/
theorem connectAuthServer_failover (c : Central) (net : Net) {servers : List AuthServer}
    (t : Tables Chain) (hne : servers ≠ []) :
    (connectAuthServer c net servers t).attempts <+: servers ∧
    ((connectAuthServer c net servers t).sockfd.isSome ↔
      ∃ pre sk post, servers = pre ++ sk :: post ∧ PassesFrom c net 0 pre ∧
        Accepts c net pre.length sk) ∧
    (∀ pre sk post, servers = pre ++ sk :: post → PassesFrom c net 0 pre →
      Accepts c net pre.length sk →
        (connectAuthServer c net servers t).sockfd = some (tried c net pre.length sk) ∧
        (connectAuthServer c net servers t).servers.head? = some (tried c net pre.length sk) ∧
        (connectAuthServer c net servers t).attempts = pre ++ [sk]) ∧
    (connectAuthServer c net servers t).servers ≠ [] ∧
    ∃ k, (connectAuthServer c net servers t).servers =
      (servers.mapIdx fun i s =>
        if i < (connectAuthServer c net servers t).attempts.length then tried c net i s
        else s).rotate k := by
  refine ⟨?_, ⟨?_, ?_⟩, ?_, ?_⟩
  · rcases connectAuthServer_cases c net servers t with
      ⟨_, heq⟩ | ⟨pre, s, post, sockfd, rfl, _, _, _, heq⟩
    · rw [heq]
    · rw [heq]
      exact ⟨post, by simp⟩
  · intro hsome
    obtain ⟨peer, hpeer⟩ := Option.isSome_iff_exists.mp hsome
    obtain ⟨pre, s, post, hsplit, hpre, hacc, _⟩ := accepts_of_sockfd hpeer
    exact ⟨pre, s, post, hsplit, hpre, hacc⟩
  · rintro ⟨pre, sk, post, rfl, hpre, hacc⟩
    obtain ⟨t', heq⟩ := connectAuthServer_of_accepts post t hpre hacc
    rw [heq]
    rfl
  · rintro pre sk post rfl hpre hacc
    obtain ⟨t', heq⟩ := connectAuthServer_of_accepts post t hpre hacc
    rw [heq]
    exact ⟨rfl, rfl, rfl⟩
  · rcases connectAuthServer_cases c net servers t with
      ⟨_, heq⟩ | ⟨pre, s, post, sockfd, rfl, _, _, _, heq⟩
    · rw [heq]
      have hmap := mapIdx_tried c net servers []
      rw [List.append_nil, List.append_nil] at hmap
      refine ⟨fun hnil => hne ?_, 0, ?_⟩
      · have hlen : (triedFrom c net 0 servers).length = 0 := congrArg List.length hnil
        rw [length_triedFrom] at hlen
        exact List.length_eq_zero_iff.mp hlen
      · rw [List.rotate_zero]
        exact hmap.symm
    · rw [heq]
      refine ⟨List.cons_ne_nil _ _, pre.length, ?_⟩
      have hmap := mapIdx_tried c net (pre ++ [s]) post
      rw [triedFrom_concat, List.append_assoc, List.append_assoc] at hmap
      have hrot := List.rotate_append_length_eq (triedFrom c net 0 pre)
        ([tried c net pre.length s] ++ post)
      rw [length_triedFrom, ← hmap] at hrot
      exact hrot.symm

theorem smallNet_passes : PassesFrom smallCentral smallNet 0 [firstServer] := by
  intro i s hi
  cases i with
  | zero =>
    obtain rfl : firstServer = s := by simpa using hi
    exact Or.inl ⟨firstIp, rfl, rfl, by decide⟩
  | succ i => simp at hi

theorem smallNet_accepts : Accepts smallCentral smallNet 1 secondServer :=
  ⟨secondIp, by decide, rfl, by decide⟩

/-- The first server refuses, the second one is reached and becomes the head. -/
theorem connectAuthServer_failover_small :
    (connectAuthServer smallCentral smallNet [firstServer, secondServer] ⟨[], [], []⟩).sockfd =
      some (tried smallCentral smallNet 1 secondServer) :=
  ((connectAuthServer_failover smallCentral smallNet ⟨[], [], []⟩ (by decide)).2.2.1
    [firstServer] secondServer [] rfl smallNet_passes smallNet_accepts).1

/-! ## Requests and the server they go to -/

/-- The request says of its server what the server's record says; its text, which is cut at the end
    of the buffer, is the one that would be built from that record. -/
structure Written.Addressed (c : Central) (q : Query) (w : Written) : Prop where
  path : w.path = w.peer.path
  fragment : w.fragment = q.fragment w.peer
  host : w.host = w.peer.hostname
  ssl : w.ssl = c.ssl w.peer
  text : w.text = requestText c q w.peer

/-- Two records that a request does not tell apart. -/
structure SameAddress (c : Central) (q : Query) (s s' : AuthServer) : Prop where
  path : s.path = s'.path
  fragment : q.fragment s = q.fragment s'
  host : s.hostname = s'.hostname
  ssl : c.ssl s = c.ssl s'

section Requests
variable {c : Central} {net : Net} {q : Query}

theorem fragment_tried (level : Nat) (s : AuthServer) :
    q.fragment (tried c net level s) = q.fragment s := by
  cases q <;> rfl

/-- What is written when the server `s` is reached, with `s1` at the head of the list. -/
def writtenTo (c : Central) (net : Net) (q : Query) (s1 : AuthServer) (level : Nat)
    (s : AuthServer) : Written :=
  ⟨s1.path, q.fragment s1, s1.hostname, c.ssl s1, requestText c q s1, tried c net level s⟩

theorem sendQuery_of_accepts {pre post : List AuthServer} {s s1 : AuthServer} (t : Tables Chain)
    (hhead : (pre ++ s :: post).head? = some s1) (hpre : PassesFrom c net 0 pre)
    (hs : Accepts c net pre.length s) :
    (sendQuery c net q (pre ++ s :: post) t).1 = some (writtenTo c net q s1 pre.length s) := by
  obtain ⟨t', heq⟩ := connectAuthServer_of_accepts post t hpre hs
  unfold sendQuery
  rw [heq, hhead]
  rfl

theorem exists_of_sendQuery {servers : List AuthServer} {t : Tables Chain} {w : Written}
    (h : (sendQuery c net q servers t).1 = some w) :
    ∃ pre s post s1, servers = pre ++ s :: post ∧ servers.head? = some s1 ∧
      PassesFrom c net 0 pre ∧ Accepts c net pre.length s ∧
      w = writtenTo c net q s1 pre.length s := by
  unfold sendQuery at h
  dsimp only at h
  split at h
  · next s1 peer hhead hsock =>
    obtain ⟨pre, s, post, hsplit, hpre, hacc, rfl⟩ := accepts_of_sockfd hsock
    exact ⟨pre, s, post, s1, hsplit, hhead, hpre, hacc, (Option.some.inj h).symm⟩
  · cases h

theorem addressed_iff (s1 : AuthServer) (level : Nat) (s : AuthServer) :
    (writtenTo c net q s1 level s).Addressed c q ↔ SameAddress c q s1 s := by
  constructor
  · intro h
    exact ⟨h.path, h.fragment.trans (fragment_tried level s), h.host, h.ssl⟩
  · intro h
    refine ⟨h.path, h.fragment.trans (fragment_tried level s).symm, h.host, h.ssl, ?_⟩
    show requestText c q s1 = requestText c q (tried c net level s)
    unfold requestText
    rw [h.path, h.fragment, h.host, fragment_tried]
    rfl

end Requests

/-- Requests are addressed to the server they are sent to exactly when the server that is
    reached has the path, the script fragment, the host name and the SSL setting of the one
    that was at the head of the list before the connection was made. -/
theorem sendQuery_addressed_iff (c : Central) (net : Net) (q : Query)
    (servers : List AuthServer) (t : Tables Chain) :
    (∀ w, (sendQuery c net q servers t).1 = some w → w.Addressed c q) ↔
      ∀ pre sk post s1, servers = pre ++ sk :: post → servers.head? = some s1 →
        PassesFrom c net 0 pre → Accepts c net pre.length sk → SameAddress c q s1 sk := by
  constructor
  · rintro h pre sk post s1 rfl hhead hpre hacc
    exact (addressed_iff s1 pre.length sk).mp (h _ (sendQuery_of_accepts t hhead hpre hacc))
  · intro h w hw
    obtain ⟨pre, s, post, s1, hsplit, hhead, hpre, hacc, rfl⟩ := exists_of_sendQuery hw
    exact (addressed_iff s1 pre.length s).mpr (h pre s post s1 hsplit hhead hpre hacc)

/-- The second server gets a request for the path and the host of the first. -/
theorem sendQuery_misaddressed :
    ¬ ∀ w, (sendQuery smallCentral smallNet (.ping [] [] [] []) [firstServer, secondServer]
      ⟨[], [], []⟩).1 = some w → w.Addressed smallCentral (.ping [] [] [] []) := by
  intro h
  have haddr := h _ (sendQuery_of_accepts ⟨[], [], []⟩ rfl smallNet_passes smallNet_accepts)
  exact absurd haddr.path (by decide)

end Wifidog
