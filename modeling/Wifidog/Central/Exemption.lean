/-
  The exemption of the auth servers (CHAIN_AUTHSERVERS in the filter and the nat table).

  `_connect_auth_server` rewrites both chains when a server's address changes, but forgets an
  address without touching the chains when a server does not resolve while a popular server
  does. What the chains hold besides the rules for the known addresses is the multiset
  `staleFrom`: it grows where an address is forgotten and is empty again after a rewrite.

  Proved: `connectAuthServer_chains` (the exact contents of the chains after any call),
  `staleFrom_eq_zero_iff`, and that the chains match the known addresses after every call of a
  run in which every forgotten address is followed by a rewrite (`authservers_run`).
-/
import Mathlib.Algebra.Order.Group.Multiset
import Wifidog.Central.Failover
import Wifidog.Policy.Setup

namespace Wifidog

open CText Netfilter Runs

/-! ## The rules the list calls for -/

/-- The exemption of one server, none without a usable `last_ip`. -/
def AuthServer.share (s : AuthServer) : Multiset (Rule Chain) := ↑(s.exempt.toList.map acceptRule)

/-- One ACCEPT rule for each server with a usable `last_ip`. -/
def exemptRules (servers : List AuthServer) : Multiset (Rule Chain) :=
  (servers.map AuthServer.share).sum

theorem exemptRules_cons (s : AuthServer) (rest : List AuthServer) :
    exemptRules (s :: rest) = s.share + exemptRules rest := by
  simp [exemptRules]

theorem exemptRules_append (l l' : List AuthServer) :
    exemptRules (l ++ l') = exemptRules l + exemptRules l' := by
  simp [exemptRules]

theorem exemptRules_eq (cfg : Config) (servers : List AuthServer) :
    exemptRules servers =
      ↑(authserverRules { cfg with authServers := servers.map AuthServer.toAuthServ }) := by
  unfold authserverRules
  induction servers with
  | nil => rfl
  | cons s rest ih =>
    rw [exemptRules_cons, ih]
    unfold AuthServer.share
    cases hs : s.exempt with
    | none => simp [hs]
    | some ip => simp [hs, acceptRule]

/-- Both chains hold the rules `rules`, in some order. -/
def Exempts (t : Tables Chain) (rules : Multiset (Rule Chain)) : Prop :=
  ∀ tb, tb ≠ Table.mangle → ∃ rs, t.view tb .authservers = some rs ∧ ↑rs = rules

theorem Exempts.congr {t : Tables Chain} {rules rules' : Multiset (Rule Chain)}
    (h : Exempts t rules) (heq : rules = rules') : Exempts t rules' := heq ▸ h

/-! ## Rewriting the chains -/

theorem setAuthservers_noJump (cfg : Config) : ∀ c ∈ iptablesFwSetAuthservers cfg, c.NoJump := by
  intro c hc
  obtain ⟨ip, _, hc⟩ := List.mem_flatMap.mp hc
  simp only [List.mem_cons, List.not_mem_nil, or_false] at hc
  rcases hc with rfl | rfl <;> simp [Command.NoJump]

theorem clearAuthservers_noJump : ∀ c ∈ iptablesFwClearAuthservers, c.NoJump := by
  intro c hc
  simp only [iptablesFwClearAuthservers, List.mem_cons, List.not_mem_nil, or_false] at hc
  rcases hc with rfl | rfl <;> simp [Command.NoJump]

/-- Whatever the chains held, they hold the rules of the list afterwards. -/
theorem Exempts.rewrite {t : Tables Chain} {rules : Multiset (Rule Chain)} (h : Exempts t rules)
    (c : Central) (servers : List AuthServer) :
    Exempts (fwRewriteAuthservers c t servers) (exemptRules servers) := by
  intro tb htb
  obtain ⟨rs, hview, _⟩ := h tb htb
  refine ⟨_, ?_, (exemptRules_eq c.config servers).symm⟩
  have hclear : (t.execAll iptablesFwClearAuthservers).view tb .authservers = some [] := by
    rw [Tables.view_execAll t clearAuthservers_noJump, hview]
    cases tb with
    | mangle => exact absurd rfl htb
    | _ => simp [Tables.viewAfter, iptablesFwClearAuthservers, Command.touches, Op.chain, Op.apply]
  unfold fwRewriteAuthservers
  rw [Tables.view_execAll _ (setAuthservers_noJump _), hclear]
  unfold Tables.viewAfter
  rw [setAuthservers_touches htb, if_pos rfl, foldl_appends, List.nil_append]

/-! ## What one call leaves -/

section Calls
variable (c : Central) (net : Net)

/-- The rules without an address, after one more server was tried. -/
def staleStep (level : Nat) (s : AuthServer) (stale : Multiset (Rule Chain)) :
    Multiset (Rule Chain) :=
  match net.gethostbyname level 0 s.hostname with
  | some ip => if s.lastIp = some ip then stale else 0
  | none => if resolvePopular net level 1 c.popularServers then s.share + stale else stale

/-- The same after the servers of a list were tried one after another. -/
def staleFrom : (level : Nat) → List AuthServer → Multiset (Rule Chain) → Multiset (Rule Chain)
  | _, [], stale => stale
  | level, s :: rest, stale => staleFrom (level + 1) rest (staleStep c net level s stale)

variable {c net}

theorem staleFrom_concat (level : Nat) (pre : List AuthServer) (s : AuthServer)
    (stale : Multiset (Rule Chain)) :
    staleFrom c net level (pre ++ [s]) stale =
      staleStep c net (level + pre.length) s (staleFrom c net level pre stale) := by
  induction pre generalizing level stale with
  | nil => rfl
  | cons s' pre ih =>
    rw [List.cons_append, staleFrom, ih, List.length_cons,
      show level + 1 + pre.length = level + (pre.length + 1) by omega]
    rfl

/-- One server is tried. -/
theorem tablesAfter_chains {level : Nat} {s : AuthServer} {rest : List AuthServer}
    {t : Tables Chain} {stale : Multiset (Rule Chain)}
    (h : Exempts t (exemptRules (s :: rest) + stale)) :
    Exempts (tablesAfter c net level s rest t)
      (exemptRules (tried c net level s :: rest) + staleStep c net level s stale) := by
  unfold staleStep
  cases hip : net.gethostbyname level 0 s.hostname with
  | some ip =>
    rw [tablesAfter_of_some t hip]
    dsimp only
    split
    · next hsame =>
      have hs : tried c net level s = s := by
        rw [tried_of_some hip, ← hsame]
      rw [hs]
      exact h
    · rw [add_zero]
      exact h.rewrite c _
  | none =>
    rw [tablesAfter_of_none t hip]
    refine h.congr ?_
    rw [exemptRules_cons, exemptRules_cons]
    dsimp only
    split
    · next hpop =>
      -- the address is forgotten, its rule is not
      have hs : (tried c net level s).share = 0 := by
        simp [AuthServer.share, AuthServ.exempt, tried, lastIpAfter, hip, hpop]
      rw [hs, zero_add, add_comm s.share, add_assoc]
    · next hpop =>
      have hs : tried c net level s = s := by
        simp [tried, lastIpAfter, hip, hpop]
      rw [hs]

/-- The servers `pre` are tried and passed over. -/
theorem tablesFrom_chains {level : Nat} {pre rest : List AuthServer} {t : Tables Chain}
    {stale : Multiset (Rule Chain)} (h : Exempts t (exemptRules (pre ++ rest) + stale)) :
    Exempts (tablesFrom c net level pre rest t)
      (exemptRules (rest ++ triedFrom c net level pre) + staleFrom c net level pre stale) := by
  induction pre generalizing level rest t stale with
  | nil => simpa [triedFrom, tablesFrom, staleFrom] using h
  | cons s pre ih =>
    have hone : Exempts (tablesAfter c net level s (pre ++ rest) t)
        (exemptRules (tried c net level s :: (pre ++ rest)) + staleStep c net level s stale) :=
      tablesAfter_chains h
    have hrotate : exemptRules (tried c net level s :: (pre ++ rest)) =
        exemptRules (pre ++ (rest ++ [tried c net level s])) := by
      rw [← List.append_assoc, exemptRules_append _ [_], add_comm, ← exemptRules_append,
        List.singleton_append]
    rw [hrotate] at hone
    have hnext := @ih (level + 1) (rest ++ [tried c net level s]) _ _ hone
    rw [List.append_assoc, List.singleton_append, ← triedFrom_cons] at hnext
    exact hnext

/-- The chains after a call: the rules of the list, and those of the addresses that were
    forgotten since the last rewrite. -/
theorem connectAuthServer_chains {servers : List AuthServer} {t : Tables Chain}
    (h : Exempts t (exemptRules servers)) :
    Exempts (connectAuthServer c net servers t).tables
      (exemptRules (connectAuthServer c net servers t).servers +
        staleFrom c net 0 (connectAuthServer c net servers t).attempts 0) := by
  rcases connectAuthServer_cases c net servers t with
    ⟨_, heq⟩ | ⟨pre, s, post, sockfd, rfl, _, _, _, heq⟩
  · rw [heq]
    have hall := @tablesFrom_chains c net 0 servers [] t 0 (by simpa using h)
    simpa using hall
  · rw [heq]
    have hpre := @tablesFrom_chains c net 0 pre (s :: post) t 0 (by simpa using h)
    rw [staleFrom_concat, Nat.zero_add]
    exact tablesAfter_chains hpre

/-! ## Forgotten addresses -/

variable (c net)

/-- The server gets a new address: both chains are rewritten. -/
def Moves (level : Nat) (s : AuthServer) : Prop :=
  ∃ ip, net.gethostbyname level 0 s.hostname = some ip ∧ s.lastIp ≠ some ip

/-- The server loses an address that has an exemption. -/
def Forgets (level : Nat) (s : AuthServer) : Prop :=
  Unresolved c net level s ∧ s.exempt.isSome

/-- The call tries the server `s`, at place `i` of the list. -/
def Attempted (servers : List AuthServer) (i : Nat) (s : AuthServer) : Prop :=
  servers[i]? = some s ∧ PassesFrom c net 0 (servers.take i)

/-- After every address that the call forgets it rewrites the chains, since a server it tries
    later has a new address. -/
def Rewrites (servers : List AuthServer) : Prop :=
  ∀ i s, Attempted c net servers i s → Forgets c net i s →
    ∃ j s', i < j ∧ Attempted c net servers j s' ∧ Moves net j s'

variable {c net}

theorem share_eq_zero_iff (s : AuthServer) : s.share = 0 ↔ s.exempt = none := by
  unfold AuthServer.share
  cases s.exempt <;> simp

theorem not_forgets_of_moves {level : Nat} {s : AuthServer} (h : Moves net level s) :
    ¬ Forgets c net level s := by
  obtain ⟨ip, hip, _⟩ := h
  rintro ⟨⟨hnone, _⟩, _⟩
  rw [hip] at hnone
  cases hnone

theorem staleStep_eq_zero_iff (level : Nat) (s : AuthServer) (stale : Multiset (Rule Chain)) :
    staleStep c net level s stale = 0 ↔
      Moves net level s ∨ stale = 0 ∧ ¬ Forgets c net level s := by
  unfold staleStep
  cases hip : net.gethostbyname level 0 s.hostname with
  | some ip =>
    have hforgets : ¬ Forgets c net level s := by
      rintro ⟨⟨hnone, _⟩, _⟩
      rw [hip] at hnone
      cases hnone
    have hmoves : Moves net level s ↔ s.lastIp ≠ some ip := by
      simp [Moves, hip]
    dsimp only
    split
    · next hsame => simp [hmoves, hforgets, hsame]
    · next hnew => simp [hmoves, hnew]
  | none =>
    have hmoves : ¬ Moves net level s := by
      simp [Moves, hip]
    dsimp only
    split
    · next hpop =>
      have hforgets : Forgets c net level s ↔ s.exempt.isSome := by
        simp [Forgets, Unresolved, hip, popularResolves_iff, hpop]
      rw [add_eq_zero_iff_of_nonneg (Multiset.zero_le _) (Multiset.zero_le _), share_eq_zero_iff,
        hforgets]
      cases s.exempt <;> simp [hmoves]
    · next hpop =>
      have hforgets : ¬ Forgets c net level s := by
        simp [Forgets, Unresolved, popularResolves_iff, hpop]
      simp [hmoves, hforgets]

/-- A rewrite among the servers is one at the first or at a later one. -/
theorem exists_moves_cons (level : Nat) (s : AuthServer) (l : List AuthServer) :
    (∃ j s', (s :: l)[j]? = some s' ∧ Moves net (level + j) s') ↔
      Moves net level s ∨ ∃ j s', l[j]? = some s' ∧ Moves net (level + 1 + j) s' := by
  have hshift : ∀ i, level + 1 + i = level + (i + 1) := fun i => by omega
  simp only [hshift]
  constructor
  · rintro ⟨j, s', hj, hm⟩
    cases j with
    | zero =>
      obtain rfl : s = s' := by simpa using hj
      exact Or.inl hm
    | succ j => exact Or.inr ⟨j, s', hj, hm⟩
  · rintro (hm | ⟨j, s', hj, hm⟩)
    · exact ⟨0, s, rfl, hm⟩
    · exact ⟨j + 1, s', hj, hm⟩

/-- Every forgotten address is followed by a rewrite: that of the first server, and the rest. -/
theorem forall_followed_cons (level : Nat) (s : AuthServer) (l : List AuthServer) :
    (∀ i s', (s :: l)[i]? = some s' → Forgets c net (level + i) s' →
      ∃ j s'', i < j ∧ (s :: l)[j]? = some s'' ∧ Moves net (level + j) s'') ↔
      (Forgets c net level s → ∃ j s', l[j]? = some s' ∧ Moves net (level + 1 + j) s') ∧
      ∀ i s', l[i]? = some s' → Forgets c net (level + 1 + i) s' →
        ∃ j s'', i < j ∧ l[j]? = some s'' ∧ Moves net (level + 1 + j) s'' := by
  have hshift : ∀ i, level + 1 + i = level + (i + 1) := fun i => by omega
  simp only [hshift]
  constructor
  · intro h
    constructor
    · intro hf
      obtain ⟨j, s', hlt, hj, hm⟩ := h 0 s rfl hf
      cases j with
      | zero => exact absurd hlt (Nat.lt_irrefl 0)
      | succ j => exact ⟨j, s', hj, hm⟩
    · intro i s' hi hf
      obtain ⟨j, s'', hlt, hj, hm⟩ := h (i + 1) s' hi hf
      cases j with
      | zero => exact absurd hlt (Nat.not_lt_zero _)
      | succ j => exact ⟨j, s'', Nat.lt_of_succ_lt_succ hlt, hj, hm⟩
  · rintro ⟨hhead, htail⟩ i s' hi hf
    cases i with
    | zero =>
      obtain rfl : s = s' := by simpa using hi
      obtain ⟨j, s'', hj, hm⟩ := hhead hf
      exact ⟨j + 1, s'', Nat.succ_pos j, hj, hm⟩
    | succ i =>
      obtain ⟨j, s'', hlt, hj, hm⟩ := htail i s' hi hf
      exact ⟨j + 1, s'', Nat.succ_lt_succ hlt, hj, hm⟩

/-- No stale rule is left exactly when the last forgotten address is followed by a rewrite. -/
theorem staleFrom_eq_zero_iff (level : Nat) (l : List AuthServer)
    (stale : Multiset (Rule Chain)) :
    staleFrom c net level l stale = 0 ↔
      (stale = 0 ∨ ∃ j s', l[j]? = some s' ∧ Moves net (level + j) s') ∧
      ∀ i s, l[i]? = some s → Forgets c net (level + i) s →
        ∃ j s', i < j ∧ l[j]? = some s' ∧ Moves net (level + j) s' := by
  induction l generalizing level stale with
  | nil => simp [staleFrom]
  | cons s l ih =>
    have hnot := @not_forgets_of_moves c net level s
    rw [staleFrom, ih, staleStep_eq_zero_iff, exists_moves_cons, forall_followed_cons]
    constructor
    · rintro ⟨(hm | ⟨hempty, hf⟩) | hlater, hrest⟩
      · exact ⟨Or.inr (Or.inl hm), fun hf => absurd hf (hnot hm), hrest⟩
      · exact ⟨Or.inl hempty, fun h => absurd h hf, hrest⟩
      · exact ⟨Or.inr (Or.inr hlater), fun _ => hlater, hrest⟩
    · rintro ⟨hbefore, hhead, hrest⟩
      refine ⟨?_, hrest⟩
      by_cases hf : Forgets c net level s
      · exact Or.inr (hhead hf)
      · rcases hbefore with hempty | hm | hlater
        · exact Or.inl (Or.inr ⟨hempty, hf⟩)
        · exact Or.inl (Or.inl hm)
        · exact Or.inr hlater

/-- The servers that a call tries. -/
theorem attempts_iff {servers : List AuthServer} {t : Tables Chain} {i : Nat} {s : AuthServer} :
    (connectAuthServer c net servers t).attempts[i]? = some s ↔ Attempted c net servers i s := by
  have htake : ∀ {l : List AuthServer}, PassesFrom c net 0 l → PassesFrom c net 0 (l.take i) := by
    intro l hl j s' hj
    rw [List.getElem?_take] at hj
    split at hj
    · exact hl j s' hj
    · cases hj
  unfold Attempted
  rcases connectAuthServer_cases c net servers t with
    ⟨hall, heq⟩ | ⟨pre, s0, post, sockfd, rfl, hpre, hstop, _, heq⟩
  · rw [heq]
    exact ⟨fun h => ⟨h, htake hall⟩, fun h => h.1⟩
  · rw [heq]
    dsimp only
    rcases Nat.lt_trichotomy i pre.length with hi | rfl | hi
    · rw [List.getElem?_append_left hi, List.getElem?_append_left hi,
        List.take_append_of_le_length (Nat.le_of_lt hi)]
      exact ⟨fun h => ⟨h, htake hpre⟩, fun h => h.1⟩
    · simp [hpre]
    · constructor
      · intro h
        have : i < (pre ++ [s0]).length := (List.getElem?_eq_some_iff.mp h).1
        rw [List.length_append, List.length_singleton] at this
        omega
      · rintro ⟨_, hpasses⟩
        refine absurd ?_ hstop
        have hat : ((pre ++ s0 :: post).take i)[pre.length]? = some s0 := by
          simp [hi]
        simpa using hpasses _ _ hat

/-- One call keeps the chains right exactly when it rewrites them after every address it
    forgets. -/
theorem connectAuthServer_exempts_iff {servers : List AuthServer} {t : Tables Chain}
    (h : Exempts t (exemptRules servers)) :
    Exempts (connectAuthServer c net servers t).tables
        (exemptRules (connectAuthServer c net servers t).servers) ↔
      Rewrites c net servers := by
  have hchains := @connectAuthServer_chains c net servers t h
  have hzero : Exempts (connectAuthServer c net servers t).tables
        (exemptRules (connectAuthServer c net servers t).servers) ↔
      staleFrom c net 0 (connectAuthServer c net servers t).attempts 0 = 0 := by
    constructor
    · intro hright
      obtain ⟨rs, hrs, hsum⟩ := hchains .filter (by decide)
      obtain ⟨rs', hrs', hlist⟩ := hright .filter (by decide)
      obtain rfl : rs = rs' := Option.some.inj (hrs.symm.trans hrs')
      exact left_eq_add.mp (hlist.symm.trans hsum)
    · intro hzero
      rw [hzero, add_zero] at hchains
      exact hchains
  rw [hzero, staleFrom_eq_zero_iff]
  simp only [Nat.zero_add, attempts_iff, true_or, true_and]
  rfl

end Calls

/-! ## Runs of calls -/

/-- The list of servers and the tables between two calls. -/
structure ServerState where
  servers : List AuthServer
  tables : Tables Chain
  deriving DecidableEq, Repr

/-- One call, with what the network does during it. -/
def connectStep (c : Central) (s : ServerState) (net : Net) : Option ServerState :=
  let conn := connectAuthServer c net s.servers s.tables
  some ⟨conn.servers, conn.tables⟩

/-- `iptables_fw_init` for these servers has just run and all its commands were accepted. -/
def AfterInit (c : Central) (s : ServerState) : Prop :=
  ∃ getExtIface cs t,
    iptablesFwInit { c.config with authServers := s.servers.map AuthServer.toAuthServ }
      getExtIface = some cs ∧
    Tables.runAll cs t = some s.tables

theorem AfterInit.exempts {c : Central} {s : ServerState} (h : AfterInit c s) :
    Exempts s.tables (exemptRules s.servers) := by
  obtain ⟨getExtIface, cs, t, hcs, hrun⟩ := h
  unfold iptablesFwInit at hcs
  rw [Option.map_eq_some_iff] at hcs
  obtain ⟨ext, _, rfl⟩ := hcs
  intro tb htb
  refine ⟨_, ?_, (exemptRules_eq c.config s.servers).symm⟩
  cases tb with
  | mangle => exact absurd rfl htb
  | filter => exact setup_filter hrun rfl
  | nat => exact setup_nat_authservers hrun

/-- From `iptables_fw_init` on, after every call of a run in which every call rewrites the
    chains after the addresses it forgets, both chains hold one ACCEPT rule for each server
    with a usable `last_ip` and no other rule. -/
theorem authservers_run (c : Central) {s0 s : ServerState} {nets : List Net}
    (h0 : AfterInit c s0) (hrun : run (connectStep c) s0 nets = some s)
    (hrewrites : Along (connectStep c) (fun s net => Rewrites c net s.servers) s0 nets) :
    Exempts s.tables (exemptRules s.servers) := by
  refine run_inv_along (fun s => Exempts s.tables (exemptRules s.servers)) ?_ h0.exempts
    hrewrites hrun
  rintro s net s' hs hrewrites hstep
  obtain rfl := Option.some.inj hstep
  exact (connectAuthServer_exempts_iff hs).mpr hrewrites

/-! ## A server that is forgotten -/

def exemptCommands : List (Command Chain) :=
  (iptablesFwInit { smallConfig with authServers := [firstServer.toAuthServ] } none).getD []

def exemptStart : ServerState := ⟨[firstServer], builtinTables.execAll exemptCommands⟩

/-- Only the popular server resolves. -/
def popularOnly : Net :=
  ⟨fun _ k _ => if k = 0 then none else some secondIp, fun _ => true, fun _ _ _ => true⟩

def exemptRun (nets : List Net) : ServerState :=
  (run (connectStep smallCentral) exemptStart nets).getD exemptStart

theorem exemptStart_init : AfterInit smallCentral exemptStart :=
  ⟨none, exemptCommands, builtinTables, rfl, by decide +kernel⟩

/-- One call that learns an address. -/
theorem authservers_run_small :
    Exempts (exemptRun [smallNet]).tables (exemptRules (exemptRun [smallNet]).servers) := by
  have hrewrites : Rewrites smallCentral smallNet exemptStart.servers := by
    rintro i s ⟨hs, _⟩ ⟨⟨hnone, _⟩, _⟩
    simp [smallNet] at hnone
  have hrun : run (connectStep smallCentral) exemptStart [smallNet] =
      some (exemptRun [smallNet]) := rfl
  exact authservers_run smallCentral exemptStart_init hrun ⟨hrewrites, fun _ _ => trivial⟩

/-- The second call forgets the address and leaves its rule. -/
theorem exemption_stale :
    AfterInit smallCentral exemptStart ∧
    run (connectStep smallCentral) exemptStart [smallNet, popularOnly] =
      some (exemptRun [smallNet, popularOnly]) ∧
    ¬ Exempts (exemptRun [smallNet, popularOnly]).tables
      (exemptRules (exemptRun [smallNet, popularOnly]).servers) := by
  refine ⟨exemptStart_init, rfl, fun h => ?_⟩
  obtain ⟨rs, hview, hrules⟩ := h .filter (by decide)
  have hservers : exemptRules (exemptRun [smallNet, popularOnly]).servers = 0 := by
    have : (exemptRun [smallNet, popularOnly]).servers = [firstServer] := by decide +kernel
    rw [this]
    rfl
  have hchain : (exemptRun [smallNet, popularOnly]).tables.view .filter .authservers =
      some [acceptRule firstIp] := by decide +kernel
  obtain rfl : rs = [acceptRule firstIp] := Option.some.inj (hview.symm.trans hchain)
  rw [hservers] at hrules
  simp at hrules

end Wifidog
