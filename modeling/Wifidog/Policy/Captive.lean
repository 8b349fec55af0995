/-
  The captive redirect.

  `Captured` says, without chains or commands, which connections to port 80 are redirected to the
  gateway's own web server. `captive_redirect`: after `iptables_fw_init` and any grants,
  revocations and opened hosts, walking the nat table from PREROUTING redirects exactly these, and
  nothing else is ever redirected.

  Of the global ruleset only the rules with target ACCEPT, LOG and ULOG are loaded into the nat
  table, so a `block` or `drop` rule in front of an `allow` rule does not stop it here. Marks are
  matched as `0x%u`, in the same spelling as mangle sets the auth-is-down mark.
-/
import Wifidog.Model.Destroy
import Wifidog.Policy.Filter

namespace Wifidog

open CText Netfilter

/-! ## Which connections are captured -/

/-- A rule of the global ruleset lets the packet pass in the nat table. -/
def globalAccepts (cfg : Config) (env : Env) (p : Packet) : Bool :=
  (getRuleset cfg.rulesets fwrulesetGlobal).any fun r => r.target = .accept && r.holds env p

structure Captured (cfg : Config) (hosts : List Text) (env : Env) (p : Packet) (k : Nat) :
    Prop where
  router : env.covers cfg.gwAddress p.dst = false
  known : (k : Int) ≠ fwMarkKnown
  probation : (k : Int) ≠ fwMarkProbation
  servers : ∀ ip ∈ cfg.authServers.filterMap AuthServ.exempt, env.covers ip p.dst = false
  global : globalAccepts cfg env p = false
  hosts : ∀ host ∈ hosts, env.covers host p.dst = false
  authdown : ¬ (k = authDownMark ∧ getRuleset cfg.rulesets fwrulesetAuthIsDown ≠ [])

/-- The hosts that calls open. -/
def hostsOf (calls : List FwCall) : List Text :=
  calls.filterMap fun
    | .allowHost host => some host
    | _ => none

/-- Grants, revocations, opened hosts, and the pings that set the auth-is-down mark. -/
def FwCall.AtRuntime : FwCall → Prop
  | .clearAuthservers => False
  | .setAuthservers _ => False
  | _ => True

/-! ## The nat table after `iptables_fw_init` -/

/-- What `iptables_compile` lets through of a ruleset for the nat table. -/
def natRulesetRules (cfg : Config) (name : Text) : List (Rule Chain) :=
  ((getRuleset cfg.rulesets name).filter fun r => r.target != .drop && r.target != .reject).map
    FirewallRule.toRule

def unknownNatRules (cfg : Config) : List (Rule Chain) :=
  [⟨[], .jump .authservers⟩, ⟨[], .jump .global⟩] ++
  (if cfg.gotAuthdownRuleset then [⟨[], .jump .authIsDown⟩] else []) ++
  [⟨tcp80, .redirect "--to-ports".toList (decInt cfg.gwPort)⟩]

/-- The gateway's chains of the nat table, without a proxy. -/
def natRules (cfg : Config) : Chain → Option (List (Rule Chain))
  | .outgoing => some [⟨[.destination cfg.gwAddress], .jump .toRouter⟩, ⟨[], .jump .toInternet⟩]
  | .toRouter => some [⟨[], .accept⟩]
  | .toInternet =>
    some [⟨[markCond fwMarkKnown], .accept⟩, ⟨[markCond fwMarkProbation], .accept⟩,
      ⟨[], .jump .unknown⟩]
  | .unknown => some (unknownNatRules cfg)
  | .authservers => some (authserverRules cfg)
  | .global => some (natRulesetRules cfg fwrulesetGlobal)
  | .authIsDown =>
    if cfg.gotAuthdownRuleset then some [⟨[markCond fwMarkAuthIsDown], .accept⟩] else none
  | _ => none

theorem iptablesLoadRuleset_nat (cfg : Config) (name : Text) (ch : Chain) :
    iptablesLoadRuleset cfg .nat name ch =
      (natRulesetRules cfg name).map fun r => ⟨.nat, .append ch r⟩ := by
  unfold iptablesLoadRuleset natRulesetRules
  rw [List.map_map]
  induction getRuleset cfg.rulesets name with
  | nil => rfl
  | cons r rs ih =>
    rw [List.filterMap_cons, ih]
    cases h : r.target <;>
      simp [iptablesCompile, h, FirewallRule.toRule]

/-- The commands of `iptables_fw_init`, seen from the nat table. -/
theorem init_nat (cfg : Config) (ext : Text) (ch : Chain) :
    (initMangle cfg ++ initNat cfg ++ initFilter cfg ext).filter (Command.touches .nat ch) =
      (initNat cfg).filter (Command.touches .nat ch) ++
        ((if Chain.authservers = ch then
            (authserverRules cfg).map fun r => ⟨.nat, .append .authservers r⟩ else []) ++
          if Chain.global = ch then
            (natRulesetRules cfg fwrulesetGlobal).map fun r => ⟨.nat, .append .global r⟩
          else []) := by
  have hfilter : (initFilter cfg ext).filter (Command.touches .nat ch) =
      (if Chain.authservers = ch then
          (authserverRules cfg).map fun r => ⟨.nat, .append .authservers r⟩ else []) ++
        if Chain.global = ch then
          (natRulesetRules cfg fwrulesetGlobal).map fun r => ⟨.nat, .append .global r⟩
        else [] := by
    unfold initFilter
    simp only [List.filter_append, setAuthservers_touches (show Table.nat ≠ .mangle by decide),
      iptablesLoadRuleset_nat, filter_appends,
      loadRuleset_other (show Table.filter ≠ .nat by decide)]
    by_cases hdown : cfg.gotAuthdownRuleset = true <;>
      simp [hdown, Command.touches, loadRuleset_other (show Table.filter ≠ .nat by decide)]
  rw [List.filter_append, List.filter_append, initMangle_other (by decide), List.nil_append,
    hfilter]

section Accepted
variable {cfg : Config} {ext : Text} {t t0 : Tables Chain} (hproxy : cfg.proxyPort = 0)
  (h : Tables.runAll (initMangle cfg ++ initNat cfg ++ initFilter cfg ext) t = some t0)
include hproxy h

theorem setup_nat {ch : Chain} {rs : List (Rule Chain)} (hrs : natRules cfg ch = some rs) :
    t0.view .nat ch = some rs := by
  refine view_of_appends h ?_
  rw [init_nat]
  unfold initNat
  by_cases hdown : cfg.gotAuthdownRuleset = true <;>
    cases ch <;>
      simp only [natRules, hdown, if_true, if_false, Option.some.injEq, reduceCtorEq] at hrs <;>
      subst hrs <;>
      simp [hdown, hproxy, Command.touches, Op.chain, unknownNatRules]

theorem setup_nat_prerouting (hforeign : t.view .nat .prerouting = some []) :
    t0.view .nat .prerouting = some [⟨[.inInterface cfg.gwInterface], .jump .outgoing⟩] := by
  rw [Tables.view_runAll h, Tables.viewAfter, init_nat, hforeign]
  unfold initNat
  by_cases hdown : cfg.gotAuthdownRuleset = true <;>
    simp [hdown, hproxy, Command.touches, Op.chain, Op.apply]

end Accepted

/-! ## Calls at run time -/

/-- The rule that opens a host. -/
def hostRule (host : Text) : Rule Chain := ⟨[.destination host], .accept⟩

theorem FwCall.noJump (cfg : Config) {call : FwCall} (hcall : call.AtRuntime) :
    ∀ c ∈ call.commands cfg, c.NoJump := by
  cases call with
  | allow client mark =>
    refine List.forall_mem_append.mpr
      ⟨accessCommands_noJump .allow client.ip client.mac mark, ?_⟩
    split
    · exact accessCommands_noJump .deny client.ip client.mac client.fwConnectionState
    · simp
  | deny client =>
    exact accessCommands_noJump .deny client.ip client.mac client.fwConnectionState
  | allowHost host => simp [FwCall.commands, accessHostCommands, Command.NoJump]
  | setAuthdown =>
    change ∀ c ∈ iptablesFwAuthUnreachable cfg fwMarkAuthIsDown, c.NoJump
    unfold iptablesFwAuthUnreachable
    split <;> simp [Command.NoJump]
  | setAuthup =>
    change ∀ c ∈ iptablesFwAuthReachable cfg, c.NoJump
    unfold iptablesFwAuthReachable
    split <;> simp [Command.NoJump]
  | clearAuthservers => exact hcall.elim
  | setAuthservers servers => exact hcall.elim

/-- In the nat table a call at run time only opens hosts. -/
theorem FwCall.touches_nat (cfg : Config) {call : FwCall} (hcall : call.AtRuntime) (ch : Chain) :
    (call.commands cfg).filter (Command.touches .nat ch) =
      if ch = .global then
        (hostsOf [call]).map fun host => ⟨.nat, .append .global (hostRule host)⟩
      else [] := by
  have haccess : ∀ type ip mac tag,
      (accessCommands type ip mac tag).filter (Command.touches .nat ch) = [] := by
    intro type ip mac tag
    cases type <;> simp [accessCommands, Command.touches]
  cases call with
  | allow client mark =>
    have hnone : hostsOf [.allow client mark] = [] := rfl
    rw [FwCall.commands, List.filter_append, haccess, hnone]
    split <;> simp [haccess]
  | deny client =>
    have hnone : hostsOf [.deny client] = [] := rfl
    rw [FwCall.commands, haccess, hnone]
    simp
  | allowHost host =>
    have hone : hostsOf [.allowHost host] = [host] := rfl
    rw [hone]
    by_cases hch : ch = .global
    · simp [FwCall.commands, accessHostCommands, Command.touches, Op.chain, hch, hostRule]
    · simp [FwCall.commands, accessHostCommands, Command.touches, Op.chain, hch, Ne.symm hch]
  | setAuthdown =>
    have hnone : hostsOf [.setAuthdown] = [] := rfl
    rw [FwCall.commands, iptablesFwAuthUnreachable, hnone]
    by_cases hdown : cfg.gotAuthdownRuleset = true <;> simp [hdown, Command.touches]
  | setAuthup =>
    have hnone : hostsOf [.setAuthup] = [] := rfl
    rw [FwCall.commands, iptablesFwAuthReachable, hnone]
    by_cases hdown : cfg.gotAuthdownRuleset = true <;> simp [hdown, Command.touches]
  | clearAuthservers => exact hcall.elim
  | setAuthservers servers => exact hcall.elim

/-- The nat table after calls at run time. -/
theorem view_calls (cfg : Config) (t : Tables Chain) {calls : List FwCall}
    (hcalls : ∀ call ∈ calls, call.AtRuntime) (ch : Chain) :
    (t.execAll (calls.flatMap (FwCall.commands cfg))).view .nat ch =
      if ch = .global then (t.view .nat ch).map (· ++ (hostsOf calls).map hostRule)
      else t.view .nat ch := by
  have hnoJump : ∀ c ∈ calls.flatMap (FwCall.commands cfg), c.NoJump := by
    intro c hc
    obtain ⟨call, hcall, hc⟩ := List.mem_flatMap.mp hc
    exact call.noJump cfg (hcalls call hcall) c hc
  have htouch : (calls.flatMap (FwCall.commands cfg)).filter (Command.touches .nat ch) =
      if ch = .global then
        ((hostsOf calls).map hostRule).map fun r => ⟨.nat, .append .global r⟩
      else [] := by
    clear hnoJump
    induction calls with
    | nil => simp [hostsOf]
    | cons call calls ih =>
      have ih' := ih fun c hc => hcalls c (List.mem_cons_of_mem call hc)
      have hsplit : hostsOf (call :: calls) = hostsOf [call] ++ hostsOf calls := by
        simp only [hostsOf, List.filterMap_cons, List.filterMap_nil]
        split <;> simp
      rw [List.flatMap_cons, List.filter_append, ih',
        call.touches_nat cfg (hcalls call List.mem_cons_self), hsplit]
      split <;> simp
  rw [Tables.view_execAll t hnoJump, Tables.viewAfter, htouch]
  split
  · cases hview : t.view .nat ch with
    | none =>
      have hstay : ∀ rs : List (Rule Chain), (rs.map fun r =>
          (⟨.nat, .append .global r⟩ : Command Chain)).foldl (fun rs c => c.op.apply rs) none =
          none := by
        intro rs
        induction rs with
        | nil => rfl
        | cons r rs ih => exact ih
      rw [hstay]
      rfl
    | some rs => rw [foldl_appends]; rfl
  · rfl

/-! ## Walking the nat table -/

section Walks
variable {cfg : Config} {env : Env} {p : Packet} {call : Chain → Nat → Outcome}

/-- Of the rules of the nat Global chain only ACCEPT ends the walk. -/
theorem walk_natGlobal (hosts : List Text) (m : Nat) :
    walk env call p (natRulesetRules cfg fwrulesetGlobal ++ hosts.map hostRule) m =
      .ofVerdict (if globalAccepts cfg env p || hosts.any (env.covers · p.dst) then some .accept
        else none) m := by
  have hrules : walk env call p (natRulesetRules cfg fwrulesetGlobal) m =
      .ofVerdict (if globalAccepts cfg env p then some .accept else none) m := by
    unfold natRulesetRules globalAccepts
    induction getRuleset cfg.rulesets fwrulesetGlobal with
    | nil => rfl
    | cons r rs ih =>
      have happ : r.toRule.applies env p m = r.holds env p := applies_toRule r m
      cases htarget : r.target with
      | drop => simpa [htarget] using ih
      | reject => simpa [htarget] using ih
      | accept =>
        cases hr : r.holds env p with
        | false =>
          rw [hr] at happ
          simpa [htarget, hr, walk_skip happ] using ih
        | true =>
          rw [hr] at happ
          have hmode : r.toRule.target = .accept := by
            simp [FirewallRule.toRule, htarget, FirewallTarget.mode]
          simp [htarget, hr, walk, happ, hmode, Outcome.ofVerdict]
      | log =>
        have hwalk : ∀ rest : List (Rule Chain), walk env call p (r.toRule :: rest) m =
            walk env call p rest m := by
          intro rest
          simp [walk, FirewallRule.toRule, FirewallTarget.mode, htarget]
        simpa [htarget, hwalk] using ih
      | ulog =>
        have hwalk : ∀ rest : List (Rule Chain), walk env call p (r.toRule :: rest) m =
            walk env call p rest m := by
          intro rest
          simp [walk, FirewallRule.toRule, FirewallTarget.mode, htarget]
        simpa [htarget, hwalk] using ih
  have hhosts : walk env call p (hosts.map hostRule) m =
      .ofVerdict (if hosts.any (env.covers · p.dst) then some .accept else none) m := by
    induction hosts with
    | nil => rfl
    | cons host hosts ih =>
      cases hcov : env.covers host p.dst with
      | false => simpa [walk, hostRule, Rule.applies, Cond.holds, hcov] using ih
      | true => simp [walk, hostRule, Rule.applies, Cond.holds, hcov, Outcome.ofVerdict]
  rw [walk_append, hrules]
  cases globalAccepts cfg env p with
  | true => rfl
  | false => simpa [Outcome.ofVerdict] using hhosts

/-- The packet is TCP to port 80. -/
def IsWeb (p : Packet) : Prop := p.proto = "tcp".toList ∧ p.dport = 80

instance (p : Packet) : Decidable (IsWeb p) :=
  inferInstanceAs (Decidable (p.proto = "tcp".toList ∧ p.dport = 80))

theorem applies_tcp80 (hport : ∀ n, env.inPort "80".toList n = decide (n = 80)) (m : Nat)
    (target : Target Chain) : Rule.applies env p m ⟨tcp80, target⟩ = decide (IsWeb p) := by
  have hconds : Rule.applies env p m ⟨tcp80, target⟩ =
      ("tcp".toList == p.proto && (env.inPort "80".toList p.dport && true)) := rfl
  rw [hconds, hport, Bool.and_true, Bool.eq_iff_iff, Bool.and_eq_true, beq_iff_eq,
    decide_eq_true_iff, decide_eq_true_iff, IsWeb, eq_comm]

/-- A rule that accepts the packets of one mark. -/
theorem walk_markAccept {mark : Int} {n : Nat} (h : readMark (hexMark mark) = some n)
    (rs : List (Rule Chain)) (m : Nat) :
    walk env call p (⟨[markCond mark], .accept⟩ :: rs) m =
      if m = n then .done .accept m else walk env call p rs m := by
  have happ : Rule.applies env p m (⟨[markCond mark], .accept⟩ : Rule Chain) = decide (m = n) :=
    holds_markCond h m
  simp only [walk, happ, decide_eq_true_eq]

/-- The packet leaves the nat table untouched, once it is in the Unknown chain. -/
def passes (cfg : Config) (hosts : List Text) (env : Env) (p : Packet) (m : Nat) : Bool :=
  (cfg.authServers.filterMap AuthServ.exempt).any (env.covers · p.dst) ||
    (globalAccepts cfg env p || hosts.any (env.covers · p.dst)) ||
    (cfg.gotAuthdownRuleset && m == authDownMark)

/-- How the walk of the Unknown chain ends. -/
def unknownOutcome (cfg : Config) (hosts : List Text) (env : Env) (p : Packet) (m : Nat) :
    Outcome :=
  if passes cfg hosts env p m then .done .accept m
  else if IsWeb p then .done (.redirect (decInt cfg.gwPort)) m
  else .fall m

/-- How the walk of the nat table ends for a packet from the gateway interface. -/
def natOutcome (cfg : Config) (hosts : List Text) (env : Env) (p : Packet) (m : Nat) : Outcome :=
  if env.covers cfg.gwAddress p.dst || m == 2 || m == 1 then .done .accept m
  else unknownOutcome cfg hosts env p m

variable {hosts : List Text} {cs : Chains Chain}
  (hcs : ∀ ch rs, natRules cfg ch = some rs → cs.get ch =
    some (if ch = .global then rs ++ hosts.map hostRule else rs))
  (hport : ∀ n, env.inPort "80".toList n = decide (n = 80))
include hcs hport

theorem walk_unknownNat (n m : Nat) :
    callChain env cs p (n + 2) .unknown m = unknownOutcome cfg hosts env p m := by
  have hservers : callChain env cs p (n + 1) .authservers m =
      .ofVerdict (if (cfg.authServers.filterMap AuthServ.exempt).any (env.covers · p.dst)
        then some .accept else none) m := by
    rw [callChain_succ (hcs .authservers _ rfl), if_neg (by decide), walk_authserverRules]
  have hglobal : callChain env cs p (n + 1) .global m =
      .ofVerdict (if globalAccepts cfg env p || hosts.any (env.covers · p.dst) then some .accept
        else none) m := by
    rw [callChain_succ (hcs .global _ rfl), if_pos rfl, walk_natGlobal]
  have hlast : walk env (callChain env cs p (n + 1)) p
      [(⟨tcp80, .redirect "--to-ports".toList (decInt cfg.gwPort)⟩ : Rule Chain)] m =
      if IsWeb p then .done (.redirect (decInt cfg.gwPort)) m else .fall m := by
    by_cases hweb : IsWeb p <;> simp [walk, applies_tcp80 hport, hweb]
  -- from the auth-is-down jump on
  have htail : walk env (callChain env cs p (n + 1)) p
      ((if cfg.gotAuthdownRuleset then [(⟨[], .jump .authIsDown⟩ : Rule Chain)] else []) ++
        [⟨tcp80, .redirect "--to-ports".toList (decInt cfg.gwPort)⟩]) m =
      if cfg.gotAuthdownRuleset && m == authDownMark then .done .accept m
      else if IsWeb p then .done (.redirect (decInt cfg.gwPort)) m else .fall m := by
    by_cases hgot : cfg.gotAuthdownRuleset = true
    · have hdown : callChain env cs p (n + 1) .authIsDown m =
          .ofVerdict (if m = authDownMark then some .accept else none) m := by
        have hrules : natRules cfg .authIsDown =
            some [⟨[markCond fwMarkAuthIsDown], .accept⟩] := by simp [natRules, hgot]
        rw [callChain_succ (hcs .authIsDown _ hrules), if_neg (by decide),
          walk_markAccept (n := authDownMark) (by decide)]
        by_cases hm : m = authDownMark <;> simp [hm, Outcome.ofVerdict]
      rw [if_pos hgot, List.singleton_append, walk_jump_ofVerdict hdown, hlast]
      by_cases hm : m = authDownMark <;> simp [hgot, hm]
    · rw [if_neg hgot, List.nil_append, hlast]
      simp [hgot]
  rw [callChain_succ (hcs .unknown _ rfl), if_neg (by decide), unknownNatRules, List.append_assoc]
  simp only [List.cons_append, List.nil_append]
  rw [walk_jump_ofVerdict hservers, walk_jump_ofVerdict hglobal, htail]
  unfold unknownOutcome passes
  cases (cfg.authServers.filterMap AuthServ.exempt).any (env.covers · p.dst) <;>
    cases globalAccepts cfg env p || hosts.any (env.covers · p.dst) <;> simp

theorem walk_outgoingNat (n m : Nat) :
    callChain env cs p (n + 4) .outgoing m = natOutcome cfg hosts env p m := by
  have hrouter : callChain env cs p (n + 3) .toRouter m = .ofVerdict (some .accept) m := by
    rw [callChain_succ (hcs .toRouter _ rfl), if_neg (by decide)]
    simp [walk, Rule.applies, Outcome.ofVerdict]
  have hinternet : callChain env cs p (n + 3) .toInternet m =
      if m == 2 || m == 1 then .done .accept m else unknownOutcome cfg hosts env p m := by
    have hunknown : walk env (callChain env cs p (n + 2)) p
        [(⟨[], .jump .unknown⟩ : Rule Chain)] m = unknownOutcome cfg hosts env p m := by
      rw [walk_jump [] rfl, walk_unknownNat hcs hport]
      cases unknownOutcome cfg hosts env p m <;> rfl
    rw [callChain_succ (hcs .toInternet _ rfl), if_neg (by decide),
      walk_markAccept (n := 2) (by decide), walk_markAccept (n := 1) (by decide), hunknown]
    by_cases h2 : m = 2 <;> by_cases h1 : m = 1 <;> simp [h1, h2]
  have hlast : walk env (callChain env cs p (n + 3)) p [(⟨[], .jump .toInternet⟩ : Rule Chain)] m =
      if m == 2 || m == 1 then .done .accept m else unknownOutcome cfg hosts env p m := by
    rw [walk_jump [] rfl, hinternet]
    generalize (if m == 2 || m == 1 then Outcome.done .accept m
      else unknownOutcome cfg hosts env p m) = o
    cases o <;> rfl
  rw [callChain_succ (hcs .outgoing _ rfl), if_neg (by decide), walk_jump_ofVerdict hrouter, hlast]
  unfold natOutcome
  cases hcov : env.covers cfg.gwAddress p.dst <;> simp [Cond.holds, hcov]

end Walks

/-! ## The result -/

/-- The packets that are redirected are those that `Captured` describes. -/
theorem natOutcome_redirect_iff {cfg : Config} {hosts : List Text} {env : Env} {p : Packet}
    (hweb : IsWeb p) (k : Nat) :
    natOutcome cfg hosts env p k = .done (.redirect (decInt cfg.gwPort)) k ↔
      Captured cfg hosts env p k := by
  have hgot : cfg.gotAuthdownRuleset = true ↔
      getRuleset cfg.rulesets fwrulesetAuthIsDown ≠ [] := by
    simp [Config.gotAuthdownRuleset]
  have hmarks : ((k : Int) ≠ fwMarkKnown ↔ k ≠ 2) ∧ ((k : Int) ≠ fwMarkProbation ↔ k ≠ 1) := by
    unfold fwMarkKnown fwMarkProbation
    omega
  have hpass : passes cfg hosts env p k = false ↔
      (∀ ip ∈ cfg.authServers.filterMap AuthServ.exempt, env.covers ip p.dst = false) ∧
      globalAccepts cfg env p = false ∧ (∀ host ∈ hosts, env.covers host p.dst = false) ∧
      ¬ (k = authDownMark ∧ getRuleset cfg.rulesets fwrulesetAuthIsDown ≠ []) := by
    rw [← hgot]
    simp only [passes, Bool.or_eq_false_iff, List.any_eq_false, Bool.not_eq_true,
      Bool.and_eq_false_imp, beq_eq_false_iff_ne, ne_eq, and_assoc, not_and']
  unfold natOutcome unknownOutcome
  constructor
  · intro h
    split at h
    · cases h
    · next hskip =>
      simp only [Bool.or_eq_true, beq_iff_eq, not_or, Bool.not_eq_true] at hskip
      split at h
      · cases h
      · next hnot =>
        obtain ⟨hservers, hglobal, hhosts, hdown⟩ := hpass.mp (by simpa using hnot)
        exact ⟨hskip.1.1, hmarks.1.mpr hskip.1.2, hmarks.2.mpr hskip.2, hservers, hglobal, hhosts,
          hdown⟩
  · rintro ⟨hrouter, hknown, hprob, hservers, hglobal, hhosts, hdown⟩
    have hnot := hpass.mpr ⟨hservers, hglobal, hhosts, hdown⟩
    simp [hrouter, hmarks.1.mp hknown, hmarks.2.mp hprob, hnot, hweb]

theorem natOutcome_web {cfg : Config} {hosts : List Text} {env : Env} {p : Packet} {k m : Nat}
    {port : Text} (h : natOutcome cfg hosts env p k = .done (.redirect port) m) :
    IsWeb p ∧ port = decInt cfg.gwPort := by
  unfold natOutcome unknownOutcome at h
  split at h
  · cases h
  · split at h
    · cases h
    · split at h
      · next hweb =>
        cases h
        exact ⟨hweb, rfl⟩
      · cases h

/-- After `iptables_fw_init` with every command accepted, without a proxy and without other rules
    in nat PREROUTING, and any calls at run time after it: a connection to port 80 from the gateway
    interface is redirected to the gateway's port exactly when it is captured, and whatever is
    redirected is TCP to port 80. -/
theorem captive_redirect (cfg : Config) (hproxy : cfg.proxyPort = 0) (getExtIface : Option Text)
    {cmds : List (Command Chain)} {t t0 : Tables Chain}
    (hcmds : iptablesFwInit cfg getExtIface = some cmds) (hacc : Tables.runAll cmds t = some t0)
    (hforeign : t.view .nat .prerouting = some []) (calls : List FwCall)
    (hcalls : ∀ call ∈ calls, call.AtRuntime) (env : Env)
    (hport : ∀ n, env.inPort "80".toList n = decide (n = 80)) {t1 : Tables Chain}
    (ht1 : t1 = t0.execAll (calls.flatMap (FwCall.commands cfg))) :
    (∀ p k, ifaceMatches cfg.gwInterface p.iif = true → IsWeb p →
      (traverse env t1.nat p .prerouting k = .done (.redirect (decInt cfg.gwPort)) k ↔
        Captured cfg (hostsOf calls) env p k)) ∧
    ∀ p k port m, traverse env t1.nat p .prerouting k = .done (.redirect port) m →
      IsWeb p ∧ port = decInt cfg.gwPort := by
  obtain ⟨ext, _, rfl⟩ := Option.map_eq_some_iff.mp hcmds
  have hcs : ∀ ch rs, natRules cfg ch = some rs → t1.nat.get ch =
      some (if ch = .global then rs ++ (hostsOf calls).map hostRule else rs) := by
    intro ch rs hrs
    have hview := view_calls cfg t0 hcalls ch
    rw [← ht1, setup_nat hproxy hacc hrs] at hview
    refine hview.trans ?_
    split <;> rfl
  have hpre : t1.nat.get .prerouting =
      some [⟨[.inInterface cfg.gwInterface], .jump .outgoing⟩] := by
    have hview := view_calls cfg t0 hcalls .prerouting
    rw [← ht1, if_neg (by decide), setup_nat_prerouting hproxy hacc hforeign] at hview
    exact hview
  have hlen : 5 ≤ t1.nat.length := by
    have hnames : ∀ c ∈ [Chain.prerouting, .outgoing, .toInternet, .unknown, .global],
        (t1.nat.get c).isSome := by
      simp [hpre, hcs .outgoing _ rfl, hcs .toInternet _ rfl, hcs .unknown _ rfl, hcs .global _ rfl]
    exact Chains.length_ge (by decide) hnames
  obtain ⟨n, hn⟩ : ∃ n, t1.nat.length = n + 5 := ⟨_, (Nat.sub_add_cancel hlen).symm⟩
  have htraverse : ∀ p k, traverse env t1.nat p .prerouting k =
      if ifaceMatches cfg.gwInterface p.iif then natOutcome cfg (hostsOf calls) env p k
      else .fall k := by
    intro p k
    unfold Netfilter.traverse
    rw [hn, callChain_succ hpre]
    cases hin : ifaceMatches cfg.gwInterface p.iif with
    | false =>
      rw [walk_skip (by simp [Rule.applies, Cond.holds, hin])]
      rfl
    | true =>
      rw [walk_jump [] (by simp [Rule.applies, Cond.holds, hin]), walk_outgoingNat hcs hport]
      cases natOutcome cfg (hostsOf calls) env p k <;> rfl
  refine ⟨fun p k hin hweb => ?_, fun p k port m hredirect => ?_⟩
  · rw [htraverse, if_pos hin]
    exact natOutcome_redirect_iff hweb k
  · rw [htraverse] at hredirect
    split at hredirect
    · exact natOutcome_web hredirect
    · cases hredirect

/-- A gateway with an open port, an `allow` rule behind a `block` rule, and an auth-is-down
    ruleset. -/
def captiveConfig : Config :=
  { smallConfig with
    rulesets := [(fwrulesetGlobal,
        [⟨.reject, none, none, "198.51.100.0/24".toList, false⟩,
         ⟨.accept, none, none, "198.51.100.7".toList, false⟩]),
      (fwrulesetAuthIsDown, [⟨.accept, none, none, defaultMask, false⟩])] }

def captiveCommands : List (Command Chain) :=
  initMangle captiveConfig ++ initNat captiveConfig ++ initFilter captiveConfig "eth0".toList

def captiveCalls : List FwCall :=
  [.setAuthdown, .allowHost "192.0.2.7".toList,
    .allow ⟨1, smallIp, smallMac, [], 0, 0, .fresh 0⟩ fwMarkKnown]

/-- Addresses cover themselves, ports are single ones. -/
def plainEnv : Env := ⟨fun a d => a == d, fun a n => a == dec n, fun _ _ => false⟩

def webPacket (dst : Text) : Packet :=
  ⟨"br0".toList, [], smallIp, dst, smallMac, "tcp".toList, 80, [], .new⟩

theorem captive_redirect_web :
    let t1 := (builtinTables.execAll captiveCommands).execAll
      (captiveCalls.flatMap (FwCall.commands captiveConfig))
    traverse plainEnv t1.nat (webPacket "203.0.113.1".toList) .prerouting 0 =
        .done (.redirect "2060".toList) 0 ∧
      traverse plainEnv t1.nat (webPacket "198.51.100.7".toList) .prerouting 0 ≠
        .done (.redirect "2060".toList) 0 := by
  have hacc : Tables.runAll captiveCommands builtinTables =
      some (builtinTables.execAll captiveCommands) := by decide +kernel
  have hport : ∀ n, plainEnv.inPort "80".toList n = decide (n = 80) := by
    intro n
    have h80 : "80".toList = dec 80 := by decide
    by_cases hn : n = 80
    · simp [plainEnv, h80, hn]
    · have hne : dec 80 ≠ dec n := fun heq => hn (dec_inj heq).symm
      simp [plainEnv, h80, hn, hne]
  have hpolicy := captive_redirect captiveConfig rfl none rfl hacc rfl captiveCalls
    (by simp [captiveCalls, FwCall.AtRuntime]) plainEnv hport rfl
  refine ⟨(hpolicy.1 _ 0 (by decide) (by decide)).mpr ?_, fun hredirect => ?_⟩
  · refine ⟨?_, ?_, ?_, ?_, ?_, ?_, ?_⟩ <;> decide +kernel
  · have hcap := (hpolicy.1 _ 0 (by decide) (by decide)).mp hredirect
    have hglobal : globalAccepts captiveConfig plainEnv (webPacket "198.51.100.7".toList) =
        true := by decide +kernel
    rw [hcap.global] at hglobal
    cases hglobal

end Wifidog
