/-
  The iptables commands of the gateway (`fw_iptables.c`).

  Every call of `iptables_do_command` is one `Command`: the table, the operation and the rule
  that its format string spells, with the operands as they are printed there. Marks are
  printed in two ways, `%d` where a client's mark is set and `0x%u` where a mark is matched
  and where the auth-is-down mark is set, so that 253 is written `0x253`.

  The `WD_$ID$_...` chains are the constructors of `Chain`; `Chain.text` is their text before
  `iptables_insert_gateway_id`.
-/
import Wifidog.Lib.Netfilter
import Wifidog.Model.Conf
import Wifidog.Model.ClientList

namespace Wifidog

open CText Netfilter

inductive Chain where
  | prerouting | postrouting | forward
  | outgoing | toInternet | toRouter | incoming | authservers | global | validate | known
  | unknown | locked | trusted | authIsDown
  | other (name : Text)
  deriving DecidableEq, Repr

/-- The name as it stands in the format strings. -/
def Chain.text : Chain → Text
  | .prerouting => "PREROUTING".toList
  | .postrouting => "POSTROUTING".toList
  | .forward => "FORWARD".toList
  | .outgoing => "WD_$ID$_Outgoing".toList
  | .toInternet => "WD_$ID$_Internet".toList
  | .toRouter => "WD_$ID$_Router".toList
  | .incoming => "WD_$ID$_Incoming".toList
  | .authservers => "WD_$ID$_AuthServs".toList
  | .global => "WD_$ID$_Global".toList
  | .validate => "WD_$ID$_Validate".toList
  | .known => "WD_$ID$_Known".toList
  | .unknown => "WD_$ID$_Unknown".toList
  | .locked => "WD_$ID$_Locked".toList
  | .trusted => "WD_$ID$_Trusted".toList
  | .authIsDown => "WD_$ID$_AuthDown".toList
  | .other name => name

/-- `0x%u` -/
def hexMark (mark : Int) : Text := '0' :: 'x' :: dec mark.toNat

/-- `iptables_do_command`: the tables afterwards and the exit status. -/
def iptablesDoCommand (t : Tables Chain) (c : Command Chain) : Tables Chain × Int :=
  match c.run t with
  | some t' => (t', 0)
  | none => (t, 1)

/-! ## Rulesets -/

/-- The target of a configured rule. -/
def FirewallTarget.mode : FirewallTarget → Target Chain
  | .drop => .drop
  | .reject => .reject none
  | .accept => .accept
  | .log => .log
  | .ulog => .ulog

/-- The conditions `iptables_compile` writes: destination, protocol, port. -/
def FirewallRule.conds (rule : FirewallRule) : List Cond :=
  (if rule.maskIsIpset then .matchSetDst rule.mask else .destination rule.mask) ::
    (rule.protocol.toList.map .protocol ++ rule.port.toList.map .dport)

/-- `iptables_compile`: no command for `block` and `drop` rules in the nat table. -/
def iptablesCompile (table : Table) (chain : Chain) (rule : FirewallRule) :
    Option (Command Chain) :=
  if table = .nat ∧ (rule.target = .drop ∨ rule.target = .reject) then none
  else some ⟨table, .append chain ⟨rule.conds, rule.target.mode⟩⟩

/-- `iptables_load_ruleset` -/
def iptablesLoadRuleset (cfg : Config) (table : Table) (ruleset : Text) (chain : Chain) :
    List (Command Chain) :=
  (getRuleset cfg.rulesets ruleset).filterMap (iptablesCompile table chain)

/-- `NULL == get_ruleset (FWRULESET_AUTH_IS_DOWN) ? 0 : 1` -/
def Config.gotAuthdownRuleset (cfg : Config) : Bool :=
  !(getRuleset cfg.rulesets fwrulesetAuthIsDown).isEmpty

/-! ## Auth servers -/

/-- `iptables_fw_clear_authservers` -/
def iptablesFwClearAuthservers : List (Command Chain) :=
  [⟨.filter, .flush .authservers⟩, ⟨.nat, .flush .authservers⟩]

/-- The address of a server that gets an exemption. -/
def AuthServ.exempt (s : AuthServ) : Option Text :=
  s.lastIp.filter fun ip => ip != "0.0.0.0".toList

/-- `iptables_fw_set_authservers` -/
def iptablesFwSetAuthservers (cfg : Config) : List (Command Chain) :=
  (cfg.authServers.filterMap AuthServ.exempt).flatMap fun ip =>
    [⟨.filter, .append .authservers ⟨[.destination ip], .accept⟩⟩,
     ⟨.nat, .append .authservers ⟨[.destination ip], .accept⟩⟩]

/-! ## `iptables_fw_init` -/

def markCond (mark : Int) : Cond := .mark (hexMark mark)

def tcp80 : List Cond := [.protocol "tcp".toList, .dport "80".toList]

/-- Everything in the mangle table. -/
def initMangle (cfg : Config) : List (Command Chain) :=
  [⟨.mangle, .new .trusted⟩, ⟨.mangle, .new .outgoing⟩, ⟨.mangle, .new .incoming⟩] ++
  (if cfg.gotAuthdownRuleset then [⟨.mangle, .new .authIsDown⟩] else []) ++
  [⟨.mangle, .insert .prerouting ⟨[.inInterface cfg.gwInterface], .jump .outgoing⟩⟩,
   ⟨.mangle, .insert .prerouting ⟨[.inInterface cfg.gwInterface], .jump .trusted⟩⟩] ++
  (if cfg.gotAuthdownRuleset then
    [⟨.mangle, .insert .prerouting ⟨[.inInterface cfg.gwInterface], .jump .authIsDown⟩⟩]
   else []) ++
  [⟨.mangle, .insert .postrouting ⟨[.outInterface cfg.gwInterface], .jump .incoming⟩⟩] ++
  cfg.trustedmaclist.map fun mac =>
    ⟨.mangle, .append .trusted ⟨[.macSource mac], .mark (decInt fwMarkKnown)⟩⟩

/-- Everything in the nat table. -/
def initNat (cfg : Config) : List (Command Chain) :=
  [⟨.nat, .new .outgoing⟩, ⟨.nat, .new .toRouter⟩, ⟨.nat, .new .toInternet⟩,
   ⟨.nat, .new .global⟩, ⟨.nat, .new .unknown⟩, ⟨.nat, .new .authservers⟩] ++
  (if cfg.gotAuthdownRuleset then [⟨.nat, .new .authIsDown⟩] else []) ++
  [⟨.nat, .append .prerouting ⟨[.inInterface cfg.gwInterface], .jump .outgoing⟩⟩,
   ⟨.nat, .append .outgoing ⟨[.destination cfg.gwAddress], .jump .toRouter⟩⟩,
   ⟨.nat, .append .toRouter ⟨[], .accept⟩⟩,
   ⟨.nat, .append .outgoing ⟨[], .jump .toInternet⟩⟩] ++
  (if cfg.proxyPort ≠ 0 then
    [⟨.nat, .append .toInternet ⟨tcp80 ++ [markCond fwMarkKnown],
      .redirect "--to-port".toList (decInt cfg.proxyPort)⟩⟩,
     ⟨.nat, .append .toInternet ⟨tcp80 ++ [markCond fwMarkProbation],
      .redirect "--to-port".toList (decInt cfg.proxyPort)⟩⟩]
   else []) ++
  [⟨.nat, .append .toInternet ⟨[markCond fwMarkKnown], .accept⟩⟩,
   ⟨.nat, .append .toInternet ⟨[markCond fwMarkProbation], .accept⟩⟩,
   ⟨.nat, .append .toInternet ⟨[], .jump .unknown⟩⟩,
   ⟨.nat, .append .unknown ⟨[], .jump .authservers⟩⟩,
   ⟨.nat, .append .unknown ⟨[], .jump .global⟩⟩] ++
  (if cfg.gotAuthdownRuleset then
    [⟨.nat, .append .unknown ⟨[], .jump .authIsDown⟩⟩,
     ⟨.nat, .append .authIsDown ⟨[markCond fwMarkAuthIsDown], .accept⟩⟩]
   else []) ++
  [⟨.nat, .append .unknown ⟨tcp80, .redirect "--to-ports".toList (decInt cfg.gwPort)⟩⟩]

/-- Everything in the filter table (with the nat half of the auth servers and of the global
    ruleset, which are loaded here). -/
def initFilter (cfg : Config) (extInterface : Text) : List (Command Chain) :=
  [⟨.filter, .new .toInternet⟩, ⟨.filter, .new .authservers⟩, ⟨.filter, .new .locked⟩,
   ⟨.filter, .new .global⟩, ⟨.filter, .new .validate⟩, ⟨.filter, .new .known⟩,
   ⟨.filter, .new .unknown⟩] ++
  (if cfg.gotAuthdownRuleset then [⟨.filter, .new .authIsDown⟩] else []) ++
  [⟨.filter, .insert .forward ⟨[.inInterface cfg.gwInterface], .jump .toInternet⟩⟩,
   ⟨.filter, .append .toInternet ⟨[.state .invalid], .drop⟩⟩,
   ⟨.filter, .append .toInternet ⟨[.outInterface extInterface, .protocol "tcp".toList,
     .tcpFlags ["SYN".toList, "RST".toList] ["SYN".toList]], .tcpmss⟩⟩,
   ⟨.filter, .append .toInternet ⟨[], .jump .authservers⟩⟩] ++
  iptablesFwSetAuthservers cfg ++
  [⟨.filter, .append .toInternet ⟨[markCond fwMarkLocked], .jump .locked⟩⟩] ++
  iptablesLoadRuleset cfg .filter fwrulesetLockedUsers .locked ++
  [⟨.filter, .append .toInternet ⟨[], .jump .global⟩⟩] ++
  iptablesLoadRuleset cfg .filter fwrulesetGlobal .global ++
  iptablesLoadRuleset cfg .nat fwrulesetGlobal .global ++
  [⟨.filter, .append .toInternet ⟨[markCond fwMarkProbation], .jump .validate⟩⟩] ++
  iptablesLoadRuleset cfg .filter fwrulesetValidatingUsers .validate ++
  [⟨.filter, .append .toInternet ⟨[markCond fwMarkKnown], .jump .known⟩⟩] ++
  iptablesLoadRuleset cfg .filter fwrulesetKnownUsers .known ++
  (if cfg.gotAuthdownRuleset then
    ⟨.filter, .append .toInternet ⟨[markCond fwMarkAuthIsDown], .jump .authIsDown⟩⟩ ::
      iptablesLoadRuleset cfg .filter fwrulesetAuthIsDown .authIsDown
   else []) ++
  [⟨.filter, .append .toInternet ⟨[], .jump .unknown⟩⟩] ++
  iptablesLoadRuleset cfg .filter fwrulesetUnknownUsers .unknown ++
  [⟨.filter, .append .unknown ⟨[], .reject (some "icmp-port-unreachable".toList)⟩⟩]

/-- `iptables_fw_init`: its commands, or `none` when there is no external interface and it
    returns 0. `getExtIface` is the interface of the default route, if there is one. -/
def iptablesFwInit (cfg : Config) (getExtIface : Option Text) : Option (List (Command Chain)) :=
  (cfg.externalInterface.orElse fun _ => getExtIface).map fun ext =>
    initMangle cfg ++ initNat cfg ++ initFilter cfg ext

/-! ## Clients -/

/-- `fw_access_t` -/
inductive FwAccess where
  | allow | deny
  deriving DecidableEq, Repr

/-- The rule that marks the packets of a client. -/
def markRule (ip mac : Text) (tag : Int) : Rule Chain :=
  ⟨[.source ip, .macSource mac], .mark (decInt tag)⟩

/-- The rule that counts the packets to an address. -/
def acceptRule (ip : Text) : Rule Chain := ⟨[.destination ip], .accept⟩

/-- The commands of `iptables_fw_access`. -/
def accessCommands (type : FwAccess) (ip mac : Text) (tag : Int) : List (Command Chain) :=
  match type with
  | .allow => [⟨.mangle, .append .outgoing (markRule ip mac tag)⟩,
      ⟨.mangle, .append .incoming (acceptRule ip)⟩]
  | .deny => [⟨.mangle, .delete .outgoing (markRule ip mac tag)⟩,
      ⟨.mangle, .delete .incoming (acceptRule ip)⟩]

/-- Issue commands; the exit status is that of the last one. -/
def doCommands (t : Tables Chain) (cs : List (Command Chain)) : Tables Chain × Int :=
  cs.foldl (fun s c => iptablesDoCommand s.1 c) (t, -1)

/-- `iptables_fw_access` -/
def iptablesFwAccess (t : Tables Chain) (type : FwAccess) (ip mac : Text) (tag : Int) :
    Tables Chain × Int :=
  doCommands t (accessCommands type ip mac tag)

/-- The commands of `iptables_fw_auth_unreachable`. -/
def iptablesFwAuthUnreachable (cfg : Config) (tag : Int) : List (Command Chain) :=
  if cfg.gotAuthdownRuleset then [⟨.mangle, .append .authIsDown ⟨[], .mark (hexMark tag)⟩⟩] else []

/-- The commands of `iptables_fw_auth_reachable`. -/
def iptablesFwAuthReachable (cfg : Config) : List (Command Chain) :=
  if cfg.gotAuthdownRuleset then [⟨.mangle, .flush .authIsDown⟩] else []

theorem doCommands_fst (t : Tables Chain) (cs : List (Command Chain)) :
    (doCommands t cs).1 = t.execAll cs := by
  have hgen : ∀ (s : Tables Chain × Int),
      (cs.foldl (fun s c => iptablesDoCommand s.1 c) s).1 = s.1.execAll cs := by
    induction cs with
    | nil => intro s; rfl
    | cons c cs ih =>
      intro s
      have hone : (iptablesDoCommand s.1 c).1 = s.1.exec c := by
        unfold iptablesDoCommand Tables.exec
        cases c.run s.1 <;> rfl
      rw [List.foldl_cons, ih, hone]
      rfl
  exact hgen (t, -1)

theorem accessCommands_noJump (type : FwAccess) (ip mac : Text) (tag : Int) :
    ∀ c ∈ accessCommands type ip mac tag, c.NoJump := by
  intro c hc
  cases type with
  | allow =>
    simp only [accessCommands, List.mem_cons, List.not_mem_nil, or_false] at hc
    rcases hc with rfl | rfl <;> simp [Command.NoJump, markRule, acceptRule]
  | deny =>
    simp only [accessCommands, List.mem_cons, List.not_mem_nil, or_false] at hc
    rcases hc with rfl | rfl <;> simp [Command.NoJump]

/-- `iptables_fw_access` on the view of one chain. -/
theorem view_iptablesFwAccess (t : Tables Chain) (type : FwAccess) (ip mac : Text) (tag : Int)
    (tb : Table) (ch : Chain) :
    (iptablesFwAccess t type ip mac tag).1.view tb ch =
      Tables.viewAfter tb ch (accessCommands type ip mac tag) (t.view tb ch) := by
  unfold iptablesFwAccess
  rw [doCommands_fst, Tables.view_execAll t (accessCommands_noJump type ip mac tag)]

theorem markRule_inj {ip mac ip' mac' : Text} {tag tag' : Int}
    (h : markRule ip mac tag = markRule ip' mac' tag') : ip = ip' ∧ mac = mac' ∧ tag = tag' := by
  unfold markRule at h
  injection h with hconds htarget
  injection hconds with h1 h2
  injection h2 with h2 _
  exact ⟨Cond.source.inj h1, Cond.macSource.inj h2, decInt_inj (Target.mark.inj htarget)⟩

theorem acceptRule_inj {ip ip' : Text} (h : acceptRule ip = acceptRule ip') : ip = ip' := by
  unfold acceptRule at h
  injection h with hconds _
  injection hconds with h1 _
  exact Cond.destination.inj h1

end Wifidog
