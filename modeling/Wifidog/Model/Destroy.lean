/-
  The calls that change the firewall between start and stop, and `iptables_fw_destroy`.

  `FwCall` is a call of `firewall.c` at run time, `FwCall.commands` the iptables commands that it
  issues, in order. `iptablesFwDestroy` works table by table: delete the rules of the built-in
  chains that mention a chain of the gateway, flush the chains of the gateway, remove them. The
  listing that is searched shows chains under their names, with the interface in place of `$ID$`
  (`Chain.name`).
-/
import Wifidog.Model.CommandLine
import Wifidog.Model.Mention

namespace Wifidog

open CText Netfilter

/-! ## Calls at run time -/

/-- The commands of `iptables_fw_access_host`. -/
def accessHostCommands (type : FwAccess) (host : Text) : List (Command Chain) :=
  match type with
  | .allow => [⟨.nat, .append .global ⟨[.destination host], .accept⟩⟩,
      ⟨.filter, .append .global ⟨[.destination host], .accept⟩⟩]
  | .deny => [⟨.nat, .delete .global ⟨[.destination host], .accept⟩⟩,
      ⟨.filter, .delete .global ⟨[.destination host], .accept⟩⟩]

/-- `fw_set_authservers` is called with the servers of that time: their `last_ip` changes. -/
inductive FwCall where
  | allow (client : Client) (mark : Int)
  | deny (client : Client)
  | allowHost (host : Text)
  | setAuthdown
  | setAuthup
  | clearAuthservers
  | setAuthservers (servers : List AuthServ)

def FwCall.commands (cfg : Config) : FwCall → List (Command Chain)
  | .allow client mark =>
    accessCommands .allow client.ip client.mac mark ++
      if client.fwConnectionState ≠ fwMarkNone then
        accessCommands .deny client.ip client.mac client.fwConnectionState
      else []
  | .deny client => accessCommands .deny client.ip client.mac client.fwConnectionState
  | .allowHost host => accessHostCommands .allow host
  | .setAuthdown => iptablesFwAuthUnreachable cfg fwMarkAuthIsDown
  | .setAuthup => iptablesFwAuthReachable cfg
  | .clearAuthservers => iptablesFwClearAuthservers
  | .setAuthservers servers => iptablesFwSetAuthservers { cfg with authServers := servers }

/-! ## `iptables_fw_destroy` -/

/-- The name of a chain in the tables. -/
def Chain.name (cfg : Config) (c : Chain) : Text :=
  (iptablesInsertGatewayId cfg c.text).getD c.text

/-- One table: the mentions, as pairs of a built-in chain and a chain of the gateway, then `-F` and
    `-X` for each of the gateway's chains. -/
def destroyTable (print : Rule Chain → Text) (cfg : Config) (tb : Table)
    (mentions : List (Chain × Chain)) (chains : List Chain) (t : Tables Chain) : Tables Chain :=
  let t := mentions.foldl
    (fun t m => iptablesFwDestroyMention print t tb m.1 (m.2.name cfg)) t
  let t := chains.foldl (fun t c => t.exec ⟨tb, .flush c⟩) t
  chains.foldl (fun t c => t.deleteChain tb c) t

/-- The rules of built-in chains that are looked for. -/
def destroyMentions (cfg : Config) : Table → List (Chain × Chain)
  | .mangle =>
    [(.prerouting, .trusted), (.prerouting, .outgoing)] ++
    (if cfg.gotAuthdownRuleset then [(.prerouting, .authIsDown)] else []) ++
    [(.postrouting, .incoming)]
  | .nat => [(.prerouting, .outgoing)]
  | .filter => [(.forward, .toInternet)]

/-- The chains that are flushed and removed. -/
def destroyChains (cfg : Config) : Table → List Chain
  | .mangle =>
    [.trusted, .outgoing] ++ (if cfg.gotAuthdownRuleset then [.authIsDown] else []) ++ [.incoming]
  | .nat =>
    [.authservers, .outgoing] ++ (if cfg.gotAuthdownRuleset then [.authIsDown] else []) ++
    [.toRouter, .toInternet, .global, .unknown]
  | .filter =>
    [.toInternet, .authservers, .locked, .global, .validate, .known, .unknown] ++
    (if cfg.gotAuthdownRuleset then [.authIsDown] else [])

/-- `iptables_fw_destroy` -/
def iptablesFwDestroy (print : Rule Chain → Text) (cfg : Config) (t : Tables Chain) :
    Tables Chain :=
  let t :=
    destroyTable print cfg .mangle (destroyMentions cfg .mangle) (destroyChains cfg .mangle) t
  let t := destroyTable print cfg .nat (destroyMentions cfg .nat) (destroyChains cfg .nat) t
  destroyTable print cfg .filter (destroyMentions cfg .filter) (destroyChains cfg .filter) t

end Wifidog
