/-
  The whole gateway.

  `Gateway` is what its threads share: the clients with their rules, the auth servers in the order
  of the list, the static flag of `ping`. A step is a connection to the web server, a lock section
  of another thread, a call of `connect_auth_server` (every request to an auth server begins with
  one, in whichever thread), or a ping.

  `hosts` records the hosts that the page for unknown paths has opened; no step reads it. A host
  that is not one plain word would make the shell run something else, and has no step here. Nor
  has a connection whose request is read over the end of a buffer. As in `Web`, the lookups of two
  requests do not overlap.

  The tables are those of the process that set them up; its own restart is in `Process`.
-/
import Wifidog.Model.CentralServer
import Wifidog.Model.Destroy
import Wifidog.Model.Web

namespace Wifidog

open CText Netfilter

structure Gateway where
  state : State
  servers : List AuthServer
  /-- the static flag of `ping` -/
  authdown : Bool
  hosts : List Text
  deriving DecidableEq, Repr

/-- The configuration with the auth servers as they are now. -/
def Gateway.config (c : Central) (g : Gateway) : Config :=
  { c.config with authServers := g.servers.map AuthServer.toAuthServ }

/-- After `iptables_fw_init`, which left the tables `t0`. -/
def Gateway.start (servers : List AuthServer) (t0 : Tables Chain) : Gateway :=
  ⟨⟨clientListInit, t0, [], .idle, []⟩, servers, false, []⟩

inductive GatewayAction where
  /-- `online` and `authOnline` are what `is_online` and `is_auth_online` return -/
  | connection (addr : Text) (arp : Option Text) (now : Int64) (online authOnline : Bool)
      (junk : Text) (reads : List HttpChunk)
  | other (a : Action)
  | connect (net : Net)
  | ping (net : Net) (o : PingOutcome)

def Gateway.withState (g : Gateway) (s : State) : Gateway := { g with state := s }

def Gateway.withTables (g : Gateway) (t : Tables Chain) : Gateway :=
  { g with state := { g.state with tables := t } }

/-- `fw_allow_host` -/
def Gateway.allowHost (g : Gateway) (host : Text) : Option Gateway :=
  if plainWord host then
    some { g.withTables (g.state.tables.execAll (accessHostCommands .allow host)) with
      hosts := g.hosts ++ [host] }
  else none

/-- `connect_auth_server`, with the socket. -/
def Gateway.connect (c : Central) (g : Gateway) (net : Net) : Gateway × Option AuthServer :=
  let conn := connectAuthServer c net g.servers g.state.tables
  ({ g.withTables conn.tables with servers := conn.servers }, conn.sockfd)

/-- The request that was read is answered by a page. -/
def gatewayServe (c : Central) (g : Gateway) (addr : Text) (arp : Option Text) (now : Int64)
    (online authOnline : Bool) (r : HttpReq) : Served Callback → Option Gateway
  | .call .notFound =>
    match (g.config c).authServers with
    | [] => none
    | authServer :: _ =>
      match (httpCallback404 (g.config c) online authOnline arp authServer
          ⟨addr, r.host, r.path, r.query⟩).1 with
      | none => some g
      | some host => g.allowHost host
  | served =>
    match requestAction addr arp now r served with
    | none => some g
    | some a => (step (g.config c) g.state a).map g.withState

/-- One step of the gateway. -/
def gatewayStep (c : Central) (g : Gateway) : GatewayAction → Option Gateway
  | .connection addr arp now online authOnline junk reads =>
    match threadHttpd junk reads with
    | none => none
    | some none => some g
    | some (some (r, served)) => gatewayServe c g addr arp now online authOnline r served
  | .other a => if a.ofWeb then none else (step (g.config c) g.state a).map g.withState
  | .connect net => some (g.connect c net).1
  | .ping net o =>
    let (g, sockfd) := g.connect c net
    if sockfd = none ↔ o = .noSocket then
      let (t, authdown) := Wifidog.ping (g.config c) g.state.tables g.authdown o
      some { g.withTables t with authdown }
    else none

end Wifidog
