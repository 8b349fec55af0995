/-
  Talking to the auth servers (`centralserver.c`, `ping_thread.c`, `mark_auth_server_bad`).

  `connectAuthServerAt` is `_connect_auth_server`: the head of the list is resolved and tried;
  a server that fails is moved to the end of the list and the function calls itself one level
  deeper, at most once for every server. What the network does is free (`Net`): the answer to
  every lookup, every `socket` and every `connect` may depend on the level, so that no two of
  them need agree. A record of the list is its contents; the socket stands for the record it
  is connected to. `attempts` records the servers tried, in order; the program does not keep
  it.

  `auth_server_request` and `ping` take the head of the list first, connect then, and write
  the request from the record they took.
-/
import Wifidog.Model.Http
import Wifidog.Model.System

namespace Wifidog

open CText Netfilter

/-- `t_auth_serv`, with the script fragments of the two requests. -/
structure AuthServer extends AuthServ where
  authScriptPathFragment : Text
  pingScriptPathFragment : Text
  deriving DecidableEq, Repr

/-- What the connection reads besides the list: `config` (without the servers), the popular
    servers and whether the program is built with `USE_CYASSL`. -/
structure Central where
  config : Config
  popularServers : List Text
  deltatraffic : Bool
  useCyassl : Bool
  version : Text
  deriving DecidableEq, Repr

/-- The network during one call. Levels count from 0. -/
structure Net where
  /-- `wd_gethostbyname`, as `inet_ntoa` prints it: lookup `k` of a level; 0 is the auth
      server's own, the popular servers follow -/
  gethostbyname : (level k : Nat) → (hostname : Text) → Option Text
  socket : (level : Nat) → Bool
  connect : (level : Nat) → (ip : Text) → (port : Int) → Bool

/-- `mark_auth_server_bad`, on the head of the list. -/
def markAuthServerBad : List AuthServer → List AuthServer
  | bad :: next :: rest => next :: rest ++ [bad]
  | servers => servers

theorem length_markAuthServerBad (servers : List AuthServer) :
    (markAuthServerBad servers).length = servers.length := by
  unfold markAuthServerBad
  split <;> simp

/-- Some popular server resolves; `k` is the number of the next lookup. -/
def resolvePopular (net : Net) (level : Nat) : (k : Nat) → List Text → Bool
  | _, [] => false
  | k, hostname :: rest =>
    if (net.gethostbyname level k hostname).isSome then true
    else resolvePopular net level (k + 1) rest

/-- Whether the record asks for SSL and the program can do it. -/
def Central.ssl (c : Central) (server : AuthServer) : Bool := c.useCyassl && server.useSsl

/-- The port a server is tried on. -/
def Central.port (c : Central) (server : AuthServer) : Int :=
  if c.ssl server then server.sslPort else server.httpPort

/-- `fw_clear_authservers (); fw_set_authservers ()` -/
def fwRewriteAuthservers (c : Central) (t : Tables Chain) (servers : List AuthServer) :
    Tables Chain :=
  (t.execAll iptablesFwClearAuthservers).execAll
    (iptablesFwSetAuthservers { c.config with authServers := servers.map AuthServer.toAuthServ })

/-- How a connection ends; `sockfd` is `none` for -1. -/
structure Connection where
  servers : List AuthServer
  tables : Tables Chain
  sockfd : Option AuthServer
  attempts : List AuthServer
  deriving DecidableEq, Repr

/-- `_connect_auth_server` -/
def connectAuthServerAt (c : Central) (net : Net) (level : Nat) (servers : List AuthServer)
    (t : Tables Chain) (attempts : List AuthServer) : Connection :=
  match servers with
  | [] => ⟨[], t, none, attempts⟩
  | server :: rest =>
    if level + 1 > (server :: rest).length then ⟨server :: rest, t, none, attempts⟩
    else
      match net.gethostbyname level 0 server.hostname with
      | none =>
        if resolvePopular net level 1 c.popularServers then
          connectAuthServerAt c net (level + 1)
            (markAuthServerBad ({ server with lastIp := none } :: rest)) t (attempts ++ [server])
        else ⟨server :: rest, t, none, attempts ++ [server]⟩
      | some ip =>
        let updated := { server with lastIp := some ip }
        let t := if server.lastIp = some ip then t else fwRewriteAuthservers c t (updated :: rest)
        if !net.socket level then ⟨updated :: rest, t, none, attempts ++ [server]⟩
        else if net.connect level ip (c.port server) then
          ⟨updated :: rest, t, some updated, attempts ++ [server]⟩
        else
          connectAuthServerAt c net (level + 1) (markAuthServerBad (updated :: rest)) t
            (attempts ++ [server])
  termination_by servers.length - level
  decreasing_by
    all_goals
      rw [length_markAuthServerBad]
      simp only [List.length_cons, gt_iff_lt] at *
      omega

/-- `connect_auth_server` -/
def connectAuthServer (c : Central) (net : Net) (servers : List AuthServer) (t : Tables Chain) :
    Connection :=
  connectAuthServerAt c net 0 servers t []

/-! ## Requests -/

/-- The values of `request_type`. -/
def RequestType.text : RequestType → Text
  | .login => "login".toList
  | .logout => "logout".toList
  | .counters => "counters".toList

/-- What the two functions are called for. -/
inductive Query where
  /-- `auth_server_request (.., type, ip, mac, token, incoming, outgoing, deltas)` -/
  | auth (type : RequestType) (ip mac token : Text)
      (incoming outgoing incomingDelta outgoingDelta : UInt64)
  /-- `ping ()`: what it reads from /proc, as printed, and the time since the start -/
  | ping (sysUptime sysMemfree sysLoad wifidogUptime : Text)
  deriving DecidableEq, Repr

/-- The script fragment of a request. -/
def Query.fragment (q : Query) (server : AuthServer) : Text :=
  match q with
  | .auth .. => server.authScriptPathFragment
  | .ping .. => server.pingScriptPathFragment

/-- The variables of a request. -/
def Query.variables (q : Query) (c : Central) : Text :=
  match q with
  | .auth type ip mac token incoming outgoing incomingDelta outgoingDelta =>
    "stage=".toList ++ type.text ++ "&ip=".toList ++ ip ++ "&mac=".toList ++ mac ++
      "&token=".toList ++ httpdUrlEncode token ++ "&incoming=".toList ++ dec incoming.toNat ++
      "&outgoing=".toList ++ dec outgoing.toNat ++
      (if c.deltatraffic then
        "&incomingdelta=".toList ++ dec incomingDelta.toNat ++ "&outgoingdelta=".toList ++
          dec outgoingDelta.toNat
       else []) ++
      "&gw_id=".toList ++ c.config.gwId
  | .ping sysUptime sysMemfree sysLoad wifidogUptime =>
    "gw_id=".toList ++ c.config.gwId ++ "&sys_uptime=".toList ++ sysUptime ++
      "&sys_memfree=".toList ++ sysMemfree ++ "&sys_load=".toList ++ sysLoad ++
      "&wifidog_uptime=".toList ++ wifidogUptime

/-- A request written on a connected socket. -/
structure Written where
  path : Text
  fragment : Text
  host : Text
  /-- by `https_get`, not `http_get` -/
  ssl : Bool
  text : Text
  /-- the record that the socket is connected to -/
  peer : AuthServer
  deriving DecidableEq, Repr

/-- The request built from a record. -/
def requestText (c : Central) (q : Query) (server : AuthServer) : Text :=
  ("GET ".toList ++ server.path ++ q.fragment server ++ q.variables c ++
    " HTTP/1.0\r\nUser-Agent: WiFiDog ".toList ++ c.version ++ "\r\nHost: ".toList ++
    server.hostname ++ "\r\n\r\n".toList).take (maxBuf - 2)

/-- `auth_server_request` and `ping` up to the answer: the record is taken before the
    connection is made. Nothing is written without a socket; without any server
    `auth_server_request`, which its callers guard against, would read through NULL. -/
def sendQuery (c : Central) (net : Net) (q : Query) (servers : List AuthServer)
    (t : Tables Chain) : Option Written × Connection :=
  let authServer := servers.head?
  let conn := connectAuthServer c net servers t
  let written :=
    match authServer, conn.sockfd with
    | some server, some peer => some
        ⟨server.path, q.fragment server, server.hostname, c.ssl server,
          requestText c q server, peer⟩
    | _, _ => none
  (written, conn)

/-! ## Two small servers, for concrete calls -/

def smallCentral : Central := ⟨smallConfig, ["www.example.org".toList], false, false, "1".toList⟩

def firstServer : AuthServer :=
  ⟨⟨"one.example.com".toList, "/".toList, "login/?".toList, 80, 443, false, none⟩,
    "auth/?".toList, "ping/?".toList⟩

def secondServer : AuthServer :=
  ⟨⟨"two.example.com".toList, "/portal/".toList, "login/?".toList, 80, 443, false, none⟩,
    "auth/?".toList, "ping/?".toList⟩

def firstIp : Text := "192.0.2.1".toList
def secondIp : Text := "192.0.2.2".toList

/-- Everything resolves, the first server refuses. -/
def smallNet : Net :=
  ⟨fun _ _ hostname => some (if hostname = firstServer.hostname then firstIp else secondIp),
    fun _ => true, fun _ ip _ => ip != firstIp⟩

end Wifidog
