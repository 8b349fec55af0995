/-
  The gateway as threads that share the client list and the firewall.

  One step of the system is one section under the client-list lock, or the return of one
  `auth_server_request`, during which no lock is held. The threads are the request handlers
  (`http_callback_auth` with `authenticate_client`, `http_callback_disconnect`), the control
  socket (`wdctl_reset`) and the one thread that runs `fw_sync_with_authserver`. Between two
  steps of one thread any other thread may take steps.

  What an auth server answers, when it answers and what it is asked about are free: the
  answer arrives with the action. A network failure is the answer `authError`. `asked`
  records every request that has returned, with the client data it carried; the program does
  not keep it, and no step reads it.
-/
import Wifidog.Lib.Runs
import Wifidog.Model.Counters

namespace Wifidog

open CText Netfilter

/-! ## Auth codes -/

/-- `t_authcode`, without `AUTH_LOCKED`, which no function tests; an answer may carry any other
    integer. -/
def authError : Int := -1
def authDenied : Int := 0
def authAllowed : Int := 1
def authValidation : Int := 5
def authValidationFailed : Int := 6

/-- `REQUEST_TYPE_LOGIN`, `REQUEST_TYPE_LOGOUT`, `REQUEST_TYPE_COUNTERS` -/
inductive RequestType where
  | login | logout | counters
  deriving DecidableEq, Repr

/-- An `auth_server_request` that has returned. -/
structure AuthRequest where
  type : RequestType
  ip : Text
  mac : Text
  token : Text
  authcode : Int
  deriving DecidableEq, Repr

/-! ## State -/

/-- Where a request handler stands between two lock sections. -/
inductive Thread where
  /-- `http_callback_auth` has dropped the lock and calls `authenticate_client`; `mac` is what
      `arp_get` returned for `addr` -/
  | authenticate (addr mac token : Text)
  /-- `authenticate_client` waits for the auth server, with its copy of the client -/
  | asking (addr mac : Text) (client : Client) (token : Text)
  | answered (addr mac : Text) (client : Client) (token : Text) (authcode : Int)
  /-- `logout_client` has dropped the lock and waits for the auth server -/
  | loggingOut (client : Client)
  deriving DecidableEq, Repr

/-- Where `fw_sync_with_authserver` stands. -/
inductive Sync where
  | idle
  /-- in `iptables_fw_counters_update` -/
  | counting
  /-- at the head of the loop, with what is left of the work list -/
  | working (worklist : List Client)
  | answered (p1 : Client) (rest : List Client) (authcode : Int)
  /-- in `logout_client` -/
  | loggingOut (client : Client) (rest : List Client)
  deriving DecidableEq, Repr

structure State where
  list : ClientList
  tables : Tables Chain
  threads : List Thread
  sync : Sync
  asked : List AuthRequest
  deriving DecidableEq, Repr

/-! ## Lock sections -/

/-- `config->auth_servers != NULL` -/
def Config.hasAuthServer (cfg : Config) : Bool := !cfg.authServers.isEmpty

/-- `logout_client` up to the unlock: the list, the tables and the record it still holds. -/
def logoutClient (l : ClientList) (t : Tables Chain) (client : Client) :
    ClientList × Tables Chain × Client :=
  let (t, client, _) := fwDeny t client
  (clientListRemove l client, t, client)

/-- `logout_client` in a request handler: with an auth server the handler goes on to report
    the logout. -/
def State.logoutHandler (cfg : Config) (s : State) (client : Client) : State :=
  let (l, t, client) := logoutClient s.list s.tables client
  { s with
    list := l
    tables := t
    threads := if cfg.hasAuthServer then s.threads ++ [.loggingOut client] else s.threads }

/-- `http_callback_auth`: `arp` is the result of `arp_get (addr)`, `token` the request's
    variable, `logout` whether it has the variable "logout". -/
def httpCallbackAuth (cfg : Config) (s : State) (addr : Text) (arp token : Option Text)
    (logout : Bool) (now : Int64) : State :=
  match token, arp with
  | some token, some mac =>
    let s :=
      match clientListFind s.list addr mac with
      | none => { s with list := clientListAdd s.list addr mac token now }
      | some client => if logout then s.logoutHandler cfg client else s
    if logout then s else { s with threads := s.threads ++ [.authenticate addr mac token] }
  | _, _ => s

/-- The first lock section of `authenticate_client`. The request has a token, so that one is
    used and not the record's. -/
def authenticateLookup (s : State) (i : Nat) : Option State :=
  match s.threads[i]? with
  | some (.authenticate addr mac token) =>
    match clientListFindByIp s.list addr with
    | none => some { s with threads := s.threads.eraseIdx i }
    | some client =>
      some { s with threads := s.threads.set i (.asking addr mac (clientDup client) token) }
  | _ => none

/-- The login request of `authenticate_client` returns. -/
def authenticateAnswer (s : State) (i : Nat) (authcode : Int) : Option State :=
  match s.threads[i]? with
  | some (.asking addr mac client token) =>
    some { s with
      threads := s.threads.set i (.answered addr mac client token authcode)
      asked := ⟨.login, client.ip, client.mac, token, authcode⟩ :: s.asked }
  | _ => none

/-- The switch of `authenticate_client`. `AUTH_ERROR`, `AUTH_VALIDATION_FAILED` and unknown
    codes only send a page. -/
def authenticateSwitch (t : Tables Chain) (client : Client) (authcode : Int) :
    Tables Chain × Client :=
  if authcode = authDenied then ((fwDeny t client).1, (fwDeny t client).2.1)
  else if authcode = authValidation then
    ((fwAllow t client fwMarkProbation).1, (fwAllow t client fwMarkProbation).2.1)
  else if authcode = authAllowed then
    ((fwAllow t client fwMarkKnown).1, (fwAllow t client fwMarkKnown).2.1)
  else (t, client)

/-- The second lock section of `authenticate_client`. -/
def authenticateApply (s : State) (i : Nat) : Option State :=
  match s.threads[i]? with
  | some (.answered _ _ client token authcode) =>
    match clientListFindByClient s.list client with
    | none => some { s with threads := s.threads.eraseIdx i }
    | some tmp =>
      let (t, client) := authenticateSwitch s.tables { tmp with token := token } authcode
      some { s with
        list := clientListWrite s.list client
        tables := t
        threads := s.threads.eraseIdx i }
  | _ => none

/-- The logout report of a request handler returns. -/
def logoutAnswer (s : State) (i : Nat) (authcode : Int) : Option State :=
  match s.threads[i]? with
  | some (.loggingOut client) =>
    some { s with
      threads := s.threads.eraseIdx i
      asked := ⟨.logout, client.ip, client.mac, client.token, authcode⟩ :: s.asked }
  | _ => none

/-- `http_callback_disconnect` -/
def httpCallbackDisconnect (cfg : Config) (s : State) (mac token : Option Text)
    (authUser authPassword : Text) : State :=
  if cfg.httpdusername.any fun user => user != authUser || cfg.httpdpassword != authPassword then s
  else
    match token, mac with
    | some token, some mac =>
      match clientListFindByMac s.list mac with
      | none => s
      | some client => if client.token != token then s else s.logoutHandler cfg client
    | _, _ => s

/-- `wdctl_reset` -/
def wdctlReset (cfg : Config) (s : State) (arg : Text) : State :=
  match (clientListFindByIp s.list arg).orElse fun _ => clientListFindByMac s.list arg with
  | none => s
  | some node => s.logoutHandler cfg node

/-! ## `fw_sync_with_authserver` -/

/-- The loop goes on with the rest of the work list. -/
def Sync.next : List Client → Sync
  | [] => .idle
  | w => .working w

/-- The work list is a copy of the client list. -/
def syncDup (s : State) : Option State :=
  match s.sync with
  | .counting => some { s with sync := .next (clientListDup s.list) }
  | _ => none

/-- The counters request returns; without an auth server none is made. -/
def syncAnswer (cfg : Config) (s : State) (authcode : Int) : Option State :=
  match s.sync with
  | .working (p1 :: rest) =>
    some { s with
      sync := .answered p1 rest authcode
      asked := if cfg.hasAuthServer then
          ⟨.counters, p1.ip, p1.mac, p1.token, authcode⟩ :: s.asked
        else s.asked }
  | _ => none

/-- `last_updated + (checkinterval * clienttimeout) <= current_time`: the product is an `int`,
    the sum a `time_t`. -/
def timedOut (cfg : Config) (p1 : Client) (now : Int64) : Bool :=
  p1.counters.lastUpdated + (cfg.checkinterval * cfg.clienttimeout).toInt64 ≤ now

/-- The counters of a client whose access has just changed to allowed. -/
def Counters.cleared (c : Counters) : Counters :=
  { c with incomingDelta := 0, outgoingDelta := 0, incoming := 0, outgoing := 0 }

/-- The switch of `fw_sync_with_authserver`, on the client found in the list. -/
def syncSwitch (l : ClientList) (t : Tables Chain) (tmp : Client) (authcode : Int) :
    ClientList × Tables Chain :=
  if authcode = authDenied ∨ authcode = authValidationFailed then
    (clientListRemove l (fwDeny t tmp).2.1, (fwDeny t tmp).1)
  else if authcode = authAllowed then
    if tmp.fwConnectionState ≠ fwMarkKnown then
      let tmp :=
        if tmp.fwConnectionState ≠ fwMarkProbation then
          { tmp with counters := tmp.counters.cleared }
        else tmp
      (clientListWrite l (fwAllow t tmp fwMarkKnown).2.1, (fwAllow t tmp fwMarkKnown).1)
    else (l, t)
  else (l, t)

/-- The lock section for one client of the work list. -/
def syncApply (cfg : Config) (s : State) (now : Int64) : Option State :=
  match s.sync with
  | .answered p1 rest authcode =>
    match clientListFindByClient s.list p1 with
    | none => some { s with sync := .next rest }
    | some tmp =>
      if timedOut cfg p1 now then
        let (l, t, client) := logoutClient s.list s.tables tmp
        some { s with
          list := l
          tables := t
          sync := if cfg.hasAuthServer then .loggingOut client rest else .next rest }
      else if cfg.hasAuthServer then
        let (l, t) := syncSwitch s.list s.tables tmp authcode
        some { s with list := l, tables := t, sync := .next rest }
      else some { s with sync := .next rest }
  | _ => none

/-- The logout report of a client that timed out returns. -/
def syncLogoutAnswer (s : State) (authcode : Int) : Option State :=
  match s.sync with
  | .loggingOut client rest =>
    some { s with
      sync := .next rest
      asked := ⟨.logout, client.ip, client.mac, client.token, authcode⟩ :: s.asked }
  | _ => none

/-! ## Steps and runs -/

inductive Action where
  | httpCallbackAuth (addr : Text) (arp token : Option Text) (logout : Bool) (now : Int64)
  | authenticateLookup (i : Nat)
  | authenticateAnswer (i : Nat) (authcode : Int)
  | authenticateApply (i : Nat)
  | logoutAnswer (i : Nat) (authcode : Int)
  | httpCallbackDisconnect (mac token : Option Text) (authUser authPassword : Text)
  | wdctlReset (arg : Text)
  | syncStart
  | countersRow (print : Rule Chain → Text) (dir : Direction) (ip : Text) (counter : UInt64)
      (now : Int64)
  /-- `iptables_fw_counters_update` fails -/
  | syncAbort
  | syncDup
  | syncAnswer (authcode : Int)
  | syncApply (now : Int64)
  | syncLogoutAnswer (authcode : Int)

/-- One step; `none` when no thread is at that point. -/
def step (cfg : Config) (s : State) : Action → Option State
  | .httpCallbackAuth addr arp token logout now =>
    some (httpCallbackAuth cfg s addr arp token logout now)
  | .authenticateLookup i => authenticateLookup s i
  | .authenticateAnswer i authcode => authenticateAnswer s i authcode
  | .authenticateApply i => authenticateApply s i
  | .logoutAnswer i authcode => logoutAnswer s i authcode
  | .httpCallbackDisconnect mac token user pass =>
    some (httpCallbackDisconnect cfg s mac token user pass)
  | .wdctlReset arg => some (wdctlReset cfg s arg)
  | .syncStart => if s.sync = .idle then some { s with sync := .counting } else none
  | .countersRow print dir ip counter now =>
    if s.sync = .counting then
      let (l, t) := countersRow print s.list s.tables dir ip counter now
      some { s with list := l, tables := t }
    else none
  | .syncAbort => if s.sync = .counting then some { s with sync := .idle } else none
  | .syncDup => syncDup s
  | .syncAnswer authcode => syncAnswer cfg s authcode
  | .syncApply now => syncApply cfg s now
  | .syncLogoutAnswer authcode => syncLogoutAnswer s authcode

/-- A process that has just set up its chains and knows no client. -/
structure Fresh (s : State) : Prop where
  list : s.list = clientListInit
  outgoing : s.tables.view .mangle .outgoing = some []
  incoming : s.tables.view .mangle .incoming = some []
  threads : s.threads = []
  sync : s.sync = .idle
  asked : s.asked = []

/-! ## A small gateway, for concrete runs -/

/-- A process that has only the two chains of the clients. -/
def smallStart : State :=
  ⟨clientListInit, ⟨[], [], [(.outgoing, []), (.incoming, [])]⟩, [], .idle, []⟩

theorem smallStart_fresh : Fresh smallStart := ⟨rfl, rfl, rfl, rfl, rfl, rfl⟩

/-- Where it gets by these actions. -/
def smallRun (as : List Action) : State :=
  (Runs.run (step smallConfig) smallStart as).getD smallStart

def smallIp : Text := "10.0.0.5".toList
def smallMac : Text := "00:16:3e:00:00:0a".toList

/-- One login that nothing interrupts. -/
def loginActions (addr mac token : Text) (authcode : Int) : List Action :=
  [.httpCallbackAuth addr (some mac) (some token) false 0, .authenticateLookup 0,
   .authenticateAnswer 0 authcode, .authenticateApply 0]

/-- A client logs in and is allowed. -/
def smallLogin : List Action := loginActions smallIp smallMac "t".toList authAllowed

end Wifidog
