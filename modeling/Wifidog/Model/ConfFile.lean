/-
  The configuration file (`config_read` of `conf.c` and the functions it calls).

  Three loops read lines from one file: that of `config_read`, and those of `parse_auth_server` and
  `parse_firewall_ruleset`, which take over after the line that opens a block and go on to the first
  line with a closing brace. `Mode` says which loop is reading and holds its local variables; a
  `Reader` is the configuration so far with the mode, `Reader.step` is what one line does to it and
  `readLines` reads the file with `fgets`, whose limit depends on the loop. `none` is `exit`.

  The lines of a block are cut in the buffer they are read into, so `blockWords` works on the
  buffer: a pointer is an offset, and what a cut leaves behind it is still there. At top level no
  pointer passes a cut, and `configLine` is on texts. Files have no NUL.
-/
import Wifidog.Lib.CBuffer
import Wifidog.Lib.CScan
import Wifidog.Model.CentralServer

namespace Wifidog

open CText

/-- `OpCodes` -/
inductive OpCode where
  | badOption | daemon | debugLevel | externalInterface | gatewayID | gatewayInterface
  | gatewayAddress | gatewayPort | deltaTraffic | authServer | authServHostname
  | authServSSLAvailable | authServSSLPort | authServHTTPPort | authServPath
  | authServLoginScriptPathFragment | authServPortalScriptPathFragment
  | authServMsgScriptPathFragment | authServPingScriptPathFragment
  | authServAuthScriptPathFragment | httpdMaxConn | httpdName | httpdRealm | httpdUsername
  | httpdPassword | clientTimeout | checkInterval | wdctlSocket | syslogFacility | firewallRule
  | firewallRuleSet | trustedMACList | popularServers | htmlMessageFile | proxyPort
  | sslPeerVerification | sslCertPath | sslAllowedCipherList | sslUseSNI
  deriving DecidableEq, Repr

def keywords : List (Text × OpCode) :=
  [("deltatraffic".toList, .deltaTraffic), ("daemon".toList, .daemon),
    ("debuglevel".toList, .debugLevel), ("externalinterface".toList, .externalInterface),
    ("gatewayid".toList, .gatewayID), ("gatewayinterface".toList, .gatewayInterface),
    ("gatewayaddress".toList, .gatewayAddress), ("gatewayport".toList, .gatewayPort),
    ("authserver".toList, .authServer), ("httpdmaxconn".toList, .httpdMaxConn),
    ("httpdname".toList, .httpdName), ("httpdrealm".toList, .httpdRealm),
    ("httpdusername".toList, .httpdUsername), ("httpdpassword".toList, .httpdPassword),
    ("clienttimeout".toList, .clientTimeout), ("checkinterval".toList, .checkInterval),
    ("syslogfacility".toList, .syslogFacility), ("wdctlsocket".toList, .wdctlSocket),
    ("hostname".toList, .authServHostname), ("sslavailable".toList, .authServSSLAvailable),
    ("sslport".toList, .authServSSLPort), ("httpport".toList, .authServHTTPPort),
    ("path".toList, .authServPath),
    ("loginscriptpathfragment".toList, .authServLoginScriptPathFragment),
    ("portalscriptpathfragment".toList, .authServPortalScriptPathFragment),
    ("msgscriptpathfragment".toList, .authServMsgScriptPathFragment),
    ("pingscriptpathfragment".toList, .authServPingScriptPathFragment),
    ("authscriptpathfragment".toList, .authServAuthScriptPathFragment),
    ("firewallruleset".toList, .firewallRuleSet), ("firewallrule".toList, .firewallRule),
    ("trustedmaclist".toList, .trustedMACList), ("popularservers".toList, .popularServers),
    ("htmlmessagefile".toList, .htmlMessageFile), ("proxyport".toList, .proxyPort),
    ("sslpeerverification".toList, .sslPeerVerification), ("sslcertpath".toList, .sslCertPath),
    ("sslallowedcipherlist".toList, .sslAllowedCipherList), ("sslusesni".toList, .sslUseSNI)]

/-- `config_parse_token` -/
def configParseToken (cp : Text) : OpCode :=
  match keywords.find? fun k => strcaseEq cp k.1 with
  | some k => k.2
  | none => .badOption

/-! ## The configuration -/

/-- `t_auth_serv`, all that `parse_auth_server` fills in. -/
structure FileAuthServ extends AuthServer where
  portalScriptPathFragment : Text
  msgScriptPathFragment : Text
  deriving DecidableEq, Repr

/-- What `config_read` sets in `config` and `debugconf`. -/
structure FileConfig where
  deltatraffic : Int
  daemon : Int
  logStderr : Bool
  externalInterface : Option Text
  gwId : Option Text
  gwInterface : Option Text
  gwAddress : Option Text
  gwPort : Int
  authServers : List FileAuthServ
  rulesets : Rulesets
  trustedmaclist : List Text
  popularServers : List Text
  httpdname : Option Text
  httpdmaxconn : Int
  httpdrealm : Text
  httpdusername : Option Text
  httpdpassword : Option Text
  checkinterval : Int
  wdctlSock : Text
  clienttimeout : Int
  syslogFacility : Int
  htmlmsgfile : Text
  proxyPort : Int
  sslCerts : Text
  sslVerify : Int
  sslCipherList : Option Text
  sslUseSni : Int
  deriving DecidableEq, Repr

/-- `config_init`, with `LOG_DAEMON` for the facility. -/
def configInit : FileConfig where
  deltatraffic := 0
  daemon := -1
  logStderr := true
  externalInterface := none
  gwId := none
  gwInterface := none
  gwAddress := none
  gwPort := 2060
  authServers := []
  rulesets := []
  trustedmaclist := []
  popularServers := []
  httpdname := none
  httpdmaxconn := 10
  httpdrealm := "WiFiDog".toList
  httpdusername := none
  httpdpassword := none
  checkinterval := 60
  wdctlSock := "/tmp/wdctl.sock".toList
  clienttimeout := 5
  syslogFacility := 24
  htmlmsgfile := "/etc/wifidog-msg.html".toList
  proxyPort := 0
  sslCerts := "/etc/ssl/certs/".toList
  sslVerify := 1
  sslCipherList := none
  sslUseSni := 0

/-- The local variables of `parse_auth_server`. -/
structure AuthFields where
  host : Option Text
  path : Text
  loginscriptpathfragment : Text
  portalscriptpathfragment : Text
  msgscriptpathfragment : Text
  pingscriptpathfragment : Text
  authscriptpathfragment : Text
  httpPort : Int
  sslPort : Int
  sslAvailable : Int
  deriving DecidableEq, Repr

/-- The defaults of `parse_auth_server`. -/
def AuthFields.defaults : AuthFields where
  host := none
  path := "/wifidog/".toList
  loginscriptpathfragment := "login/?".toList
  portalscriptpathfragment := "portal/?".toList
  msgscriptpathfragment := "gw_message.php?".toList
  pingscriptpathfragment := "ping/?".toList
  authscriptpathfragment := "auth/?".toList
  httpPort := 80
  sslPort := 443
  sslAvailable := 0

/-- Which loop reads the next line. -/
inductive Mode where
  | top
  | authServer (fields : AuthFields)
  | ruleset (name : Text)
  deriving DecidableEq, Repr

structure Reader where
  config : FileConfig
  mode : Mode
  deriving DecidableEq, Repr

/-! ## Values -/

/-- `parse_boolean_value` -/
def parseBooleanValue (line : Text) : Int :=
  if strcaseEq line "yes".toList then 1
  else if strcaseEq line "no".toList then 0
  else if line = "1".toList then 1
  else if line = "0".toList then 0
  else -1

/-- `sscanf (s, "%d", &old)` -/
def scanNumber (s : Text) (old : Int) : Int := (scanInt s).getD old

def isHex (c : Char) : Bool := c.isDigit || ('a' ≤ c && c ≤ 'f') || ('A' ≤ c && c ≤ 'F')

/-- `sscanf` with `groups` conversions `%2[A-Fa-f0-9]` between colons: all of them succeed. -/
def scanMacGroups : (groups : Nat) → Text → Bool
  | 0, _ => true
  | groups + 1, s =>
    let group := (s.take 2).takeWhile isHex
    let rest := s.drop group.length
    if group.isEmpty then false
    else if groups = 0 then true
    else match rest with
      | ':' :: rest => scanMacGroups groups rest
      | _ => false

/-- `check_mac_format` -/
def checkMacFormat (possiblemac : Text) : Bool := scanMacGroups 6 possiblemac

/-- `sscanf (possiblemac, " %17[A-Fa-f0-9:]", mac)` -/
def scanMac (possiblemac : Text) : Option Text :=
  let mac := ((possiblemac.dropWhile isSpace).take 17).takeWhile fun c => isHex c || c == ':'
  if mac.isEmpty then none else some mac

/-- The search for a duplicate, which stops before the last entry (the first apart). -/
def skipMac (macs : List Text) (mac : Text) : Bool :=
  macs.head? == some mac || macs.dropLast.any (· == mac)

/-- The loop of `parse_trusted_mac_list` over the pieces between commas. -/
def addTrustedMacs (macs : List Text) : List Text → List Text
  | [] => macs
  | possiblemac :: rest =>
    if !checkMacFormat possiblemac then macs
    else
      match scanMac possiblemac with
      | none => addTrustedMacs macs rest
      | some mac => addTrustedMacs (if skipMac macs mac then macs else macs ++ [mac]) rest

/-- `parse_trusted_mac_list` -/
def parseTrustedMacList (macs : List Text) (ptr : Text) : List Text :=
  addTrustedMacs macs (ptr.splitOn ',')

/-- The name in a piece of the list of popular servers. -/
def popularServer (piece : Text) : Option Text :=
  let hostname := piece.dropWhile isBlank
  if hostname.isEmpty then none else some (hostname.takeWhile (!isBlank ·))

/-- `parse_popular_servers`, which puts each server at the head. -/
def parsePopularServers (servers : List Text) (ptr : Text) : List Text :=
  ((ptr.splitOn ',').filterMap popularServer).reverse ++ servers

/-! ## Lines of a block -/

/-- `while (isblank (*p)) p++` -/
def skipBlanks (buf : Text) (p : Nat) : Nat := p + ((buf.drop p).takeWhile isBlank).length

/-- `strchr (p, c)` -/
def strchrAt (buf : Text) (p : Nat) (c : Char) : Option Nat :=
  ((cstrAt buf p).findIdx? (· == c)).map (p + ·)

/-- `for (..; isblank (*p2) && p2 > p1; p2--) *p2 = '\0'` -/
def trimBlanks (buf : Text) (p1 : Nat) : (p2 : Nat) → Text
  | 0 => buf
  | p2 + 1 =>
    if isBlank (buf.getD (p2 + 1) '\x00') && p2 + 1 > p1 then
      trimBlanks (buf.set (p2 + 1) '\x00') p1 p2
    else buf

/-- The body that the two block loops share, up to the option: the strings at `p1` and `p2`, or
    nothing for an empty line. `parse_auth_server` trims blanks at the end of the line. -/
def blockWords (trim : Bool) (line : Text) : Option (Text × Text) :=
  let buf := line ++ List.replicate (maxBuf - line.length) '\x00'
  let p1 := skipBlanks buf 0
  let cut := (strchrAt buf p1 '#').or ((strchrAt buf p1 '\r').or (strchrAt buf p1 '\n'))
  let buf := match cut with
    | some p2 => buf.set p2 '\x00'
    | none => buf
  let buf := if trim then
      trimBlanks buf p1 (match cut with
        | some p2 => p2 - 1
        | none => maxBuf - 2)
    else buf
  if (cstrAt buf p1).isEmpty then none
  else
    let p2 := p1 + ((cstrAt buf p1).takeWhile (!isBlank ·)).length
    let buf := buf.set p2 '\x00'
    let p2 := skipBlanks buf (p2 + 1)
    some (cstrAt buf p1, cstrAt buf p2)

/-- The options of an auth server. -/
def authServerOption (f : AuthFields) (opcode : OpCode) (p2 : Text) : Option AuthFields :=
  match opcode with
  | .authServHostname => some { f with host := some p2 }
  | .authServPath => some { f with path := p2 }
  | .authServLoginScriptPathFragment => some { f with loginscriptpathfragment := p2 }
  | .authServPortalScriptPathFragment => some { f with portalscriptpathfragment := p2 }
  | .authServMsgScriptPathFragment => some { f with msgscriptpathfragment := p2 }
  | .authServPingScriptPathFragment => some { f with pingscriptpathfragment := p2 }
  | .authServAuthScriptPathFragment => some { f with authscriptpathfragment := p2 }
  | .authServSSLPort => some { f with sslPort := atoi p2 }
  | .authServHTTPPort => some { f with httpPort := atoi p2 }
  | .authServSSLAvailable =>
    if parseBooleanValue p2 < 0 then none else some { f with sslAvailable := parseBooleanValue p2 }
  | _ => none

/-- The end of `parse_auth_server`. -/
def addAuthServer (cfg : FileConfig) (f : AuthFields) : FileConfig :=
  match f.host with
  | none => cfg
  | some host => { cfg with authServers := cfg.authServers ++
      [{ hostname := host
         path := f.path
         loginScriptPathFragment := f.loginscriptpathfragment
         httpPort := f.httpPort
         sslPort := f.sslPort
         useSsl := f.sslAvailable != 0
         lastIp := none
         authScriptPathFragment := f.authscriptpathfragment
         pingScriptPathFragment := f.pingscriptpathfragment
         portalScriptPathFragment := f.portalscriptpathfragment
         msgScriptPathFragment := f.msgscriptpathfragment }] }

/-- The loop of `parse_auth_server`, for one line. -/
def authServerLine (cfg : FileConfig) (f : AuthFields) (line : Text) : Option Reader :=
  if '}' ∈ line then some ⟨addAuthServer cfg f, .top⟩
  else
    match blockWords true line with
    | none => some ⟨cfg, .authServer f⟩
    | some (p1, p2) =>
      (authServerOption f (configParseToken p1) p2).map fun f => ⟨cfg, .authServer f⟩

/-- The loop of `parse_firewall_ruleset`, for one line. -/
def rulesetLine (cfg : FileConfig) (ruleset line : Text) : Option Reader :=
  if '}' ∈ line then some ⟨cfg, .top⟩
  else
    match blockWords false line with
    | none => some ⟨cfg, .ruleset ruleset⟩
    | some (p1, p2) =>
      match configParseToken p1 with
      | .firewallRule =>
        some ⟨{ cfg with rulesets := (parseFirewallRule cfg.rulesets ruleset p2).2 },
          .ruleset ruleset⟩
      | _ => none

/-! ## Lines at top level -/

/-- The text before the first `c` and the text behind it. -/
def cutAt (c : Char) (s : Text) : Option (Text × Text) :=
  match s.dropWhile (· != c) with
  | [] => none
  | _ :: rest => some (s.takeWhile (· != c), rest)

/-- The options of `config_read`. -/
def configOption (cfg : FileConfig) (opcode : OpCode) (p1 rawarg : Text) : Option Reader :=
  match opcode with
  | .deltaTraffic => some ⟨{ cfg with deltatraffic := parseBooleanValue p1 }, .top⟩
  | .daemon =>
    if cfg.daemon = -1 ∧ parseBooleanValue p1 ≠ -1 then
      some ⟨{ cfg with
        daemon := parseBooleanValue p1
        logStderr := if parseBooleanValue p1 > 0 then false else true }, .top⟩
    else some ⟨cfg, .top⟩
  | .externalInterface => some ⟨{ cfg with externalInterface := some p1 }, .top⟩
  | .gatewayID => some ⟨{ cfg with gwId := some p1 }, .top⟩
  | .gatewayInterface => some ⟨{ cfg with gwInterface := some p1 }, .top⟩
  | .gatewayAddress => some ⟨{ cfg with gwAddress := some p1 }, .top⟩
  | .gatewayPort => some ⟨{ cfg with gwPort := scanNumber p1 cfg.gwPort }, .top⟩
  | .authServer => some ⟨cfg, .authServer .defaults⟩
  | .firewallRuleSet => some ⟨cfg, .ruleset p1⟩
  | .trustedMACList =>
    some ⟨{ cfg with trustedmaclist := parseTrustedMacList cfg.trustedmaclist p1 }, .top⟩
  | .popularServers =>
    some ⟨{ cfg with popularServers := parsePopularServers cfg.popularServers rawarg }, .top⟩
  | .httpdName => some ⟨{ cfg with httpdname := some p1 }, .top⟩
  | .httpdMaxConn => some ⟨{ cfg with httpdmaxconn := scanNumber p1 cfg.httpdmaxconn }, .top⟩
  | .httpdRealm => some ⟨{ cfg with httpdrealm := p1 }, .top⟩
  | .httpdUsername => some ⟨{ cfg with httpdusername := some p1 }, .top⟩
  | .httpdPassword => some ⟨{ cfg with httpdpassword := some p1 }, .top⟩
  | .checkInterval => some ⟨{ cfg with checkinterval := scanNumber p1 cfg.checkinterval }, .top⟩
  | .wdctlSocket => some ⟨{ cfg with wdctlSock := p1 }, .top⟩
  | .clientTimeout => some ⟨{ cfg with clienttimeout := scanNumber p1 cfg.clienttimeout }, .top⟩
  | .syslogFacility =>
    some ⟨{ cfg with syslogFacility := scanNumber p1 cfg.syslogFacility }, .top⟩
  | .htmlMessageFile => some ⟨{ cfg with htmlmsgfile := p1 }, .top⟩
  | .proxyPort => some ⟨{ cfg with proxyPort := scanNumber p1 cfg.proxyPort }, .top⟩
  | .sslCertPath => some ⟨{ cfg with sslCerts := p1 }, .top⟩
  | .sslPeerVerification =>
    if parseBooleanValue p1 < 0 then none
    else some ⟨{ cfg with sslVerify := parseBooleanValue p1 }, .top⟩
  | .sslAllowedCipherList => some ⟨{ cfg with sslCipherList := some p1 }, .top⟩
  | .sslUseSNI =>
    if parseBooleanValue p1 < 0 then none
    else some ⟨{ cfg with sslUseSni := parseBooleanValue p1 }, .top⟩
  | _ => none

/-- Where `p1` ends: at a space, else before a line end that is still there. -/
def cutArgument (p1 : Text) : Text :=
  match cutAt ' ' p1 with
  | some (v, _) => v
  | none =>
    match strstr p1 "\r\n".toList with
    | some i => p1.take i
    | none =>
      match cutAt '\n' p1 with
      | some (v, _) => v
      | none => p1

/-- The loop of `config_read`, for one line. -/
def configLine (cfg : FileConfig) (line : Text) : Option Reader :=
  let s := if line.getLast? = some '\n' then line.dropLast else line
  match (cutAt ' ' s).or (cutAt '\t' s) with
  | none => some ⟨cfg, .top⟩
  | some (s, p1) =>
    let rawarg := p1.dropWhile (· == ' ')
    let p1 := cutArgument rawarg
    if p1 = [] then some ⟨cfg, .top⟩
    else if s.head? = some '#' then some ⟨cfg, .top⟩
    else configOption cfg (configParseToken s) p1 rawarg

/-! ## The file -/

def Reader.step (r : Reader) (line : Text) : Option Reader :=
  match r.mode with
  | .top => configLine r.config line
  | .authServer f => authServerLine r.config f line
  | .ruleset name => rulesetLine r.config name line

/-- The limit that the loop passes to `fgets`. -/
def Mode.limit : Mode → Nat
  | .top => maxBuf
  | .authServer _ => maxBuf - 1
  | .ruleset _ => maxBuf - 1

/-- The configuration at the end of the file, where a block ends too. -/
def Reader.close (r : Reader) : Option FileConfig :=
  let cfg := match r.mode with
    | .authServer f => addAuthServer r.config f
    | _ => r.config
  if cfg.httpdusername.isSome && cfg.httpdpassword.isNone then none else some cfg

theorem Mode.one_lt_limit (m : Mode) : 1 < m.limit := by
  cases m <;> simp [Mode.limit, maxBuf]

/-- The loops, to the end of the file. -/
def readLines (r : Reader) (file : Text) : Option FileConfig :=
  match _hread : fgets r.mode.limit file with
  | none => r.close
  | some (line, rest) =>
    match r.step line with
    | none => none
    | some r' => readLines r' rest
  termination_by file.length
  decreasing_by exact length_fgets_lt r.mode.one_lt_limit _hread

/-- `config_read`, for the contents of the file. -/
def configRead (cfg : FileConfig) (file : Text) : Option FileConfig := readLines ⟨cfg, .top⟩ file

end Wifidog
