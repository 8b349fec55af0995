/-
  The configuration (`conf.h`) and the firewall rule lines of its file (`conf.c`).

  `scanFirewallRule` is `_parse_firewall_rule` up to "Generate rule record": its result holds
  the local variables the source has there, so that it still says which keyword stood before
  the destination. `RuleLine.record` is the record built from them, `parseFirewallRule` the
  whole function, with the append to the ruleset of that name.

  A word is cut out of the buffer by `TO_NEXT_WORD` in place; here `toNextWord` returns the
  word and what follows it. The end flag is set only when the word runs to the end of the
  string, and a line that is one single word is therefore a `block` rule whatever it says.

  Proved: `getRuleset_parseAll` (every ruleset holds the records of the accepted lines given
  for its name, in that order).
-/
import Wifidog.Lib.CText

namespace Wifidog

open CText

/-- `t_firewall_target` -/
inductive FirewallTarget where
  | drop | reject | accept | log | ulog
  deriving DecidableEq, Repr

/-- `t_firewall_rule` -/
structure FirewallRule where
  target : FirewallTarget
  protocol : Option Text
  port : Option Text
  mask : Text
  maskIsIpset : Bool
  deriving DecidableEq, Repr

/-- `t_firewall_ruleset` in list order: the name and the rules. -/
abbrev Rulesets := List (Text × List FirewallRule)

/-- `t_auth_serv`, the fields the model reads. -/
structure AuthServ where
  hostname : Text
  path : Text
  loginScriptPathFragment : Text
  httpPort : Int
  sslPort : Int
  useSsl : Bool
  lastIp : Option Text
  deriving DecidableEq, Repr

/-- `s_config`, the fields the model reads. -/
structure Config where
  externalInterface : Option Text
  gwId : Text
  gwInterface : Text
  gwAddress : Text
  gwPort : Int
  authServers : List AuthServ
  httpdusername : Option Text
  httpdpassword : Text
  clienttimeout : Int32
  checkinterval : Int32
  proxyPort : Int
  rulesets : Rulesets
  trustedmaclist : List Text
  deriving DecidableEq, Repr

/-- `MAX_BUF` -/
def maxBuf : Nat := 4096

def fwrulesetGlobal : Text := "global".toList
def fwrulesetValidatingUsers : Text := "validating-users".toList
def fwrulesetKnownUsers : Text := "known-users".toList
def fwrulesetAuthIsDown : Text := "auth-is-down".toList
def fwrulesetUnknownUsers : Text := "unknown-users".toList
def fwrulesetLockedUsers : Text := "locked-users".toList

/-- `get_ruleset`: the rules of the first ruleset of that name, none when there is none. -/
def getRuleset (rs : Rulesets) (name : Text) : List FirewallRule :=
  match rs.find? (·.1 == name) with
  | some set => set.2
  | none => []

/-! ## `_parse_firewall_rule` -/

/-- `TO_NEXT_WORD (s, e)`: the word at `s`, the rest after the blanks behind it, and `e`. -/
def toNextWord (s : Text) (e : Bool) : Text × Text × Bool :=
  match s.dropWhile (!isBlank ·) with
  | [] => (s, [], true)
  | _ :: t => (s.takeWhile (!isBlank ·), t.dropWhile isBlank, e)

/-- The local variables of `_parse_firewall_rule` where it generates the record. -/
structure RuleLine where
  target : FirewallTarget
  protocol : Option Text
  port : Option Text
  otherKw : Option Text
  mask : Option Text
  maskIsIpset : Bool
  deriving DecidableEq, Repr

/-- The rule type; `finished` is tested together with the first keyword. -/
def ruleTarget (token : Text) (finished : Bool) : Option FirewallTarget :=
  if strcaseEq token "block".toList || finished then some .reject
  else if strcaseEq token "drop".toList then some .drop
  else if strcaseEq token "allow".toList then some .accept
  else if strcaseEq token "log".toList then some .log
  else if strcaseEq token "ulog".toList then some .ulog
  else none

/-- The optional protocol: `tcp`, `udp` or `icmp` as a prefix of the word. -/
def ruleProtocol (leftover : Text) (finished : Bool) : Option Text × Text × Bool :=
  if "tcp".toList.isPrefixOf leftover || "udp".toList.isPrefixOf leftover ||
      "icmp".toList.isPrefixOf leftover then
    let (word, leftover, finished) := toNextWord leftover finished
    (some word, leftover, finished)
  else (none, leftover, finished)

/-- The optional port: `port` as a prefix of the keyword, then the next word. -/
def rulePort (leftover : Text) (finished : Bool) : Option Text × Text × Bool :=
  if "port".toList.isPrefixOf leftover then
    let (_, leftover, finished) := toNextWord leftover finished
    let (word, leftover, finished) := toNextWord leftover finished
    (some word, leftover, finished)
  else (none, leftover, finished)

/-- The optional destination: the keyword, the word behind it and the ipset flag. -/
def ruleDest (leftover : Text) (finished : Bool) : Option Text × Option Text × Bool :=
  if finished then (none, none, false)
  else
    let (otherKw, leftover, finished) := toNextWord leftover finished
    if finished then (some otherKw, none, false)
    else (some otherKw, some (toNextWord leftover finished).1,
      "to-ipset".toList.isPrefixOf otherKw)

/-- `_parse_firewall_rule` up to the record; the error is its return code. -/
def scanFirewallRule (leftover : Text) : Except Int RuleLine :=
  let leftover := leftover.map Char.toLower
  let (token, leftover, finished) := toNextWord leftover false
  match ruleTarget token finished with
  | none => .error (-1)
  | some target =>
    let (protocol, leftover, finished) := ruleProtocol leftover finished
    let (port, leftover, finished) := rulePort leftover finished
    if (port.getD []).all fun c => c.isDigit || c == ':' then
      let (otherKw, mask, maskIsIpset) := ruleDest leftover finished
      .ok ⟨target, protocol, port, otherKw, mask, maskIsIpset⟩
    else .error (-3)

/-- The mask of a rule without a destination. -/
def defaultMask : Text := "0.0.0.0/0".toList

/-- The rule record. -/
def RuleLine.record (l : RuleLine) : FirewallRule :=
  ⟨l.target, l.protocol, l.port, l.mask.getD defaultMask, l.maskIsIpset⟩

/-- Append a rule to the ruleset of that name, which is made at the end of the list when it
    is not there. -/
def appendRule (rs : Rulesets) (name : Text) (r : FirewallRule) : Rulesets :=
  match rs with
  | [] => [(name, [r])]
  | (n, rules) :: rest =>
    if n == name then (n, rules ++ [r]) :: rest else (n, rules) :: appendRule rest name r

/-- `_parse_firewall_rule`: the return code and the rulesets. -/
def parseFirewallRule (rs : Rulesets) (name leftover : Text) : Int × Rulesets :=
  match scanFirewallRule leftover with
  | .error code => (code, rs)
  | .ok l => (1, appendRule rs name l.record)

/-- A sequence of `_parse_firewall_rule (name, text)` calls. -/
def parseAll (rs : Rulesets) (calls : List (Text × Text)) : Rulesets :=
  calls.foldl (fun rs c => (parseFirewallRule rs c.1 c.2).2) rs

/-! ## Rulesets keep the order of their lines -/

theorem getRuleset_appendRule (rs : Rulesets) (name : Text) (r : FirewallRule) (n : Text) :
    getRuleset (appendRule rs name r) n =
      if n = name then getRuleset rs n ++ [r] else getRuleset rs n := by
  induction rs with
  | nil =>
    by_cases h : n = name
    · simp [appendRule, getRuleset, h]
    · simp [appendRule, getRuleset, h, Ne.symm h]
  | cons s rest ih =>
    obtain ⟨m, rules⟩ := s
    unfold getRuleset at ih ⊢
    by_cases hm : m = name
    · by_cases hn : m = n
      · simp [appendRule, hm, ← hn]
      · have : n ≠ name := fun h => hn (hm.trans h.symm)
        simp [appendRule, hm, this, Ne.symm this]
    · by_cases hn : m = n
      · subst hn
        simp [appendRule, hm]
      · simpa [appendRule, hm, hn] using ih

/-- The record of a line, if it is accepted. -/
def ruleOf (leftover : Text) : Option FirewallRule :=
  (scanFirewallRule leftover).toOption.map RuleLine.record

theorem getRuleset_parseFirewallRule (rs : Rulesets) (name line n : Text) :
    getRuleset (parseFirewallRule rs name line).2 n =
      getRuleset rs n ++ if n = name then (ruleOf line).toList else [] := by
  unfold parseFirewallRule ruleOf
  cases scanFirewallRule line with
  | error code => simp [Except.toOption]
  | ok l =>
    rw [getRuleset_appendRule]
    by_cases h : n = name <;> simp [h, Except.toOption]

/-- Every ruleset holds the records of the accepted lines given for its name, in order. -/
theorem getRuleset_parseAll (rs : Rulesets) (calls : List (Text × Text)) (n : Text) :
    getRuleset (parseAll rs calls) n =
      getRuleset rs n ++ (calls.filter (·.1 = n)).filterMap fun c => ruleOf c.2 := by
  induction calls generalizing rs with
  | nil => simp [parseAll]
  | cons c calls ih =>
    have hcons : parseAll rs (c :: calls) = parseAll (parseFirewallRule rs c.1 c.2).2 calls := rfl
    rw [hcons, ih, getRuleset_parseFirewallRule]
    by_cases h : c.1 = n
    · cases hr : ruleOf c.2 <;> simp [h, hr]
    · simp [h, Ne.symm h]

/-! ## A small configuration, for concrete runs -/

/-- One auth server, no rulesets, a client times out after five minutes. -/
def smallConfig : Config where
  externalInterface := some "eth0".toList
  gwId := "gw".toList
  gwInterface := "br0".toList
  gwAddress := "10.0.0.1".toList
  gwPort := 2060
  authServers := [⟨"auth.example.com".toList, "/".toList, "login/?".toList, 80, 443, false, none⟩]
  httpdusername := none
  httpdpassword := []
  clienttimeout := 5
  checkinterval := 60
  proxyPort := 0
  rulesets := []
  trustedmaclist := []

end Wifidog
