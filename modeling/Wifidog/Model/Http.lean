/-
  The handler for pages the gateway does not have (`http_callback_404`).

  A captured request ends here. While the gateway or the auth server is offline the handler
  apologises. Otherwise it looks for a rule of the global ruleset whose mask is the end of the
  requested host; if there is one it opens the firewall for the host and sends the browser to
  its page again, else it sends the browser to the login page.

  `online` and `authOnline` are the results of `is_online` and `is_auth_online`, `arp` that of
  `arp_get` for the requester's address, `authServer` that of `get_auth_server`. A request's
  host, path and query are at most 1023 characters each, and the prefix that is rebuilt from
  the host fits its buffer.
-/
import Wifidog.Model.CommandLine

namespace Wifidog

open CText

/-- The fields of `request` that the handler reads. -/
structure Request where
  clientAddr : Text
  host : Text
  path : Text
  query : Text
  deriving DecidableEq, Repr

/-- What is sent to the browser. -/
inductive Reply where
  /-- `send_http_page (r, title, message)` -/
  | page (title message : Text)
  /-- `http_send_redirect (r, url, text)` -/
  | redirect (url text : Text)
  deriving DecidableEq, Repr

/-! ## URLs -/

/-- `isAcceptable[a - 32] & URL_XPALPHAS`, and not `&`. -/
def acceptable (c : Char) : Bool :=
  c.isAlphanum || c ∈ "!\"$'()*+,-.@_".toList

/-- A hexadecimal digit of `_httpd_escape`. -/
def hexDigit (n : Nat) : Char := ("0123456789ABCDEF".toList.getD n '0')

/-- `_httpd_escape` -/
def httpdEscape : Text → Text
  | [] => []
  | c :: s =>
    if acceptable c then c :: httpdEscape s
    else '%' :: hexDigit (c.toNat / 16) :: hexDigit (c.toNat % 16) :: httpdEscape s

/-- `httpdUrlEncode` -/
def httpdUrlEncode (s : Text) : Text :=
  (httpdEscape s).map fun c => if c == ' ' then '+' else c

/-- `tmp_url`, cut at the size of its buffer. -/
def Request.tmpUrl (r : Request) : Text :=
  ("http://".toList ++ r.host ++ r.path ++ (if r.query.isEmpty then [] else "?".toList) ++
    r.query).take (maxBuf - 2)

/-- `http_send_redirect_to_auth` -/
def httpSendRedirectToAuth (authServer : AuthServ) (urlFragment text : Text) : Reply :=
  let protocol := if authServer.useSsl then "https".toList else "http".toList
  let port := if authServer.useSsl then authServer.sslPort else authServer.httpPort
  .redirect (protocol ++ "://".toList ++ authServer.hostname ++ ":".toList ++ decInt port ++
    authServer.path ++ urlFragment) text

/-! ## The whitelist -/

/-- The mask occurs in the host, and either is the host or is what is left of it after a dot. -/
def hostMatches (host mask : Text) : Bool :=
  (strstr host mask).isSome &&
    (if host.length ≠ mask.length then
      strcaseEq host (host.take (host.length - mask.length - 1) ++ ".".toList ++ mask)
     else true)

/-- The rule at which the loop over the global ruleset stops. -/
def whitelistRule (cfg : Config) (host : Text) : Option FirewallRule :=
  (getRuleset cfg.rulesets fwrulesetGlobal).find? fun rule => hostMatches host rule.mask

/-! ## `http_callback_404` -/

/-- The part of the login page's URL that says who asks for what. -/
def loginFragment (cfg : Config) (authServer : AuthServ) (arp : Option Text) (r : Request) :
    Text :=
  authServer.loginScriptPathFragment ++ "gw_address=".toList ++ cfg.gwAddress ++
    "&gw_port=".toList ++ decInt cfg.gwPort ++ "&gw_id=".toList ++ cfg.gwId ++ "&ip=".toList ++
    r.clientAddr ++
    (match arp with
      | none => []
      | some mac => "&mac=".toList ++ mac) ++
    "&url=".toList ++ httpdUrlEncode r.tmpUrl

def internetApology (tmpUrl : Text) : Text :=
  ("<p>We apologize, but it seems that the internet connection that powers this hotspot is " ++
    "temporarily unavailable.</p><p>If at all possible, please notify the owners of this " ++
    "hotspot that the internet connection is out of service.</p><p>The maintainers of this " ++
    "network are aware of this disruption.  We hope that this situation will be resolved " ++
    "soon.</p><p>In a while please <a href='").toList ++ tmpUrl ++
    "'>click here</a> to try your request again.</p>".toList

def authApology (tmpUrl : Text) : Text :=
  ("<p>We apologize, but it seems that we are currently unable to re-direct you to the login " ++
    "screen.</p><p>The maintainers of this network are aware of this disruption.  We hope that " ++
    "this situation will be resolved soon.</p><p>In a couple of minutes please " ++
    "<a href='").toList ++ tmpUrl ++ "'>click here</a> to try your request again.</p>".toList

/-- `http_callback_404`: the host it calls `fw_allow_host` for, if any, and the reply. -/
def httpCallback404 (cfg : Config) (online authOnline : Bool) (arp : Option Text)
    (authServer : AuthServ) (r : Request) : Option Text × Reply :=
  if !online then
    (none, .page "Uh oh! Internet access unavailable!".toList (internetApology r.tmpUrl))
  else if !authOnline then
    (none, .page "Uh oh! Login screen unavailable!".toList (authApology r.tmpUrl))
  else
    match whitelistRule cfg r.host with
    | some rule =>
      (some r.host, .redirect r.tmpUrl
        (if r.host.length ≠ rule.mask.length then "allow subdomain".toList
         else "allow domain".toList))
    | none =>
      (none, httpSendRedirectToAuth authServer (loginFragment cfg authServer arp r)
        "Redirect to login page".toList)

/-- The command lines that a request makes the handler pass to `execute`. -/
def callback404Lines (cfg : Config) (online authOnline : Bool) (arp : Option Text)
    (authServer : AuthServ) (r : Request) : List (Option Text) :=
  match (httpCallback404 cfg online authOnline arp authServer r).1 with
  | none => []
  | some host => fwAllowHost cfg host

/-! ## What a match means -/

theorem httpCallback404_fst (cfg : Config) (online authOnline : Bool) (arp : Option Text)
    (authServer : AuthServ) (r : Request) :
    (httpCallback404 cfg online authOnline arp authServer r).1 =
      if online && authOnline then (whitelistRule cfg r.host).map fun _ => r.host else none := by
  unfold httpCallback404
  cases online with
  | false => rfl
  | true =>
    cases authOnline with
    | false => rfl
    | true => cases whitelistRule cfg r.host <;> rfl

/-- The host is the mask, or ends in a dot and the mask; letter case is ignored. -/
def HostUnder (host mask : Text) : Prop :=
  host.map Char.toLower = mask.map Char.toLower ∨
    ('.' :: mask.map Char.toLower) <:+ host.map Char.toLower

theorem hostUnder_of_matches {host mask : Text} (h : hostMatches host mask = true) :
    HostUnder host mask := by
  unfold hostMatches at h
  rw [Bool.and_eq_true] at h
  obtain ⟨hfound, hrest⟩ := h
  split at hrest
  · refine Or.inr ?_
    rw [strcaseEq_iff] at hrest
    rw [hrest]
    refine ⟨(host.take (host.length - mask.length - 1)).map Char.toLower, ?_⟩
    simp only [List.map_append, List.append_assoc]
    rfl
  · next hlen =>
    have hlen' : host.length = mask.length := not_not.mp hlen
    exact Or.inl (by rw [strstr_eq_of_length hfound hlen'])

end Wifidog
