/-
  What a login request gets back (`authenticate_client`, `http_send_redirect`) and how the
  token came in (`_httpd_unescape`).

  A token is whatever bytes the query spells, by themselves or as `%` and two digits. The
  decoding is done in place; at a `%` that ends the text the byte at the write position is
  left as it was. `strdup` then cuts the value at a NUL.

  The response of a request starts with one header line of the server, and
  `authenticate_client` adds at most one more.
-/
import Wifidog.Lib.CBuffer
import Wifidog.Model.Http
import Wifidog.Model.System

namespace Wifidog

open CText

/-! ## Decoding -/

/-- `_httpd_from_hex`, as an unsigned byte. -/
def httpdFromHex (c : Char) : Nat :=
  if c.isDigit then c.toNat - '0'.toNat
  else if 'A' ≤ c ∧ c ≤ 'F' then c.toNat - 'A'.toNat + 10
  else (c.toNat + 256 - 'a'.toNat + 10) % 256

/-- The loop of `_httpd_unescape`: `q` is what has been written over the front of `str`. -/
def unescapeFrom (str : Text) : (q p : Text) → Text
  | q, [] => q
  | q, ['%'] => q ++ [str.getD q.length '%']
  | q, ['%', hi] => q ++ [Char.ofNat (httpdFromHex hi * 16 % 256)]
  | q, '%' :: hi :: lo :: p =>
    unescapeFrom str (q ++ [Char.ofNat ((httpdFromHex hi * 16 + httpdFromHex lo) % 256)]) p
  | q, c :: p => unescapeFrom str (q ++ [if c == '+' then ' ' else c]) p

/-- `_httpd_unescape`, as `httpdAddVariable` copies it. -/
def httpdUnescape (str : Text) : Text := cstrAt (unescapeFrom str [] str) 0

/-! ## The reply of `authenticate_client` -/

/-- `t_auth_serv`, with the script fragments of the redirects. -/
structure PortalServ extends AuthServ where
  portalScriptPathFragment : Text
  msgScriptPathFragment : Text
  deriving DecidableEq, Repr

def gatewayMessageDenied : Text := "denied".toList
def gatewayMessageActivateAccount : Text := "activate".toList
def gatewayMessageAccountValidationFailed : Text := "failed_validation".toList

/-- `urlFragment` of a redirect to a message. -/
def messageFragment (authServer : PortalServ) (message token : Text) : Text :=
  authServer.msgScriptPathFragment ++ "message=".toList ++ message ++ "&token=".toList ++ token

/-- `urlFragment` of the redirect to the portal. -/
def portalFragment (cfg : Config) (authServer : PortalServ) (token : Text) : Text :=
  authServer.portalScriptPathFragment ++ "gw_id=".toList ++ cfg.gwId ++ "&token=".toList ++ token

/-- What the switch of `authenticate_client` sends; `token` is the client's by then. -/
def authenticateReply (cfg : Config) (authServer : PortalServ) (token : Text) (authcode : Int) :
    Reply :=
  if authcode = authError then
    .page "Error!".toList
      "Error: We did not get a valid answer from the central server".toList
  else if authcode = authDenied then
    httpSendRedirectToAuth authServer.toAuthServ
      (messageFragment authServer gatewayMessageDenied token) "Redirect to denied message".toList
  else if authcode = authValidation then
    httpSendRedirectToAuth authServer.toAuthServ
      (messageFragment authServer gatewayMessageActivateAccount token)
      "Redirect to activate message".toList
  else if authcode = authAllowed then
    httpSendRedirectToAuth authServer.toAuthServ (portalFragment cfg authServer token)
      "Redirect to portal".toList
  else if authcode = authValidationFailed then
    httpSendRedirectToAuth authServer.toAuthServ
      (messageFragment authServer gatewayMessageAccountValidationFailed token)
      "Redirect to failed validation message".toList
  else
    .page "Internal Error".toList "We can not validate your request at this time".toList

/-! ## Headers -/

/-- `HTTP_MAX_HEADERS` -/
def httpMaxHeaders : Nat := 1024

/-- `HTTP_MAX_URL` -/
def httpMaxUrl : Nat := 1024

/-- The headers that `httpdReadRequest` starts with. -/
def serverHeader : Text := "Server: Hughes Technologies Embedded Server\n".toList

/-- `httpdAddHeader` -/
def httpdAddHeader (headers msg : Text) : Text :=
  let size : Int := httpMaxHeaders - 2 - headers.length
  if size > 0 then
    let headers := headers ++ msg.take size.toNat
    if headers.getLast? ≠ some '\n' then headers ++ ['\n'] else headers
  else headers

/-- The response as `http_send_redirect` leaves it, and what it gives to `send_http_page`. -/
structure Redirect where
  response : Text
  headers : Text
  title : Text
  message : Text
  deriving DecidableEq, Repr

/-- `http_send_redirect`, on a response with these headers. -/
def httpSendRedirect (headers url : Text) (text : Option Text) : Redirect where
  response := ("302 ".toList ++ text.getD "Redirecting".toList ++ "\n".toList).take (httpMaxUrl - 1)
  headers := httpdAddHeader headers ("Location: ".toList ++ url)
  title := text.getD "Redirection to message".toList
  message := "Please <a href='".toList ++ url ++ "'>click here</a>.".toList

/-! ## A small auth server, for concrete replies -/

def smallPortal : PortalServ :=
  ⟨⟨"auth.example.com".toList, "/".toList, "login/?".toList, 80, 443, false, none⟩,
    "portal/?".toList, "gw_message.php?".toList⟩

end Wifidog
