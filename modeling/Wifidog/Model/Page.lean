/-
  Pages of the gateway: `httpdOutput` and `send_http_page`.

  The message file is a template; `httpdOutput` copies it to a buffer and puts in the variables of
  the request. `outputLoop` keeps what is in the buffer and the number that the code takes for its
  length: after a value `count` is increased by `strlen` at the end of the value, which is 0. It
  gives `none` when something is written behind the end of one of the two buffers, be it only the
  terminating NUL.
-/
import Wifidog.Model.Httpd

namespace Wifidog

open CText

/-- `varName[80]` -/
def varNameLen : Nat := 80

/-- `isalnum (c) || c == '_'` -/
def isVarChar (c : Char) : Bool := c.isAlphanum || c == '_'

/-- The loop of `httpdOutput`; `skip` characters of the name of a variable are still to be passed
    over. -/
def outputLoop (vars : List HttpVar) : (skip count : Nat) → (buf : Text) → Text → Option Text
  | _, _, buf, [] => if buf.length < httpMaxLen then some buf else none
  | skip + 1, count, buf, _ :: src => outputLoop vars skip count buf src
  | 0, count, buf, c :: src =>
    if count < httpMaxLen then
      if c = '$' then
        let varName := (src.takeWhile isVarChar).take varNameLen
        if varName.length < varNameLen then
          match httpdGetVariableByName vars varName with
          | some value =>
            if count + value.length < httpMaxLen then
              if buf.length + value.length < httpMaxLen then
                outputLoop vars varName.length count (buf ++ value) src
              else none
            else if buf.length < httpMaxLen then outputLoop vars 0 (count + 1) (buf ++ [c]) src
            else none
          | none =>
            if buf.length < httpMaxLen then outputLoop vars 0 (count + 1) (buf ++ [c]) src
            else none
        else none
      else if buf.length < httpMaxLen then outputLoop vars 0 (count + 1) (buf ++ [c]) src
      else none
    else if buf.length < httpMaxLen then some buf
    else none

/-- `httpdOutput`: what is written to the client behind the headers. -/
def httpdOutput (vars : List HttpVar) (msg : Text) : Option Text := outputLoop vars 0 0 [] msg

/-- The variables of a page. -/
def pageVars (vars : List HttpVar) (title message gwId : Text) : List HttpVar :=
  httpdAddVariable (httpdAddVariable (httpdAddVariable vars "title".toList title)
    "message".toList message) "nodeID".toList gwId

/-- `send_http_page`, on the content of `htmlmsgfile`, which ends at a NUL. Without the file nothing
    is sent. -/
def sendHttpPage (htmlmsg : Option Text) (gwId : Text) (vars : List HttpVar)
    (title message : Text) : Option (Option Text) :=
  match htmlmsg with
  | none => some none
  | some file =>
    (httpdOutput (pageVars vars title message gwId) (file.takeWhile (· != '\x00'))).map some

end Wifidog
