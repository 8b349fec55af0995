/-
  The tables that the gateway reads as text: the ARP cache (`arp_get`), the routes
  (`get_ext_iface`) and the listings of the two client chains (`iptables_fw_counters_update`).

  All three are loops around `fscanf`. A loop whose calls could go on for ever would give `none`
  here, since a model of it runs out of fuel; the fuel is the length of the text.

  `inetAton` says which texts `inet_aton` takes. A listing is read in full; what the rows do to the
  client list is `countersRow`, one lock section for each.
-/
import Wifidog.Lib.Scanf
import Wifidog.Model.Counters

namespace Wifidog

open CText Scanf

/-! ## `arp_get` -/

/-- `[0-9.]` -/
def addressChars : List (Char × Char) := [('0', '9'), ('.', '.')]

/-- `[A-Fa-f0-9:]` -/
def macChars : List (Char × Char) := [('A', 'F'), ('a', 'f'), ('0', '9'), (':', ':')]

/-- `" %15[0-9.] %*s %*s %17[A-Fa-f0-9:] %*s %*s"` -/
def arpFormat : List Directive :=
  [.space, .set true 15 addressChars, .space, .word false none, .space, .word false none,
   .space, .set true 17 macChars, .space, .word false none, .space, .word false none]

/-- The test in the loop: the reply for a row. -/
def arpReply (reqIp : Text) : List Text → Option Text
  | [ip, mac] => if ip = reqIp then some mac else none
  | _ => none

/-- `arp_get`; `file` is the table at `arp_table_path`, if it can be opened. -/
def arpGet (file : Option Text) (reqIp : Text) : Option (Option Text) :=
  match file with
  | none => some none
  | some text =>
    (readRows arpFormat (fun vs => vs.length == 2 && (arpReply reqIp vs).isNone)
      (text.length + 2) (Stream.open text).skipLine).map (·.findSome? (arpReply reqIp))

/-! ## `get_ext_iface` -/

/-- `"%15s %*s %15s %*s %*s %*s %*s %*s %*s %*s %*s\n"` -/
def routeFormat : List Directive :=
  [.word true (some 15), .space, .word false none, .space, .word true (some 15), .space,
   .word false none, .space, .word false none, .space, .word false none, .space,
   .word false none, .space, .word false none, .space, .word false none, .space,
   .word false none, .space, .word false none, .space]

/-- The test in the loop: the device of a row whose third column is zero. -/
def routeDevice : List Text → Option Text
  | [device, gw] => if gw = "00000000".toList then some device else none
  | _ => none

/-- One reading of `/proc/net/route`. -/
def detectIface (text : Text) : Option (Option Text) :=
  (readRows routeFormat (fun vs => (routeDevice vs).isNone) (text.length + 2)
    (Stream.open text)).map (·.findSome? routeDevice)

/-- `get_ext_iface`, on what `/proc/net/route` holds at each try. It gives up when the file cannot
    be opened, and with `NUM_EXT_INTERFACE_DETECT_RETRY` 0 never for another reason: `none` when it
    is still trying. -/
def getExtIface : List (Option Text) → Option (Option Text)
  | [] => none
  | none :: _ => some none
  | some text :: tries =>
    (detectIface text).bind fun device => device.elim (getExtIface tries) fun d => some (some d)

/-! ## The listings of `iptables_fw_counters_update` -/

/-- `"%*s %llu %*s %*s %*s %*s %*s %15[0-9.] %*s %*s %*s %*s %*s %*s"` for Outgoing,
    `"%*s %llu %*s %*s %*s %*s %*s %*s %15[0-9.]"` for Incoming -/
def counterFormat : Direction → List Directive
  | .outgoing =>
    [.word false none, .space, .unsigned, .space, .word false none, .space, .word false none,
     .space, .word false none, .space, .word false none, .space, .word false none, .space,
     .set true 15 addressChars, .space, .word false none, .space, .word false none, .space,
     .word false none, .space, .word false none, .space, .word false none, .space,
     .word false none]
  | .incoming =>
    [.word false none, .space, .unsigned, .space, .word false none, .space, .word false none,
     .space, .word false none, .space, .word false none, .space, .word false none, .space,
     .word false none, .space, .set true 15 addressChars]

/-- A row that is acted upon: two assignments, and `inet_aton` takes the address. -/
def counterRow (inetAton : Text → Bool) : List Text → Option (Text × UInt64)
  | [counter, ip] => if inetAton ip then some (ip, strtoull counter) else none
  | _ => none

/-- The rows of `iptables -v -n -x -t mangle -L` that `iptables_fw_counters_update` acts upon, behind
    the two lines it skips. -/
def counterRows (inetAton : Text → Bool) (dir : Direction) (output : Text) :
    Option (List (Text × UInt64)) :=
  (readRows (counterFormat dir) (fun _ => true) (output.length + 2)
    (Stream.open output).skipLine.skipLine).map (·.filterMap (counterRow inetAton))

end Wifidog
