/-
  The command line (`commandline.c`, `append_x_restartargv` of `gateway.c`).

  `parse_commandline` goes through the options that `getopt` finds. It keeps the settings and, in
  `restartargv`, the command line for a restart: every option it does not skip, written as `-c` and
  its argument. An entry `none` is a NULL. `none` for the whole result stands for `exit (1)`.

  The array is allocated with `argc + 3` entries; the list here is as long as what is written, and
  `slots` is the length of the allocation.
-/
import Wifidog.Lib.Getopt

namespace Wifidog

open CText Getopt

/-- What the options set and a restart has to set again. -/
structure KeptSettings where
  configfile : Text
  wdctlSock : Text
  internalSock : Text
  arpTablePath : Text
  pidfile : Option Text
  debuglevel : Int
  logSyslog : Bool
  deriving DecidableEq, Repr

/-- The fields of `config` and `debugconf` that `parse_commandline` sets, and
    `restart_orig_pid`. -/
structure Settings extends KeptSettings where
  logStderr : Bool
  daemon : Bool
  restartOrigPid : Int
  deriving DecidableEq, Repr

/-- `"c:hfd:sw:vx:i:a:p:"` -/
def optstring : Spec := fun c =>
  if c ∈ ['c', 'd', 'w', 'x', 'i', 'a', 'p'] then some true
  else if c ∈ ['h', 'f', 's', 'v'] then some false
  else none

/-- The body of the `switch`: the settings and `skiponrestart`. -/
def commandOption (s : Settings) (c : Char) (optarg : Option Text) : Option (Settings × Bool) :=
  match c, optarg with
  | 'h', _ => none
  | 'c', some arg => some ({ s with configfile := arg }, false)
  | 'c', none => some (s, false)
  | 'w', some arg => some ({ s with wdctlSock := arg }, false)
  | 'w', none => some (s, false)
  | 'f', _ => some ({ s with daemon := false, logStderr := true }, true)
  | 'd', some arg => some ({ s with debuglevel := atoi arg }, false)
  | 'd', none => some (s, false)
  | 's', _ => some ({ s with logSyslog := true }, false)
  | 'v', _ => none
  | 'x', some arg => some ({ s with restartOrigPid := atoi arg }, true)
  | 'x', none => none
  | 'i', some arg => some ({ s with internalSock := arg }, false)
  | 'i', none => some (s, false)
  | 'a', some arg => some ({ s with arpTablePath := arg }, false)
  | 'a', none => none
  | 'p', some arg => some ({ s with pidfile := some arg }, false)
  | 'p', none => none
  | _, _ => none

/-- The `while` loop; `restartargv` is what is written so far. -/
def parseOptions (s : Settings) (restartargv : List (Option Text)) :
    List Opt → Option (Settings × List (Option Text))
  | [] => some (s, restartargv)
  | o :: opts =>
    match commandOption s o.1 o.2 with
    | none => none
    | some (s', skiponrestart) =>
      parseOptions s'
        (if skiponrestart then restartargv else restartargv ++ (written o).map some) opts

/-- `parse_commandline`, for the words behind `argv[0]`. -/
def parseCommandline (s : Settings) (argv0 : Text) (args : List Text) :
    Option (Settings × List (Option Text)) :=
  match parseOptions s [some argv0] (getopt optstring args) with
  | none => none
  | some (s', restartargv) => some (s', restartargv ++ [none, none, none])

/-- The length of `restartargv`: `argc + 3`. -/
def restartSlots (args : List Text) : Nat := (args.length + 1) + 3

/-- `append_x_restartargv` -/
def appendXRestartargv (restartargv : List (Option Text)) (pid : Nat) : List (Option Text) :=
  let i := restartargv.findIdx Option.isNone
  (restartargv.set i (some "-x".toList)).set (i + 1) (some (dec pid))

/-- The command line that `execvp` passes on: the entries before the first NULL. -/
def execArgv (restartargv : List (Option Text)) : List Text :=
  (restartargv.takeWhile Option.isSome).filterMap id

end Wifidog
