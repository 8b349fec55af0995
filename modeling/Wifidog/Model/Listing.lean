/-
  `iptables_fw_destroy_mention` on the text that `iptables -L` prints.

  `list t table chain` is the output of `iptables -t table -L chain -n --line-numbers -v` on the
  tables `t`. The code passes over two lines, reads the others into a buffer and looks for the word
  in all of a line, the number in front included. The first line that has it gives the number for
  `-D`; then the numbers are no longer accurate and the function calls itself.

  `destroyMentionText` is the recursion, with the numbers that are deleted and the value that the
  outermost call returns. `popen` does not fail.
-/
import Wifidog.Lib.CBuffer
import Wifidog.Model.CommandLine
import Wifidog.Model.Counters

namespace Wifidog

open CText Netfilter

/-- `while (!feof (p) && fgetc (p) != '\n')` -/
def skipLine (out : Text) : Text := (out.dropWhile (· != '\n')).drop 1

/-- The loop over the entries: the number of the rule that it deletes. -/
def findVictim (victim out : Text) : Option Nat :=
  match _hread : fgets maxBuf out with
  | none => none
  | some (line, rest) =>
    if (strstr line victim).isSome then
      (readRulenum line).orElse fun _ => findVictim victim rest
    else findVictim victim rest
  termination_by out.length
  decreasing_by all_goals exact length_fgets_lt (by decide) _hread

/-- What the calls have done. -/
structure Destroyed where
  tables : Tables Chain
  /-- The numbers given to `-D`, in order. -/
  numbers : List Nat
  /-- The value that is returned. -/
  deleted : Int
  deriving DecidableEq, Repr

/-- `iptables_fw_destroy_mention`; `none` when the calls have not come to an end at depth `fuel`, or
    when the mention is not a format string. -/
def destroyMentionText (list : Tables Chain → Table → Chain → Text) (cfg : Config) (table : Table)
    (chain : Chain) (mention : Text) : (fuel : Nat) → Tables Chain → Option Destroyed
  | 0, _ => none
  | fuel + 1, t =>
    (iptablesInsertGatewayId cfg mention).bind fun victim =>
      match findVictim victim (skipLine (skipLine (list t table chain))) with
      | none => some ⟨t, [], 0⟩
      | some num =>
        (destroyMentionText list cfg table chain mention fuel
          (t.exec ⟨table, .deleteAt chain num⟩)).map fun d => ⟨d.tables, num :: d.numbers, 1⟩

end Wifidog
