/-
  Command lines as text: from a format string to the words the shell sees.

  `iptables_do_command` expands its format, `iptables_insert_gateway_id` then replaces every
  `$ID$` by `%1$s` and formats the result once more, with the interface name as the only
  argument. Whatever the first expansion put into the text is therefore read as part of a
  format string: `%%` and `%1$s`, with `-`, a width or a precision or without, are directives; any
  other `%` asks for an argument that is not there or is not defined for a string (`formatOne` is
  `none` then). An output of more than `INT_MAX` bytes, where `safe_asprintf` ends the process, is
  left out.

  `shellWords` is what `sh -c` makes of a line without quoting, expansion or control operators:
  the words between the blanks. It is `none` for a line with a character that is special to the
  shell.
-/
import Wifidog.Model.FwIptables

namespace Wifidog

open CText Netfilter

/-- `CHAIN_NAME_MAX_LEN` -/
def chainNameMaxLen : Nat := 15

def idMark : Text := "$ID$".toList

def idDirective : Text := "%1$s".toList

/-- The loop of `iptables_insert_gateway_id`, at most `fuel` rounds. -/
def replaceIds : Nat → Text → Text
  | 0, s => s
  | fuel + 1, s =>
    match strstr s idMark with
    | none => s
    | some i => replaceIds fuel (s.take i ++ idDirective ++ s.drop (i + idMark.length))

/-- What may stand between `%1$` and `s`. -/
def isSpecChar (c : Char) : Bool := c == '-' || c == '.' || c.isDigit

/-- The field of a string directive. -/
def padField (left : Bool) (width : Nat) (s : Text) : Text :=
  let blanks := List.replicate (width - s.length) ' '
  if left then s ++ blanks else blanks ++ s

/-- `%1$s` with flags, width and precision `spec`. The flag `0` is not defined for strings. -/
def formatString (arg spec : Text) : Option Text :=
  let field := spec.dropWhile (· == '-')
  let width := field.takeWhile Char.isDigit
  let left := spec.head? == some '-'
  if width.head? = some '0' then none
  else
    match field.dropWhile Char.isDigit with
    | [] => some (padField left (leadingNat width) arg)
    | '.' :: precision =>
      if precision.all Char.isDigit then
        some (padField left (leadingNat width) (arg.take (leadingNat precision)))
      else none
    | _ => none

/-- The directive whose text is behind a `%`: what it prints and how long that text is. -/
def directive (arg : Text) : Text → Option (Text × Nat)
  | '%' :: _ => some (['%'], 1)
  | '1' :: '$' :: s =>
    let spec := s.takeWhile isSpecChar
    if s[spec.length]? = some 's' then (formatString arg spec).map (·, spec.length + 3) else none
  | _ => none

/-- `formatOne` behind the next `skip` characters. -/
def formatSkip (arg : Text) : (skip : Nat) → Text → Option Text
  | _, [] => some []
  | skip + 1, _ :: s => formatSkip arg skip s
  | 0, c :: s =>
    if c = '%' then
      (directive arg s).bind fun (printed, len) => (formatSkip arg len s).map (printed ++ ·)
    else (formatSkip arg 0 s).map (c :: ·)

/-- `printf` with one string argument. -/
def formatOne (arg s : Text) : Option Text := formatSkip arg 0 s

/-- The interface name as it stands in chain names. -/
def Config.chainId (cfg : Config) : Text := cfg.gwInterface.take chainNameMaxLen

/-- `iptables_insert_gateway_id` -/
def iptablesInsertGatewayId (cfg : Config) (input : Text) : Option Text :=
  if (strstr input idMark).isNone then some input
  else formatOne cfg.chainId (replaceIds input.length input)

/-- The line that `iptables_do_command` passes to `execute`, for an expanded format. -/
def doCommandLine (cfg : Config) (fmtCmd : Text) : Option Text :=
  iptablesInsertGatewayId cfg ("iptables ".toList ++ fmtCmd)

/-- The expanded formats of `iptables_fw_access_host`. -/
def accessHostFormats (type : FwAccess) (host : Text) : List Text :=
  match type with
  | .allow => [
      "-t nat -A ".toList ++ Chain.global.text ++ " -d ".toList ++ host ++ " -j ACCEPT".toList,
      "-t filter -A ".toList ++ Chain.global.text ++ " -d ".toList ++ host ++ " -j ACCEPT".toList]
  | .deny => [
      "-t nat -D ".toList ++ Chain.global.text ++ " -d ".toList ++ host ++ " -j ACCEPT".toList,
      "-t filter -D ".toList ++ Chain.global.text ++ " -d ".toList ++ host ++ " -j ACCEPT".toList]

/-- The command lines of `iptables_fw_access_host`. -/
def iptablesFwAccessHost (cfg : Config) (type : FwAccess) (host : Text) : List (Option Text) :=
  (accessHostFormats type host).map (doCommandLine cfg)

/-- `fw_allow_host` -/
def fwAllowHost (cfg : Config) (host : Text) : List (Option Text) :=
  iptablesFwAccessHost cfg .allow host

/-! ## Compiled rules -/

def Netfilter.Table.text : Table → Text
  | .filter => "filter".toList
  | .nat => "nat".toList
  | .mangle => "mangle".toList

/-- `mode` of `iptables_compile` -/
def FirewallTarget.modeText : FirewallTarget → Text
  | .drop => "DROP".toList
  | .reject => "REJECT".toList
  | .accept => "ACCEPT".toList
  | .log => "LOG".toList
  | .ulog => "ULOG".toList

/-- `snprintf (command + strlen (command), sizeof (command) - strlen (command), ...)` -/
def appendPiece (command piece : Text) : Text := (command ++ piece).take (maxBuf - 1)

/-- `iptables_compile`, the text in its buffer. -/
def iptablesCompileText (table : Table) (chain : Chain) (rule : FirewallRule) : Option Text :=
  if table = .nat ∧ (rule.target = .drop ∨ rule.target = .reject) then none
  else
    let command := appendPiece []
      ("-t ".toList ++ table.text ++ " -A ".toList ++ chain.text ++ " ".toList)
    let command :=
      if rule.maskIsIpset then
        appendPiece command ("-m set --match-set ".toList ++ rule.mask ++ " dst ".toList)
      else appendPiece command ("-d ".toList ++ rule.mask ++ " ".toList)
    let command :=
      match rule.protocol with
      | some protocol => appendPiece command ("-p ".toList ++ protocol ++ " ".toList)
      | none => command
    let command :=
      match rule.port with
      | some port => appendPiece command ("--dport ".toList ++ port ++ " ".toList)
      | none => command
    some (appendPiece command ("-j ".toList ++ rule.target.modeText))

/-! ## The shell -/

/-- The characters besides blanks that have to be quoted to stand for themselves. -/
def shellSpecial (c : Char) : Bool := decide (c ∈ "|&;<>()$`\\\"'\n*?[#~=%".toList)

def shellWords (line : Text) : Option (List Text) :=
  if line.any shellSpecial then none
  else some (words line)

/-- A text that the shell and `printf` take as it is: one word, nothing to interpret. -/
def plainWord (s : Text) : Bool := !s.isEmpty && s.all fun c => !shellSpecial c && !isBlank c

/-! ## Formatting -/

theorem formatOne_cons {c : Char} (h : c ≠ '%') (arg s : Text) :
    formatOne arg (c :: s) = (formatOne arg s).map (c :: ·) := by
  unfold formatOne
  rw [formatSkip, if_neg h]

/-- A directive prints what it prints and its text is passed over. -/
theorem formatOne_percent (arg s : Text) :
    formatOne arg ('%' :: s) =
      (directive arg s).bind fun (printed, len) =>
        (formatOne arg (s.drop len)).map (printed ++ ·) := by
  have hskip : ∀ (len : Nat) (s : Text), formatSkip arg len s = formatOne arg (s.drop len) := by
    intro len s
    induction s generalizing len with
    | nil => cases len <;> rfl
    | cons c s ih =>
      cases len with
      | zero => rfl
      | succ len => exact ih len
  unfold formatOne
  rw [formatSkip, if_pos rfl]
  simp only [hskip]
  rfl

/-- Text without `%` is copied. -/
theorem formatOne_append {s : Text} (h : '%' ∉ s) (arg rest : Text) :
    formatOne arg (s ++ rest) = (formatOne arg rest).map (s ++ ·) := by
  induction s with
  | nil => simp
  | cons c s ih =>
    simp only [List.mem_cons, not_or] at h
    rw [List.cons_append, formatOne_cons (Ne.symm h.1), ih h.2, Option.map_map]
    rfl

theorem formatOne_of_not_mem {s : Text} (h : '%' ∉ s) (arg : Text) : formatOne arg s = some s := by
  have := formatOne_append h arg []
  simpa [formatOne, formatSkip] using this

theorem formatOne_directive (arg s : Text) :
    formatOne arg (idDirective ++ s) = (formatOne arg s).map (arg ++ ·) := by
  have hprinted : formatString arg [] = some arg := by
    have hfield : padField false 0 arg = arg := by simp [padField]
    exact congrArg some hfield
  have hdirective : directive arg ('1' :: '$' :: 's' :: s) =
      (formatString arg []).map (·, 3) := rfl
  change formatOne arg ('%' :: '1' :: '$' :: 's' :: s) = _
  rw [formatOne_percent, hdirective, hprinted]
  rfl

/-- No mark is left once the only one is replaced. -/
theorem strstr_idDirective {pre post : Text} (hpre : '$' ∉ pre) (hpost : '$' ∉ post) :
    strstr (pre ++ (idDirective ++ post)) idMark = none := by
  have htail : strstr ('s' :: post) idMark = none :=
    strstr_of_not_mem (List.not_mem_cons_of_ne_of_not_mem (by decide) hpost) _
  have hdir : strstr (idDirective ++ post) idMark = none := by
    have hskip : strstr ("%1".toList ++ ('$' :: 's' :: post)) idMark =
        (strstr ('$' :: 's' :: post) idMark).map (· + 2) :=
      strstr_skip (by decide) _ _
    have hdollar : strstr ('$' :: 's' :: post) idMark = (strstr ('s' :: post) idMark).map (· + 1) :=
      rfl
    change strstr ("%1".toList ++ ('$' :: 's' :: post)) idMark = none
    rw [hskip, hdollar, htail]
    rfl
  have hskip := strstr_skip hpre ['I', 'D', '$'] (idDirective ++ post)
  change strstr (pre ++ (idDirective ++ post)) idMark =
    (strstr (idDirective ++ post) idMark).map (· + pre.length) at hskip
  rw [hskip, hdir]
  rfl

/-- A line with one mark, and no other character that is special to the two passes, becomes the
    line with the interface name in the mark's place. -/
theorem iptablesInsertGatewayId_mark (cfg : Config) {pre post : Text} (hpre : '$' ∉ pre)
    (hpost : '$' ∉ post) (hpre' : '%' ∉ pre) (hpost' : '%' ∉ post) :
    iptablesInsertGatewayId cfg (pre ++ (idMark ++ post)) =
      some (pre ++ (cfg.chainId ++ post)) := by
  have hfound : strstr (pre ++ (idMark ++ post)) idMark = some pre.length := by
    have hskip := strstr_skip hpre ['I', 'D', '$'] (idMark ++ post)
    change strstr (pre ++ (idMark ++ post)) idMark =
      (strstr (idMark ++ post) idMark).map (· + pre.length) at hskip
    rw [hskip, strstr_prefix, Option.map_some, Nat.zero_add]
  have hreplaced : ∀ fuel, replaceIds (fuel + 1) (pre ++ (idMark ++ post)) =
      pre ++ (idDirective ++ post) := by
    intro fuel
    have hdrop : (pre ++ (idMark ++ post)).drop (pre.length + idMark.length) = post := by
      rw [← List.append_assoc, ← List.length_append, List.drop_left]
    rw [replaceIds, hfound]
    simp only
    rw [List.take_left, hdrop, List.append_assoc]
    cases fuel with
    | zero => rfl
    | succ fuel => rw [replaceIds, strstr_idDirective hpre hpost]
  unfold iptablesInsertGatewayId
  rw [hfound, if_neg (by simp)]
  have hlen : (pre ++ (idMark ++ post)).length = pre.length + post.length + 3 + 1 := by
    have hmark : idMark.length = 4 := rfl
    rw [List.length_append, List.length_append, hmark]
    omega
  rw [hlen, hreplaced, formatOne_append hpre', formatOne_directive, formatOne_of_not_mem hpost']
  rfl

end Wifidog
