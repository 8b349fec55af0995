/-
  The settings that the options of a block make.

  What an option does with two values is the same in every block or in none, so it can be asked of
  one block: `Loop.opened` is the reader in a block that has just begun, behind the text
  `Loop.opening`. `SameSetting` asks it there; what it comes to is `SameMeaning`, option by option
  (`sameSetting_iff`). A setting can be seen in the configuration when the file ends
  (`seen_at_end`).
-/
import Wifidog.Config.Lines
import Wifidog.Model.Process

namespace Wifidog

open CText

/-! ## Rules -/

theorem parseFirewallRule_snd (rs : Rulesets) (name line : Text) :
    (parseFirewallRule rs name line).2 =
      match ruleOf line with
      | none => rs
      | some rule => appendRule rs name rule := by
  unfold parseFirewallRule ruleOf
  cases scanFirewallRule line <;> rfl

/-- The rule of a line can be seen in its ruleset. -/
theorem ruleOf_eq_of_parse {name line line' : Text}
    (h : (parseFirewallRule [] name line).2 = (parseFirewallRule [] name line').2) :
    ruleOf line = ruleOf line' := by
  rw [parseFirewallRule_snd, parseFirewallRule_snd] at h
  cases hr : ruleOf line with
  | none =>
    cases hr' : ruleOf line' with
    | none => rfl
    | some rule' => simp [hr, hr', appendRule] at h
  | some rule =>
    cases hr' : ruleOf line' with
    | none => simp [hr, hr', appendRule] at h
    | some rule' =>
      simp only [hr, hr', appendRule, List.cons.injEq, Prod.mk.injEq, and_true, true_and] at h
      rw [h]

theorem appendRule_ne_nil (rs : Rulesets) (name : Text) (rule : FirewallRule) :
    appendRule rs name rule ≠ [] := by
  cases rs with
  | nil => simp [appendRule]
  | cons s rest =>
    unfold appendRule
    split <;> simp

/-! ## A block that has begun -/

/-- The text in front of a line of the loop. At top level it sets a password, without which no user
    name is accepted. -/
def Loop.opening : Loop → Text
  | .configRead => "HTTPDPassword p \n".toList
  | .parseAuthServer => "AuthServer \x7b\nHostname h\n".toList
  | .parseFirewallRuleset => "FirewallRuleSet global \x7b\n".toList

/-- The fields of an auth server with a host name and nothing else. -/
def hostOnly : AuthFields := { AuthFields.defaults with host := some ['h'] }

/-- The configuration with a password and nothing else. -/
def passwordOnly : FileConfig := { configInit with httpdpassword := some ['p'] }

/-- The reader behind it. -/
def Loop.opened : Loop → Reader
  | .configRead => ⟨passwordOnly, .top⟩
  | .parseAuthServer => ⟨configInit, .authServer hostOnly⟩
  | .parseFirewallRuleset => ⟨configInit, .ruleset fwrulesetGlobal⟩

theorem Reader.option_authServer (cfg : FileConfig) (f : AuthFields) (p1 p2 : Text) :
    Reader.option ⟨cfg, .authServer f⟩ p1 p2 =
      (authServerOption f (configParseToken p1) p2).map fun f => ⟨cfg, .authServer f⟩ := rfl

theorem Reader.option_ruleset (cfg : FileConfig) (name p1 p2 : Text) :
    Reader.option ⟨cfg, .ruleset name⟩ p1 p2 =
      if configParseToken p1 = .firewallRule then
        some ⟨{ cfg with rulesets := (parseFirewallRule cfg.rulesets name p2).2 }, .ruleset name⟩
      else none := by
  unfold Reader.option
  simp only
  cases configParseToken p1 <;> rfl

/-- The setting that the option makes of `v` it makes of `v'`. -/
def SameSetting (loop : Loop) (word v v' : Text) : Prop :=
  ∀ r', loop.opened.option word v = some r' → loop.opened.option word v' = some r'

theorem parseBooleanValue_cases (v : Text) :
    parseBooleanValue v = 1 ∨ parseBooleanValue v = 0 ∨ parseBooleanValue v = -1 := by
  unfold parseBooleanValue
  repeat' split
  all_goals simp

theorem authServerOption_same {f : AuthFields} {op : OpCode} {v v' : Text}
    (h : ∀ g, authServerOption f op v = some g → authServerOption f op v' = some g)
    (f' : AuthFields) :
    ∀ g, authServerOption f' op v = some g → authServerOption f' op v' = some g := by
  intro g hg
  cases op with
  | authServSSLAvailable =>
    simp only [authServerOption] at h hg ⊢
    by_cases hneg : parseBooleanValue v < 0
    · simp [hneg] at hg
    · have hsame : 0 ≤ parseBooleanValue v' ∧ parseBooleanValue v' = parseBooleanValue v := by
        simpa [hneg] using h
      rwa [hsame.2]
  | _ => simp_all [authServerOption]

/-- It does so in every block. -/
theorem Reader.option_same {r r' : Reader} {word v v' : Text}
    (h : SameSetting r.mode.loop word v v') (hv : r.option word v = some r') :
    r.option word v' = some r' := by
  obtain ⟨cfg, mode⟩ := r
  unfold SameSetting at h
  cases mode with
  | top => cases hv
  | authServer f =>
    simp only [Mode.loop, Loop.opened, Reader.option_authServer, Option.map_eq_some_iff] at h hv ⊢
    obtain ⟨g, hg, hr'⟩ := hv
    refine ⟨g, authServerOption_same (f := hostOnly) ?_ f g hg, hr'⟩
    intro k hk
    obtain ⟨k', hk', heq⟩ := h _ ⟨k, hk, rfl⟩
    cases heq
    exact hk'
  | ruleset name =>
    simp only [Mode.loop, Loop.opened, Reader.option_ruleset] at h hv ⊢
    by_cases hop : configParseToken word = .firewallRule
    · rw [if_pos hop] at hv ⊢
      have hsame := h _ (if_pos hop)
      rw [if_pos hop] at hsame
      have hrule := ruleOf_eq_of_parse
        (congrArg (fun r => r.config.rulesets) (Option.some.inj hsame))
      rw [parseFirewallRule_snd, hrule, ← parseFirewallRule_snd]
      exact hv
    · rw [if_neg hop] at hv
      cases hv

theorem authServerOption_none {f : AuthFields} {op : OpCode} {v : Text}
    (h : authServerOption f op v = none) (f' : AuthFields) : authServerOption f' op v = none := by
  cases op with
  | authServSSLAvailable =>
    simp only [authServerOption, ite_eq_left_iff, reduceCtorEq, imp_false, not_not] at h ⊢
    exact h
  | _ => simp_all [authServerOption]

/-- Nor does it depend on the block whether an option is rejected. -/
theorem Reader.option_none {r : Reader} {word v : Text}
    (h : r.mode.loop.opened.option word v = none) : r.option word v = none := by
  obtain ⟨cfg, mode⟩ := r
  cases mode with
  | top => rfl
  | authServer f =>
    simp only [Mode.loop, Loop.opened, Reader.option_authServer, Option.map_eq_none_iff] at h ⊢
    exact authServerOption_none h f
  | ruleset name =>
    simp only [Mode.loop, Loop.opened, Reader.option_ruleset, ite_eq_right_iff, reduceCtorEq,
      imp_false] at h ⊢
    exact h

/-! ### Option by option -/

/-- The option takes `v` and `v'` for the same: a text as it stands, a port for the number in front,
    `SSLAvailable` for yes or no, a rule for what is read from it. Any other option is rejected
    with every value. -/
def SameMeaning (loop : Loop) (op : OpCode) (v v' : Text) : Prop :=
  match loop, op with
  | .parseAuthServer, .authServHostname | .parseAuthServer, .authServPath
  | .parseAuthServer, .authServLoginScriptPathFragment
  | .parseAuthServer, .authServPortalScriptPathFragment
  | .parseAuthServer, .authServMsgScriptPathFragment
  | .parseAuthServer, .authServPingScriptPathFragment
  | .parseAuthServer, .authServAuthScriptPathFragment => v' = v
  | .parseAuthServer, .authServSSLPort | .parseAuthServer, .authServHTTPPort => atoi v' = atoi v
  | .parseAuthServer, .authServSSLAvailable =>
    parseBooleanValue v = -1 ∨ parseBooleanValue v' = parseBooleanValue v
  | .parseFirewallRuleset, .firewallRule => ruleOf v' = ruleOf v
  | _, _ => True

/-- The option does not take the value. -/
def Refused (loop : Loop) (op : OpCode) (v : Text) : Prop :=
  match loop, op with
  | .parseAuthServer, .authServHostname | .parseAuthServer, .authServPath
  | .parseAuthServer, .authServLoginScriptPathFragment
  | .parseAuthServer, .authServPortalScriptPathFragment
  | .parseAuthServer, .authServMsgScriptPathFragment
  | .parseAuthServer, .authServPingScriptPathFragment
  | .parseAuthServer, .authServAuthScriptPathFragment
  | .parseAuthServer, .authServSSLPort | .parseAuthServer, .authServHTTPPort
  | .parseFirewallRuleset, .firewallRule => False
  | .parseAuthServer, .authServSSLAvailable => parseBooleanValue v = -1
  | _, _ => True

theorem parseBooleanValue_neg_iff (v : Text) :
    parseBooleanValue v < 0 ↔ parseBooleanValue v = -1 := by
  rcases parseBooleanValue_cases v with h | h | h <;> simp [h]

theorem sameSetting_authServer (word v v' : Text) :
    SameSetting .parseAuthServer word v v' ↔
      ∀ g, authServerOption hostOnly (configParseToken word) v = some g →
        authServerOption hostOnly (configParseToken word) v' = some g := by
  unfold SameSetting
  simp only [Loop.opened, Reader.option_authServer]
  constructor
  · intro h g hg
    obtain ⟨g', hg', heq⟩ := Option.map_eq_some_iff.mp (h _ (by rw [hg]; rfl))
    cases heq
    exact hg'
  · intro h r' hr'
    obtain ⟨g, hg, rfl⟩ := Option.map_eq_some_iff.mp hr'
    rw [h g hg]
    rfl

/-- What `SameSetting` asks of an option. -/
theorem sameSetting_iff (loop : Loop) (word v v' : Text) :
    SameSetting loop word v v' ↔ SameMeaning loop (configParseToken word) v v' := by
  cases loop with
  | configRead =>
    refine iff_of_true (fun r' hr' => ?_) ?_
    · cases hr'
    · unfold SameMeaning
      cases configParseToken word <;> trivial
  | parseAuthServer =>
    rw [sameSetting_authServer]
    generalize configParseToken word = op
    cases op with
    | authServSSLAvailable =>
      simp only [authServerOption, SameMeaning, parseBooleanValue_neg_iff]
      by_cases hv : parseBooleanValue v = -1
      · simp [hv]
      · by_cases hv' : parseBooleanValue v' = -1
        · simp [hv, hv', Ne.symm hv]
        · simp [hv, hv']
    | _ => simp [authServerOption, SameMeaning]
  | parseFirewallRuleset =>
    unfold SameSetting
    simp only [Loop.opened, Reader.option_ruleset]
    generalize configParseToken word = op
    by_cases hop : op = .firewallRule
    · subst hop
      simp only [if_true, SameMeaning]
      constructor
      · intro h
        have hsame := h _ rfl
        exact ruleOf_eq_of_parse (congrArg (fun r => r.config.rulesets) (Option.some.inj hsame))
      · intro h r' hr'
        rw [parseFirewallRule_snd, h, ← parseFirewallRule_snd]
        exact hr'
    · refine iff_of_true (fun r' hr' => ?_) ?_
      · rw [if_neg hop] at hr'
        cases hr'
      · cases op with
        | firewallRule => exact absurd rfl hop
        | _ => trivial

/-- When an option is rejected. -/
theorem option_opened_none_iff (loop : Loop) (word v : Text) :
    loop.opened.option word v = none ↔ Refused loop (configParseToken word) v := by
  cases loop with
  | configRead =>
    refine iff_of_true rfl ?_
    unfold Refused
    cases configParseToken word <;> trivial
  | parseAuthServer =>
    rw [Loop.opened, Reader.option_authServer, Option.map_eq_none_iff]
    generalize configParseToken word = op
    cases op with
    | authServSSLAvailable =>
      simp only [authServerOption, Refused, ite_eq_left_iff, reduceCtorEq, imp_false, not_not,
        parseBooleanValue_neg_iff]
    | _ => simp [authServerOption, Refused]
  | parseFirewallRuleset =>
    rw [Loop.opened, Reader.option_ruleset]
    generalize configParseToken word = op
    by_cases hop : op = .firewallRule
    · subst hop
      simp [Refused]
    · rw [if_neg hop]
      refine iff_of_true rfl ?_
      cases op with
      | firewallRule => exact absurd rfl hop
      | _ => trivial

@[simp] theorem Loop.opened_loop (loop : Loop) : loop.opened.mode.loop = loop := by
  cases loop <;> rfl

theorem Reader.blockStep_none {r : Reader} {a tail : Text}
    (h : r.mode.loop.opened.blockStep a tail = none) : r.blockStep a tail = none := by
  unfold Reader.blockStep at h ⊢
  rw [Loop.opened_loop] at h
  cases htext : blockText r.mode.loop.trim (a.dropWhile isBlank) tail with
  | none => simp [htext] at h
  | some p =>
    simp only [htext] at h ⊢
    exact Reader.option_none h

/-! ## Settings are seen -/

theorem addAuthServer_inj {cfg : FileConfig} {f g g' : AuthFields} {op : OpCode} {v v' : Text}
    (hhost : f.host.isSome) (hg : authServerOption f op v = some g)
    (hg' : authServerOption f op v' = some g') (h : addAuthServer cfg g = addAuthServer cfg g') :
    g = g' := by
  obtain ⟨host, hf⟩ := Option.isSome_iff_exists.mp hhost
  cases op with
  | authServSSLAvailable =>
    simp only [authServerOption] at hg hg'
    by_cases hneg : parseBooleanValue v < 0
    · simp [hneg] at hg
    · by_cases hneg' : parseBooleanValue v' < 0
      · simp [hneg'] at hg'
      · rw [if_neg hneg] at hg
        rw [if_neg hneg'] at hg'
        cases hg
        cases hg'
        simp only [addAuthServer, hf, FileConfig.mk.injEq, List.append_cancel_left_eq,
          List.cons.injEq, FileAuthServ.mk.injEq, AuthServer.mk.injEq, and_true, true_and] at h
        rcases parseBooleanValue_cases v with hb | hb | hb <;>
          rcases parseBooleanValue_cases v' with hb' | hb' | hb' <;> simp_all
  | _ =>
    simp only [authServerOption, Option.some.injEq, reduceCtorEq] at hg hg'
    all_goals
      subst hg
      subst hg'
      simp_all [addAuthServer]

@[simp] theorem addAuthServer_httpdusername (cfg : FileConfig) (f : AuthFields) :
    (addAuthServer cfg f).httpdusername = cfg.httpdusername := by
  unfold addAuthServer
  split <;> rfl

theorem Reader.close_of_no_user {r : Reader} (h : r.config.httpdusername = none) :
    r.close = some r.leave.config := by
  obtain ⟨cfg, mode⟩ := r
  cases mode <;> simp_all [Reader.close, Reader.leave]

theorem Reader.close_leave {r : Reader} (h : r.config.httpdusername = none) :
    r.leave.close = some r.leave.config := by
  obtain ⟨cfg, mode⟩ := r
  cases mode <;> simp_all [Reader.close, Reader.leave]

theorem Reader.close_authServer {cfg : FileConfig} (f : AuthFields)
    (h : cfg.httpdusername = none) :
    Reader.close ⟨cfg, .authServer f⟩ = some (addAuthServer cfg f) :=
  Reader.close_of_no_user h

/-- Where an option makes different settings of two values, the configurations differ when the file
    ends. -/
theorem seen_at_end {loop : Loop} {word v v' : Text} (h : ¬ SameSetting loop word v v') :
    ∃ out, (loop.opened.option word v).bind Reader.close = some out ∧
      (loop.opened.option word v').bind Reader.close ≠ some out := by
  unfold SameSetting at h
  push Not at h
  obtain ⟨r, hr, hne⟩ := h
  rw [hr]
  cases loop with
  | configRead => cases hr
  | parseAuthServer =>
    simp only [Loop.opened, Reader.option_authServer] at hr hne ⊢
    obtain ⟨g, hg, rfl⟩ := Option.map_eq_some_iff.mp hr
    refine ⟨_, Reader.close_authServer g rfl, ?_⟩
    intro hsame
    simp only [Option.bind_eq_some_iff, Option.map_eq_some_iff] at hsame
    obtain ⟨_, ⟨g', hg', rfl⟩, hclose⟩ := hsame
    rw [Reader.close_authServer g' rfl, Option.some.injEq] at hclose
    rw [hg', addAuthServer_inj rfl hg' hg hclose] at hne
    exact hne rfl
  | parseFirewallRuleset =>
    simp only [Loop.opened, Reader.option_ruleset] at hr hne ⊢
    by_cases hop : configParseToken word = .firewallRule
    · rw [if_pos hop] at hr hne ⊢
      refine ⟨r.config, ?_, ?_⟩
      · cases hr
        rfl
      · intro hsame
        rw [Option.bind_some, Reader.close_of_no_user rfl, Option.some.injEq] at hsame
        have hmode : ∀ cfg cfg' : FileConfig, cfg = cfg' →
            some (⟨cfg, .ruleset fwrulesetGlobal⟩ : Reader) =
              some ⟨cfg', .ruleset fwrulesetGlobal⟩ := by
          rintro cfg _ rfl
          rfl
        cases hr
        exact hne (hmode _ _ hsame)
    · rw [if_neg hop] at hr
      cases hr

/-! ## The texts around a line -/

theorem configText_authServer (cfg : FileConfig) :
    configText cfg "AuthServer \x7b".toList = some ⟨cfg, .authServer .defaults⟩ := by
  have hcut : keyAndArgument "AuthServer \x7b".toList =
      some ("AuthServer".toList, "\x7b".toList) := by decide
  have harg : cutArgument ("\x7b".toList.dropWhile (· == ' ')) = "\x7b".toList := by decide
  have hkey : configParseToken "AuthServer".toList = .authServer := by decide
  unfold configText
  simp only [hcut, harg, hkey]
  rfl

theorem step_authServer (cfg : FileConfig) :
    Reader.step ⟨cfg, .top⟩ ("AuthServer \x7b".toList ++ ['\n']) =
      some ⟨cfg, .authServer .defaults⟩ := by
  rw [Reader.step_top, configText_authServer]

theorem configText_ruleset (cfg : FileConfig) :
    configText cfg "FirewallRuleSet global \x7b".toList = some ⟨cfg, .ruleset fwrulesetGlobal⟩ := by
  have hcut : keyAndArgument "FirewallRuleSet global \x7b".toList =
      some ("FirewallRuleSet".toList, "global \x7b".toList) := by decide
  have harg : cutArgument ("global \x7b".toList.dropWhile (· == ' ')) = fwrulesetGlobal := by decide
  have hkey : configParseToken "FirewallRuleSet".toList = .firewallRuleSet := by decide
  unfold configText
  simp only [hcut, harg, hkey]
  rfl

theorem configText_password (cfg : FileConfig) : configText cfg "HTTPDPassword p ".toList =
    some ⟨{ cfg with httpdpassword := some ['p'] }, .top⟩ := by
  have hcut : keyAndArgument "HTTPDPassword p ".toList =
      some ("HTTPDPassword".toList, "p ".toList) := by decide
  have harg : cutArgument ("p ".toList.dropWhile (· == ' ')) = ['p'] := by decide
  have hkey : configParseToken "HTTPDPassword".toList = .httpdPassword := by decide
  unfold configText
  simp only [hcut, harg, hkey]
  rfl

/-- A line of a block without a comment. -/
theorem Reader.step_plain {r : Reader} (hblock : r.mode.loop ≠ .configRead) {line : Text}
    (hchars : ∀ c ∈ line, c ≠ '#' ∧ c ≠ '\r' ∧ c ≠ '\n' ∧ c ≠ '\x00' ∧ c ≠ '}')
    (hlen : line.length + 1 < r.mode.limit) :
    r.step (line ++ ['\n']) = r.blockStep line [] := by
  have hcut : CutAt '\n' line [] := by
    refine Or.inr (Or.inr ⟨rfl, ?_, ?_, ?_⟩)
    · rw [List.append_nil]
      exact fun h => (hchars _ h).1 rfl
    · rw [List.append_nil]
      exact fun h => (hchars _ h).2.1 rfl
    · exact fun h => (hchars _ h).2.2.1 rfl
  have hnul : '\x00' ∉ line ++ [] := by
    rw [List.append_nil]
    exact fun h => (hchars _ h).2.2.2.1 rfl
  have hlimit := r.mode.loop.limit_le
  rw [← Mode.limit_eq] at hlimit
  rw [Reader.step_text hblock hcut hnul (by simp; omega), if_neg]
  rw [List.mem_append, not_or]
  exact ⟨fun h => (hchars _ h).2.2.2.2 rfl, by decide⟩

theorem readTo_opening (loop : Loop) :
    readTo ⟨configInit, .top⟩ loop.opening = some loop.opened := by
  cases loop with
  | configRead =>
    have hfirst : Reader.step ⟨configInit, .top⟩ ("HTTPDPassword p ".toList ++ ['\n']) =
        some ⟨passwordOnly, .top⟩ := by
      rw [Reader.step_top, configText_password]
      rfl
    have hshape : Loop.opening .configRead = "HTTPDPassword p ".toList ++ '\n' :: [] := by decide
    rw [hshape]
    exact (readTo_step (by decide) (by decide) hfirst _).trans (readTo_nil _)
  | parseAuthServer =>
    have hsecond : Reader.step ⟨configInit, .authServer .defaults⟩ ("Hostname h".toList ++ ['\n']) =
        some ⟨configInit, .authServer hostOnly⟩ := by
      have htext : blockText true ("Hostname h".toList.dropWhile isBlank) [] =
          some ("Hostname".toList, ['h']) := by decide
      have hkey : configParseToken "Hostname".toList = .authServHostname := by decide
      have hstep : Reader.step ⟨configInit, .authServer .defaults⟩
          ("Hostname h".toList ++ ['\n']) =
          Reader.blockStep ⟨configInit, .authServer .defaults⟩ "Hostname h".toList [] :=
        Reader.step_plain (by decide) (by decide) (by decide)
      rw [hstep, Reader.blockStep_text ⟨_, .authServer _⟩ htext, Reader.option_authServer, hkey]
      rfl
    have hshape : Loop.opening .parseAuthServer =
        "AuthServer \x7b".toList ++ '\n' :: ("Hostname h".toList ++ '\n' :: []) := by decide
    calc readTo ⟨configInit, .top⟩ (Loop.opening .parseAuthServer)
        = readTo ⟨configInit, .authServer .defaults⟩ ("Hostname h".toList ++ '\n' :: []) := by
          rw [hshape]
          exact readTo_step (by decide) (by decide) (step_authServer _) _
      _ = readTo ⟨configInit, .authServer hostOnly⟩ [] :=
          readTo_step (by decide) (by decide) hsecond _
      _ = some (Loop.opened .parseAuthServer) := readTo_nil _
  | parseFirewallRuleset =>
    have hfirst : Reader.step ⟨configInit, .top⟩ ("FirewallRuleSet global \x7b".toList ++ ['\n']) =
        some ⟨configInit, .ruleset fwrulesetGlobal⟩ := by
      rw [Reader.step_top, configText_ruleset]
    have hshape : Loop.opening .parseFirewallRuleset =
        "FirewallRuleSet global \x7b".toList ++ '\n' :: [] := by decide
    rw [hshape]
    exact (readTo_step (by decide) (by decide) hfirst _).trans (readTo_nil _)

theorem Loop.opening_lineStart (loop : Loop) : LineStart loop.opening := by cases loop <;> decide

theorem Loop.opened_no_user (loop : Loop) : loop.opened.config.httpdusername = none := by
  cases loop <;> rfl

theorem configText_word {s : Text} (h : keyAndArgument s = none) (cfg : FileConfig) :
    configText cfg s = some ⟨cfg, .top⟩ := by
  unfold configText
  rw [h]

/-- An option of the block, without a value. -/
def Loop.word : Loop → Text
  | .configRead => []
  | .parseAuthServer => "Hostname".toList
  | .parseFirewallRuleset => "FirewallRule".toList

/-- It is a bare word, and no line of its own at top level. -/
theorem Loop.word_plain {loop : Loop} (h : loop ≠ .configRead) : Bare loop.word ∧
    (∀ c ∈ loop.word, c ≠ '#' ∧ c ≠ '\r' ∧ c ≠ '\n' ∧ c ≠ '\x00' ∧ c ≠ '}') ∧
    loop.word.dropWhile isBlank = loop.word ∧ loop.word.length + 2 < loop.limit := by
  cases loop with
  | configRead => exact absurd rfl h
  | parseAuthServer => decide
  | parseFirewallRuleset => decide

end Wifidog
