/-
  What the shell makes of a requested host.

  The host of a captured request is text from outside. When a rule of the global ruleset matches
  its end, the whole of it goes into two `iptables` commands: through one more `printf`, as part
  of the format, and then through `sh -c`. Nothing on the way looks at the characters in front
  of the mask. `request_commands_iff` says when both commands are what they are meant to be, one
  simple command with the host as one of its words.
-/
import Wifidog.Portal.Whitelist

namespace Wifidog

open CText

/-- The line is one simple `iptables` command, with the host as the word after `-d`. -/
def HostAsWord (host : Text) (line : Option Text) : Prop :=
  ∃ opts, line.bind shellWords =
    some ("iptables".toList :: opts ++ ["-d".toList, host, "-j".toList, "ACCEPT".toList])

/-- The command that is meant: let everything to the host pass, in the chain of the global
    ruleset. -/
def openHostLine (table id host : Text) : Text :=
  ("iptables -t ".toList ++ table ++ " -A WD_".toList) ++
    (id ++ ("_Global -d ".toList ++ host ++ " -j ACCEPT".toList))

/-! ## Plain words -/

theorem plainWord_iff {w : Text} :
    plainWord w = true ↔ w ≠ [] ∧ ∀ c ∈ w, shellSpecial c = false ∧ isBlank c = false := by
  simp [plainWord, List.all_eq_true]

theorem not_mem_of_plain {w : Text} (h : plainWord w = true) {c : Char}
    (hc : shellSpecial c = true) : c ∉ w := by
  intro hmem
  have := ((plainWord_iff.mp h).2 c hmem).1
  rw [hc] at this
  cases this

theorem words_of_plain {w : Text} (h : plainWord w = true) : words w = [w] := by
  obtain ⟨hne, hall⟩ := plainWord_iff.mp h
  exact words_of_not_blank hne fun c hc => (hall c hc).2

/-- A word that the shell finds in a line is plain. -/
theorem plain_of_mem_shellWords {line w : Text} {ws : List Text} (h : shellWords line = some ws)
    (hw : w ∈ ws) : plainWord w = true := by
  unfold shellWords at h
  split at h
  · cases h
  · next hspecial =>
    obtain rfl := Option.some.inj h
    obtain ⟨hne, hall⟩ := mem_of_mem_words hw
    refine plainWord_iff.mpr ⟨hne, fun c hc => ⟨?_, (hall c hc).1⟩⟩
    have hnone : ∀ d ∈ line, shellSpecial d = false := by simpa using hspecial
    exact hnone c (hall c hc).2

/-! ## The two commands -/

/-- For a plain host the two passes of `printf` give the lines that are meant. -/
theorem fwAllowHost_of_plain (cfg : Config) {host : Text} (h : plainWord host = true) :
    fwAllowHost cfg host = [some (openHostLine "nat".toList cfg.chainId host),
      some (openHostLine "filter".toList cfg.chainId host)] := by
  have hline : ∀ table : Text, '$' ∉ table → '%' ∉ table →
      iptablesInsertGatewayId cfg (("iptables -t ".toList ++ table ++ " -A WD_".toList) ++
        (idMark ++ ("_Global -d ".toList ++ host ++ " -j ACCEPT".toList))) =
        some (openHostLine table cfg.chainId host) := by
    intro table hdollar hpercent
    have hhost : '$' ∉ host := not_mem_of_plain h rfl
    have hhost' : '%' ∉ host := not_mem_of_plain h rfl
    refine iptablesInsertGatewayId_mark cfg ?_ ?_ ?_ ?_
    all_goals simp only [List.mem_append, not_or]
    · exact ⟨⟨by decide, hdollar⟩, by decide⟩
    · exact ⟨⟨by decide, hhost⟩, by decide⟩
    · exact ⟨⟨by decide, hpercent⟩, by decide⟩
    · exact ⟨⟨by decide, hhost'⟩, by decide⟩
  rw [← hline "nat".toList (by decide) (by decide), ← hline "filter".toList (by decide) (by decide)]
  rfl

theorem any_openHostLine {table id host : Text} (htable : table.any shellSpecial = false)
    (hhost : host.any shellSpecial = false) :
    (openHostLine table id host).any shellSpecial = id.any shellSpecial := by
  unfold openHostLine
  simp only [List.any_append, htable, hhost]
  rw [show "iptables -t ".toList.any shellSpecial = false from by decide,
    show " -A WD_".toList.any shellSpecial = false from by decide,
    show "_Global -d ".toList.any shellSpecial = false from by decide,
    show " -j ACCEPT".toList.any shellSpecial = false from by decide]
  simp

/-- The words of the line that is meant. -/
theorem words_openHostLine (table id : Text) {host : Text} (h : plainWord host = true) :
    words (openHostLine table id host) =
      "iptables".toList :: words ("-t ".toList ++ table ++ " -A WD_".toList ++ id ++
        "_Global".toList) ++ ["-d".toList, host, "-j".toList, "ACCEPT".toList] := by
  have hsplit : openHostLine table id host =
      "iptables".toList ++ ' ' :: (("-t ".toList ++ table ++ " -A WD_".toList ++ id ++
        "_Global".toList) ++ ' ' :: ("-d".toList ++ ' ' :: (host ++ ' ' ::
          ("-j".toList ++ ' ' :: "ACCEPT".toList)))) := by
    have hcmd : "iptables -t ".toList = "iptables".toList ++ ' ' :: "-t ".toList := by decide
    have hdst : "_Global -d ".toList = "_Global".toList ++ ' ' :: ("-d".toList ++ [' ']) := by
      decide
    have hjump : " -j ACCEPT".toList = ' ' :: ("-j".toList ++ ' ' :: "ACCEPT".toList) := by decide
    unfold openHostLine
    rw [hcmd, hdst, hjump]
    simp only [List.append_assoc, List.cons_append, List.nil_append]
  rw [hsplit]
  iterate 5 rw [words_append_blank (by decide)]
  rw [words_of_plain h, words_of_plain (by decide : plainWord "iptables".toList = true),
    words_of_plain (by decide : plainWord "-d".toList = true),
    words_of_plain (by decide : plainWord "-j".toList = true),
    words_of_plain (by decide : plainWord "ACCEPT".toList = true)]
  simp

theorem shellWords_openHostLine {table id host : Text} (htable : table.any shellSpecial = false)
    (h : plainWord host = true) : HostAsWord host (some (openHostLine table id host)) ↔
      id.any shellSpecial = false := by
  have hhost : host.any shellSpecial = false := by
    simpa using fun c hc => ((plainWord_iff.mp h).2 c hc).1
  have hspecial : (openHostLine table id host).any shellSpecial = id.any shellSpecial :=
    any_openHostLine htable hhost
  unfold HostAsWord
  rw [Option.bind_some, shellWords, hspecial]
  cases id.any shellSpecial with
  | true => simp
  | false => simp [words_openHostLine table id h]

/-- Both commands carry the host as a word exactly when it is one, and the interface name has no
    special character either. -/
theorem fwAllowHost_hostAsWord_iff (cfg : Config) (host : Text) :
    (∀ line ∈ fwAllowHost cfg host, HostAsWord host line) ↔
      plainWord host = true ∧ cfg.chainId.any shellSpecial = false := by
  constructor
  · intro hall
    -- the host is one of the words of the first line, so it is plain
    have hplain : plainWord host = true := by
      obtain ⟨opts, hwords⟩ := hall _ List.mem_cons_self
      obtain ⟨line, _, hline⟩ := Option.bind_eq_some_iff.mp hwords
      exact plain_of_mem_shellWords hline (by simp)
    rw [fwAllowHost_of_plain cfg hplain] at hall
    exact ⟨hplain, (shellWords_openHostLine (by decide) hplain).mp (hall _ List.mem_cons_self)⟩
  · rintro ⟨hplain, hid⟩ line hline
    rw [fwAllowHost_of_plain cfg hplain] at hline
    simp only [List.mem_cons, List.not_mem_nil, or_false] at hline
    rcases hline with rfl | rfl
    · exact (shellWords_openHostLine (by decide) hplain).mpr hid
    · exact (shellWords_openHostLine (by decide) hplain).mpr hid

/-! ## From the request to the shell -/

theorem callback404Lines_eq (cfg : Config) (online authOnline : Bool) (arp : Option Text)
    (authServer : AuthServ) (r : Request) :
    callback404Lines cfg online authOnline arp authServer r =
      if online && authOnline && (whitelistRule cfg r.host).isSome then fwAllowHost cfg r.host
      else [] := by
  unfold callback404Lines
  rw [httpCallback404_fst]
  cases online && authOnline with
  | false => rfl
  | true => cases whitelistRule cfg r.host <;> rfl

/-- The commands that a request causes are simple `iptables` commands with its host as one word
    if and only if the gateway or the auth server is offline, or no rule of the global ruleset
    matches the host, or neither the host nor the interface name has a character that the shell
    or `printf` would interpret and the host has no blank. -/
theorem request_commands_iff (cfg : Config) (online authOnline : Bool) (arp : Option Text)
    (authServer : AuthServ) (r : Request) :
    (∀ line ∈ callback404Lines cfg online authOnline arp authServer r, HostAsWord r.host line) ↔
      (online && authOnline) = false ∨
      (∀ rule ∈ getRuleset cfg.rulesets fwrulesetGlobal, hostMatches r.host rule.mask = false) ∨
      (plainWord r.host = true ∧ cfg.chainId.any shellSpecial = false) := by
  rw [callback404Lines_eq]
  cases hup : (online && authOnline) with
  | false => simp
  | true =>
    cases hrule : whitelistRule cfg r.host with
    | none =>
      have hnone : ∀ rule ∈ getRuleset cfg.rulesets fwrulesetGlobal,
          hostMatches r.host rule.mask = false := by
        simpa [whitelistRule] using hrule
      simpa using Or.inl hnone
    | some rule =>
      have hmatch : ¬ ∀ rule ∈ getRuleset cfg.rulesets fwrulesetGlobal,
          hostMatches r.host rule.mask = false := by
        intro hnone
        have hfalse := hnone rule (List.mem_of_find?_eq_some hrule)
        have htrue : hostMatches r.host rule.mask = true :=
          List.find?_some (p := fun rule : FirewallRule => hostMatches r.host rule.mask) hrule
        rw [hfalse] at htrue
        cases htrue
      rw [Option.isSome_some, Bool.and_self, if_pos rfl, fwAllowHost_hostAsWord_iff]
      simp [hmatch]

def injectedHost : Text := "x;reboot;.example.com".toList

/-- A host with a command in front of the mask: the shell is given the command. -/
theorem host_runs_command :
    callback404Lines (portalConfig [allowLine]) true true none portalServer
        (topPage injectedHost) =
      [some ("iptables -t nat -A WD_br0_Global -d x;reboot;.example.com -j ACCEPT".toList),
        some ("iptables -t filter -A WD_br0_Global -d x;reboot;.example.com -j ACCEPT".toList)] ∧
      ¬ ∀ line ∈ callback404Lines (portalConfig [allowLine]) true true none portalServer
        (topPage injectedHost), HostAsWord injectedHost line := by
  have hrule : (true && true && (whitelistRule (portalConfig [allowLine])
      (topPage injectedHost).host).isSome) = true := by decide +kernel
  rw [callback404Lines_eq, if_pos hrule]
  refine ⟨by decide +kernel, fun hall => ?_⟩
  have hplain : plainWord injectedHost = true := ((fwAllowHost_hostAsWord_iff _ _).mp hall).1
  have hnot : plainWord injectedHost = false := by decide +kernel
  rw [hnot] at hplain
  cases hplain

end Wifidog
