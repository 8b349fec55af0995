/-
  The command line of a restarted gateway.

  `restartargv` has a place for every word of `argv`, and three more for `-x`, the pid and NULL. It
  is filled option by option: a bundle of letters and an argument attached to its letter are one
  word of `argv` and make several entries, while `-f`, `-x` and its argument, `--` and whatever
  follows the options make none. `restart_argv_iff` counts both. What the entries say is never
  wrong: `parseOptions_kept` shows that the options that are left out do not matter to the settings
  that a restart has to keep.
-/
import Wifidog.Model.Options

namespace Wifidog

open CText Getopt

/-! ## Options that are kept -/

/-- The options with `skiponrestart`. -/
def skipped (c : Char) : Bool := c == 'f' || c == 'x'

def keptOptions (opts : List Opt) : List Opt := opts.filter fun o => !skipped o.1

/-- The entries an option makes in `restartargv`. -/
def restartEntries (o : Opt) : Nat :=
  if skipped o.1 then 0 else if o.2.isSome then 2 else 1

/-- An accepted option sets the same fields whatever the other settings are, and the ones that
    are kept only if it is not skipped. -/
theorem commandOption_kept {s s' : Settings} {c : Char} {optarg : Option Text} {skip : Bool}
    (h : commandOption s c optarg = some (s', skip)) :
    skip = skipped c ∧ (skip = true → s'.toKeptSettings = s.toKeptSettings) ∧
      ∀ t : Settings, t.toKeptSettings = s.toKeptSettings →
        ∃ t', commandOption t c optarg = some (t', skip) ∧
          t'.toKeptSettings = s'.toKeptSettings := by
  unfold commandOption at h
  -- one case for every branch of the switch that comes back
  split at h <;> cases h <;> refine ⟨rfl, by simp, ?_⟩ <;> rintro ⟨kept, _, _, _⟩ rfl <;>
    exact ⟨_, rfl, rfl⟩

theorem parseOptions_append (s : Settings) (argv : List (Option Text)) (opts more : List Opt) :
    parseOptions s argv (opts ++ more) =
      (parseOptions s argv opts).bind fun r => parseOptions r.1 r.2 more := by
  induction opts generalizing s argv with
  | nil => rfl
  | cons o opts ih =>
    rw [List.cons_append, parseOptions, parseOptions]
    cases commandOption s o.1 o.2 with
    | none => rfl
    | some r => exact ih r.1 _

/-- The entries are the options that are not skipped, and these alone set what is kept. -/
theorem parseOptions_kept {s s' : Settings} {argv argv' : List (Option Text)} {opts : List Opt}
    (h : parseOptions s argv opts = some (s', argv')) :
    argv' = argv ++ ((keptOptions opts).flatMap written).map some ∧
      ∀ (t : Settings) (argv₀ : List (Option Text)), t.toKeptSettings = s.toKeptSettings →
        ∃ t' argv₁, parseOptions t argv₀ (keptOptions opts) = some (t', argv₁) ∧
          t'.toKeptSettings = s'.toKeptSettings := by
  induction opts generalizing s argv with
  | nil =>
    obtain ⟨rfl, rfl⟩ := Prod.mk.inj (Option.some.inj h)
    exact ⟨by simp [keptOptions], fun t argv₀ ht => ⟨t, argv₀, rfl, ht⟩⟩
  | cons o opts ih =>
    rw [parseOptions] at h
    cases hstep : commandOption s o.1 o.2 with
    | none =>
      rw [hstep] at h
      cases h
    | some r =>
      obtain ⟨s₁, skip⟩ := r
      rw [hstep] at h
      obtain ⟨hskip, hsame, hset⟩ := commandOption_kept hstep
      obtain ⟨hargv, hrest⟩ := ih h
      cases skip with
      | true =>
        have hkept : keptOptions (o :: opts) = keptOptions opts := by
          simp [keptOptions, ← hskip]
        rw [hkept]
        refine ⟨by simpa using hargv, fun t argv₀ ht => ?_⟩
        exact hrest t argv₀ (ht.trans (hsame rfl).symm)
      | false =>
        have hkept : keptOptions (o :: opts) = o :: keptOptions opts := by
          simp [keptOptions, ← hskip]
        rw [hkept]
        refine ⟨by simpa using hargv, fun t argv₀ ht => ?_⟩
        obtain ⟨t₁, ht₁, hkept₁⟩ := hset t ht
        rw [parseOptions, ht₁]
        exact hrest t₁ _ hkept₁

/-- An accepted command line has no `?`. -/
theorem wellFormed_of_accepted {s : Settings} {argv : List (Option Text)} {opts : List Opt}
    {r : Settings × List (Option Text)} (h : parseOptions s argv opts = some r)
    (hopts : ∀ o ∈ opts, o = ('?', none) ∨ WellFormed optstring o) :
    ∀ o ∈ opts, WellFormed optstring o := by
  induction opts generalizing s argv with
  | nil => simp
  | cons o opts ih =>
    rw [parseOptions] at h
    cases hstep : commandOption s o.1 o.2 with
    | none =>
      rw [hstep] at h
      cases h
    | some r =>
      rw [hstep] at h
      intro p hp
      rcases List.mem_cons.mp hp with rfl | hp
      · rcases hopts p List.mem_cons_self with rfl | hwf
        · cases hstep
        · exact hwf
      · exact ih h (fun p hp => hopts p (List.mem_cons_of_mem o hp)) p hp

/-! ## The array -/

theorem appendX_entries (words : List Text) (pid : Nat) :
    appendXRestartargv (words.map some ++ [none, none, none]) pid =
      (words ++ ["-x".toList, dec pid]).map some ++ [none] := by
  have hfirst : (words.map some ++ [none, none, none]).findIdx Option.isNone = words.length := by
    induction words with
    | nil => rfl
    | cons w words ih =>
      rw [List.map_cons, List.cons_append, List.findIdx_cons, ih]
      rfl
  unfold appendXRestartargv
  simp only [hfirst]
  rw [List.set_append_right _ _ (by simp), List.set_append_right _ _ (by simp)]
  simp

theorem execArgv_entries (words : List Text) : execArgv (words.map some ++ [none]) = words := by
  unfold execArgv
  rw [List.takeWhile_append_of_pos (by simp), List.takeWhile_cons_of_neg (by simp)]
  simp [List.filterMap_map]

theorem length_entries (opts : List Opt) :
    ((keptOptions opts).flatMap written).length = (opts.map restartEntries).sum := by
  induction opts with
  | nil => rfl
  | cons o opts ih =>
    obtain ⟨c, optarg⟩ := o
    unfold keptOptions at ih ⊢
    rw [List.map_cons, List.sum_cons, ← ih]
    cases hskip : skipped c with
    | true => simp [hskip, restartEntries]
    | false =>
      rw [List.filter_cons_of_pos (by simp [hskip]), List.flatMap_cons, List.length_append]
      cases optarg <;> simp [hskip, restartEntries, written]

/-- The restart command line fits its array, and sets what the command line set and the pid. -/
def RestartFaithful (s : Settings) (argv0 : Text) (args : List Text) (pid : Nat) (s' : Settings)
    (restartargv : List (Option Text)) : Prop :=
  (appendXRestartargv restartargv pid).length ≤ restartSlots args ∧
    ∃ args' s'' restartargv', execArgv (appendXRestartargv restartargv pid) = argv0 :: args' ∧
      parseCommandline s argv0 args' = some (s'', restartargv') ∧
      s''.toKeptSettings = s'.toKeptSettings ∧ s''.restartOrigPid = pid

/-- `getopt` reads back what is written for the restart. -/
theorem getopt_restart {opts : List Opt} (hwf : ∀ o ∈ opts, WellFormed optstring o) (pid : Nat) :
    getopt optstring ((keptOptions opts).flatMap written ++ ["-x".toList, dec pid]) =
      keptOptions opts ++ [('x', some (dec pid))] := by
  have hlast : (keptOptions opts).flatMap written ++ ["-x".toList, dec pid] =
      (keptOptions opts ++ [('x', some (dec pid))]).flatMap written := by
    simp [written]
  have hall : ∀ o ∈ keptOptions opts ++ [('x', some (dec pid))], WellFormed optstring o := by
    intro o ho
    rcases List.mem_append.mp ho with ho | ho
    · exact hwf o (List.mem_of_mem_filter ho)
    · rw [List.mem_singleton.mp ho]
      rfl
  have hread := getopt_written (by rfl) hall []
  rwa [List.append_nil, ← hlast, show getopt optstring [] = [] from rfl, List.append_nil] at hread

/-- For every accepted command line: the restart command line is faithful if the options that are
    not skipped and their arguments are no more than the words of `argv` behind `argv[0]`, and only
    then. -/
theorem restart_argv_iff {s : Settings} {argv0 : Text} {args : List Text} {s' : Settings}
    {restartargv : List (Option Text)}
    (h : parseCommandline s argv0 args = some (s', restartargv)) {pid : Nat} (hpid : pid < 2 ^ 31) :
    RestartFaithful s argv0 args pid s' restartargv ↔
      ((getopt optstring args).map restartEntries).sum ≤ args.length := by
  unfold parseCommandline at h
  cases hparse : parseOptions s [some argv0] (getopt optstring args) with
  | none =>
    rw [hparse] at h
    cases h
  | some r =>
    obtain ⟨s₁, argv₁⟩ := r
    rw [hparse] at h
    obtain ⟨rfl, rfl⟩ := Prod.mk.inj (Option.some.inj h)
    obtain ⟨hargv, hagain⟩ := parseOptions_kept hparse
    have hwf := wellFormed_of_accepted hparse (mem_getoptFrom (by simp))
    have hcount := length_entries (getopt optstring args)
    generalize getopt optstring args = opts at *
    have hentries : argv₁ ++ [none, none, none] =
        (argv0 :: (keptOptions opts).flatMap written).map some ++ [none, none, none] := by
      rw [hargv]
      rfl
    obtain ⟨t, argv₂, ht, hkept⟩ := hagain s [some argv0] rfl
    have hfaithful : ∃ args' s'' restartargv',
        execArgv (appendXRestartargv (argv₁ ++ [none, none, none]) pid) = argv0 :: args' ∧
          parseCommandline s argv0 args' = some (s'', restartargv') ∧
          s''.toKeptSettings = s₁.toKeptSettings ∧ s''.restartOrigPid = pid := by
      refine ⟨(keptOptions opts).flatMap written ++ ["-x".toList, dec pid],
        { t with restartOrigPid := atoi (dec pid) }, argv₂ ++ [none, none, none], ?_, ?_, hkept,
        atoi_dec hpid⟩
      · rw [hentries, appendX_entries, execArgv_entries]
        rfl
      · unfold parseCommandline
        rw [getopt_restart hwf, parseOptions_append, ht]
        rfl
    unfold RestartFaithful restartSlots
    rw [and_iff_left hfaithful, hentries, appendX_entries]
    simp only [List.length_append, List.length_map, List.length_cons, List.length_nil, hcount]
    omega

/-- The settings before the command line is read. -/
def defaultSettings : Settings where
  configfile := "/etc/wifidog.conf".toList
  wdctlSock := "/tmp/wdctl.sock".toList
  internalSock := "/tmp/wifidog.sock".toList
  arpTablePath := "/proc/net/arp".toList
  pidfile := none
  debuglevel := 6
  logSyslog := false
  logStderr := true
  daemon := true
  restartOrigPid := 0

/-- With `-sf -d 7 -c ./conf` a restart sets the same. -/
theorem restart_argv_bundled :
    ∃ s' restartargv,
      parseCommandline defaultSettings "wifidog".toList
          ["-sf".toList, "-d".toList, "7".toList, "-c".toList, "./conf".toList] =
        some (s', restartargv) ∧
      RestartFaithful defaultSettings "wifidog".toList
        ["-sf".toList, "-d".toList, "7".toList, "-c".toList, "./conf".toList] 4711 s' restartargv :=
  ⟨_, _, rfl, (restart_argv_iff rfl (by decide)).mpr (by decide)⟩

/-- With `-d7` the last NULL is written behind the array. -/
theorem attached_argument_overflows :
    ∃ s' restartargv,
      parseCommandline defaultSettings "wifidog".toList ["-d7".toList] = some (s', restartargv) ∧
      appendXRestartargv restartargv 4711 =
        [some "wifidog".toList, some "-d".toList, some "7".toList, some "-x".toList,
          some "4711".toList, none] ∧
      restartSlots ["-d7".toList] = 5 ∧
      ¬ RestartFaithful defaultSettings "wifidog".toList ["-d7".toList] 4711 s' restartargv :=
  ⟨_, _, rfl, rfl, rfl, fun h => absurd h.1 (by decide)⟩

end Wifidog
