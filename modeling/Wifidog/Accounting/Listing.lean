/-
  `iptables_fw_counters_update` from the text of the listing to the client records.

  `Lists` says what `iptables -v -n -x -L` prints: two lines, then a row of columns for each rule.
  `counterRows_listed`: the loop around `fscanf` reads every row, with its byte count and its
  address, and no other. `counters_update`: when no two clients have the same address, the pass over
  the Outgoing chain gives every client with access the bytes of its own rule, leaves the others as
  they are and deletes nothing.

  The rows are found by address, the meters by rule; that they agree is where the coherence of chain
  and client list comes in.
-/
import Wifidog.Accounting.Metered
import Wifidog.Network.Kernel

namespace Wifidog

open CText Netfilter Runs Scanf Meters

/-! ## The text -/

/-- The columns behind `pkts`: bytes, target, prot, opt, in, out, source and destination, and for
    the MARK rules of the Outgoing chain the five words about the MAC and the mark. -/
def counterColumns : Direction → List Directive
  | .outgoing =>
    [.unsigned, .word false none, .word false none, .word false none, .word false none,
     .word false none, .set true 15 addressChars, .word false none, .word false none,
     .word false none, .word false none, .word false none, .word false none]
  | .incoming =>
    [.unsigned, .word false none, .word false none, .word false none, .word false none,
     .word false none, .word false none, .set true 15 addressChars]

theorem counterFormat_follows (dir : Direction) :
    Follows (counterFormat dir) (.word false none) (counterColumns dir) := by
  cases dir with
  | outgoing =>
    exact .of_spaced (by simp) (Or.inl rfl) fun s => (fscanf_space_word false none _ s).symm
  | incoming =>
    exact .of_spaced (by simp) (Or.inl rfl) fun s => (fscanf_space_word false none _ s).symm

/-- The output of `iptables -v -n -x -L`, with the address and the byte count of each row. -/
def Lists (dir : Direction) (rows : List (Text × UInt64)) (output : Text) : Prop :=
  ∃ first second body, '\n' ∉ first ∧ '\n' ∉ second ∧
    output = first ++ '\n' :: (second ++ '\n' :: body) ∧
    Table (.word false none :: counterColumns dir) body
      (rows.map fun r => [dec r.2.toNat, r.1])

theorem strtoull_dec (n : UInt64) : strtoull (dec n.toNat) = n := by
  have hvalue : UInt64.ofNat (min (leadingNat (dec n.toNat)) (2 ^ 64 - 1)) = n := by
    have hlt : n.toNat < 2 ^ 64 := n.toNat_lt
    rw [leadingNat_dec, Nat.min_eq_left (by omega), UInt64.ofNat_toNat]
  obtain ⟨c, t, hct, hc⟩ := dec_eq_cons n.toNat
  have hplus : c ≠ '+' := digit_ne hc (by decide)
  have hminus : c ≠ '-' := digit_ne hc (by decide)
  rw [hct] at hvalue ⊢
  unfold strtoull
  split
  · next heq => exact absurd (List.cons.inj heq).1 hminus
  · next heq => exact absurd (List.cons.inj heq).1 hplus
  · exact hvalue

/-- The loop reads the rows, and acts on those whose address `inet_aton` takes. -/
theorem counterRows_listed {dir : Direction} {rows : List (Text × UInt64)} {output : Text}
    (h : Lists dir rows output) (inetAton : Text → Bool) :
    counterRows inetAton dir output = some (rows.filter fun r => inetAton r.1) := by
  obtain ⟨first, second, body, hfirst, hsecond, rfl, htable⟩ := h
  have hfuel : body.length + 1 < (first ++ '\n' :: (second ++ '\n' :: body)).length + 2 := by
    simp only [List.length_append, List.length_cons]
    omega
  obtain ⟨extra, hextra, hread⟩ := readRows_of_table (counterFormat_follows dir) (fun _ => true)
    htable hfuel (Or.inl rfl)
  have hnone : extra.filterMap (counterRow inetAton) = [] := by
    rcases hextra with rfl | rfl <;> rfl
  have hrows : (rows.map fun r => [dec r.2.toNat, r.1]).filterMap (counterRow inetAton) =
      rows.filter fun r => inetAton r.1 := by
    rw [List.filterMap_map, ← List.filterMap_eq_filter]
    refine congrArg (fun f => rows.filterMap f) (funext fun r => ?_)
    simp [counterRow, strtoull_dec, Option.guard]
  unfold counterRows
  rw [Stream.open, skipLine_header hfirst, skipLine_header hsecond, hread, Option.map_some,
    upTo_true, List.filterMap_append, hrows, hnone, List.append_nil]

/-- The loop ends on every output. -/
theorem counterRows_isSome (inetAton : Text → Bool) (dir : Direction) (output : Text) :
    (counterRows inetAton dir output).isSome = true := by
  unfold counterRows
  rw [Option.isSome_map]
  refine readRows_isSome (fun s _ => ?_) ?_
  · cases dir with
    | outgoing => exact progresses_word (by simp) false _ s
    | incoming => exact progresses_word (by simp) false _ s
  · have h1 := length_skipLine (Stream.open output)
    have h2 := length_skipLine (Stream.open output).skipLine
    simp only [Stream.open] at h1 h2 ⊢
    omega

/-! ## The records -/

/-- The lock sections for the rows of a listing. -/
def rowActions (print : Rule Chain → Text) (dir : Direction) (now : Int64)
    (rows : List (Text × UInt64)) : List Action :=
  rows.map fun r => .countersRow print dir r.1 r.2 now

/-- What the rows make of one record. -/
def Client.counted (dir : Direction) (now : Int64) (bytes : Option UInt64) (c : Client) : Client :=
  match bytes with
  | some n => { c with counters := c.counters.read dir n now }
  | none => c

@[simp] theorem Client.counted_ip (dir : Direction) (now : Int64) (bytes : Option UInt64)
    (c : Client) : (c.counted dir now bytes).ip = c.ip := by
  cases bytes <;> rfl

/-- No two clients have the same address. -/
def DistinctIps (cs : List Client) : Prop := cs.Pairwise fun c d => c.ip ≠ d.ip

theorem DistinctIps.unique {cs : List Client} (h : DistinctIps cs) {c d : Client} (hc : c ∈ cs)
    (hd : d ∈ cs) (hip : c.ip = d.ip) : c = d := by
  have hp : cs.Pairwise fun a b => a.ip = b.ip → a = b := h.imp fun hne heq => absurd heq hne
  have hflip : cs.Pairwise (flip fun a b : Client => a.ip = b.ip → a = b) :=
    h.imp fun hne heq => absurd heq.symm hne
  exact hp.forall_of_forall_of_flip (fun _ _ _ => rfl) hflip hc hd hip

section Rows
variable {cfg : Config} {print : Rule Chain → Text} {dir : Direction} {now : Int64}

/-- One row, whose address belongs to a client. -/
theorem row_step {s : State} (hwf : s.list.Wf) (hips : DistinctIps s.list.clients)
    (hcounting : s.sync = .counting) {r : Text × UInt64} (hr : ∃ c ∈ s.list.clients, c.ip = r.1) :
    ∃ s', step cfg s (.countersRow print dir r.1 r.2 now) = some s' ∧
      s' = { s with list := s'.list } ∧
      s'.list.clients = s.list.clients.map fun c =>
        c.counted dir now (if c.ip = r.1 then some r.2 else none) := by
  obtain ⟨c, hc, hip⟩ := hr
  obtain ⟨p1, hf⟩ : ∃ p1, clientListFindByIp s.list r.1 = some p1 := by
    refine Option.isSome_iff_exists.mp (List.find?_isSome.mpr ⟨c, hc, ?_⟩)
    simpa using hip
  obtain ⟨hp1, hp1ip⟩ := mem_of_findByIp hf
  have hrow : step cfg s (.countersRow print dir r.1 r.2 now) = some { s with
      list := clientListWrite s.list { p1 with counters := p1.counters.read dir r.2 now } } := by
    simp only [step, if_pos hcounting, countersRow, hf]
  refine ⟨_, hrow, rfl, ?_⟩
  refine List.map_congr_left fun d hd => ?_
  by_cases hdip : d.ip = r.1
  · obtain rfl := hips.unique hd hp1 (hdip.trans hp1ip.symm)
    rw [if_pos hdip]
    exact if_pos rfl
  · rw [if_neg hdip]
    refine if_neg fun hid => hdip ?_
    rw [hwf.id_inj hd hp1 hid]
    exact hp1ip

/-- All rows of a listing. -/
theorem rows_run {s : State} (hwf : s.list.Wf) (hips : DistinctIps s.list.clients)
    (hcounting : s.sync = .counting) {rows : List (Text × UInt64)}
    (hrows : ∀ r ∈ rows, ∃ c ∈ s.list.clients, c.ip = r.1)
    (hdistinct : (rows.map Prod.fst).Nodup) :
    ∃ s', run (step cfg) s (rowActions print dir now rows) = some s' ∧
      s' = { s with list := s'.list } ∧
      s'.list.clients = s.list.clients.map fun c => c.counted dir now (rows.lookup c.ip) := by
  induction rows generalizing s with
  | nil => exact ⟨s, rfl, rfl, (List.map_id _).symm⟩
  | cons r rows ih =>
    obtain ⟨s1, hstep, hs1, hlist1⟩ := @row_step cfg print dir now s hwf hips hcounting r
      (hrows r List.mem_cons_self)
    rw [List.map_cons, List.nodup_cons] at hdistinct
    have hips1 : DistinctIps s1.list.clients := by
      unfold DistinctIps
      rw [hlist1, List.pairwise_map]
      simp only [Client.counted_ip]
      exact hips
    have hrows1 : ∀ q ∈ rows, ∃ c ∈ s1.list.clients, c.ip = q.1 := by
      intro q hq
      obtain ⟨c, hc, hip⟩ := hrows q (List.mem_cons_of_mem r hq)
      rw [hlist1]
      exact ⟨_, List.mem_map_of_mem hc, by simpa using hip⟩
    obtain ⟨s2, hrun, hs2, hlist2⟩ := ih ((step_effect hstep).wf hwf) hips1
      (by rw [hs1]; exact hcounting) hrows1 hdistinct.2
    refine ⟨s2, run_cons_iff.mpr ⟨s1, hstep, hrun⟩, by rw [hs2, hs1], ?_⟩
    rw [hlist2, hlist1, List.map_map]
    refine List.map_congr_left fun c _ => ?_
    show ((c.counted dir now _).counted dir now _) = _
    rw [Client.counted_ip, List.lookup_cons]
    by_cases hip : c.ip = r.1
    · have hnone : rows.lookup c.ip = none := by
        rw [List.lookup_eq_none_iff]
        intro q hq
        refine bne_iff_ne.mpr fun heq => hdistinct.1 ?_
        rw [← hip, heq]
        exact List.mem_map_of_mem hq
      rw [if_pos hip, hnone, beq_iff_eq.mpr hip]
      rfl
    · rw [if_neg hip, beq_eq_false_iff_ne.mpr hip]
      rfl

end Rows

/-! ## The pass over the Outgoing chain -/

/-- The rows of a chain. -/
def chainRows (chain : List (Meter (Rule Chain))) : List (Text × UInt64) :=
  chain.map fun k => (listedIp k.rule, k.bytes)

/-- The meter of a client's rule. -/
def Client.meter? (c : Client) (chain : List (Meter (Rule Chain))) : Option (Meter (Rule Chain)) :=
  chain.find? fun k => k.rule == c.rule

theorem lookup_chainRows (chain : List (Meter (Rule Chain))) (ip : Text) :
    (chainRows chain).lookup ip =
      (chain.find? fun k => listedIp k.rule == ip).map Meter.bytes := by
  unfold chainRows
  induction chain with
  | nil => rfl
  | cons k chain ih =>
    rw [List.map_cons, List.lookup_cons, List.find?_cons, ih]
    by_cases heq : listedIp k.rule = ip
    · simp [heq]
    · rw [beq_eq_false_iff_ne.mpr heq, beq_eq_false_iff_ne.mpr (Ne.symm heq)]

section Coherent
variable {cs : List Client} {chain : List (Meter (Rule Chain))}
  (hips : DistinctIps cs) (hgrants : (↑(chain.map Meter.rule) : Multiset (Rule Chain)) = grants cs)
include hgrants

theorem rule_of_meter {k : Meter (Rule Chain)} (hk : k ∈ chain) :
    ∃ c ∈ cs, c.granted = true ∧ k.rule = c.rule ∧ listedIp k.rule = c.ip := by
  have hmem : k.rule ∈ grants cs := by
    rw [← hgrants]
    exact Multiset.mem_coe.mpr (List.mem_map_of_mem hk)
  obtain ⟨c, hc, hstate, heq⟩ := mem_grants hmem
  refine ⟨c, hc, bne_iff_ne.mpr hstate, heq, ?_⟩
  rw [heq]
  exact listedIp_ruleFor .outgoing c c.fwConnectionState

include hips

/-- The row with a client's address is that of the client's rule. -/
theorem lookup_eq_meter {c : Client} (hc : c ∈ cs) :
    (chainRows chain).lookup c.ip = (c.meter? chain).map Meter.bytes := by
  rw [lookup_chainRows, Client.meter?, ← List.head?_filter, ← List.head?_filter]
  suffices hsame : chain.filter (fun k => listedIp k.rule == c.ip) =
      chain.filter (fun k => k.rule == c.rule) by rw [hsame]
  refine List.filter_congr fun k hk => ?_
  obtain ⟨d, hd, -, hrule, hip⟩ := rule_of_meter hgrants hk
  rw [Bool.eq_iff_iff, beq_iff_eq, beq_iff_eq, hip]
  constructor
  · intro heq
    rw [hrule, hips.unique hd hc heq]
  · intro heq
    rw [← hip, heq]
    exact listedIp_ruleFor .outgoing c c.fwConnectionState

theorem nodup_chainRows : ((chainRows chain).map Prod.fst).Nodup := by
  have hperm : (chain.map Meter.rule).Perm ((cs.filter Client.granted).map Client.rule) :=
    Multiset.coe_eq_coe.mp hgrants
  have hlisted : (chain.map fun k => listedIp k.rule).Perm
      ((cs.filter Client.granted).map Client.ip) := by
    have hmapped := hperm.map listedIp
    rw [List.map_map, List.map_map] at hmapped
    exact hmapped
  unfold chainRows
  rw [List.map_map]
  refine (hlisted.nodup_iff).mpr ?_
  exact List.pairwise_map.mpr (hips.sublist List.filter_sublist)

end Coherent

/-- From every reachable state, without preventive deletion, in which no two clients have the same
    address: whatever listing of the Outgoing chain `iptables` prints, the pass over it reads for
    each client the bytes of its own rule, which count when they are more than its total less its
    history, and changes nothing else; every client with access has such a rule. -/
theorem counters_update (cfg : Config) {s0 s : State} {as : List Action} (h0 : Fresh s0)
    (hrun : run (step cfg) s0 as = some s)
    (hprev : Along (step cfg) (fun s a => ¬ preventsAt s a) s0 as) (hcounting : s.sync = .counting)
    (hips : DistinctIps s.list.clients) {inetAton : Text → Bool}
    (hinet : ∀ c ∈ s.list.clients, inetAton c.ip = true) {chain : List (Meter (Rule Chain))}
    (hchain : s.tables.view .mangle .outgoing = some (chain.map Meter.rule)) {output : Text}
    (houtput : Lists .outgoing (chainRows chain) output) (print : Rule Chain → Text)
    (now : Int64) :
    ∃ rows s', counterRows inetAton .outgoing output = some rows ∧
      run (step cfg) s (rowActions print .outgoing now rows) = some s' ∧
      s' = { s with list := s'.list } ∧
      s'.list.clients = s.list.clients.map (fun c =>
        c.counted .outgoing now ((c.meter? chain).map Meter.bytes)) ∧
      ∀ c ∈ s.list.clients, (c.meter? chain).isSome = c.granted := by
  obtain ⟨hwf, rs, hview, heq⟩ := run_coherent h0.wf h0.outgoing_eq hrun hprev
  rw [hchain] at hview
  obtain rfl := Option.some.inj hview
  have hclient : ∀ r ∈ chainRows chain, ∃ c ∈ s.list.clients, c.ip = r.1 := by
    intro r hr
    obtain ⟨k, hk, rfl⟩ := List.mem_map.mp hr
    obtain ⟨c, hc, -, -, hip⟩ := rule_of_meter heq hk
    exact ⟨c, hc, hip.symm⟩
  have hall : (chainRows chain).filter (fun r => inetAton r.1) = chainRows chain := by
    refine List.filter_eq_self.mpr fun r hr => ?_
    obtain ⟨c, hc, hip⟩ := hclient r hr
    rw [← hip]
    exact hinet c hc
  obtain ⟨s', hrows, hframe, hlist⟩ := @rows_run cfg print .outgoing now s hwf hips hcounting
    (chainRows chain) hclient (nodup_chainRows hips heq)
  refine ⟨chainRows chain, s', ?_, hrows, hframe, ?_, fun c hc => ?_⟩
  · rw [counterRows_listed houtput, hall]
  · rw [hlist]
    exact List.map_congr_left fun c hc => by rw [lookup_eq_meter hips heq hc]
  · rw [Bool.eq_iff_iff, Client.meter?, List.find?_isSome]
    constructor
    · rintro ⟨k, hk, hrule⟩
      obtain ⟨d, hd, hgranted, hkrule, hip⟩ := rule_of_meter heq hk
      have hsame : d.rule = c.rule := hkrule.symm.trans (beq_iff_eq.mp hrule)
      rw [← hips.unique hd hc (markRule_inj hsame).1]
      exact hgranted
    · intro hgranted
      have hmem : c.rule ∈ grants s.list.clients :=
        Multiset.mem_coe.mpr (List.mem_map_of_mem (List.mem_filter.mpr ⟨hc, hgranted⟩))
      rw [← heq] at hmem
      obtain ⟨k, hk, hrule⟩ := List.mem_map.mp (Multiset.mem_coe.mp hmem)
      exact ⟨k, hk, beq_iff_eq.mpr hrule⟩

/-- The row that `iptables` prints for the client of the small gateway after 3400 bytes. -/
def smallCells : List (Text × Text) :=
  [("      ", "12"), ("     ", "3400"), (" ", "MARK"), ("       ", "all"), ("  ", "--"),
   ("  ", "*"), ("      ", "*"), ("       ", "10.0.0.5"), ("             ", "0.0.0.0/0"),
   ("            ", "MAC"), (" ", "00:16:3E:00:00:0A"), (" ", "MARK"), (" ", "set"),
   (" ", "0x2")].map fun c => (String.toList c.1, String.toList c.2)

def smallListing : Text :=
  "Chain WiFiDog_br0_Outgoing (1 references)".toList ++ '\n' ::
    ("    pkts      bytes target     prot opt in     out     source".toList ++ '\n' ::
      row smallCells ['\n'])

def smallMeter : Meter (Rule Chain) :=
  ⟨1, 1, markRule smallIp smallMac fwMarkKnown, 3400, 0, false⟩

theorem counters_update_small :
    ∃ rows s', counterRows (fun _ => true) .outgoing smallListing = some rows ∧
      run (step smallConfig) (smallRun (smallLogin ++ [.syncStart]))
        (rowActions (fun _ => []) .outgoing 7 rows) = some s' ∧
      s'.list.clients.map Client.counters = [⟨0, 3400, 0, 0, 0, 3400, 7⟩] := by
  have hlists : Lists .outgoing (chainRows [smallMeter]) smallListing :=
    ⟨_, _, _, by decide, by decide, rfl,
      .cons (reads_row (by decide) ⟨'\n', [], rfl, rfl⟩) (.nil (by decide))⟩
  have hprev : Along (step smallConfig) (fun s a => ¬ preventsAt s a) smallStart
      (smallLogin ++ [.syncStart]) := by
    simp [smallLogin, loginActions, Along, preventsAt]
  have hips : DistinctIps (smallRun (smallLogin ++ [.syncStart])).list.clients := by
    unfold DistinctIps
    decide
  obtain ⟨rows, s', hrows, hrun, -, hlist, -⟩ := @counters_update smallConfig smallStart
    (smallRun (smallLogin ++ [.syncStart])) (smallLogin ++ [.syncStart]) smallStart_fresh rfl hprev
    rfl hips (fun _ => true)
    (fun _ _ => rfl) [smallMeter] rfl smallListing hlists (fun _ => []) 7
  refine ⟨rows, s', hrows, hrun, ?_⟩
  rw [hlist]
  decide

end Wifidog
