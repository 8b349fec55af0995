/-
  The preventive deletion and the rules of other clients.

  A row whose address `a` belongs to no client makes `iptables_fw_counters_update` delete every
  rule of both chains whose printed line has `a` somewhere in it. The line of another client's
  rule has its address `b` in it and, for the other end, "0.0.0.0/0". So the deletion takes the
  rules of other clients exactly when `a` is a substring of one of these: 10.0.0.1 is one of
  10.0.0.10 and of 110.0.0.1.

  Between the listing and the row any steps may come, other rows among them.

  Proved: the rules keep their form through every run (`written_run`), what the deletion leaves
  (`rules_row`), and `prevent_own_iff`. A run in which a logout between the listing and the row
  costs another client its rules is `prevent_takes_longer_address`.
-/
import Wifidog.Accounting.Metered
import Wifidog.Model.Mention

namespace Wifidog

open CText Netfilter Runs

/-! ## Addresses and listings -/

/-- `inet_ntoa` -/
def inetNtoa (a b c d : UInt8) : Text :=
  dec a.toNat ++ '.' :: (dec b.toNat ++ '.' :: (dec c.toNat ++ '.' :: dec d.toNat))

def IsAddress (ip : Text) : Prop := ∃ a b c d, ip = inetNtoa a b c d

/-- A hardware address as `arp_get` reads it. -/
def IsMac (mac : Text) : Prop := ∀ x ∈ mac, x.isAlphanum = true ∨ x = ':'

/-- A client as the gateway makes it: the address of a peer, the hardware address of the ARP
    table. -/
structure Client.Peer (c : Client) : Prop where
  ip : IsAddress c.ip
  mac : IsMac c.mac

/-- The network of all addresses, as a listing prints it. -/
def anywhere : Text := "0.0.0.0/0".toList

/-- What `iptables -L -n -v` prints for a rule of `iptables_fw_access`: among its columns the
    address of the client and the network of all addresses have a dot, and no other. -/
def PrintsAddresses (print : Rule Chain → Text) : Prop :=
  ∀ (dir : Direction) (c : Client) (mark : Int), c.Peer → ∀ w,
    w ∈ words (print (ruleFor dir c mark)) ∧ '.' ∈ w ↔ w = c.ip ∨ w = anywhere

/-- The rules of the chain of a direction. -/
def State.clientRules (s : State) (dir : Direction) : List (Rule Chain) :=
  (s.tables.view .mangle dir.chain).getD []

/-- The rules of both chains were written by `iptables_fw_access`, for clients as the gateway
    makes them. -/
structure GatewayWritten (s : State) : Prop where
  rules : ∀ dir, ∀ r ∈ s.clientRules dir,
    ∃ (c : Client) (mark : Int), c.Peer ∧ r = ruleFor dir c mark
  clients : ∀ c ∈ s.list.clients, c.Peer

/-- The addresses that a listing of the chain shows. -/
def State.listed (s : State) (dir : Direction) : List Text := (s.clientRules dir).map listedIp

/-- A request comes from an address of a peer. -/
def Action.FromPeer : Action → Prop
  | .httpCallbackAuth addr arp _ _ _ => IsAddress addr ∧ ∀ mac ∈ arp, IsMac mac
  | _ => True

/-- All that went away between `s` and `s'` are rules for the address `a`; the clients with
    another address have theirs. -/
structure OnlyOwn (a : Text) (s s' : State) : Prop where
  deleted : ∀ dir, (s'.clientRules dir).filter (listedIp · != a) =
    (s.clientRules dir).filter (listedIp · != a)
  remain : ∀ c ∈ s.list.clients, c.ip ≠ a → ∀ dir mark,
    (s'.clientRules dir).count (ruleFor dir c mark) = (s.clientRules dir).count (ruleFor dir c mark)

/-! ## What is written stays of that form -/

/-- A rule of a chain after a deed was there before, or a grant has just added it. -/
theorem Deed.mem_rules (d : Deed) {t : Tables Chain} {dir : Direction} {r : Rule Chain}
    (h : r ∈ ((d.tables t).view .mangle dir.chain).getD []) :
    r ∈ (t.view .mangle dir.chain).getD [] ∨
      ∃ c ∈ d.client?, ∃ mark, r = ruleFor dir c mark := by
  have hsub : ∀ {f : List (Rule Chain) → List (Rule Chain)}, (∀ rs, (f rs).Sublist rs) →
      r ∈ ((t.view .mangle dir.chain).map f).getD [] → r ∈ (t.view .mangle dir.chain).getD [] := by
    intro f hf hr
    cases hview : t.view .mangle dir.chain with
    | none => rw [hview] at hr; cases hr
    | some rs =>
      rw [hview] at hr
      exact (hf rs).subset hr
  cases d with
  | allow c token mark cleared =>
    unfold Deed.tables at h
    rw [view_fwAllow_chain, ruleFor_allowed, ruleFor_allowed] at h
    cases hview : t.view .mangle dir.chain with
    | none => rw [hview] at h; cases h
    | some rs =>
      rw [hview, Option.map_some, Option.getD_some] at h
      have hmem : r ∈ rs ++ [ruleFor dir c mark] := by
        split at h
        · exact List.mem_of_mem_erase h
        · exact h
      rcases List.mem_append.mp hmem with hr | hr
      · exact Or.inl hr
      · exact Or.inr ⟨c, rfl, mark, List.mem_singleton.mp hr⟩
  | deny c token =>
    unfold Deed.tables at h
    rw [view_fwDeny_chain] at h
    exact Or.inl (hsub (fun rs => List.erase_sublist) h)
  | remove c =>
    unfold Deed.tables at h
    rw [view_fwDeny_chain] at h
    exact Or.inl (hsub (fun rs => List.erase_sublist) h)
  | prevent print ip =>
    obtain ⟨f, hf, heq⟩ := view_preventiveDelete print t ip .mangle dir.chain
    have htables : (Deed.prevent print ip).tables t = preventiveDelete print t ip := rfl
    rw [htables, heq] at h
    exact Or.inl (hsub hf h)
  | _ => exact Or.inl h

theorem written_step {cfg : Config} {s s' : State} {a : Action} (h : GatewayWritten s)
    (ha : a.FromPeer) (hstep : step cfg s a = some s') : GatewayWritten s' := by
  obtain ⟨hvalid, hlist, htables⟩ := step_deed hstep
  refine ⟨fun dir r hr => ?_, fun c hc => ?_⟩
  · unfold State.clientRules at hr
    rw [htables] at hr
    rcases Deed.mem_rules _ hr with hr | ⟨c, hc, mark, rfl⟩
    · exact h.rules dir r hr
    · exact ⟨c, mark, h.clients c (hvalid.member c hc), rfl⟩
  · rw [hlist] at hc
    rcases Deed.addresses hvalid hc with ⟨token, now, hadd⟩ | ⟨c0, hc0, hip, hmac⟩
    · obtain ⟨logout, rfl⟩ := deedOf_add hadd
      exact ⟨ha.1, ha.2 c.mac rfl⟩
    · have hpeer := h.clients c0 hc0
      exact ⟨hip ▸ hpeer.ip, hmac ▸ hpeer.mac⟩

theorem written_run {cfg : Config} {s s' : State} {as : List Action} (h : GatewayWritten s)
    (has : ∀ a ∈ as, a.FromPeer) (hrun : run (step cfg) s as = some s') : GatewayWritten s' := by
  induction as generalizing s with
  | nil =>
    obtain rfl : s = s' := by simpa using hrun
    exact h
  | cons a as ih =>
    obtain ⟨s1, h1, h2⟩ := run_cons_iff.mp hrun
    exact ih (written_step h (has a List.mem_cons_self) h1)
      (fun b hb => has b (List.mem_cons_of_mem a hb)) h2

/-! ## What the deletion takes -/

theorem dot_mem_address {ip : Text} (h : IsAddress ip) : '.' ∈ ip := by
  obtain ⟨a, b, c, d, rfl⟩ := h
  exact List.mem_append_right _ List.mem_cons_self

theorem not_blank_of_address {ip : Text} (h : IsAddress ip) : ∀ x ∈ ip, isBlank x = false := by
  have hdigit : ∀ n, ∀ x ∈ dec n, isBlank x = false := by
    intro n x hx
    have hd := isDigit_of_mem_dec hx
    simp [isBlank, digit_ne hd (show Char.isDigit ' ' = false by decide),
      digit_ne hd (show Char.isDigit '\t' = false by decide)]
  obtain ⟨a, b, c, d, rfl⟩ := h
  intro x hx
  simp only [inetNtoa, List.mem_append, List.mem_cons] at hx
  rcases hx with hx | rfl | hx | rfl | hx | rfl | hx
  · exact hdigit _ x hx
  · decide
  · exact hdigit _ x hx
  · decide
  · exact hdigit _ x hx
  · decide
  · exact hdigit _ x hx

/-- The line of a rule has the address in it. -/
def mentions (a : Text) (r : Rule Chain) : Bool :=
  (strstr (listedIp r) a).isSome || (strstr anywhere a).isSome

theorem mentions_iff {a : Text} {r : Rule Chain} :
    mentions a r = true ↔ a <:+: listedIp r ∨ a <:+: anywhere := by
  simp [mentions, strstr_isSome_iff]

theorem strstr_listingLine {print : Rule Chain → Text} (hprint : PrintsAddresses print) {a : Text}
    (ha : IsAddress a) {dir : Direction} {c : Client} (hc : c.Peer) (mark : Int) (num : Nat) :
    (strstr (listingLine print num (ruleFor dir c mark)) a).isSome =
      mentions a (ruleFor dir c mark) := by
  have hdot := dot_mem_address ha
  have hblank := not_blank_of_address ha
  have hne : a ≠ [] := List.ne_nil_of_mem hdot
  rw [Bool.eq_iff_iff, strstr_isSome_iff, mentions_iff, infix_words_iff hne hblank, listingLine,
    words_append_blank (by decide), listedIp_ruleFor]
  constructor
  · rintro ⟨w, hw, hin⟩
    have hwdot : '.' ∈ w := hin.subset hdot
    rcases List.mem_append.mp hw with hw | hw
    · -- the rule number has no dot
      have hmem := ((mem_of_mem_words hw).2 '.' hwdot).2
      exact absurd (isDigit_of_mem_dec hmem) (by decide)
    · rcases (hprint dir c mark hc w).mp ⟨hw, hwdot⟩ with rfl | rfl
      · exact Or.inl hin
      · exact Or.inr hin
  · rintro (hin | hin)
    · exact ⟨c.ip, List.mem_append_right _ ((hprint dir c mark hc c.ip).mpr (Or.inl rfl)).1, hin⟩
    · exact ⟨anywhere, List.mem_append_right _
        ((hprint dir c mark hc anywhere).mpr (Or.inr rfl)).1, hin⟩

/-- The chain of each direction after a row without a client. -/
theorem rules_row {cfg : Config} {print : Rule Chain → Text} (hprint : PrintsAddresses print)
    {s s' : State} (hw : GatewayWritten s) (hfew : FewRules s.tables) {a : Text} (ha : IsAddress a)
    {rowDir : Direction} {counter : UInt64} {now : Int64}
    (hnone : clientListFindByIp s.list a = none)
    (hstep : step cfg s (.countersRow print rowDir a counter now) = some s') (dir : Direction) :
    s'.clientRules dir = (s.clientRules dir).filter fun r => !mentions a r := by
  have htables : s'.tables = preventiveDelete print s.tables a := by
    have hdeed := (step_deed hstep).tables
    rwa [deedOf_countersRow_none cfg hnone] at hdeed
  have hhit : ∀ dir, ∀ r ∈ s.clientRules dir, ∀ num,
      (strstr (listingLine print num r) a).isSome = mentions a r := by
    intro dir r hr num
    obtain ⟨c, mark, hc, rfl⟩ := hw.rules dir r hr
    exact strstr_listingLine hprint ha hc mark num
  -- one chain of `t`, as long as it is the one of `s`
  have hone : ∀ (dir : Direction) (t : Tables Chain),
      t.view .mangle dir.chain = s.tables.view .mangle dir.chain →
      ((iptablesFwDestroyMention print t .mangle dir.chain a).view .mangle dir.chain).getD [] =
        (s.clientRules dir).filter fun r => !mentions a r := by
    intro dir t ht
    cases hview : s.tables.view .mangle dir.chain with
    | none =>
      rw [hview] at ht
      rw [iptablesFwDestroyMention_absent ht, ht, State.clientRules, hview]
      rfl
    | some rs =>
      have hrules : s.clientRules dir = rs := by rw [State.clientRules, hview]; rfl
      rw [hview] at ht
      rw [iptablesFwDestroyMention_eq ht (fun r hr => hhit dir r (hrules ▸ hr))
        (hfew .mangle dir.chain rs hview), Tables.view_setRules ht, if_pos ⟨rfl, rfl⟩, hrules]
      rfl
  have hother : ∀ (ch ch' : Chain), ch ≠ ch' → ∀ t : Tables Chain,
      (iptablesFwDestroyMention print t .mangle ch a).view .mangle ch' = t.view .mangle ch' :=
    fun ch ch' hne t => view_destroyMention_other print a hne _ t
  unfold State.clientRules
  rw [htables]
  unfold preventiveDelete
  dsimp only
  cases dir with
  | outgoing =>
    have h := hone .outgoing s.tables rfl
    simp only [Direction.chain] at h ⊢
    rw [hother .incoming .outgoing (by decide), h]
    rfl
  | incoming =>
    exact hone .incoming _ (hother .outgoing .incoming (by decide) s.tables)

/-! ## The result -/

/-- The listing is read in `s0`; after any steps the row of address `a` finds no client. What it
    deletes is for `a` alone exactly when `a` is neither part of another address that has a rule
    in one of the chains nor of "0.0.0.0/0". -/
theorem prevent_own_iff (cfg : Config) {print : Rule Chain → Text} (hprint : PrintsAddresses print)
    {s0 s s' : State} (hwritten : GatewayWritten s0) {dir : Direction} {a : Text}
    (hlisted : a ∈ s0.listed dir) (as : List Action) (has : ∀ b ∈ as, b.FromPeer)
    (hrun : run (step cfg) s0 as = some s) (hfew : FewRules s.tables)
    (hnone : clientListFindByIp s.list a = none) {counter : UInt64} {now : Int64}
    (hstep : step cfg s (.countersRow print dir a counter now) = some s') :
    OnlyOwn a s s' ↔ ∀ dir', ∀ r ∈ s.clientRules dir', listedIp r ≠ a →
      ¬ a <:+: listedIp r ∧ ¬ a <:+: anywhere := by
  have ha : IsAddress a := by
    obtain ⟨r, hr, rfl⟩ := List.mem_map.mp hlisted
    obtain ⟨c, mark, hc, rfl⟩ := hwritten.rules dir r hr
    rw [listedIp_ruleFor]
    exact hc.ip
  have hrules := rules_row hprint (written_run hwritten has hrun) hfew ha hnone hstep
  constructor
  · intro hown dir' r hr hne
    have hkept : r ∈ (s'.clientRules dir').filter (listedIp · != a) := by
      rw [hown.deleted dir']
      exact List.mem_filter.mpr ⟨hr, by simpa using hne⟩
    have hstays := (List.mem_filter.mp hkept).1
    rw [hrules dir'] at hstays
    have hmiss := (List.mem_filter.mp hstays).2
    rw [← not_or, ← mentions_iff]
    simpa using hmiss
  · intro hcond
    have hmiss : ∀ dir', ∀ r ∈ s.clientRules dir', listedIp r ≠ a → mentions a r = false := by
      intro dir' r hr hne
      have hnot := hcond dir' r hr hne
      rw [← not_or, ← mentions_iff] at hnot
      simpa using hnot
    have hdeleted : ∀ dir',
        (s'.clientRules dir').filter (listedIp · != a) =
          (s.clientRules dir').filter (listedIp · != a) := by
      intro dir'
      rw [hrules dir', List.filter_filter]
      refine List.filter_congr fun r hr => ?_
      by_cases hne : listedIp r = a
      · simp [hne]
      · simp [hmiss dir' r hr hne]
    refine ⟨hdeleted, fun c _ hne dir' mark => ?_⟩
    have hother : (listedIp (ruleFor dir' c mark) != a) = true := by simpa using hne
    have hcount : ∀ rs : List (Rule Chain), rs.count (ruleFor dir' c mark) =
        (rs.filter (listedIp · != a)).count (ruleFor dir' c mark) :=
      fun rs => (List.count_filter (p := (listedIp · != a)) hother).symm
    rw [hcount, hcount (s.clientRules dir'), hdeleted dir']

/-! ## A client whose address is the beginning of another's -/

/-- The columns of a listing: packets, bytes, target, protocol, options, interfaces, source,
    destination, and what the match and the target add. -/
def printColumns (r : Rule Chain) : List Text :=
  let source := r.conds.findSome? fun | .source ip => some ip | _ => none
  let destination := r.conds.findSome? fun | .destination ip => some ip | _ => none
  ["0".toList, "0".toList, if r.target = .accept then "ACCEPT".toList else "MARK".toList,
    "all".toList, "--".toList, "*".toList, "*".toList, source.getD anywhere,
    destination.getD anywhere] ++
  r.conds.filterMap fun | .macSource mac => some ("MAC".toList ++ mac) | _ => none

def printRule (r : Rule Chain) : Text := [' '].intercalate (printColumns r)

/-- Columns without blanks, of which the address and the network have a dot. -/
theorem mem_words_columns {cols : List Text} {ip : Text}
    (hcols : ∀ w ∈ cols, w ≠ [] ∧ (∀ x ∈ w, isBlank x = false) ∧
      ('.' ∈ w → w = ip ∨ w = anywhere))
    (hip : ip ∈ cols ∧ '.' ∈ ip) (hany : anywhere ∈ cols) (w : Text) :
    w ∈ words ([' '].intercalate cols) ∧ '.' ∈ w ↔ w = ip ∨ w = anywhere := by
  rw [words_intercalate fun v hv => ⟨(hcols v hv).1, (hcols v hv).2.1⟩]
  constructor
  · rintro ⟨hw, hdot⟩
    exact (hcols w hw).2.2 hdot
  · rintro (rfl | rfl)
    · exact hip
    · exact ⟨hany, by decide⟩

theorem printRule_addresses : PrintsAddresses printRule := by
  intro dir c mark hc w
  have hdot := dot_mem_address hc.ip
  have hmac : ∀ x ∈ c.mac, isBlank x = false ∧ x ≠ '.' := by
    intro x hx
    rcases hc.mac x hx with halnum | rfl
    · have hne : ∀ y : Char, y.isAlphanum = false → x ≠ y := by
        rintro y hy rfl
        rw [halnum] at hy
        cases hy
      exact ⟨by simp [isBlank, hne ' ' (by decide), hne '\t' (by decide)], hne '.' (by decide)⟩
    · decide
  -- the columns of the address, of the hardware address, and the constant ones
  have hipw : c.ip ≠ [] ∧ (∀ x ∈ c.ip, isBlank x = false) ∧
      ('.' ∈ c.ip → c.ip = c.ip ∨ c.ip = anywhere) :=
    ⟨List.ne_nil_of_mem hdot, not_blank_of_address hc.ip, fun _ => Or.inl rfl⟩
  have hmacw : "MAC".toList ++ c.mac ≠ [] ∧ (∀ x ∈ "MAC".toList ++ c.mac, isBlank x = false) ∧
      ('.' ∈ "MAC".toList ++ c.mac →
        "MAC".toList ++ c.mac = c.ip ∨ "MAC".toList ++ c.mac = anywhere) := by
    refine ⟨by simp, fun x hx => ?_, fun hmem => ?_⟩
    · rcases List.mem_append.mp hx with hx | hx
      · exact (by decide : ∀ x ∈ "MAC".toList, isBlank x = false) x hx
      · exact (hmac x hx).1
    · rcases List.mem_append.mp hmem with hmem | hmem
      · exact absurd hmem (by decide)
      · exact absurd rfl (hmac '.' hmem).2
  have hplain : ∀ v ∈ ["0".toList, "ACCEPT".toList, "MARK".toList, "all".toList, "--".toList,
      "*".toList, anywhere], v ≠ [] ∧ (∀ x ∈ v, isBlank x = false) ∧
      ('.' ∈ v → v = c.ip ∨ v = anywhere) := by
    have hconst : ∀ v ∈ ["0".toList, "ACCEPT".toList, "MARK".toList, "all".toList, "--".toList,
        "*".toList, anywhere], v ≠ [] ∧ (∀ x ∈ v, isBlank x = false) ∧
        ('.' ∈ v → v = anywhere) := by decide
    intro v hv
    exact ⟨(hconst v hv).1, (hconst v hv).2.1, fun h => Or.inr ((hconst v hv).2.2 h)⟩
  have hcols : ∀ v ∈ printColumns (ruleFor dir c mark), v = c.ip ∨ v = "MAC".toList ++ c.mac ∨
      v ∈ ["0".toList, "ACCEPT".toList, "MARK".toList, "all".toList, "--".toList, "*".toList,
        anywhere] := by
    cases dir <;>
      simp [printColumns, ruleFor, markRule, acceptRule]
  have hin : c.ip ∈ printColumns (ruleFor dir c mark) ∧
      anywhere ∈ printColumns (ruleFor dir c mark) := by
    cases dir <;> simp [printColumns, ruleFor, markRule, acceptRule]
  refine mem_words_columns (fun v hv => ?_) ⟨hin.1, hdot⟩ hin.2 w
  rcases hcols v hv with rfl | rfl | hv
  · exact hipw
  · exact hmacw
  · exact hplain v hv

def shortIp : Text := inetNtoa 10 0 0 1
def longIp : Text := inetNtoa 10 0 0 10

/-- Two clients log in and the Outgoing chain is listed. -/
def listingState : State :=
  smallRun (loginActions shortIp "00:16:3e:00:00:01".toList "t1".toList authAllowed ++
    loginActions longIp "00:16:3e:00:00:10".toList "t2".toList authAllowed ++ [.syncStart])

/-- Before its row is handled a client is logged out. -/
def logoutState (ip : Text) : State :=
  (step smallConfig listingState (.wdctlReset ip)).getD listingState

/-- The row for that client. -/
def rowState (ip : Text) : State :=
  (step smallConfig (logoutState ip) (.countersRow printRule .outgoing ip 0 0)).getD listingState

/-- With the client of 10.0.0.1 gone, the row for it deletes the rules of 10.0.0.10, which is
    still in the list. -/
theorem prevent_takes_longer_address :
    shortIp ∈ listingState.listed .outgoing ∧
      run (step smallConfig) listingState [.wdctlReset shortIp] = some (logoutState shortIp) ∧
      clientListFindByIp (logoutState shortIp).list shortIp = none ∧
      step smallConfig (logoutState shortIp) (.countersRow printRule .outgoing shortIp 0 0) =
        some (rowState shortIp) ∧
      (∃ c ∈ (logoutState shortIp).list.clients, c.ip ≠ shortIp ∧
        ruleFor .outgoing c fwMarkKnown ∈ (logoutState shortIp).clientRules .outgoing ∧
        ruleFor .outgoing c fwMarkKnown ∉ (rowState shortIp).clientRules .outgoing) ∧
      ¬ OnlyOwn shortIp (logoutState shortIp) (rowState shortIp) := by
  have hrun : shortIp ∈ listingState.listed .outgoing ∧
      run (step smallConfig) listingState [.wdctlReset shortIp] = some (logoutState shortIp) ∧
      clientListFindByIp (logoutState shortIp).list shortIp = none ∧
      step smallConfig (logoutState shortIp) (.countersRow printRule .outgoing shortIp 0 0) =
        some (rowState shortIp) ∧
      (∃ c ∈ (logoutState shortIp).list.clients, c.ip ≠ shortIp ∧
        ruleFor .outgoing c fwMarkKnown ∈ (logoutState shortIp).clientRules .outgoing ∧
        ruleFor .outgoing c fwMarkKnown ∉ (rowState shortIp).clientRules .outgoing) := by
    decide +kernel
  refine ⟨hrun.1, hrun.2.1, hrun.2.2.1, hrun.2.2.2.1, hrun.2.2.2.2, fun hown => ?_⟩
  obtain ⟨c, hc, hne, hbefore, hafter⟩ := hrun.2.2.2.2
  have hcount := hown.remain c hc hne .outgoing fwMarkKnown
  rw [List.count_eq_zero_of_not_mem hafter] at hcount
  exact List.count_eq_zero.mp hcount.symm hbefore

theorem written_smallStart : GatewayWritten smallStart := by
  refine ⟨fun dir r hr => ?_, fun c hc => ?_⟩
  · cases dir <;> cases hr
  · cases hc

theorem fromPeer_login {ip mac : Text} (hip : IsAddress ip) (hmac : IsMac mac) (token : Text)
    (code : Int) : ∀ a ∈ loginActions ip mac token code, a.FromPeer := by
  intro a ha
  simp only [loginActions, List.mem_cons, List.not_mem_nil, or_false] at ha
  rcases ha with rfl | rfl | rfl | rfl
  · exact ⟨hip, fun m hm => by cases hm; exact hmac⟩
  · trivial
  · trivial
  · trivial

theorem written_listingState : GatewayWritten listingState := by
  have hrun : ∃ s, run (step smallConfig) smallStart
      (loginActions shortIp "00:16:3e:00:00:01".toList "t1".toList authAllowed ++
        loginActions longIp "00:16:3e:00:00:10".toList "t2".toList authAllowed ++
        [.syncStart]) = some s := Option.isSome_iff_exists.mp (by decide +kernel)
  obtain ⟨s, hs⟩ := hrun
  have hstate : listingState = s := by
    unfold listingState smallRun
    rw [hs]
    rfl
  rw [hstate]
  refine written_run written_smallStart (fun a ha => ?_) hs
  rcases List.mem_append.mp ha with ha | ha
  · rcases List.mem_append.mp ha with ha | ha
    · exact fromPeer_login ⟨10, 0, 0, 1, rfl⟩ (by unfold IsMac; decide) _ _ a ha
    · exact fromPeer_login ⟨10, 0, 0, 10, rfl⟩ (by unfold IsMac; decide) _ _ a ha
  · rw [List.mem_singleton.mp ha]
    trivial

/-- The other way round nothing is lost: 10.0.0.10 is no part of 10.0.0.1. -/
theorem prevent_own_longIp : OnlyOwn longIp (logoutState longIp) (rowState longIp) := by
  have hstate : longIp ∈ listingState.listed .outgoing ∧
      run (step smallConfig) listingState [.wdctlReset longIp] = some (logoutState longIp) ∧
      clientListFindByIp (logoutState longIp).list longIp = none ∧
      step smallConfig (logoutState longIp) (.countersRow printRule .outgoing longIp 0 0) =
        some (rowState longIp) ∧
      (∀ tb ∈ [Table.filter, .nat, .mangle], ∀ d ∈ (logoutState longIp).tables.chains tb,
        d.2.length < 10 ^ 9) ∧
      ∀ dir ∈ [Direction.outgoing, .incoming], ∀ r ∈ (logoutState longIp).clientRules dir,
        listedIp r ≠ longIp → ¬ longIp <:+: listedIp r ∧ ¬ longIp <:+: anywhere := by
    decide +kernel
  obtain ⟨hlisted, hrun, hnone, hstep, hfew, hcond⟩ := hstate
  refine (prevent_own_iff smallConfig printRule_addresses written_listingState hlisted
    [.wdctlReset longIp] ?_ hrun (fewRules_of_chains hfew) hnone hstep).mpr ?_
  · intro b hb
    rw [List.mem_singleton.mp hb]
    trivial
  · intro dir
    exact hcond dir (by cases dir <;> decide)

end Wifidog
