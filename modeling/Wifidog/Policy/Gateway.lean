/-
  What becomes of packets while the gateway runs.

  `filter_policy` is about single calls of the firewall code. Here the calls are made by the
  gateway itself: by requests that arrive at its web server, by the sync thread, by control
  commands, by pings and by every connection to an auth server, in any order (`Gateway`).

  `packets_follow_sessions`: in every state that is reached, a packet from the gateway interface
  gets the mark of the session that is listed for its address and MAC, and `runtimePolicy` says
  what becomes of it. Preventive deletion may take the rule of a listed session away; then the
  packet is treated as if there were no session. No packet ever gets a mark that is not that of a
  listed session of its own. An address is exempt only if an auth server had it at the start or
  got it from a lookup of the run (`AddressSeen`).

  Assumed are: no rules of others in mangle PREROUTING when the chains are set up, and MACs as the
  kernel prints them, in lower case. What `Gateway` has no step for is left out: requests that
  overrun a buffer, lookups of pages that overlap, and hosts of the whitelist that are not one
  plain word.

  `Serves` is the invariant, for two relations between the Outgoing chain and the list at once,
  as in `Coherence`.
-/
import Wifidog.Access.Deeds
import Wifidog.Central.Exemption
import Wifidog.Model.Gateway
import Wifidog.Policy.Captive
import Wifidog.Server.Requests

namespace Wifidog

open CText Netfilter Runs

/-! ## Frames -/

theorem view_destroyMention_frame {tb table : Table} {ch chain : Chain}
    (h : ¬ (table = tb ∧ chain = ch)) (print : Rule Chain → Text) (victim : Text) (fuel : Nat)
    (t : Tables Chain) :
    (destroyMention print table chain victim fuel t).view tb ch = t.view tb ch := by
  induction fuel generalizing t with
  | zero => rfl
  | succ fuel ih =>
    unfold destroyMention
    split
    · rfl
    · next num _ =>
      have hno : Command.touches tb ch (⟨table, .deleteAt chain num⟩ : Command Chain) = false := by
        rw [← Bool.not_eq_true]
        simp only [Command.touches, Bool.and_eq_true, decide_eq_true_eq]
        exact h
      rw [ih, Tables.view_exec t (by simp [Command.NoJump]), hno]
      rfl

theorem view_preventiveDelete_other {tb : Table} {ch : Chain} (h : Foreign tb ch)
    (print : Rule Chain → Text) (t : Tables Chain) (ip : Text) :
    (preventiveDelete print t ip).view tb ch = t.view tb ch := by
  have hout : ¬ (Table.mangle = tb ∧ Chain.outgoing = ch) := by
    rintro ⟨rfl, rfl⟩
    exact (h rfl).1 rfl
  have hin : ¬ (Table.mangle = tb ∧ Chain.incoming = ch) := by
    rintro ⟨rfl, rfl⟩
    exact (h rfl).2 rfl
  unfold preventiveDelete iptablesFwDestroyMention
  rw [view_destroyMention_frame hin, view_destroyMention_frame hout]

/-- A step of the clients' threads touches the two chains of the clients only. -/
theorem Effect.view_other {k : Cause} {l l' : ClientList} {t t' : Tables Chain}
    (h : Effect k l t l' t') {tb : Table} {ch : Chain} (hf : Foreign tb ch) :
    t'.view tb ch = t.view tb ch := by
  cases h with
  | same => rfl
  | add hnew token now => rfl
  | write hc hd htok => rfl
  | allow hc hd htok hacts hmark => exact view_fwAllow_other _ _ _ hf
  | deny hc hd htok => exact view_fwDeny_other _ _ hf
  | remove hc => exact view_fwDeny_other _ _ hf
  | prevent print ip hp => exact view_preventiveDelete_other hf print t ip

/-- The states that a client can have. -/
def Client.Ranged (c : Client) : Prop :=
  c.fwConnectionState = 0 ∨ c.fwConnectionState = 1 ∨ c.fwConnectionState = 2

theorem ranged_of_grantMark {code mark : Int} (h : grantMark code = some mark) :
    mark = 0 ∨ mark = 1 ∨ mark = 2 := by
  unfold grantMark at h
  split at h
  · obtain rfl := Option.some.inj h
    exact .inr (.inl rfl)
  · split at h
    · obtain rfl := Option.some.inj h
      exact .inr (.inr rfl)
    · cases h

theorem forall_clientListWrite {P : Client → Prop} {l : ClientList} {d : Client} (hd : P d)
    (h : ∀ c ∈ l.clients, P c) : ∀ c ∈ (clientListWrite l d).clients, P c := by
  intro c hc
  rcases mem_clientListWrite hc with rfl | ⟨hc, -⟩
  · exact hd
  · exact h c hc

theorem Effect.ranged {k : Cause} {l l' : ClientList} {t t' : Tables Chain}
    (h : Effect k l t l' t') (hl : ∀ c ∈ l.clients, c.Ranged) : ∀ c ∈ l'.clients, c.Ranged := by
  have hsame {c d : Client} (hc : c ∈ l.clients) (hd : SameAccess c d) : d.Ranged := by
    unfold Client.Ranged
    rw [hd.state]
    exact hl c hc
  cases h with
  | same => exact hl
  | add hnew token now =>
    intro c hc
    rcases List.mem_cons.mp hc with rfl | hc
    · exact .inl rfl
    · exact hl c hc
  | write hc hd htok => exact forall_clientListWrite (hsame hc hd) hl
  | allow hc hd htok hacts hmark =>
    exact forall_clientListWrite (ranged_of_grantMark hmark) hl
  | deny hc hd htok => exact forall_clientListWrite (.inl rfl) hl
  | remove hc => exact fun c hc => hl c (mem_clientListRemove hc)
  | prevent print ip hp => exact hl

/-- Opening a host adds a rule to the Global chains. -/
theorem view_allowHost (t : Tables Chain) (host : Text) (tb : Table) (ch : Chain) :
    (t.execAll (accessHostCommands .allow host)).view tb ch =
      if tb ≠ .mangle ∧ ch = .global then (t.view tb ch).map (· ++ [hostRule host])
      else t.view tb ch := by
  have hjump : ∀ c ∈ accessHostCommands .allow host, c.NoJump := by
    simp [accessHostCommands, Command.NoJump]
  rw [Tables.view_execAll t hjump]
  by_cases hch : ch = .global
  · cases tb <;>
      simp [accessHostCommands, hostRule, Tables.viewAfter_cons, Tables.viewAfter_nil,
        Command.touches, Op.chain, Op.apply, hch]
  · cases tb <;>
      simp [accessHostCommands, Tables.viewAfter_cons, Tables.viewAfter_nil, Command.touches,
        Op.chain, hch, Ne.symm hch]

/-- The chains of the exemptions. -/
def Exempting (tb : Table) (ch : Chain) : Prop := tb ≠ .mangle ∧ ch = .authservers

theorem view_rewrite_other (c : Central) (t : Tables Chain) (servers : List AuthServer)
    {tb : Table} {ch : Chain} (h : ¬ Exempting tb ch) :
    (fwRewriteAuthservers c t servers).view tb ch = t.view tb ch := by
  have hclear : iptablesFwClearAuthservers.filter (Command.touches tb ch) = [] := by
    refine List.filter_eq_nil_iff.mpr fun cmd hcmd => ?_
    simp only [iptablesFwClearAuthservers, List.mem_cons, List.not_mem_nil, or_false] at hcmd
    simp only [Command.touches, Bool.and_eq_true, decide_eq_true_eq]
    rintro ⟨rfl, rfl⟩
    rcases hcmd with rfl | rfl
    · exact h ⟨by decide, rfl⟩
    · exact h ⟨by decide, rfl⟩
  have hset (cfg : Config) : (iptablesFwSetAuthservers cfg).filter (Command.touches tb ch) = [] := by
    by_cases htb : tb = .mangle
    · rw [htb]
      exact setAuthservers_mangle cfg ch
    · rw [setAuthservers_touches htb, if_neg]
      rintro rfl
      exact h ⟨htb, rfl⟩
  unfold fwRewriteAuthservers
  rw [Tables.view_execAll _ (setAuthservers_noJump _), Tables.view_execAll _ clearAuthservers_noJump]
  unfold Tables.viewAfter
  rw [hset, hclear]
  rfl

section Connect
variable {c : Central} {net : Net} {tb : Table} {ch : Chain} (h : ¬ Exempting tb ch)
include h

theorem view_tablesAfter_other (level : Nat) (s : AuthServer) (rest : List AuthServer)
    (t : Tables Chain) : (tablesAfter c net level s rest t).view tb ch = t.view tb ch := by
  unfold tablesAfter
  split
  · rfl
  · exact view_rewrite_other c t _ h

theorem view_tablesFrom_other (level : Nat) (pre rest : List AuthServer) (t : Tables Chain) :
    (tablesFrom c net level pre rest t).view tb ch = t.view tb ch := by
  induction pre generalizing level rest t with
  | nil => rfl
  | cons s pre ih => rw [tablesFrom, ih, view_tablesAfter_other h]

/-- A connection to an auth server touches the chains of the exemptions only. -/
theorem view_connect_other (servers : List AuthServer) (t : Tables Chain) :
    (connectAuthServer c net servers t).tables.view tb ch = t.view tb ch := by
  rcases connectAuthServer_cases c net servers t with
    ⟨-, heq⟩ | ⟨pre, s, post, sockfd, -, -, -, -, heq⟩
  · rw [heq]
    exact view_tablesFrom_other h 0 servers [] t
  · rw [heq]
    show (tablesAfter c net pre.length s _ _).view tb ch = t.view tb ch
    rw [view_tablesAfter_other h, view_tablesFrom_other h]

end Connect

/-! ## Addresses of auth servers -/

/-- The rule exempts an address of which `P` holds. -/
def ExemptsOnly (P : Text → Prop) (rules : Multiset (Rule Chain)) : Prop :=
  ∀ r ∈ rules, ∃ ip, P ip ∧ r = acceptRule ip

/-- All known addresses are of this kind. -/
def Addressed (P : Text → Prop) (servers : List AuthServer) : Prop :=
  ∀ s ∈ servers, ∀ ip, s.exempt = some ip → P ip

/-- The address that exempts nothing. -/
def noAddress : Text := "0.0.0.0".toList

/-- The usable addresses that a call of `connect_auth_server` finds, in its lookups of the servers
    that it tries, are of this kind. -/
def Finds (c : Central) (net : Net) (P : Text → Prop) (servers : List AuthServer) : Prop :=
  ∀ level s ip, Attempted c net servers level s →
    net.gethostbyname level 0 s.hostname = some ip → ip ≠ noAddress → P ip

section Addresses
variable {c : Central} {net : Net} {P : Text → Prop}

theorem exemptsOnly_staleStep {level : Nat} {s : AuthServer}
    (hs : ∀ ip, s.exempt = some ip → P ip) {stale : Multiset (Rule Chain)}
    (h : ExemptsOnly P stale) : ExemptsOnly P (staleStep c net level s stale) := by
  unfold staleStep
  split
  · split
    · exact h
    · exact fun r hr => absurd hr (Multiset.notMem_zero r)
  · split
    · intro r hr
      rcases Multiset.mem_add.mp hr with hr | hr
      · obtain ⟨ip, hip, rfl⟩ := List.mem_map.mp (Multiset.mem_coe.mp hr)
        exact ⟨ip, hs ip (Option.mem_toList.mp hip), rfl⟩
      · exact h r hr
    · exact h

theorem exemptsOnly_staleFrom {level : Nat} {l : List AuthServer} (hl : Addressed P l)
    {stale : Multiset (Rule Chain)} (h : ExemptsOnly P stale) :
    ExemptsOnly P (staleFrom c net level l stale) := by
  induction l generalizing level stale with
  | nil => exact h
  | cons s l ih =>
    exact ih (fun s' hs' => hl s' (List.mem_cons_of_mem _ hs'))
      (exemptsOnly_staleStep (hl s List.mem_cons_self) h)

theorem exempt_tried {level : Nat} {s : AuthServer}
    (hfound : ∀ ip, net.gethostbyname level 0 s.hostname = some ip → ip ≠ noAddress → P ip)
    (hs : ∀ ip, s.exempt = some ip → P ip) :
    ∀ ip, (tried c net level s).exempt = some ip → P ip := by
  intro ip hip
  have hlast : lastIpAfter c net level s = some ip := (Option.filter_eq_some_iff.mp hip).1
  have hne : ip ≠ noAddress := bne_iff_ne.mp (Option.filter_eq_some_iff.mp hip).2
  unfold lastIpAfter at hlast
  split at hlast
  · next ip' hget => exact hfound ip (hget.trans hlast) hne
  · split at hlast
    · cases hlast
    · exact hs ip (Option.filter_eq_some_iff.mpr ⟨hlast, (Option.filter_eq_some_iff.mp hip).2⟩)

theorem addressed_triedFrom {level : Nat} {pre : List AuthServer}
    (hfound : ∀ i s ip, pre[i]? = some s →
      net.gethostbyname (level + i) 0 s.hostname = some ip → ip ≠ noAddress → P ip)
    (h : Addressed P pre) : Addressed P (triedFrom c net level pre) := by
  intro s' hs'
  obtain ⟨i, hi⟩ := List.mem_iff_getElem?.mp hs'
  rw [triedFrom, List.getElem?_mapIdx] at hi
  obtain ⟨s, hs, rfl⟩ := Option.map_eq_some_iff.mp hi
  exact exempt_tried (hfound i s · hs) (h s (List.mem_of_getElem? hs))

/-- A connection keeps the exemptions to the known addresses and those of the past. -/
theorem exempts_connect {servers : List AuthServer} (hfinds : Finds c net P servers)
    {t : Tables Chain} {stale : Multiset (Rule Chain)}
    (hex : Exempts t (exemptRules servers + stale)) (hstale : ExemptsOnly P stale)
    (haddr : Addressed P servers) :
    Addressed P (connectAuthServer c net servers t).servers ∧ ∃ stale', ExemptsOnly P stale' ∧
      Exempts (connectAuthServer c net servers t).tables
        (exemptRules (connectAuthServer c net servers t).servers + stale') := by
  have hfound : ∀ i s ip, (connectAuthServer c net servers t).attempts[i]? = some s →
      net.gethostbyname i 0 s.hostname = some ip → ip ≠ noAddress → P ip :=
    fun i s ip hi => hfinds i s ip (attempts_iff.mp hi)
  rcases connectAuthServer_cases c net servers t with
    ⟨-, heq⟩ | ⟨pre, s, post, sockfd, rfl, -, -, -, heq⟩
  · rw [heq] at hfound ⊢
    have hall := @tablesFrom_chains c net 0 servers [] t stale (by simpa using hex)
    refine ⟨addressed_triedFrom ?_ haddr, staleFrom c net 0 servers stale,
      exemptsOnly_staleFrom haddr hstale, hall⟩
    simpa only [Nat.zero_add] using hfound
  · rw [heq] at hfound ⊢
    have hpre : Addressed P pre := fun s' hs' => haddr s' (List.mem_append_left _ hs')
    have hs : ∀ ip, s.exempt = some ip → P ip := haddr s (by simp)
    have htried : Addressed P (triedFrom c net 0 pre) := by
      refine addressed_triedFrom (fun i s' ip hi => ?_) hpre
      rw [Nat.zero_add]
      have hlt : i < pre.length := (List.getElem?_eq_some_iff.mp hi).1
      exact hfound i s' ip (by rw [List.getElem?_append_left hlt, hi])
    have hrest : Addressed P (post ++ triedFrom c net 0 pre) := by
      intro s' hs'
      rcases List.mem_append.mp hs' with hs' | hs'
      · exact haddr s' (by simp [hs'])
      · exact htried s' hs'
    constructor
    · intro s' hs'
      rcases List.mem_cons.mp hs' with rfl | hs'
      · exact exempt_tried (hfound pre.length s · (by simp)) hs
      · exact hrest s' hs'
    · exact ⟨_, exemptsOnly_staleStep hs (exemptsOnly_staleFrom hpre hstale),
        tablesAfter_chains (tablesFrom_chains hex)⟩

end Addresses

/-! ## Steps -/

/-- What a step of the gateway can do. -/
inductive GatewayMoves (c : Central) (g : Gateway) : GatewayAction → Gateway → Prop
  | same {act : GatewayAction} : GatewayMoves c g act g
  /-- a page takes a step -/
  | page {addr : Text} {arp : Option Text} {now : Int64} {online authOnline : Bool} {junk : Text}
      {reads : List HttpChunk} {a : Action} {s : State}
      (harp : ∀ ip mac token logout now', a = .httpCallbackAuth ip (some mac) token logout now' →
        arp = some mac)
      (hprev : ¬ preventsAt g.state a) (hstep : step (g.config c) g.state a = some s) :
    GatewayMoves c g (.connection addr arp now online authOnline junk reads) (g.withState s)
  | opened {act : GatewayAction} {host : Text} {g' : Gateway} (h : g.allowHost host = some g') :
    GatewayMoves c g act g'
  | thread {a : Action} {s : State} (hweb : a.ofWeb = false)
      (hstep : step (g.config c) g.state a = some s) : GatewayMoves c g (.other a) (g.withState s)
  | connected (net : Net) : GatewayMoves c g (.connect net) (g.connect c net).1
  | pinged (net : Net) (o : PingOutcome) :
    GatewayMoves c g (.ping net o)
      { (g.connect c net).1.withTables
          (ping ((g.connect c net).1.config c) (g.connect c net).1.state.tables g.authdown o).1 with
        authdown := (ping ((g.connect c net).1.config c) (g.connect c net).1.state.tables
          g.authdown o).2 }

theorem requestAction_arp {addr : Text} {arp : Option Text} {now : Int64} {r : HttpReq}
    {served : Served Callback} {a : Action} (h : requestAction addr arp now r served = some a) :
    (∀ ip mac token logout now', a = .httpCallbackAuth ip (some mac) token logout now' →
      arp = some mac) ∧ ∀ s, ¬ preventsAt s a := by
  unfold requestAction at h
  split at h
  · cases h
    refine ⟨fun ip mac token logout now' heq => ?_, fun s hp => hp⟩
    injection heq
  · cases h
    exact ⟨fun ip mac token logout now' heq => Action.noConfusion heq, fun s hp => hp⟩
  · cases h

theorem moves_of_serve {c : Central} {g g' : Gateway} {addr : Text} {arp : Option Text}
    {now : Int64} {online authOnline : Bool} {junk : Text} {reads : List HttpChunk} {r : HttpReq}
    {served : Served Callback}
    (h : gatewayServe c g addr arp now online authOnline r served = some g') :
    GatewayMoves c g (.connection addr arp now online authOnline junk reads) g' := by
  unfold gatewayServe at h
  split at h
  · split at h
    · cases h
    · split at h
      · cases h
        exact .same
      · exact .opened h
  · split at h
    · cases h
      exact .same
    · next a ha =>
      obtain ⟨s, hs, rfl⟩ := Option.map_eq_some_iff.mp h
      obtain ⟨harp, hprev⟩ := requestAction_arp ha
      exact .page harp (hprev g.state) hs

theorem moves_of_gatewayStep {c : Central} {g g' : Gateway} {act : GatewayAction}
    (h : gatewayStep c g act = some g') : GatewayMoves c g act g' := by
  cases act with
  | connection addr arp now online authOnline junk reads =>
    unfold gatewayStep at h
    dsimp only at h
    split at h
    · cases h
    · cases h
      exact .same
    · exact moves_of_serve h
  | other a =>
    unfold gatewayStep at h
    dsimp only at h
    split at h
    · cases h
    · next hweb =>
      obtain ⟨s, hs, rfl⟩ := Option.map_eq_some_iff.mp h
      exact .thread (by simpa using hweb) hs
  | connect net =>
    obtain rfl := Option.some.inj h
    exact .connected net
  | ping net o =>
    unfold gatewayStep at h
    dsimp only at h
    split at h
    · obtain rfl := Option.some.inj h
      exact .pinged net o
    · cases h

/-! ## The invariant -/

/-- A MAC address as the kernel prints it. -/
def LowerMac (mac : Text) : Prop := mac.map Char.toLower = mac

/-- `arp_get` reads what the kernel prints. -/
def GatewayAction.LowerArp : GatewayAction → Prop
  | .connection _ arp _ _ _ _ _ => ∀ mac, arp = some mac → LowerMac mac
  | _ => True

/-- The network in which a step calls `connect_auth_server`. -/
def GatewayAction.network : GatewayAction → Option Net
  | .connect net => some net
  | .ping net _ => some net
  | _ => none

/-- The step finds usable addresses of which `P` holds only. -/
def GatewayAction.Finds (c : Central) (P : Text → Prop) (g : Gateway) (act : GatewayAction) :
    Prop :=
  ∀ net, act.network = some net → Wifidog.Finds c net P g.servers

/-- The step deletes rules for an address without a client. -/
def GatewayAction.prevents (g : Gateway) : GatewayAction → Prop
  | .other a => preventsAt g.state a
  | _ => False

/-- What holds between two steps, when `iptables_fw_init` left the tables `t0`. -/
structure Serves (R : Multiset (Rule Chain) → Multiset (Rule Chain) → Prop) (P : Text → Prop)
    (c : Central) (t0 : Tables Chain) (g : Gateway) : Prop where
  wf : g.state.list.Wf
  ranged : ∀ d ∈ g.state.list.clients, d.Ranged
  lower : ∀ d ∈ g.state.list.clients, LowerMac d.mac
  outgoing : Outgoing R g.state.list g.state.tables
  authdown : c.config.gotAuthdownRuleset = true →
    g.state.tables.view .mangle .authIsDown = some (downRules g.authdown)
  other : ∀ tb ch, Foreign tb ch → ¬ (tb = .mangle ∧ ch = .authIsDown) →
    ¬ (tb ≠ .mangle ∧ ch = .global) → ¬ Exempting tb ch →
    g.state.tables.view tb ch = t0.view tb ch
  global : g.state.tables.view .filter .global =
    some (rulesetRules c.config fwrulesetGlobal ++ g.hosts.map hostRule)
  addressed : Addressed P g.servers
  exempts : ∃ stale, ExemptsOnly P stale ∧
    Exempts g.state.tables (exemptRules g.servers + stale)

section
variable {R : Multiset (Rule Chain) → Multiset (Rule Chain) → Prop} {P : Text → Prop}
  {c : Central} {t0 : Tables Chain} {g g' : Gateway}

/-- A step of the clients' threads. -/
theorem Serves.act (hR : Tracks R) (h : Serves R P c t0 g) {a : Action} {s : State}
    (hstep : step (g.config c) g.state a = some s)
    (hmac : ∀ ip mac token logout now, a = .httpCallbackAuth ip (some mac) token logout now →
      LowerMac mac)
    (hprev : preventsAt g.state a → ∀ {x x' y}, x' ≤ x → R x y → R x' y) :
    Serves R P c t0 (g.withState s) := by
  have heff := step_effect hstep
  have hdeed := step_deed hstep
  have hkeep {tb : Table} {ch : Chain} (hf : Foreign tb ch) :
      s.tables.view tb ch = g.state.tables.view tb ch := heff.view_other hf
  refine ⟨heff.wf h.wf, heff.ranged h.ranged, ?_, heff.outgoing hR h.wf h.outgoing hprev, ?_, ?_,
    ?_, h.addressed, ?_⟩
  · intro d hd
    have hd : d ∈ s.list.clients := hd
    rw [hdeed.list] at hd
    rcases Deed.addresses hdeed.valid hd with ⟨token, now, hadd⟩ | ⟨e, he, -, hemac⟩
    · obtain ⟨logout, rfl⟩ := deedOf_add hadd
      exact hmac _ _ _ _ _ rfl
    · rw [hemac]
      exact h.lower e he
  · intro hgot
    exact (hkeep (by intro _; decide)).trans (h.authdown hgot)
  · intro tb ch hf hdown hglobal hex
    exact (hkeep hf).trans (h.other tb ch hf hdown hglobal hex)
  · exact (hkeep (by intro htb; cases htb)).trans h.global
  · obtain ⟨stale, honly, hex⟩ := h.exempts
    refine ⟨stale, honly, fun tb htb => ?_⟩
    obtain ⟨rs, hview, hrs⟩ := hex tb htb
    exact ⟨rs, (hkeep fun hm => absurd hm htb).trans hview, hrs⟩

theorem Serves.open (h : Serves R P c t0 g) {host : Text} (ho : g.allowHost host = some g') :
    Serves R P c t0 g' := by
  obtain ⟨-, ho⟩ := Option.ite_none_right_eq_some.mp ho
  obtain rfl := Option.some.inj ho
  have hview := view_allowHost g.state.tables host
  have hkeep {tb : Table} {ch : Chain} (hne : ¬ (tb ≠ .mangle ∧ ch = .global)) :
      (g.state.tables.execAll (accessHostCommands .allow host)).view tb ch =
        g.state.tables.view tb ch := by
    rw [hview, if_neg hne]
  refine ⟨h.wf, h.ranged, h.lower, ?_, ?_, ?_, ?_, h.addressed, ?_⟩
  · obtain ⟨rs, hrs, hrel⟩ := h.outgoing
    exact ⟨rs, (hkeep (by decide)).trans hrs, hrel⟩
  · intro hgot
    exact (hkeep (by decide)).trans (h.authdown hgot)
  · intro tb ch hf hdown hglobal hex
    exact (hkeep hglobal).trans (h.other tb ch hf hdown hglobal hex)
  · show (g.state.tables.execAll (accessHostCommands .allow host)).view .filter .global = _
    rw [hview, if_pos (by decide), h.global, Option.map_some, List.append_assoc]
    show _ = some (_ ++ (g.hosts ++ [host]).map hostRule)
    rw [List.map_append]
    rfl
  · obtain ⟨stale, honly, hex⟩ := h.exempts
    refine ⟨stale, honly, fun tb htb => ?_⟩
    obtain ⟨rs, hrs, hsum⟩ := hex tb htb
    exact ⟨rs, (hkeep (by simp)).trans hrs, hsum⟩

theorem Serves.connect (h : Serves R P c t0 g) {net : Net} (hfinds : Finds c net P g.servers) :
    Serves R P c t0 (g.connect c net).1 := by
  have hkeep {tb : Table} {ch : Chain} (hne : ¬ Exempting tb ch) :
      (connectAuthServer c net g.servers g.state.tables).tables.view tb ch =
        g.state.tables.view tb ch := view_connect_other hne g.servers g.state.tables
  have hmangle (ch : Chain) : ¬ Exempting .mangle ch := fun hex => hex.1 rfl
  obtain ⟨stale, honly, hex⟩ := h.exempts
  obtain ⟨haddr, stale', honly', hex'⟩ := exempts_connect hfinds hex honly h.addressed
  refine ⟨h.wf, h.ranged, h.lower, ?_, ?_, ?_, ?_, haddr, stale', honly', hex'⟩
  · obtain ⟨rs, hrs, hrel⟩ := h.outgoing
    exact ⟨rs, (hkeep (hmangle _)).trans hrs, hrel⟩
  · intro hgot
    exact (hkeep (hmangle _)).trans (h.authdown hgot)
  · intro tb ch hf hdown hglobal hne
    exact (hkeep hne).trans (h.other tb ch hf hdown hglobal hne)
  · exact (hkeep (by simp [Exempting])).trans h.global

theorem Serves.ping (h : Serves R P c t0 g) (o : PingOutcome) :
    Serves R P c t0
      { g.withTables (ping (g.config c) g.state.tables g.authdown o).1 with
        authdown := (ping (g.config c) g.state.tables g.authdown o).2 } := by
  obtain ⟨hflag, hdown, hother⟩ := ping_spec (g.config c) g.state.tables g.authdown o
  refine ⟨h.wf, h.ranged, h.lower, ?_, ?_, ?_, ?_, h.addressed, ?_⟩
  · obtain ⟨rs, hrs, hrel⟩ := h.outgoing
    exact ⟨rs, (hother _ _ (by decide)).trans hrs, hrel⟩
  · intro hgot
    have hdown' := hdown (h.authdown hgot) hgot
    rw [← hflag] at hdown'
    exact hdown'
  · intro tb ch hf hd hglobal hex
    exact (hother tb ch hd).trans (h.other tb ch hf hd hglobal hex)
  · exact (hother _ _ (by decide)).trans h.global
  · obtain ⟨stale, honly, hex⟩ := h.exempts
    refine ⟨stale, honly, fun tb htb => ?_⟩
    obtain ⟨rs, hrs, hsum⟩ := hex tb htb
    exact ⟨rs, (hother _ _ fun hm => htb hm.1).trans hrs, hsum⟩

theorem Serves.step (hR : Tracks R) (h : Serves R P c t0 g) {act : GatewayAction}
    (harp : act.LowerArp) (hfinds : act.Finds c P g)
    (hprev : act.prevents g → ∀ {x x' y}, x' ≤ x → R x y → R x' y)
    (hstep : gatewayStep c g act = some g') : Serves R P c t0 g' := by
  cases moves_of_gatewayStep hstep with
  | same => exact h
  | page hmac hno hs =>
    refine h.act hR hs (fun ip mac token logout now heq => ?_) fun hp => absurd hp hno
    exact harp mac (hmac ip mac token logout now heq)
  | opened ho => exact h.open ho
  | thread hweb hs =>
    refine h.act hR hs (fun ip mac token logout now heq => ?_) hprev
    rw [heq] at hweb
    cases hweb
  | connected net => exact h.connect (hfinds net rfl)
  | pinged net o => exact (h.connect (hfinds net rfl)).ping o

end

/-! ## What the chains say -/

/-- What becomes of a forwarded packet with mark `m` while `ips` are exempt and `hosts` open. -/
def runtimePolicy (cfg : Config) (ips hosts : List Text) (env : Env) (p : Packet) (m : Nat) :
    Verdict :=
  if p.ct = .invalid then .drop
  else if ips.any (env.covers · p.dst) then .accept
  else
    ((if m = lockedMark then rulesetVerdict cfg env p fwrulesetLockedUsers else none).or
      ((rulesetVerdict cfg env p fwrulesetGlobal).or
        ((if hosts.any (env.covers · p.dst) then some .accept else none).or
          ((if m = 1 then rulesetVerdict cfg env p fwrulesetValidatingUsers else none).or
            ((if m = 2 then rulesetVerdict cfg env p fwrulesetKnownUsers else none).or
              ((if m = authDownMark then rulesetVerdict cfg env p fwrulesetAuthIsDown
                else none).or
                (rulesetVerdict cfg env p fwrulesetUnknownUsers))))))).getD .reject

/-- An open host is like a rule `allow to host` at the end of the global ruleset. -/
def openRule (host : Text) : FirewallRule := ⟨.accept, none, none, host, false⟩

def openRulesets (rs : Rulesets) (hosts : List Text) : Rulesets :=
  hosts.foldl (fun rs host => appendRule rs fwrulesetGlobal (openRule host)) rs

theorem getRuleset_openRulesets (rs : Rulesets) (hosts : List Text) (name : Text) :
    getRuleset (openRulesets rs hosts) name =
      if name = fwrulesetGlobal then getRuleset rs name ++ hosts.map openRule
      else getRuleset rs name := by
  unfold openRulesets
  induction hosts generalizing rs with
  | nil => simp
  | cons host hosts ih =>
    rw [List.foldl_cons, ih, getRuleset_appendRule]
    split
    · simp
    · rfl

/-- The configuration that the chains are those of. -/
def Config.now (cfg : Config) (ips hosts : List Text) : Config :=
  { cfg with
    authServers := ips.map fun ip => ⟨[], [], [], 0, 0, false, some ip⟩
    rulesets := openRulesets cfg.rulesets hosts }

section Now
variable (cfg : Config) (ips hosts : List Text)

theorem rulesetRules_now {name : Text} (h : name ≠ fwrulesetGlobal) :
    rulesetRules (cfg.now ips hosts) name = rulesetRules cfg name := by
  unfold rulesetRules
  show (getRuleset (openRulesets cfg.rulesets hosts) name).map _ = _
  rw [getRuleset_openRulesets, if_neg h]

theorem rulesetRules_now_global :
    rulesetRules (cfg.now ips hosts) fwrulesetGlobal =
      rulesetRules cfg fwrulesetGlobal ++ hosts.map hostRule := by
  unfold rulesetRules
  show (getRuleset (openRulesets cfg.rulesets hosts) fwrulesetGlobal).map _ = _
  rw [getRuleset_openRulesets, if_pos rfl, List.map_append, List.map_map]
  rfl

theorem gotAuthdownRuleset_now :
    (cfg.now ips hosts).gotAuthdownRuleset = cfg.gotAuthdownRuleset := by
  have hne : fwrulesetAuthIsDown ≠ fwrulesetGlobal := by decide
  unfold Config.gotAuthdownRuleset
  show (!(getRuleset (openRulesets cfg.rulesets hosts) _).isEmpty) = _
  rw [getRuleset_openRulesets, if_neg hne]

theorem exempt_now (h : ∀ ip ∈ ips, ip ≠ noAddress) :
    (cfg.now ips hosts).authServers.filterMap AuthServ.exempt = ips := by
  show (ips.map _).filterMap AuthServ.exempt = ips
  induction ips with
  | nil => rfl
  | cons ip ips ih =>
    have hne := h ip List.mem_cons_self
    have hip : AuthServ.exempt ⟨[], [], [], 0, 0, false, some ip⟩ = some ip :=
      Option.filter_eq_some_iff.mpr ⟨rfl, bne_iff_ne.mpr hne⟩
    rw [List.map_cons, List.filterMap_cons, hip]
    exact congrArg (ip :: ·) (ih fun ip' hip' => h ip' (List.mem_cons_of_mem _ hip'))

variable (env : Env) (p : Packet)

theorem rulesetVerdict_now {name : Text} (h : name ≠ fwrulesetGlobal) :
    rulesetVerdict (cfg.now ips hosts) env p name = rulesetVerdict cfg env p name := by
  unfold rulesetVerdict
  show ((getRuleset (openRulesets cfg.rulesets hosts) name).filter _).findSome? _ = _
  rw [getRuleset_openRulesets, if_neg h]

theorem rulesetVerdict_now_global :
    rulesetVerdict (cfg.now ips hosts) env p fwrulesetGlobal =
      (rulesetVerdict cfg env p fwrulesetGlobal).or
        (if hosts.any (env.covers · p.dst) then some .accept else none) := by
  have hopen : ((hosts.map openRule).filter (·.holds env p)).findSome? (·.target.verdict) =
      if hosts.any (env.covers · p.dst) then some .accept else none := by
    induction hosts with
    | nil => rfl
    | cons host hosts ih =>
      have hholds : (openRule host).holds env p = env.covers host p.dst := by
        simp [openRule, FirewallRule.holds]
      rw [List.map_cons, List.filter_cons, hholds, List.any_cons]
      cases env.covers host p.dst with
      | true => rfl
      | false => simpa using ih
  unfold rulesetVerdict
  show ((getRuleset (openRulesets cfg.rulesets hosts) fwrulesetGlobal).filter _).findSome? _ = _
  rw [getRuleset_openRulesets, if_pos rfl, List.filter_append, List.findSome?_append, hopen]

theorem policy_now (h : ∀ ip ∈ ips, ip ≠ noAddress) (m : Nat) :
    policy (cfg.now ips hosts) env p m = runtimePolicy cfg ips hosts env p m := by
  unfold policy runtimePolicy
  rw [exempt_now cfg ips hosts h, rulesetVerdict_now_global,
    rulesetVerdict_now cfg ips hosts env p (by decide),
    rulesetVerdict_now cfg ips hosts env p (by decide),
    rulesetVerdict_now cfg ips hosts env p (by decide),
    rulesetVerdict_now cfg ips hosts env p (by decide),
    rulesetVerdict_now cfg ips hosts env p (by decide), Option.or_assoc]

end Now

/-! ## Packets -/

/-- Some of the rules that a list calls for are those of some of its clients. -/
theorem exists_sublist_grants {rules : Multiset (Rule Chain)} {clients : List Client}
    (h : rules ≤ grants clients) : ∃ cs, cs.Sublist clients ∧ rules = grants cs := by
  induction clients generalizing rules with
  | nil => exact ⟨[], .refl _, Multiset.le_zero.mp h⟩
  | cons d clients ih =>
    have hcons : grants (d :: clients) = d.share + grants clients := grants_middle [] clients d
    by_cases hd : d.fwConnectionState = fwMarkNone
    · rw [hcons, share_of_none hd, zero_add] at h
      obtain ⟨cs, hsub, heq⟩ := ih h
      exact ⟨cs, hsub.cons d, heq⟩
    rw [hcons, share_of_granted hd, Multiset.singleton_add] at h
    by_cases hmem : d.rule ∈ rules
    · obtain ⟨rest, rfl⟩ := Multiset.exists_cons_of_mem hmem
      obtain ⟨cs, hsub, rfl⟩ := ih ((Multiset.cons_le_cons_iff _).mp h)
      refine ⟨d :: cs, hsub.cons_cons d, ?_⟩
      have hcons' : grants (d :: cs) = d.share + grants cs := grants_middle [] cs d
      rw [hcons', share_of_granted hd, Multiset.singleton_add]
    · obtain ⟨cs, hsub, heq⟩ := ih ((Multiset.le_cons_of_notMem hmem).mp h)
      exact ⟨cs, hsub.cons d, heq⟩

theorem distinctSenders_of_lower {l : ClientList} (hwf : l.Wf)
    (h : ∀ d ∈ l.clients, LowerMac d.mac) : DistinctSenders l.clients := by
  refine hwf.keys.imp_of_mem fun {d e} hd he hne hsame => hne ⟨hsame.1, ?_⟩
  have hmac := strcaseEq_iff.mp hsame.2
  rwa [h d hd, h e he] at hmac

theorem exists_addresses {P : Text → Prop} {rs : List (Rule Chain)}
    (h : ExemptsOnly P ↑rs) : ∃ ips : List Text, (∀ ip ∈ ips, P ip) ∧ rs = ips.map acceptRule := by
  induction rs with
  | nil => exact ⟨[], fun _ hip => absurd hip List.not_mem_nil, rfl⟩
  | cons r rs ih =>
    obtain ⟨ip, hip, rfl⟩ := h r (Multiset.mem_coe.mpr List.mem_cons_self)
    obtain ⟨ips, hips, rfl⟩ :=
      ih fun r' hr' => h r' (Multiset.mem_coe.mpr (List.mem_cons_of_mem _ hr'))
    refine ⟨ip :: ips, ?_, rfl⟩
    intro ip' hip'
    rcases List.mem_cons.mp hip' with rfl | hip'
    · exact hip
    · exact hips ip' hip'

theorem exemptsOnly_exemptRules {P : Text → Prop} {servers : List AuthServer}
    (h : Addressed P servers) : ExemptsOnly P (exemptRules servers) := by
  induction servers with
  | nil => exact fun r hr => absurd hr (Multiset.notMem_zero r)
  | cons s servers ih =>
    rw [exemptRules_cons]
    intro r hr
    rcases Multiset.mem_add.mp hr with hr | hr
    · obtain ⟨ip, hip, rfl⟩ := List.mem_map.mp (Multiset.mem_coe.mp hr)
      exact ⟨ip, h s List.mem_cons_self ip (Option.mem_toList.mp hip), rfl⟩
    · exact ih (fun s' hs' => h s' (List.mem_cons_of_mem _ hs')) r hr

theorem mem_exemptRules {servers : List AuthServer} {s : AuthServer} (hs : s ∈ servers)
    {ip : Text} (hip : s.exempt = some ip) : acceptRule ip ∈ exemptRules servers := by
  induction servers with
  | nil => exact absurd hs List.not_mem_nil
  | cons s' servers ih =>
    rw [exemptRules_cons, Multiset.mem_add]
    rcases List.mem_cons.mp hs with rfl | hs
    · refine .inl (Multiset.mem_coe.mpr (List.mem_map.mpr ⟨ip, ?_, rfl⟩))
      rw [hip]
      exact List.mem_singleton_self ip
    · exact .inr (ih hs)

section Walk
variable {P : Text → Prop} {c : Central} {ext : Text} {t t0 : Tables Chain} {g : Gateway}
  {R : Multiset (Rule Chain) → Multiset (Rule Chain) → Prop}

/-- The chains are set up as for the configuration of now. -/
theorem Serves.setup {servers : List AuthServer}
    (hset : Setup { c.config with authServers := servers.map AuthServer.toAuthServ } ext t t0)
    (h : Serves R P c t0 g) {ips : List Text} (hips : ∀ ip ∈ ips, ip ≠ noAddress)
    (hservers : g.state.tables.view .filter .authservers = some (ips.map acceptRule)) :
    Setup (c.config.now ips g.hosts) ext t
      ⟨g.state.tables.filter, g.state.tables.nat, t0.mangle⟩ := by
  have hgot := gotAuthdownRuleset_now c.config ips g.hosts
  have hview (ch : Chain) (hglobal : ch ≠ .global) (hauth : ch ≠ .authservers) :
      g.state.tables.view .filter ch = t0.view .filter ch :=
    h.other .filter ch (by intro htb; cases htb) (by simp) (by simp [hglobal])
      (by simp [Exempting, hauth])
  constructor
  · intro ch rs hrs
    refine hset.mangle ch rs ?_
    rw [← hrs]
    cases ch <;> simp only [mangleRules, hgot] <;> rfl
  · intro ch rs hrs
    show g.state.tables.view .filter ch = some rs
    have hsame (hglobal : ch ≠ .global) (hauth : ch ≠ .authservers)
        (heq : filterRules (c.config.now ips g.hosts) ext ch =
          filterRules { c.config with authServers := servers.map AuthServer.toAuthServ } ext ch) :
        g.state.tables.view .filter ch = some rs := by
      rw [hview ch hglobal hauth]
      exact hset.filter ch rs (heq.symm.trans hrs)
    cases ch with
    | authservers =>
      rw [hservers, ← hrs]
      simp only [filterRules, authserverRules, exempt_now c.config ips g.hosts hips]
      rfl
    | global =>
      rw [h.global, ← hrs]
      simp only [filterRules, rulesetRules_now_global]
    | toInternet =>
      refine hsame (by decide) (by decide) ?_
      simp only [filterRules, internetRules, hgot]
      rfl
    | authIsDown =>
      refine hsame (by decide) (by decide) ?_
      simp only [filterRules, hgot, rulesetRules_now c.config ips g.hosts
        (show fwrulesetAuthIsDown ≠ fwrulesetGlobal by decide)]
      rfl
    | locked =>
      refine hsame (by decide) (by decide) ?_
      simp only [filterRules, rulesetRules_now c.config ips g.hosts
        (show fwrulesetLockedUsers ≠ fwrulesetGlobal by decide)]
      rfl
    | validate =>
      refine hsame (by decide) (by decide) ?_
      simp only [filterRules, rulesetRules_now c.config ips g.hosts
        (show fwrulesetValidatingUsers ≠ fwrulesetGlobal by decide)]
      rfl
    | known =>
      refine hsame (by decide) (by decide) ?_
      simp only [filterRules, rulesetRules_now c.config ips g.hosts
        (show fwrulesetKnownUsers ≠ fwrulesetGlobal by decide)]
      rfl
    | unknown =>
      refine hsame (by decide) (by decide) ?_
      simp only [filterRules, unknownRules, rulesetRules_now c.config ips g.hosts
        (show fwrulesetUnknownUsers ≠ fwrulesetGlobal by decide)]
      rfl
    | _ => cases hrs
  · obtain ⟨foreign, hforeign, hpre⟩ := hset.prerouting
    refine ⟨foreign, hforeign, ?_⟩
    show t0.view .mangle .prerouting = _
    rw [hpre]
    simp only [preroutingJumps, hgot]
    rfl
  · obtain ⟨foreign, hforeign, hfwd⟩ := hset.forward
    exact ⟨foreign, hforeign, (hview .forward (by decide) (by decide)).trans hfwd⟩

theorem Serves.running (h : Serves (· ≤ ·) P c t0 g) (ips : List Text) :
    ∃ cs, cs.Sublist g.state.list.clients ∧
      (Outgoing (· = ·) g.state.list g.state.tables → cs = g.state.list.clients) ∧
      Running (c.config.now ips g.hosts)
        ⟨g.state.tables.filter, g.state.tables.nat, t0.mangle⟩
        ⟨cs, g.state.tables, g.authdown⟩ := by
  obtain ⟨rs, hview, hle⟩ := h.outgoing
  obtain ⟨cs, hsub, hexact, hrs⟩ : ∃ cs, cs.Sublist g.state.list.clients ∧
      (Outgoing (· = ·) g.state.list g.state.tables → cs = g.state.list.clients) ∧
      (↑rs : Multiset (Rule Chain)) = grants cs := by
    by_cases heq : (↑rs : Multiset (Rule Chain)) = grants g.state.list.clients
    · exact ⟨_, .refl _, fun _ => rfl, heq⟩
    · obtain ⟨cs, hsub, hcs⟩ := exists_sublist_grants hle
      refine ⟨cs, hsub, fun hout => ?_, hcs⟩
      obtain ⟨rs', hview', heq'⟩ := hout
      obtain rfl : rs = rs' := Option.some.inj (hview.symm.trans hview')
      exact absurd heq' heq
  refine ⟨cs, hsub, hexact, ⟨rs, hview, hrs⟩, ?_, ?_, ?_, ?_⟩
  · intro hgot
    rw [gotAuthdownRuleset_now] at hgot
    exact h.authdown hgot
  · intro tb ch hf hdown
    cases tb with
    | filter => rfl
    | nat => rfl
    | mangle => exact h.other .mangle ch hf hdown (by simp) (by simp [Exempting])
  · exact (distinctSenders_of_lower h.wf h.lower).sublist hsub
  · exact fun d hd => h.ranged d (hsub.subset hd)

/-- The addresses that are exempt. -/
theorem Serves.exempt_addresses (h : Serves R P c t0 g) :
    ∃ ips : List Text, (∀ ip ∈ ips, P ip) ∧
      (∀ s ∈ g.servers, ∀ ip, s.exempt = some ip → ip ∈ ips) ∧
      g.state.tables.view .filter .authservers = some (ips.map acceptRule) := by
  obtain ⟨stale, honly, hex⟩ := h.exempts
  obtain ⟨rs, hview, hsum⟩ := hex .filter (by decide)
  have hall : ExemptsOnly P ↑rs := by
    rw [hsum]
    intro r hr
    rcases Multiset.mem_add.mp hr with hr | hr
    · exact exemptsOnly_exemptRules h.addressed r hr
    · exact honly r hr
  obtain ⟨ips, hips, rfl⟩ := exists_addresses hall
  refine ⟨ips, hips, fun s hs ip hip => ?_, hview⟩
  have hmem : acceptRule ip ∈ (↑(ips.map acceptRule) : Multiset (Rule Chain)) := by
    rw [hsum]
    exact Multiset.mem_add.mpr (.inl (mem_exemptRules hs hip))
  obtain ⟨ip', hip', heq⟩ := List.mem_map.mp (Multiset.mem_coe.mp hmem)
  rw [← acceptRule_inj heq]
  exact hip'

end Walk

/-! ## The result -/

/-- The gateway has just set up its chains, from the tables `t`, and no client is known. -/
structure Started (c : Central) (servers : List AuthServer) (t : Tables Chain) (g : Gateway) :
    Prop where
  init : ∃ getExtIface cmds t0,
    iptablesFwInit { c.config with authServers := servers.map AuthServer.toAuthServ }
      getExtIface = some cmds ∧
    Tables.runAll cmds t = some t0 ∧ g = .start servers t0
  /-- no rules of others in mangle PREROUTING -/
  prerouting : t.view .mangle .prerouting = some []

/-- In this state the step calls `connect_auth_server`, which tries a server of this name and gets
    this address when it looks it up. -/
def GatewayAction.LooksUp (c : Central) (g : Gateway) (act : GatewayAction)
    (hostname ip : Text) : Prop :=
  ∃ net level s, act.network = some net ∧ Attempted c net g.servers level s ∧
    s.hostname = hostname ∧ net.gethostbyname level 0 hostname = some ip

/-- An auth server had this address when the gateway was started, or a step of the run got it when
    it looked up the server's name. -/
def AddressSeen (c : Central) (g0 : Gateway) (acts : List GatewayAction) (ip : Text) : Prop :=
  ∃ s ∈ g0.servers, s.lastIp = some ip ∨
    ∃ past act rest g, acts = past ++ act :: rest ∧ run (gatewayStep c) g0 past = some g ∧
      act.LooksUp c g s.hostname ip

theorem Serves.start {R : Multiset (Rule Chain) → Multiset (Rule Chain) → Prop} (hR : R 0 0)
    {P : Text → Prop} {c : Central} {servers : List AuthServer} {ext : Text}
    {t t0 : Tables Chain}
    (hacc : Tables.runAll
      (initMangle { c.config with authServers := servers.map AuthServer.toAuthServ } ++
        initNat { c.config with authServers := servers.map AuthServer.toAuthServ } ++
        initFilter { c.config with authServers := servers.map AuthServer.toAuthServ } ext) t =
        some t0) (haddr : Addressed P servers) :
    Serves R P c t0 (.start servers t0) := by
  have hset := setup_of_accepted hacc
  refine ⟨clientListInit_wf, fun d hd => absurd hd List.not_mem_nil,
    fun d hd => absurd hd List.not_mem_nil, ⟨[], hset.mangle .outgoing [] rfl, hR⟩, ?_,
    fun _ _ _ _ _ _ => rfl, ?_, haddr, 0, fun r hr => absurd hr (Multiset.notMem_zero r), ?_⟩
  · intro hgot
    exact hset.mangle .authIsDown [] (if_pos hgot)
  · rw [Gateway.start, List.map_nil, List.append_nil]
    exact hset.filter .global _ rfl
  · rw [add_zero]
    intro tb htb
    refine ⟨_, ?_, (exemptRules_eq c.config servers).symm⟩
    cases tb with
    | mangle => exact absurd rfl htb
    | filter => exact hset.filter .authservers _ rfl
    | nat => exact setup_nat_authservers hacc

theorem expectedMark_now (cfg : Config) (ips hosts : List Text) (clients : List Client)
    (authdown : Bool) (p : Packet) :
    expectedMark (cfg.now ips hosts) clients authdown p = expectedMark cfg clients authdown p := by
  unfold expectedMark
  rw [gotAuthdownRuleset_now]
  rfl

/-! ### Names of auth servers -/

theorem hostnames_connect (c : Central) (net : Net) (servers : List AuthServer)
    (t : Tables Chain) : ∀ s' ∈ (connectAuthServer c net servers t).servers,
      ∃ s ∈ servers, s.hostname = s'.hostname := by
  have htried {l : List AuthServer} : ∀ s' ∈ triedFrom c net 0 l,
      ∃ s ∈ l, s.hostname = s'.hostname := by
    intro s' hs'
    obtain ⟨i, hi, rfl⟩ := List.mem_mapIdx.mp hs'
    exact ⟨l[i], List.getElem_mem hi, rfl⟩
  rcases connectAuthServer_cases c net servers t with
    ⟨-, heq⟩ | ⟨pre, s, post, sockfd, rfl, -, -, -, heq⟩
  · rw [heq]
    exact htried
  · rw [heq]
    intro s' hs'
    rcases List.mem_cons.mp hs' with rfl | hs'
    · exact ⟨s, by simp, rfl⟩
    rcases List.mem_append.mp hs' with hs' | hs'
    · exact ⟨s', by simp [hs'], rfl⟩
    · obtain ⟨s0, hs0, hname⟩ := htried s' hs'
      exact ⟨s0, List.mem_append_left _ hs0, hname⟩

theorem hostnames_step {c : Central} {g g' : Gateway} {act : GatewayAction}
    (h : gatewayStep c g act = some g') :
    ∀ s' ∈ g'.servers, ∃ s ∈ g.servers, s.hostname = s'.hostname := by
  have hkept : ∀ s' ∈ g.servers, ∃ s ∈ g.servers, s.hostname = s'.hostname :=
    fun s' hs' => ⟨s', hs', rfl⟩
  cases moves_of_gatewayStep h with
  | same => exact hkept
  | page harp hprev hstep => exact hkept
  | opened ho =>
    obtain ⟨-, ho⟩ := Option.ite_none_right_eq_some.mp ho
    obtain rfl := Option.some.inj ho
    exact hkept
  | thread hweb hstep => exact hkept
  | connected net => exact hostnames_connect c net g.servers g.state.tables
  | pinged net o => exact hostnames_connect c net g.servers g.state.tables

theorem hostnames_run {c : Central} {g0 g : Gateway} {acts : List GatewayAction}
    (hrun : run (gatewayStep c) g0 acts = some g) :
    ∀ s ∈ g.servers, ∃ s0 ∈ g0.servers, s0.hostname = s.hostname := by
  refine run_inv (fun g => ∀ s ∈ g.servers, ∃ s0 ∈ g0.servers, s0.hostname = s.hostname)
    (fun g a g' hg hstep s' hs' => ?_) (fun s hs => ⟨s, hs, rfl⟩) hrun
  obtain ⟨s, hs, hname⟩ := hostnames_step hstep s' hs'
  obtain ⟨s0, hs0, hname0⟩ := hg s hs
  exact ⟨s0, hs0, hname0.trans hname⟩

theorem serves_run {R : Multiset (Rule Chain) → Multiset (Rule Chain) → Prop} (hR : Tracks R)
    {P : Text → Prop} {c : Central} {t0 : Tables Chain} {g0 g : Gateway}
    {acts : List GatewayAction} (h : Serves R P c t0 g0)
    (hrun : run (gatewayStep c) g0 acts = some g) (harp : ∀ a ∈ acts, a.LowerArp)
    (hfinds : Along (gatewayStep c) (fun g a => a.Finds c P g) g0 acts)
    (hprev : Along (gatewayStep c)
      (fun g a => a.prevents g → ∀ {x x' y}, x' ≤ x → R x y → R x' y) g0 acts) :
    Serves R P c t0 g := by
  have hassumed := along_and (along_and (along_of_mem harp g0) hfinds) hprev
  exact run_inv_along (Serves R P c t0)
    (fun _ _ _ hs ha hstep => hs.step hR ha.1.1 ha.1.2 ha.2 hstep) h hassumed hrun

section Reached
variable {c : Central} {servers : List AuthServer} {t : Tables Chain} {g0 g : Gateway}
  {acts : List GatewayAction} (h0 : Started c servers t g0)
include h0

theorem Started.setup : ∃ ext,
    Setup { c.config with authServers := servers.map AuthServer.toAuthServ } ext t
      g0.state.tables := by
  obtain ⟨getExtIface, cmds, t0, hcmds, hacc, rfl⟩ := h0.init
  obtain ⟨ext, -, rfl⟩ := Option.map_eq_some_iff.mp hcmds
  exact ⟨ext, setup_of_accepted hacc⟩

theorem Started.serves {R : Multiset (Rule Chain) → Multiset (Rule Chain) → Prop}
    (hR : Tracks R) (hR0 : R 0 0) (hrun : run (gatewayStep c) g0 acts = some g)
    (harp : ∀ a ∈ acts, a.LowerArp)
    (hprev : Along (gatewayStep c)
      (fun g a => a.prevents g → ∀ {x x' y}, x' ≤ x → R x y → R x' y) g0 acts) :
    Serves R (fun ip => ip ≠ noAddress ∧ AddressSeen c g0 acts ip) c g0.state.tables g := by
  obtain ⟨getExtIface, cmds, t0, hcmds, hacc, rfl⟩ := h0.init
  obtain ⟨ext, -, rfl⟩ := Option.map_eq_some_iff.mp hcmds
  refine serves_run hR (Serves.start hR0 hacc ?_) hrun harp (along_of_reached ?_) hprev
  · intro s hs ip hip
    obtain ⟨hlast, hne⟩ := Option.filter_eq_some_iff.mp hip
    exact ⟨bne_iff_ne.mp hne, s, hs, .inl hlast⟩
  · intro past act rest g' hacts hpast net hnet level s ip htried hip hne
    -- the name that is looked up is one that the list has had from the start
    obtain ⟨s0, hs0, hname⟩ := hostnames_run hpast s (List.mem_of_getElem? htried.1)
    refine ⟨hne, s0, hs0, .inr ⟨past, act, rest, g', hacts, hpast, net, level, s, hnet, htried,
      hname.symm, ?_⟩⟩
    rw [hname]
    exact hip

/-- With preventive deletion or without. -/
theorem Started.serves_le (hrun : run (gatewayStep c) g0 acts = some g)
    (harp : ∀ a ∈ acts, a.LowerArp) :
    Serves (· ≤ ·) (fun ip => ip ≠ noAddress ∧ AddressSeen c g0 acts ip) c g0.state.tables g :=
  h0.serves tracks_le (Multiset.zero_le 0) hrun harp
    (along_of_forall (fun _ _ _ _ _ _ hle h => hle.trans h) _ _)

end Reached

/-- In every state that the steps of `Gateway` reach, a packet from the gateway interface gets the
    mark of the listed session that sends it, and the policy of the moment decides what becomes of
    it. -/
theorem packets_follow_sessions (c : Central) {servers : List AuthServer} {t : Tables Chain}
    {g0 g : Gateway} {acts : List GatewayAction} (h0 : Started c servers t g0)
    (hrun : run (gatewayStep c) g0 acts = some g) (harp : ∀ a ∈ acts, a.LowerArp) (env : Env)
    {p : Packet} (hin : ifaceMatches c.config.gwInterface p.iif = true) :
    ∃ cs ips, cs.Sublist g.state.list.clients ∧
      (Along (gatewayStep c) (fun g a => ¬ a.prevents g) g0 acts → cs = g.state.list.clients) ∧
      (∀ ip ∈ ips, AddressSeen c g0 acts ip) ∧
      (∀ s ∈ g.servers, ∀ ip, s.exempt = some ip → ip ∈ ips) ∧
      traverse env g.state.tables.mangle p .prerouting 0 =
        .fall (expectedMark c.config cs g.authdown p) ∧
      ∀ m, traverse env g.state.tables.filter p .forward m =
        .done (runtimePolicy c.config ips g.hosts env p m) m := by
  obtain ⟨ext, hset⟩ := h0.setup
  have hserves := h0.serves_le hrun harp
  obtain ⟨ips, hips, hnow, hview⟩ := hserves.exempt_addresses
  obtain ⟨cs, hsub, hexact, hrunning⟩ := hserves.running ips
  have hsetup := hserves.setup hset (fun ip hip => (hips ip hip).1) hview
  refine ⟨cs, ips, hsub, ?_, fun ip hip => (hips ip hip).2, hnow, ?_, ?_⟩
  · intro hprev
    have hequal := h0.serves tracks_eq rfl hrun harp
      (along_mono (fun _ _ hno hp => absurd hp hno) hprev)
    exact hexact hequal.outgoing
  · obtain ⟨foreign, hforeign, hwalk⟩ := walk_prerouting hsetup hrunning env hin
    obtain rfl : [] = foreign := Option.some.inj (h0.prerouting.symm.trans hforeign)
    rw [hwalk, expectedMark_now]
    rfl
  · intro m
    rw [walk_forward hsetup hrunning env hin m, policy_now _ _ _ _ _ fun ip hip => (hips ip hip).1]

/-- A browser follows a login link and the auth server allows it. -/
def smallSession : List GatewayAction :=
  [.connect smallNet, .connection smallIp (some smallMac) 0 true true "stale".toList loginReads,
    .other (.authenticateLookup 0), .other (.authenticateAnswer 0 authAllowed),
    .other (.authenticateApply 0)]

def smallGateway : Gateway := .start [firstServer] exemptStart.tables

theorem smallGateway_started : Started smallCentral [firstServer] builtinTables smallGateway :=
  ⟨⟨none, exemptCommands, exemptStart.tables, rfl, by decide +kernel, rfl⟩, rfl⟩

/-- The client that it leaves. -/
def sessionClient : Client :=
  ⟨1, smallIp, smallMac, "a&b/../c".toList, fwMarkKnown, 0, .fresh 0⟩

theorem exists_smallSession :
    ∃ g, run (gatewayStep smallCentral) smallGateway smallSession = some g ∧
      g.state.list.clients = [sessionClient] := by
  have hclients : ((run (gatewayStep smallCentral) smallGateway smallSession).map fun g =>
      g.state.list.clients) = some [sessionClient] := by
    decide +kernel
  exact Option.map_eq_some_iff.mp hclients

theorem smallSession_lower : ∀ a ∈ smallSession, a.LowerArp := by
  intro a ha
  simp only [smallSession, List.mem_cons, List.not_mem_nil, or_false] at ha
  rcases ha with rfl | rfl | rfl | rfl | rfl
  · trivial
  · intro mac hmac
    obtain rfl := Option.some.inj hmac
    exact (by decide : smallMac.map Char.toLower = smallMac)
  · trivial
  · trivial
  · trivial

/-- The first server has the address that the session's lookup gave. -/
theorem smallSession_servers {g : Gateway}
    (hrun : run (gatewayStep smallCentral) smallGateway smallSession = some g) :
    g.servers = [{ firstServer with lastIp := some firstIp }] := by
  have hservers : (run (gatewayStep smallCentral) smallGateway smallSession).map
      Gateway.servers = some [{ firstServer with lastIp := some firstIp }] := by
    decide +kernel
  rw [hrun] at hservers
  exact Option.some.inj hservers

theorem packets_follow_sessions_small :
    ∃ g, run (gatewayStep smallCentral) smallGateway smallSession = some g ∧
      traverse coverAll g.state.tables.mangle smallPacket .prerouting 0 = .fall 2 ∧
      traverse coverAll g.state.tables.filter smallPacket .forward 2 = .done .accept 2 ∧
      AddressSeen smallCentral smallGateway smallSession firstIp := by
  obtain ⟨g, hrun, hclients⟩ := exists_smallSession
  obtain ⟨cs, ips, -, hexact, hseen, hexempt, hmark, hverdict⟩ :=
    packets_follow_sessions smallCentral smallGateway_started hrun smallSession_lower coverAll
      (p := smallPacket) (by decide)
  have hall : cs = g.state.list.clients := by
    refine hexact ?_
    simp [smallSession, Along, GatewayAction.prevents, preventsAt]
  have hfirst : firstIp ∈ ips := by
    refine hexempt { firstServer with lastIp := some firstIp } ?_ firstIp rfl
    rw [smallSession_servers hrun]
    exact List.mem_singleton_self _
  refine ⟨g, hrun, ?_, ?_, hseen firstIp hfirst⟩
  · rw [hmark, hall, hclients]
    rfl
  · -- the packet goes to the auth server
    have hany : ips.any (coverAll.covers · smallPacket.dst) = true :=
      List.any_eq_true.mpr ⟨firstIp, hfirst, rfl⟩
    rw [hverdict, runtimePolicy, if_neg (by decide), if_pos hany]

end Wifidog
