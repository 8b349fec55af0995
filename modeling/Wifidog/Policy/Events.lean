/-
  Grants, revocations and pings after the chains are set up.

  `Running` is what holds between two events: the Outgoing chain holds one rule for each client
  with access, the AuthDown chain follows the latest ping, and no other chain has changed since
  `iptables_fw_init`. Proved: every event keeps it (`Running.apply`), hence every sequence of
  events (`Running.run`).
-/
import Wifidog.Access.Coherence
import Wifidog.Policy.Setup

namespace Wifidog

open CText Netfilter

/-! ## What happens at run time -/

structure FwState where
  clients : List Client
  tables : Tables Chain
  /-- the static flag of `ping` -/
  authdown : Bool

/-- A grant or a revocation for the client at position `i`, or a ping. -/
inductive Event where
  | allow (i : Nat) (mark : Int)
  | deny (i : Nat)
  | ping (o : PingOutcome)

def FwState.apply (cfg : Config) (s : FwState) : Event → FwState
  | .allow i mark =>
    match s.clients[i]? with
    | none => s
    | some c =>
      { s with
        tables := (fwAllow s.tables c mark).1
        clients := s.clients.set i (fwAllow s.tables c mark).2.1 }
  | .deny i =>
    match s.clients[i]? with
    | none => s
    | some c =>
      { s with
        tables := (fwDeny s.tables c).1
        clients := s.clients.set i (fwDeny s.tables c).2.1 }
  | .ping o =>
    { s with
      tables := (Wifidog.ping cfg s.tables s.authdown o).1
      authdown := (Wifidog.ping cfg s.tables s.authdown o).2 }

def FwState.run (cfg : Config) (s : FwState) (es : List Event) : FwState := es.foldl (apply cfg) s

/-- New marks are PROBATION or KNOWN. -/
def Event.Ok : Event → Prop
  | .allow _ mark => mark = fwMarkProbation ∨ mark = fwMarkKnown
  | _ => True

/-- The latest ping of the sequence failed. -/
def latestPingFailed (es : List Event) : Bool :=
  es.foldl (fun failed e => match e with
    | .ping o => !o.pong
    | _ => failed) false

/-- MAC and ip tell the clients apart. -/
def DistinctSenders (clients : List Client) : Prop :=
  clients.Pairwise fun c d => ¬ (c.ip = d.ip ∧ sameMac c.mac d.mac = true)

/-! ## What events do to the chains -/

/-- The rule that marks everything while no auth server answers. -/
def downRule : Rule Chain := ⟨[], .mark (hexMark fwMarkAuthIsDown)⟩

theorem view_fwSetAuthdown (cfg : Config) (t : Tables Chain) (tb : Table) (ch : Chain) :
    (fwSetAuthdown cfg t).view tb ch =
      if cfg.gotAuthdownRuleset ∧ tb = .mangle ∧ ch = .authIsDown then
        (t.view tb ch).map (· ++ [downRule])
      else t.view tb ch := by
  unfold fwSetAuthdown iptablesFwAuthUnreachable
  by_cases hgot : cfg.gotAuthdownRuleset = true
  · rw [if_pos hgot, Tables.view_execAll t (by simp [Command.NoJump])]
    by_cases htb : tb = .mangle <;> by_cases hch : ch = .authIsDown <;>
      simp [hgot, htb, hch, Tables.viewAfter_cons, Tables.viewAfter_nil, Command.touches, Op.chain,
        Op.apply, downRule, Ne.symm (a := tb), Ne.symm (a := ch)]
  · simp [hgot, Tables.execAll]

theorem view_fwSetAuthup (cfg : Config) (t : Tables Chain) (tb : Table) (ch : Chain) :
    (fwSetAuthup cfg t).view tb ch =
      if cfg.gotAuthdownRuleset ∧ tb = .mangle ∧ ch = .authIsDown then
        (t.view tb ch).map fun _ => []
      else t.view tb ch := by
  unfold fwSetAuthup iptablesFwAuthReachable
  by_cases hgot : cfg.gotAuthdownRuleset = true
  · rw [if_pos hgot, Tables.view_execAll t (by simp [Command.NoJump])]
    by_cases htb : tb = .mangle <;> by_cases hch : ch = .authIsDown <;>
      simp [hgot, htb, hch, Tables.viewAfter_cons, Tables.viewAfter_nil, Command.touches, Op.chain,
        Op.apply, Ne.symm (a := tb), Ne.symm (a := ch)]
  · simp [hgot, Tables.execAll]

/-- The chain AuthDown for a value of the flag. -/
def downRules (authdown : Bool) : List (Rule Chain) := if authdown then [downRule] else []

/-- The flag says whether this ping failed, and the chain follows it. -/
theorem ping_spec (cfg : Config) (t : Tables Chain) (authdown : Bool) (o : PingOutcome) :
    (ping cfg t authdown o).2 = !o.pong ∧
      (t.view .mangle .authIsDown = some (downRules authdown) → cfg.gotAuthdownRuleset = true →
        (ping cfg t authdown o).1.view .mangle .authIsDown = some (downRules (!o.pong))) ∧
      ∀ tb ch, ¬ (tb = .mangle ∧ ch = .authIsDown) →
        (ping cfg t authdown o).1.view tb ch = t.view tb ch := by
  unfold ping
  cases o.pong <;> cases authdown
  · refine ⟨rfl, fun hv hgot => ?_, fun tb ch hne => ?_⟩
    · simp [view_fwSetAuthdown, hgot, hv, downRules]
    · simp [view_fwSetAuthdown, hne]
  · exact ⟨rfl, fun hv _ => hv, fun _ _ _ => rfl⟩
  · exact ⟨rfl, fun hv _ => hv, fun _ _ _ => rfl⟩
  · refine ⟨rfl, fun hv hgot => ?_, fun tb ch hne => ?_⟩
    · simp [view_fwSetAuthup, hgot, hv, downRules]
    · simp [view_fwSetAuthup, hne]

/-- The place of the client at position `i`. -/
theorem set_split {cs : List Client} {i : Nat} {c : Client} (h : cs[i]? = some c) :
    ∃ pre post, cs = pre ++ c :: post ∧ ∀ d, cs.set i d = pre ++ d :: post := by
  obtain ⟨hi, rfl⟩ := List.getElem?_eq_some_iff.mp h
  refine ⟨cs.take i, cs.drop (i + 1), ?_, fun d => ?_⟩
  · rw [← List.drop_eq_getElem_cons hi, List.take_append_drop]
  · rw [List.set_eq_take_append_cons_drop, if_pos hi]

/-- What holds between two events, where `t0` are the tables after `iptables_fw_init`. -/
structure Running (cfg : Config) (t0 : Tables Chain) (s : FwState) : Prop where
  outgoing : ∃ rs, s.tables.view .mangle .outgoing = some rs ∧
    (↑rs : Multiset (Rule Chain)) = grants s.clients
  authdown : cfg.gotAuthdownRuleset = true →
    s.tables.view .mangle .authIsDown = some (downRules s.authdown)
  other : ∀ tb ch, Foreign tb ch → ¬ (tb = .mangle ∧ ch = .authIsDown) →
    s.tables.view tb ch = t0.view tb ch
  senders : DistinctSenders s.clients
  states : ∀ c ∈ s.clients, c.fwConnectionState = 0 ∨ c.fwConnectionState = 1 ∨
    c.fwConnectionState = 2

/-- Another state for one client changes neither who is who nor the range of the states. -/
theorem senders_set {pre post : List Client} {c d : Client} (hip : d.ip = c.ip)
    (hmac : d.mac = c.mac) (h : DistinctSenders (pre ++ c :: post)) :
    DistinctSenders (pre ++ d :: post) := by
  unfold DistinctSenders at h ⊢
  rw [List.pairwise_append, List.pairwise_cons] at h ⊢
  obtain ⟨hpre, ⟨hc, hpost⟩, hcross⟩ := h
  refine ⟨hpre, ⟨?_, hpost⟩, ?_⟩
  · intro e he
    rw [hip, hmac]
    exact hc e he
  · intro e he f hf
    rcases List.mem_cons.mp hf with rfl | hf
    · rw [hip, hmac]
      exact hcross e he c List.mem_cons_self
    · exact hcross e he f (List.mem_cons_of_mem c hf)

theorem states_set {P : Client → Prop} {pre post : List Client} {c d : Client} (hd : P d)
    (h : ∀ e ∈ pre ++ c :: post, P e) : ∀ e ∈ pre ++ d :: post, P e := by
  intro e he
  simp only [List.mem_append, List.mem_cons] at h he
  rcases he with he | rfl | he
  · exact h e (Or.inl he)
  · exact hd
  · exact h e (Or.inr (Or.inr he))

/-- A grant or a revocation: one client gets another state, and only the chains of the clients
    change. -/
theorem Running.replace {cfg : Config} {t0 t' : Tables Chain} {s : FwState}
    (h : Running cfg t0 s) {pre post : List Client} {c : Client}
    (hcs : s.clients = pre ++ c :: post) {state : Int} (hstate : state = 0 ∨ state = 1 ∨ state = 2)
    (hout : ∃ rs, t'.view .mangle .outgoing = some rs ∧
      (↑rs : Multiset (Rule Chain)) = grants (pre ++ { c with fwConnectionState := state } :: post))
    (hother : ∀ tb ch, Foreign tb ch → t'.view tb ch = s.tables.view tb ch) :
    Running cfg t0 { s with
      tables := t'
      clients := pre ++ { c with fwConnectionState := state } :: post } := by
  refine ⟨hout, fun hgot => ?_, fun tb ch hf hne => ?_, ?_, ?_⟩
  · exact (hother _ _ (by intro _; decide)).trans (h.authdown hgot)
  · exact (hother tb ch hf).trans (h.other tb ch hf hne)
  · exact senders_set (c := c) rfl rfl (hcs ▸ h.senders)
  · exact states_set (c := c) hstate (hcs ▸ h.states)

theorem Running.allow {cfg : Config} {t0 : Tables Chain} {s : FwState} (h : Running cfg t0 s)
    {mark : Int} (hmark : mark = fwMarkProbation ∨ mark = fwMarkKnown) (i : Nat) :
    Running cfg t0 (s.apply cfg (.allow i mark)) := by
  obtain ⟨rs, hv, heq⟩ := h.outgoing
  unfold FwState.apply
  dsimp only
  split
  · exact h
  · next c hc =>
    obtain ⟨pre, post, hcs, hset⟩ := set_split hc
    have hne : mark ≠ fwMarkNone := by rcases hmark with rfl | rfl <;> decide
    rw [hset, fwAllow_client]
    refine h.replace hcs (Or.inr hmark) ⟨allowOutgoing c mark rs, ?_, ?_⟩
      fun tb ch hf => view_fwAllow_other _ _ _ hf
    · rw [view_fwAllow_outgoing, hv]
      rfl
    · rw [hcs, grants_middle] at heq
      rw [grants_middle, share_of_granted (c := { c with fwConnectionState := mark }) hne,
        coe_allowOutgoing]
      exact tracks_eq.swap heq _

theorem Running.deny {cfg : Config} {t0 : Tables Chain} {s : FwState} (h : Running cfg t0 s)
    (i : Nat) : Running cfg t0 (s.apply cfg (.deny i)) := by
  obtain ⟨rs, hv, heq⟩ := h.outgoing
  unfold FwState.apply
  dsimp only
  split
  · exact h
  · next c hc =>
    obtain ⟨pre, post, hcs, hset⟩ := set_split hc
    rw [hset, fwDeny_client]
    refine h.replace hcs (Or.inl rfl) ⟨rs.erase c.rule, ?_, ?_⟩
      fun tb ch hf => view_fwDeny_other _ _ hf
    · rw [view_fwDeny_outgoing, hv]
      rfl
    · rw [coe_erase_rule (tracks_eq.subset heq)]
      rw [hcs, grants_middle] at heq
      rw [grants_middle, share_of_none (c := { c with fwConnectionState := fwMarkNone }) rfl]
      simpa using tracks_eq.swap heq 0

theorem Running.ping {cfg : Config} {t0 : Tables Chain} {s : FwState} (h : Running cfg t0 s)
    (o : PingOutcome) : Running cfg t0 (s.apply cfg (.ping o)) := by
  obtain ⟨rs, hv, heq⟩ := h.outgoing
  obtain ⟨hflag, hdown, hother⟩ := ping_spec cfg s.tables s.authdown o
  refine ⟨⟨rs, ?_, heq⟩, ?_, ?_, h.senders, h.states⟩
  · exact (hother _ _ (by decide)).trans hv
  · intro hgot
    have hdown' := hdown (h.authdown hgot) hgot
    rw [← hflag] at hdown'
    exact hdown'
  · intro tb ch hf hne
    exact (hother tb ch hne).trans (h.other tb ch hf hne)

theorem Running.apply {cfg : Config} {t0 : Tables Chain} {s : FwState} (h : Running cfg t0 s)
    {e : Event} (he : e.Ok) : Running cfg t0 (s.apply cfg e) := by
  cases e with
  | allow i mark => exact h.allow he i
  | deny i => exact h.deny i
  | ping o => exact h.ping o

theorem Running.run {cfg : Config} {t0 : Tables Chain} {s : FwState} (h : Running cfg t0 s)
    {es : List Event} (hes : ∀ e ∈ es, e.Ok) : Running cfg t0 (s.run cfg es) := by
  unfold FwState.run
  induction es generalizing s with
  | nil => exact h
  | cons e es ih =>
    exact ih (h.apply (hes e List.mem_cons_self)) fun f hf => hes f (List.mem_cons_of_mem e hf)

/-- The flag of `ping` after a run of events. -/
theorem authdown_run (cfg : Config) (s : FwState) (es : List Event) :
    (s.run cfg es).authdown = es.foldl (fun failed e => match e with
      | .ping o => !o.pong
      | _ => failed) s.authdown := by
  unfold FwState.run
  induction es generalizing s with
  | nil => rfl
  | cons e es ih =>
    rw [List.foldl_cons, List.foldl_cons, ih]
    congr 1
    cases e with
    | allow i mark =>
      unfold FwState.apply
      dsimp only
      split <;> rfl
    | deny i =>
      unfold FwState.apply
      dsimp only
      split <;> rfl
    | ping o => exact (ping_spec cfg s.tables s.authdown o).1

end Wifidog
