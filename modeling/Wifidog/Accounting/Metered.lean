/-
  The gateway with the traffic that its rules count.

  `Metered` is a state of the system together with a clock, a ledger of meters for each of the
  two chains that hold client rules, and what is left of the listing that
  `iptables_fw_counters_update` is reading. The kernel counts the bytes that a rule matches
  from its installation on (`traffic`); `iptables -v -n -x -L` prints all counts at once
  (`listing`), and every row is handled in a lock section of its own (`row`), so that any
  other step may come in between. All other steps of the system are taken as they are; `clock`
  is the last time that one of them read.

  A meter is installed for the client that `fw_allow` is called for. Deleting a rule takes
  the first one that looks like it, whoever it was installed for.

  Addresses of clients come from the sockets' peers, so a listing prints them back as they
  are.

  Proved: what a deed does to the meters (`Deed.mem_onLedger`), that their rules follow the
  chains (`Deed.rules_onLedger`), and that a metered run is a run of the system (`run_sys`).
-/
import Wifidog.Lib.Meters
import Wifidog.Access.Deeds
import Wifidog.Access.Coherence

namespace Wifidog

open CText Netfilter Runs Meters

/-! ## Ledgers of the two chains -/

def Direction.chain : Direction → Chain
  | .outgoing => .outgoing
  | .incoming => .incoming

/-- The rule of a client in the chain of a direction. -/
def ruleFor (dir : Direction) (c : Client) (mark : Int) : Rule Chain :=
  match dir with
  | .outgoing => markRule c.ip c.mac mark
  | .incoming => acceptRule c.ip

/-- The address that a row of the listing shows. -/
def listedIp (r : Rule Chain) : Text :=
  match r.conds with
  | .source ip :: _ => ip
  | .destination ip :: _ => ip
  | _ => []

@[simp] theorem listedIp_ruleFor (dir : Direction) (c : Client) (mark : Int) :
    listedIp (ruleFor dir c mark) = c.ip := by
  cases dir <;> rfl

/-- `iptables_fw_destroy_mention` on the meters of the chain. -/
def destroyMeters (print : Rule Chain → Text) (victim : Text) :
    Nat → Ledger (Rule Chain) → Ledger (Rule Chain)
  | 0, l => l
  | fuel + 1, l =>
    match mentionAt print victim 1 l.rules with
    | none => l
    | some num => destroyMeters print victim fuel (if num = 0 then l else l.deleteAt (num - 1))

/-- What a deed does to the meters of one chain; `serial` is the number of a new meter. -/
def Deed.onLedger (dir : Direction) (serial : Nat) :
    Deed → Ledger (Rule Chain) → Ledger (Rule Chain)
  | .allow c _ mark cleared, l =>
    let l := if cleared then l.close c.id else l
    let l := l.install ⟨serial, c.id, ruleFor dir c mark, 0, 0, false⟩
    if c.fwConnectionState ≠ fwMarkNone then l.delete (ruleFor dir c c.fwConnectionState) else l
  | .deny c _, l => l.delete (ruleFor dir c c.fwConnectionState)
  | .remove c, l => l.delete (ruleFor dir c c.fwConnectionState)
  | .prevent print ip, l => destroyMeters print ip l.rules.length l
  | _, l => l

/-! ## Steps -/

/-- A row of a listing that has not been handled yet. -/
structure Row where
  dir : Direction
  serial : Nat
  ip : Text
  counter : UInt64
  deriving DecidableEq, Repr

def rowOf (dir : Direction) (k : Meter (Rule Chain)) : Row :=
  ⟨dir, k.serial, listedIp k.rule, k.bytes⟩

structure Metered where
  sys : State
  clock : Int64
  outgoing : Ledger (Rule Chain)
  incoming : Ledger (Rule Chain)
  /-- the number of the next meter -/
  serial : Nat
  rows : List Row
  deriving DecidableEq, Repr

namespace Metered

def ledger (m : Metered) : Direction → Ledger (Rule Chain)
  | .outgoing => m.outgoing
  | .incoming => m.incoming

/-- Change the ledger of one direction. -/
def setLedger (m : Metered) (dir : Direction) (l : Ledger (Rule Chain)) : Metered :=
  match dir with
  | .outgoing => { m with outgoing := l }
  | .incoming => { m with incoming := l }

/-- The steps of the system that are left to other actions: a row comes from a listing, and
    `iptables_fw_counters_update` ends only between listings. -/
def allows (m : Metered) : Action → Bool
  | .countersRow .. => false
  | .syncDup => m.rows.isEmpty
  | .syncAbort => m.rows.isEmpty
  | _ => true

end Metered

/-- The time that a step reads from the clock. -/
def Action.time : Action → Option Int64
  | .httpCallbackAuth _ _ _ _ now => some now
  | .countersRow _ _ _ _ now => some now
  | .syncApply now => some now
  | _ => none

/-- A step of the system, with what it does to the meters. -/
def perform (cfg : Config) (m : Metered) (a : Action) : Option Metered :=
  (step cfg m.sys a).map fun s =>
    { m with
      sys := s
      clock := a.time.getD m.clock
      outgoing := (deedOf cfg m.sys a).onLedger .outgoing m.serial m.outgoing
      incoming := (deedOf cfg m.sys a).onLedger .incoming m.serial m.incoming
      serial := m.serial + 1 }

inductive MeterAction where
  | sys (a : Action)
  /-- the rule of meter `serial` matches packets of `n` bytes -/
  | traffic (dir : Direction) (serial : Nat) (n : UInt64)
  | listing (dir : Direction)
  | row (print : Rule Chain → Text) (now : Int64)

def meterStep (cfg : Config) (m : Metered) : MeterAction → Option Metered
  | .sys a => if m.allows a then perform cfg m a else none
  | .traffic dir serial n =>
    match (m.ledger dir).chain.find? (·.serial == serial) with
    | some k =>
      if k.bytes ≤ k.bytes + n then some (m.setLedger dir ((m.ledger dir).traffic serial n))
      else none
    | none => none
  | .listing dir =>
    if m.sys.sync = .counting ∧ m.rows = [] then
      some { m with rows := (m.ledger dir).chain.map (rowOf dir) }
    else none
  | .row print now =>
    match m.rows with
    | [] => none
    | r :: rows =>
      (perform cfg m (.countersRow print r.dir r.ip r.counter now)).map fun m =>
        { m with rows := rows }.setLedger r.dir ((m.ledger r.dir).setRead r.serial r.counter)

/-- A process that has just set up its chains; the clock may show any time. -/
structure FreshMetered (m : Metered) : Prop where
  sys : Fresh m.sys
  outgoing : m.outgoing = .empty
  incoming : m.incoming = .empty
  rows : m.rows = []

/-! ## The rules of the ledgers -/

theorem rules_destroyMeters (print : Rule Chain → Text) (victim : Text) (chain : Chain)
    (fuel : Nat) {l : Ledger (Rule Chain)} {t : Tables Chain}
    (h : t.view .mangle chain = some l.rules) :
    (destroyMention print .mangle chain victim fuel t).view .mangle chain =
      some (destroyMeters print victim fuel l).rules := by
  induction fuel generalizing l t with
  | zero => exact h
  | succ fuel ih =>
    unfold destroyMention destroyMeters
    rw [h, Option.getD_some]
    cases mentionAt print victim 1 l.rules with
    | none => exact h
    | some num =>
      refine ih ?_
      rw [Tables.view_exec t (by simp [Command.NoJump]), h]
      by_cases hnum : num = 0
      · simp [Command.touches, Op.chain, Op.apply, hnum]
      · simp [Command.touches, Op.chain, Op.apply, hnum, rules_deleteAt]

theorem view_destroyMention_other (print : Rule Chain → Text) (victim : Text) {chain ch : Chain}
    (hch : chain ≠ ch) (fuel : Nat) (t : Tables Chain) :
    (destroyMention print .mangle chain victim fuel t).view .mangle ch = t.view .mangle ch := by
  induction fuel generalizing t with
  | zero => rfl
  | succ fuel ih =>
    unfold destroyMention
    split
    · rfl
    · rw [ih, Tables.view_exec t (by simp [Command.NoJump])]
      simp [Command.touches, Op.chain, hch]

theorem rules_close (l : Ledger (Rule Chain)) (id : Nat) : (l.close id).rules = l.rules :=
  rules_update l fun m => by split <;> rfl

theorem rules_allow (dir : Direction) (serial : Nat) (c : Client) (token : Text) (mark : Int)
    (cleared : Bool) (l : Ledger (Rule Chain)) :
    ((Deed.allow c token mark cleared).onLedger dir serial l).rules =
      if c.fwConnectionState ≠ fwMarkNone then
        (l.rules ++ [ruleFor dir c mark]).erase (ruleFor dir c c.fwConnectionState)
      else l.rules ++ [ruleFor dir c mark] := by
  have hclosed : (if cleared then l.close c.id else l).rules = l.rules := by
    cases cleared
    · rfl
    · exact rules_close l c.id
  unfold Deed.onLedger
  dsimp only
  split
  · rw [rules_delete, rules_install, hclosed]
  · rw [rules_install, hclosed]

theorem view_fwDeny_chain (dir : Direction) (t : Tables Chain) (c : Client) :
    (fwDeny t c).1.view .mangle dir.chain =
      (t.view .mangle dir.chain).map (·.erase (ruleFor dir c c.fwConnectionState)) := by
  cases dir with
  | outgoing => exact view_fwDeny_outgoing t c
  | incoming => exact view_fwDeny_incoming t c

theorem view_fwAllow_chain (dir : Direction) (t : Tables Chain) (c : Client) (mark : Int) :
    (fwAllow t c mark).1.view .mangle dir.chain = (t.view .mangle dir.chain).map fun rs =>
      if c.fwConnectionState ≠ fwMarkNone then
        (rs ++ [ruleFor dir c mark]).erase (ruleFor dir c c.fwConnectionState)
      else rs ++ [ruleFor dir c mark] := by
  cases dir with
  | outgoing => exact view_fwAllow_outgoing t c mark
  | incoming => exact view_fwAllow_incoming t c mark

theorem ruleFor_allowed (dir : Direction) (c : Client) (token : Text) (cleared : Bool)
    (mark : Int) :
    ruleFor dir (Deed.allowed c token cleared) mark = ruleFor dir c mark := by
  cases dir <;> rfl

theorem ruleFor_token (dir : Direction) (c : Client) (token : Text) (mark : Int) :
    ruleFor dir { c with token := token } mark = ruleFor dir c mark := by
  cases dir <;> rfl

/-- The meters' rules follow the chain. -/
theorem Deed.rules_onLedger (d : Deed) (dir : Direction) (serial : Nat)
    {l : Ledger (Rule Chain)} {t : Tables Chain}
    (h : t.view .mangle dir.chain = some l.rules) :
    (d.tables t).view .mangle dir.chain = some (d.onLedger dir serial l).rules := by
  cases d with
  | none => exact h
  | add ip mac token now => exact h
  | retoken c token => exact h
  | count c counters => exact h
  | allow c token mark cleared =>
    unfold Deed.tables
    rw [rules_allow, view_fwAllow_chain, h, Option.map_some, ruleFor_allowed, ruleFor_allowed]
    rfl
  | deny c token =>
    unfold Deed.onLedger Deed.tables
    rw [rules_delete, view_fwDeny_chain, h, Option.map_some, ruleFor_token]
  | remove c =>
    unfold Deed.onLedger Deed.tables
    rw [rules_delete, view_fwDeny_chain, h, Option.map_some]
  | prevent print ip =>
    show (preventiveDelete print t ip).view .mangle dir.chain =
      some (destroyMeters print ip l.rules.length l).rules
    unfold preventiveDelete iptablesFwDestroyMention
    dsimp only
    cases dir with
    | outgoing =>
      have hout : t.view .mangle .outgoing = some l.rules := h
      rw [show Direction.outgoing.chain = Chain.outgoing from rfl,
        view_destroyMention_other print ip (by decide), hout, Option.getD_some]
      exact rules_destroyMeters print ip .outgoing l.rules.length hout
    | incoming =>
      have hin : (destroyMention print .mangle .outgoing ip
          ((t.view .mangle .outgoing).getD []).length t).view .mangle .incoming =
          some l.rules :=
        (view_destroyMention_other print ip (by decide) _ t).trans h
      rw [show Direction.incoming.chain = Chain.incoming from rfl, hin, Option.getD_some]
      exact rules_destroyMeters print ip .incoming l.rules.length hin

/-! ## The meters of the ledgers -/

/-- The meter that a deed installs. -/
def Deed.installed (dir : Direction) (serial : Nat) : Deed → Option (Meter (Rule Chain))
  | .allow c _ mark _ => some ⟨serial, c.id, ruleFor dir c mark, 0, 0, false⟩
  | _ => Option.none

/-- A meter after a deed. -/
def Deed.onMeter (d : Deed) (k : Meter (Rule Chain)) : Meter (Rule Chain) :=
  if d.clears = some k.owner then { k with closed := true } else k

theorem all_destroyMeters (print : Rule Chain → Text) (victim : Text) (fuel : Nat)
    (l : Ledger (Rule Chain)) : (destroyMeters print victim fuel l).all.Perm l.all := by
  induction fuel generalizing l with
  | zero => exact List.Perm.refl _
  | succ fuel ih =>
    unfold destroyMeters
    split
    · exact List.Perm.refl _
    · next num _ =>
      refine (ih _).trans ?_
      split
      · exact List.Perm.refl _
      · exact all_deleteAt l _

/-- A deed keeps all meters, apart from closing them, and may add one. -/
theorem Deed.all_onLedger (d : Deed) (dir : Direction) (serial : Nat) (l : Ledger (Rule Chain)) :
    (d.onLedger dir serial l).all.Perm
      ((d.installed dir serial).toList ++ l.all.map d.onMeter) := by
  have hkeep : d.clears = Option.none → l.all.map d.onMeter = l.all := by
    intro hnone
    refine (List.map_congr_left fun k _ => ?_).trans (List.map_id l.all)
    simp [Deed.onMeter, hnone]
  cases d with
  | allow c token mark cleared =>
    have hclosed : (if cleared then l.close c.id else l).all =
        l.all.map (Deed.allow c token mark cleared).onMeter := by
      cases cleared with
      | false => exact (hkeep rfl).symm
      | true =>
        refine (all_update l _).trans (List.map_congr_left fun k _ => ?_)
        simp [Deed.onMeter, Deed.clears, eq_comm]
    unfold Deed.onLedger
    dsimp only
    rw [← hclosed]
    split
    · exact (all_delete _ _).trans (all_install _ _)
    · exact all_install _ _
  | deny c token =>
    rw [hkeep rfl]
    exact all_delete l _
  | remove c =>
    rw [hkeep rfl]
    exact all_delete l _
  | prevent print ip =>
    rw [hkeep rfl]
    exact all_destroyMeters print ip l.rules.length l
  | _ =>
    rw [hkeep rfl]
    exact List.Perm.refl _

/-- Where a meter comes from: it is new, or it was there with the same counts. -/
theorem Deed.mem_onLedger {d : Deed} {dir : Direction} {serial : Nat} {l : Ledger (Rule Chain)}
    {k : Meter (Rule Chain)} (h : k ∈ (d.onLedger dir serial l).all) :
    (∃ c token mark cleared, d = .allow c token mark cleared ∧
      k = ⟨serial, c.id, ruleFor dir c mark, 0, 0, false⟩) ∨
    ∃ k' ∈ l.all, k = d.onMeter k' := by
  rcases List.mem_append.mp ((d.all_onLedger dir serial l).mem_iff.mp h) with hnew | hold
  · left
    cases d with
    | allow c token mark cleared =>
      simp only [Deed.installed, Option.toList, List.mem_singleton] at hnew
      exact ⟨c, token, mark, cleared, rfl, hnew⟩
    | _ => simp [Deed.installed] at hnew
  · right
    obtain ⟨k', hk', rfl⟩ := List.mem_map.mp hold
    exact ⟨k', hk', rfl⟩

section OnMeter
variable (d : Deed) (k : Meter (Rule Chain))

@[simp] theorem Deed.onMeter_serial : (d.onMeter k).serial = k.serial := by
  unfold Deed.onMeter
  split <;> rfl

@[simp] theorem Deed.onMeter_owner : (d.onMeter k).owner = k.owner := by
  unfold Deed.onMeter
  split <;> rfl

@[simp] theorem Deed.onMeter_rule : (d.onMeter k).rule = k.rule := by
  unfold Deed.onMeter
  split <;> rfl

@[simp] theorem Deed.onMeter_bytes : (d.onMeter k).bytes = k.bytes := by
  unfold Deed.onMeter
  split <;> rfl

@[simp] theorem Deed.onMeter_read : (d.onMeter k).read = k.read := by
  unfold Deed.onMeter
  split <;> rfl

end OnMeter

/-! ## What a step of the metered gateway does -/

/-- A step of the system, with its deed done to the meters. -/
structure Performs (cfg : Config) (m : Metered) (a : Action) (m' : Metered) : Prop where
  step : step cfg m.sys a = some m'.sys
  clock : m'.clock = a.time.getD m.clock
  ledger : ∀ dir, m'.ledger dir = (deedOf cfg m.sys a).onLedger dir m.serial (m.ledger dir)
  serial : m'.serial = m.serial + 1
  rows : m'.rows = m.rows

theorem performs_of_perform {cfg : Config} {m m' : Metered} {a : Action}
    (h : perform cfg m a = some m') : Performs cfg m a m' := by
  unfold perform at h
  obtain ⟨s, hs, rfl⟩ := Option.map_eq_some_iff.mp h
  exact ⟨hs, rfl, fun dir => by cases dir <;> rfl, rfl, rfl⟩

@[simp] theorem ledger_setLedger (m : Metered) (dir dir' : Direction) (l : Ledger (Rule Chain)) :
    (m.setLedger dir l).ledger dir' = if dir' = dir then l else m.ledger dir' := by
  cases dir <;> cases dir' <;> rfl

@[simp] theorem sys_setLedger (m : Metered) (dir : Direction) (l : Ledger (Rule Chain)) :
    (m.setLedger dir l).sys = m.sys := by
  cases dir <;> rfl

@[simp] theorem rows_setLedger (m : Metered) (dir : Direction) (l : Ledger (Rule Chain)) :
    (m.setLedger dir l).rows = m.rows := by
  cases dir <;> rfl

@[simp] theorem serial_setLedger (m : Metered) (dir : Direction) (l : Ledger (Rule Chain)) :
    (m.setLedger dir l).serial = m.serial := by
  cases dir <;> rfl

@[simp] theorem clock_setLedger (m : Metered) (dir : Direction) (l : Ledger (Rule Chain)) :
    (m.setLedger dir l).clock = m.clock := by
  cases dir <;> rfl

/-- The handling of the first row `r` of the listing. -/
structure Reads (cfg : Config) (m : Metered) (print : Rule Chain → Text) (now : Int64) (r : Row)
    (m' : Metered) : Prop where
  rows : m.rows = r :: m'.rows
  performs : ∃ m1, Performs cfg m (.countersRow print r.dir r.ip r.counter now) m1 ∧
    m' = { m1 with rows := m'.rows }.setLedger r.dir
      ((m1.ledger r.dir).setRead r.serial r.counter)

/-- The four kinds of steps. -/
inductive Moved (cfg : Config) (m : Metered) : MeterAction → Metered → Prop
  | sys {a : Action} {m' : Metered} (hallows : m.allows a = true) (h : Performs cfg m a m') :
    Moved cfg m (.sys a) m'
  | traffic {dir : Direction} {k : Meter (Rule Chain)} {n : UInt64}
      (hk : k ∈ (m.ledger dir).chain) (hn : k.bytes ≤ k.bytes + n) :
    Moved cfg m (.traffic dir k.serial n)
      (m.setLedger dir ((m.ledger dir).traffic k.serial n))
  | listing {dir : Direction} (hsync : m.sys.sync = .counting) (hrows : m.rows = []) :
    Moved cfg m (.listing dir) { m with rows := (m.ledger dir).chain.map (rowOf dir) }
  | row {print : Rule Chain → Text} {now : Int64} {r : Row} {m' : Metered}
      (h : Reads cfg m print now r m') : Moved cfg m (.row print now) m'

theorem meterStep_moved {cfg : Config} {m m' : Metered} {a : MeterAction}
    (h : meterStep cfg m a = some m') : Moved cfg m a m' := by
  cases a with
  | sys a =>
    simp only [meterStep] at h
    split at h
    · next hallows => exact .sys hallows (performs_of_perform h)
    · cases h
  | traffic dir serial n =>
    simp only [meterStep] at h
    split at h
    · next k hk =>
      split at h
      · next hn =>
        obtain rfl := Option.some.inj h
        have hserial : k.serial = serial := by simpa using List.find?_some hk
        subst hserial
        exact .traffic (List.mem_of_find?_eq_some hk) hn
      · cases h
    · cases h
  | listing dir =>
    simp only [meterStep] at h
    split at h
    · next hready =>
      obtain rfl := Option.some.inj h
      exact .listing hready.1 hready.2
    · cases h
  | row print now =>
    simp only [meterStep] at h
    split at h
    · cases h
    · next r rows hrows =>
      obtain ⟨m1, hm1, rfl⟩ := Option.map_eq_some_iff.mp h
      refine .row ⟨by simpa using hrows, m1, performs_of_perform hm1, ?_⟩
      simp

/-- A metered run is a run of the system. -/
theorem run_sys {cfg : Config} {m m' : Metered} {as : List MeterAction}
    (hrun : run (meterStep cfg) m as = some m') :
    ∃ bs, run (step cfg) m.sys bs = some m'.sys := by
  refine run_inv (fun m' => ∃ bs, run (step cfg) m.sys bs = some m'.sys) ?_ ⟨[], rfl⟩ hrun
  rintro m1 a m2 ⟨bs, hbs⟩ hstep
  have hone : ∀ {b : Action} {s : State}, step cfg m1.sys b = some s →
      ∃ bs, run (step cfg) m.sys bs = some s := by
    intro b s hs
    exact ⟨bs ++ [b], run_append_iff.mpr ⟨_, hbs, by simp [run, hs]⟩⟩
  cases meterStep_moved hstep with
  | sys _ h => exact hone h.step
  | traffic hk hn => exact ⟨bs, by simpa using hbs⟩
  | listing _ _ => exact ⟨bs, hbs⟩
  | row h =>
    obtain ⟨m3, hm3, heq⟩ := h.performs
    rw [heq, sys_setLedger]
    exact hone hm3.step

end Wifidog
