/-
  The online status follows the last events.

  Along a clock that does not go back the four times keep an order: the auth server was never
  marked online later than the gateway, and the gateway never offline later than the auth
  server (`Ordered`). So the gateway's own test in `is_auth_online` can only fail when the
  auth server's fails too.

  Proved: every call keeps the order (`Ordered.apply`), the two auth times are those of the
  last calls (`lastAuthOnline_markAll`, `lastAuthOffline_markAll`), and both tests as the
  last events give them (`online_follows_marks`).
-/
import Wifidog.Model.Online

namespace Wifidog

/-! ## Calls along a clock -/

/-- The clock never goes back and is always positive. -/
structure Clocked (ms : List Mark) : Prop where
  sorted : (ms.flatMap Mark.reads).Pairwise (· ≤ ·)
  positive : ∀ r ∈ ms.flatMap Mark.reads, 0 < r

/-- When a call marks the auth server online. -/
def Mark.authOnline (m : Mark) : Option Int64 :=
  match m.call with
  | .markAuthOnline => some m.time
  | _ => none

/-- When a call marks the auth server offline; `mark_offline` does so in the call inside. -/
def Mark.authOffline (m : Mark) : Option Int64 :=
  match m.call with
  | .markAuthOffline => some m.time
  | .markOffline => some m.nested
  | _ => none

/-- The time of the last of these events, 0 if there was none. -/
def latest (event : Mark → Option Int64) (ms : List Mark) : Int64 :=
  (ms.filterMap event).getLast?.getD 0

theorem Mark.authOnline_eq_some {m : Mark} {r : Int64} (h : m.authOnline = some r) :
    m.call = .markAuthOnline ∧ r ∈ m.reads := by
  unfold Mark.authOnline at h
  unfold Mark.reads
  split at h
  · next hcall =>
    obtain rfl := Option.some.inj h
    simp [hcall]
  · cases h

/-! ## What the calls do to the times -/

theorem lastAuthOnline_apply (t : Times) (m : Mark) :
    (m.apply t).lastAuthOnline = m.authOnline.getD t.lastAuthOnline := by
  unfold Mark.apply Mark.authOnline
  cases m.call <;> rfl

theorem lastAuthOffline_apply (t : Times) (m : Mark) :
    (m.apply t).lastAuthOffline = m.authOffline.getD t.lastAuthOffline := by
  unfold Mark.apply Mark.authOffline
  cases m.call <;> rfl

/-- A time that each call either keeps or sets is that of the last call that sets it. -/
theorem field_markAll (field : Times → Int64) (event : Mark → Option Int64)
    (hfield : ∀ t m, field (Mark.apply t m) = (event m).getD (field t)) (t : Times)
    (ms : List Mark) :
    field (markAll t ms) = (ms.filterMap event).getLast?.getD (field t) := by
  induction ms generalizing t with
  | nil => rfl
  | cons m ms ih =>
    have hcons : markAll t (m :: ms) = markAll (m.apply t) ms := rfl
    rw [hcons, ih, hfield]
    cases hm : event m with
    | none => rw [List.filterMap_cons_none hm]; rfl
    | some r => rw [List.filterMap_cons_some hm, List.getLast?_cons]; rfl

theorem lastAuthOnline_markAll (ms : List Mark) :
    (markAll .init ms).lastAuthOnline = latest Mark.authOnline ms :=
  field_markAll Times.lastAuthOnline Mark.authOnline lastAuthOnline_apply .init ms

theorem lastAuthOffline_markAll (ms : List Mark) :
    (markAll .init ms).lastAuthOffline = latest Mark.authOffline ms :=
  field_markAll Times.lastAuthOffline Mark.authOffline lastAuthOffline_apply .init ms

/-- With a positive clock the last time is 0 just when the event never happened. -/
theorem latest_authOnline_pos {ms : List Mark} (h : Clocked ms) :
    0 < latest Mark.authOnline ms ↔ ∃ m ∈ ms, m.call = .markAuthOnline := by
  unfold latest
  cases hlast : (ms.filterMap Mark.authOnline).getLast? with
  | none =>
    have hnone := List.filterMap_eq_nil_iff.mp (List.getLast?_eq_none_iff.mp hlast)
    constructor
    · intro hpos
      exact absurd hpos (by decide)
    · rintro ⟨m, hm, hcall⟩
      have := hnone m hm
      simp [Mark.authOnline, hcall] at this
  | some r =>
    obtain ⟨m, hm, hr⟩ := List.mem_filterMap.mp (List.mem_of_getLast? hlast)
    obtain ⟨hcall, hread⟩ := Mark.authOnline_eq_some hr
    exact ⟨fun _ => ⟨m, hm, hcall⟩,
      fun _ => h.positive r (List.mem_flatMap.mpr ⟨m, hm, hread⟩)⟩

/-! ## The order of the times -/

structure Ordered (t : Times) : Prop where
  online : t.lastAuthOnline ≤ t.lastOnline
  offline : t.lastOffline ≤ t.lastAuthOffline
  authOnline_nonneg : 0 ≤ t.lastAuthOnline
  offline_nonneg : 0 ≤ t.lastOffline

/-- No time is later than the clock. -/
structure Times.By (t : Times) (now : Int64) : Prop where
  lastOnline : t.lastOnline ≤ now
  lastAuthOffline : t.lastAuthOffline ≤ now

theorem init_by {now : Int64} (h : 0 < now) : Times.init.By now :=
  ⟨Int64.le_of_lt h, Int64.le_of_lt h⟩

theorem Times.By.apply {t : Times} {now : Int64} (h : t.By now) {m : Mark}
    (hreads : ∀ r ∈ m.reads, r ≤ now) : (m.apply t).By now := by
  unfold Mark.reads at hreads
  unfold Mark.apply
  cases hcall : m.call <;> simp only [hcall, List.mem_cons, List.not_mem_nil, or_false,
    forall_eq_or_imp, forall_eq] at hreads
  case markOnline => exact ⟨hreads, h.lastAuthOffline⟩
  case markOffline => exact ⟨h.lastOnline, hreads.2⟩
  case markAuthOnline => exact ⟨hreads.2, h.lastAuthOffline⟩
  case markAuthOffline => exact ⟨h.lastOnline, hreads⟩

theorem Times.By.markAll {t : Times} {now : Int64} (h : t.By now) {ms : List Mark}
    (hreads : ∀ r ∈ ms.flatMap Mark.reads, r ≤ now) : (markAll t ms).By now := by
  induction ms generalizing t with
  | nil => exact h
  | cons m ms ih =>
    rw [List.flatMap_cons] at hreads
    exact ih (h.apply fun r hr => hreads r (List.mem_append_left _ hr))
      fun r hr => hreads r (List.mem_append_right _ hr)

theorem Ordered.apply {t : Times} (h : Ordered t) {m : Mark} (hby : ∀ r ∈ m.reads, t.By r)
    (hsorted : m.reads.Pairwise (· ≤ ·)) (hpos : ∀ r ∈ m.reads, 0 < r) : Ordered (m.apply t) := by
  unfold Mark.reads at hby hsorted hpos
  unfold Mark.apply
  cases hcall : m.call <;> simp only [hcall, List.mem_cons, List.not_mem_nil, or_false,
    forall_eq_or_imp, forall_eq, List.pairwise_cons, List.Pairwise.nil] at hby hsorted hpos
  case markOnline =>
    exact ⟨Int64.le_trans h.online hby.lastOnline, h.offline, h.authOnline_nonneg,
      h.offline_nonneg⟩
  case markOffline =>
    exact ⟨h.online, hsorted.1, h.authOnline_nonneg, Int64.le_of_lt hpos.1⟩
  case markAuthOnline =>
    exact ⟨hsorted.1, h.offline, Int64.le_of_lt hpos.1, h.offline_nonneg⟩
  case markAuthOffline =>
    exact ⟨h.online, Int64.le_trans h.offline hby.lastAuthOffline, h.authOnline_nonneg,
      h.offline_nonneg⟩

/-- The order holds after every sequence of calls, and no time is later than any later
    reading. -/
theorem Ordered.markAll {t : Times} (h : Ordered t) {ms : List Mark} (hclock : Clocked ms)
    (hby : ∀ r ∈ ms.flatMap Mark.reads, t.By r) : Ordered (markAll t ms) := by
  induction ms generalizing t with
  | nil => exact h
  | cons m ms ih =>
    have hsorted := hclock.sorted
    have hpos := hclock.positive
    rw [List.flatMap_cons] at hsorted hpos hby
    obtain ⟨hfirst, hrest, hle⟩ := List.pairwise_append.mp hsorted
    refine ih (h.apply (fun r hr => hby r (List.mem_append_left _ hr)) hfirst
      fun r hr => hpos r (List.mem_append_left _ hr)) ⟨hrest, fun r hr =>
        hpos r (List.mem_append_right _ hr)⟩ ?_
    intro r hr
    exact (hby r (List.mem_append_right _ hr)).apply fun r' hr' => hle r' hr' r hr

theorem ordered_init : Ordered .init := ⟨by decide, by decide, by decide, by decide⟩

theorem ordered_markAll {ms : List Mark} (hclock : Clocked ms) : Ordered (markAll .init ms) :=
  ordered_init.markAll hclock fun r hr => init_by (hclock.positive r hr)

/-! ## The tests -/

/-- `2 * checkinterval` is positive and fits an `int`. -/
def IntervalFits (cfg : Config) : Prop :=
  0 < 2 * cfg.checkinterval.toInt ∧ 2 * cfg.checkinterval.toInt < 2 ^ 31

theorem toInt_doubled {cfg : Config} (h : IntervalFits cfg) :
    (cfg.checkinterval * 2).toInt64.toInt = 2 * cfg.checkinterval.toInt := by
  obtain ⟨hlow, hhigh⟩ := h
  have htwo : (2 : Int32).toInt = 2 := by decide
  rw [Int32.toInt_toInt64, Int32.toInt_mul, htwo, Int.mul_comm]
  exact Int.bmod_eq_of_le (by omega) (by omega)

/-- The difference of two times that are not negative does not overflow. -/
theorem probablyOnline_iff {cfg : Config} (h : IntervalFits cfg) {online offline : Int64}
    (hon : 0 ≤ online) (hoff : 0 ≤ offline) :
    probablyOnline cfg online offline = true ↔
      0 < online.toInt ∧ offline.toInt - online.toInt < 2 * cfg.checkinterval.toInt := by
  have hon' : 0 ≤ online.toInt := Int64.le_iff_toInt_le.mp hon
  have hoff' : 0 ≤ offline.toInt := Int64.le_iff_toInt_le.mp hoff
  have hmax := Int64.toInt_lt online
  have hmax' := Int64.toInt_lt offline
  have hzero : online = 0 ↔ online.toInt = 0 := by
    rw [← Int64.toInt_inj]
    rfl
  unfold probablyOnline
  simp only [Bool.not_eq_true', Bool.or_eq_false_iff, beq_eq_false_iff_ne, ne_eq,
    decide_eq_false_iff_not, hzero, Int64.le_iff_toInt_le, toInt_doubled h, Int64.toInt_sub]
  rw [Int.bmod_eq_of_le (by omega) (by omega)]
  omega

/-- In ordered times the gateway is online whenever the auth server's own test holds. -/
theorem Ordered.isOnline {cfg : Config} (h : IntervalFits cfg) {t : Times} (ht : Ordered t)
    (hauth : probablyOnline cfg t.lastAuthOnline t.lastAuthOffline = true) :
    isOnline cfg t = true := by
  have honline := Int64.le_iff_toInt_le.mp ht.online
  have hoffline := Int64.le_iff_toInt_le.mp ht.offline
  have hauth' := (probablyOnline_iff h ht.authOnline_nonneg
    (Int64.le_trans ht.offline_nonneg ht.offline)).mp hauth
  refine (probablyOnline_iff h (Int64.le_trans ht.authOnline_nonneg ht.online)
    ht.offline_nonneg).mpr ?_
  omega

/-- So the extra test of `is_auth_online` never changes its answer. -/
theorem Ordered.isAuthOnline {cfg : Config} (h : IntervalFits cfg) {t : Times} (ht : Ordered t) :
    isAuthOnline cfg t = probablyOnline cfg t.lastAuthOnline t.lastAuthOffline := by
  unfold Wifidog.isAuthOnline
  cases hauth : probablyOnline cfg t.lastAuthOnline t.lastAuthOffline with
  | false => simp
  | true => rw [ht.isOnline h hauth]; rfl

/-! ## After a connection -/

/-- Right after `mark_auth_online` both tests hold. -/
theorem online_after_markAuthOnline {cfg : Config} (h : IntervalFits cfg) {ms : List Mark}
    {m : Mark} (hcall : m.call = .markAuthOnline) (hclock : Clocked (ms ++ [m])) :
    isOnline cfg (markAll .init (ms ++ [m])) = true ∧
      isAuthOnline cfg (markAll .init (ms ++ [m])) = true := by
  have hordered := ordered_markAll hclock
  have hread : m.time ∈ Mark.reads m := by simp [Mark.reads, hcall]
  have hpos : 0 < m.time := by
    refine hclock.positive m.time ?_
    rw [List.flatMap_append]
    exact List.mem_append_right _ (by simpa using hread)
  have hby : (markAll .init ms).By m.time := by
    have hsorted := hclock.sorted
    rw [List.flatMap_append, List.pairwise_append] at hsorted
    refine (init_by hpos).markAll ?_
    exact fun r hr => hsorted.2.2 r hr m.time (by simpa using hread)
  have hlast : markAll .init (ms ++ [m]) = markAuthOnline (markAll .init ms) m.time m.nested := by
    unfold markAll
    rw [List.foldl_append, List.foldl_cons, List.foldl_nil, Mark.apply, hcall]
  have hauth : probablyOnline cfg (markAll .init (ms ++ [m])).lastAuthOnline
      (markAll .init (ms ++ [m])).lastAuthOffline = true := by
    refine (probablyOnline_iff h hordered.authOnline_nonneg
      (Int64.le_trans hordered.offline_nonneg hordered.offline)).mpr ?_
    rw [hlast]
    have hle := Int64.le_iff_toInt_le.mp hby.lastAuthOffline
    have hlt : 0 < m.time.toInt := Int64.lt_iff_toInt_lt.mp hpos
    have hinterval := h.1
    simp only [markAuthOnline, markOnline]
    omega
  rw [hordered.isAuthOnline h]
  exact ⟨hordered.isOnline h hauth, hauth⟩

/-- The last call of a connection that succeeds. -/
theorem connectMarks_eq {c : Central} {net : Net} {servers : List AuthServer}
    {t : Netfilter.Tables Chain} (h : (connectAuthServer c net servers t).sockfd.isSome = true) :
    connectMarks c net servers t = connectMarksAt c net 0 servers ++ [.markAuthOnline] := by
  obtain ⟨peer, hpeer⟩ := Option.isSome_iff_exists.mp h
  rw [connectMarks, hpeer]

/-- After every sequence of calls along a positive clock that does not go back: the auth server
    counts as online just when it was marked so and not marked offline `2 * checkinterval` or
    more after that, whatever the gateway's own test says; then the gateway counts as online
    too; and both do after every connection that succeeds. -/
theorem online_follows_marks (cfg : Config) (hinterval : IntervalFits cfg) (ms : List Mark)
    (hclock : Clocked ms) :
    (isAuthOnline cfg (markAll .init ms) = true ↔
      (∃ m ∈ ms, m.call = .markAuthOnline) ∧
        (latest Mark.authOffline ms).toInt - (latest Mark.authOnline ms).toInt <
          2 * cfg.checkinterval.toInt) ∧
    isAuthOnline cfg (markAll .init ms) =
      probablyOnline cfg (markAll .init ms).lastAuthOnline (markAll .init ms).lastAuthOffline ∧
    (isAuthOnline cfg (markAll .init ms) = true → isOnline cfg (markAll .init ms) = true) ∧
    ∀ c net servers t conn, (connectAuthServer c net servers t).sockfd.isSome = true →
      conn.map Mark.call = connectMarks c net servers t → Clocked (ms ++ conn) →
      isOnline cfg (markAll .init (ms ++ conn)) = true ∧
        isAuthOnline cfg (markAll .init (ms ++ conn)) = true := by
  have hordered := ordered_markAll hclock
  have htest := hordered.isAuthOnline hinterval
  refine ⟨?_, htest, ?_, ?_⟩
  · rw [htest, probablyOnline_iff hinterval hordered.authOnline_nonneg
      (Int64.le_trans hordered.offline_nonneg hordered.offline), lastAuthOnline_markAll,
      lastAuthOffline_markAll, ← latest_authOnline_pos hclock, Int64.lt_iff_toInt_lt]
    rfl
  · rw [htest]
    exact hordered.isOnline hinterval
  · intro c net servers t conn hsock hcalls hconn
    rw [connectMarks_eq hsock] at hcalls
    -- the last call of the connection is the one that marks the auth server online
    obtain ⟨pre, last, rfl, -, hlast⟩ := List.map_eq_append_iff.mp hcalls
    obtain ⟨m, hm, hcall⟩ := List.map_eq_singleton_iff.mp hlast
    subst hm
    rw [← List.append_assoc] at hconn ⊢
    exact online_after_markAuthOnline hinterval hcall hconn

/-- Marked online at 5, offline at 64 and 65: still online, with a check every 60 seconds. -/
def smallMarks : List Mark := [⟨.markAuthOnline, 5, 5⟩, ⟨.markOffline, 64, 65⟩]

theorem smallMarks_clocked : Clocked smallMarks := by
  have hreads : smallMarks.flatMap Mark.reads = [5, 5, 64, 65] := by decide
  refine ⟨by rw [hreads]; decide, fun r hr => ?_⟩
  rw [hreads] at hr
  simp only [List.mem_cons, List.not_mem_nil, or_false] at hr
  obtain rfl | rfl | rfl | rfl := hr <;> decide

theorem online_follows_smallMarks : isAuthOnline smallConfig (markAll .init smallMarks) = true :=
  (online_follows_marks smallConfig ⟨by decide, by decide⟩ smallMarks smallMarks_clocked).1.mpr
    ⟨⟨_, List.mem_cons_self, rfl⟩, by decide⟩

end Wifidog
