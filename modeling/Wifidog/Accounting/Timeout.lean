/-
  The arithmetic of the time-outs.

  `checkinterval * clienttimeout` and `checkinterval * 2` are products of `int`s, and the file
  sets both factors without a check. The first is added to a `time_t`. The tests that use them
  say what the integers say as long as neither product nor sum wraps, and only then: a product
  that wraps is off by a multiple of 2^32, which the wider sum does not take back.

  Proved: `time_tests_exact_iff`. A time-out of 2147483647 intervals, set by a file that is
  accepted, logs a client out at once (`clientTimeout_wraps`).
-/
import Wifidog.Access.Sessions
import Wifidog.Accounting.Idle
import Wifidog.Central.Online
import Wifidog.Config.Arguments

namespace Wifidog

open CText Netfilter

/-- The three tests of times say what the integers say, for a client last updated then. -/
structure ExactTests (cfg : Config) (lastUpdated : Int64) : Prop where
  /-- of `fw_sync_with_authserver`, for a client that is still listed -/
  logout : ∀ s p1 rest code tmp now, s.sync = .answered p1 rest code →
    clientListFindByClient s.list p1 = some tmp → p1.counters.lastUpdated = lastUpdated →
    (idleClient cfg s now = some tmp ↔ lastUpdated.toInt + cfg.timeout ≤ now.toInt)
  online : ∀ t : Times, isOnline cfg t = true ↔
    t.lastOnline ≠ 0 ∧ (t.lastOffline - t.lastOnline).toInt < 2 * cfg.checkinterval.toInt
  authOnline : ∀ t : Times, isAuthOnline cfg t = true ↔
    isOnline cfg t = true ∧ t.lastAuthOnline ≠ 0 ∧
      (t.lastAuthOffline - t.lastAuthOnline).toInt < 2 * cfg.checkinterval.toInt

/-! ## The time-out of a client -/

section Deadline

variable {cfg : Config}

/-- The time at which the code lets a client time out. -/
def deadline (cfg : Config) (lastUpdated : Int64) : Int64 :=
  lastUpdated + (cfg.checkinterval * cfg.clienttimeout).toInt64

theorem idleClient_iff {s : State} {p1 tmp : Client} {rest : List Client} {code : Int}
    (hsync : s.sync = .answered p1 rest code)
    (hfind : clientListFindByClient s.list p1 = some tmp) (now : Int64) :
    idleClient cfg s now = some tmp ↔
      (deadline cfg p1.counters.lastUpdated).toInt ≤ now.toInt := by
  have htimed : timedOut cfg p1 now = true ↔
      (deadline cfg p1.counters.lastUpdated).toInt ≤ now.toInt := by
    unfold timedOut deadline
    rw [decide_eq_true_iff, Int64.le_iff_toInt_le]
  rw [← htimed]
  unfold idleClient
  simp only [hsync, hfind]
  split
  · next h => simp [h]
  · next h => simp [h]

/-- A gateway in the middle of a sync round, at this client. -/
def syncingAt (c : Client) : State :=
  { smallStart with list := ⟨[c], c.id + 1⟩, sync := .answered c [] authAllowed }

theorem find_syncingAt (c : Client) :
    clientListFindByClient (syncingAt c).list c = some c := by
  simp [syncingAt, clientListFindByClient]

theorem timeout_lt (hinterval : 0 < cfg.checkinterval.toInt)
    (htimeout : 0 < cfg.clienttimeout.toInt) : 0 < cfg.timeout ∧ cfg.timeout < 2 ^ 62 := by
  have hi := Int32.toInt_lt cfg.checkinterval
  have ht := Int32.toInt_lt cfg.clienttimeout
  refine ⟨Int.mul_pos hinterval htimeout, ?_⟩
  calc cfg.timeout < 2 ^ 31 * cfg.clienttimeout.toInt :=
        Int.mul_lt_mul_of_pos_right hi htimeout
    _ < 2 ^ 31 * 2 ^ 31 := Int.mul_lt_mul_of_pos_left ht (by decide)

/-- The deadline is off by what the product wraps. -/
theorem deadline_toInt_iff (hinterval : 0 < cfg.checkinterval.toInt)
    (htimeout : 0 < cfg.clienttimeout.toInt) (lastUpdated : Int64) :
    (deadline cfg lastUpdated).toInt = lastUpdated.toInt + cfg.timeout ↔
      cfg.timeout < 2 ^ 31 ∧ lastUpdated.toInt + cfg.timeout < 2 ^ 63 := by
  obtain ⟨hpos, hlt⟩ := timeout_lt hinterval htimeout
  have hlow := Int64.le_toInt lastUpdated
  unfold deadline
  rw [Int64.toInt_add, Int32.toInt_toInt64, Int32.toInt_mul, ← Config.timeout]
  have hwrap := Int.bmod_add_bdiv cfg.timeout (2 ^ 32)
  have hproduct : Int.bmod cfg.timeout (2 ^ 32) < 2 ^ 31 :=
    lt_of_lt_of_eq (Int.bmod_lt (by decide)) (by decide)
  have hproduct' : -2 ^ 31 ≤ Int.bmod cfg.timeout (2 ^ 32) :=
    Int.le_trans (by decide) (Int.le_bmod (by decide))
  generalize hp : Int.bmod cfg.timeout (2 ^ 32) = p at *
  constructor
  · intro heq
    have hsum : lastUpdated.toInt + cfg.timeout < 2 ^ 63 := by
      rw [← heq]
      exact lt_of_lt_of_eq (Int.bmod_lt (by decide)) (by decide)
    refine ⟨?_, hsum⟩
    -- both sides agree up to a multiple of 2^64, and neither product is that large
    have hwide := Int.bmod_add_bdiv (lastUpdated.toInt + p) (2 ^ 64)
    rw [heq] at hwide
    generalize Int.bdiv (lastUpdated.toInt + p) (2 ^ 64) = k at hwide
    omega
  · rintro ⟨hfits, hsum⟩
    have : p = cfg.timeout := by
      rw [← hp]
      exact Int.bmod_eq_of_le (by omega) (by omega)
    rw [this]
    exact Int.bmod_eq_of_le (by omega) (by omega)

/-- Two deadlines that every time of the clock tells apart in the same way are one. -/
theorem eq_of_forall_le {d : Int64} {n : Int} (hlow : -2 ^ 63 ≤ n)
    (h : ∀ now : Int64, d.toInt ≤ now.toInt ↔ n ≤ now.toInt) : d.toInt = n := by
  have hle : n ≤ d.toInt := (h d).mp (Int.le_refl _)
  have hmax := Int64.toInt_lt d
  have hn : (Int64.ofInt n).toInt = n := Int64.toInt_ofInt_of_le hlow (by omega)
  have hge := (h (Int64.ofInt n)).mpr (by rw [hn])
  omega

end Deadline

/-! ## The online tests -/

theorem probablyOnline_exact {cfg : Config} (h : IntervalFits cfg) (online offline : Int64) :
    probablyOnline cfg online offline = true ↔
      online ≠ 0 ∧ (offline - online).toInt < 2 * cfg.checkinterval.toInt := by
  unfold probablyOnline
  rw [Bool.not_eq_true', Bool.or_eq_false_iff, beq_eq_false_iff_ne, decide_eq_false_iff_not,
    Int64.le_iff_toInt_le, toInt_doubled h, Int.not_le]

/-- When the product wraps it is negative, and a gateway that was marked online and offline at
    one time counts as offline. -/
theorem isOnline_wraps {cfg : Config} (h : 2 ^ 31 ≤ 2 * cfg.checkinterval.toInt) :
    isOnline cfg ⟨1, 1, 0, 0⟩ = false := by
  have hi := Int32.toInt_lt cfg.checkinterval
  have htwo : (2 : Int32).toInt = 2 := by decide
  have hneg : (cfg.checkinterval * 2).toInt64 ≤ 0 := by
    rw [Int64.le_iff_toInt_le, Int32.toInt_toInt64, Int32.toInt_mul, htwo, Int.mul_comm]
    have hwrap := Int.bmod_add_bdiv (2 * cfg.checkinterval.toInt) (2 ^ 32)
    have hproduct : Int.bmod (2 * cfg.checkinterval.toInt) (2 ^ 32) < 2 ^ 31 :=
      lt_of_lt_of_eq (Int.bmod_lt (by decide)) (by decide)
    change _ ≤ (0 : Int)
    omega
  simp [isOnline, probablyOnline, hneg]

/-! ## All three -/

/-- The tests are exact for a configuration with positive settings and a client just when both
    products fit an `int` and the sum a `time_t`. -/
theorem time_tests_exact_iff (cfg : Config) (hinterval : 0 < cfg.checkinterval.toInt)
    (htimeout : 0 < cfg.clienttimeout.toInt) (lastUpdated : Int64) :
    ExactTests cfg lastUpdated ↔
      cfg.checkinterval.toInt * cfg.clienttimeout.toInt < 2 ^ 31 ∧
        lastUpdated.toInt + cfg.checkinterval.toInt * cfg.clienttimeout.toInt < 2 ^ 63 ∧
        2 * cfg.checkinterval.toInt < 2 ^ 31 := by
  rw [← Config.timeout, ← and_assoc, ← deadline_toInt_iff hinterval htimeout]
  constructor
  · intro h
    constructor
    · have hlow := Int64.le_toInt lastUpdated
      have hpos := (timeout_lt hinterval htimeout).1
      refine eq_of_forall_le (by omega) fun now => ?_
      let c : Client := { smallClient with counters := .fresh lastUpdated }
      rw [← h.logout (syncingAt c) c [] authAllowed c now rfl (find_syncingAt c) rfl]
      exact (idleClient_iff (s := syncingAt c) rfl (find_syncingAt c) now).symm
    · by_contra hwraps
      have hoff := isOnline_wraps (Int.not_lt.mp hwraps)
      have hzero : ((1 : Int64) - 1).toInt = 0 := by decide
      have hon := (h.online ⟨1, 1, 0, 0⟩).mpr ⟨by decide, by rw [hzero]; omega⟩
      rw [hoff] at hon
      cases hon
  · rintro ⟨hexact, hfits⟩
    have hinterval' : IntervalFits cfg := ⟨by omega, hfits⟩
    refine ⟨?_, fun t => probablyOnline_exact hinterval' _ _, fun t => ?_⟩
    · intro s p1 rest code tmp now hsync hfind hlast
      rw [idleClient_iff hsync hfind, hlast, hexact]
    · unfold isAuthOnline
      rw [← probablyOnline_exact hinterval']
      cases isOnline cfg t <;> simp

theorem time_tests_exact_small : ExactTests smallConfig 1000 :=
  (time_tests_exact_iff smallConfig (by decide) (by decide) 1000).mpr
    ⟨by decide, by decide, by decide⟩

/-- The file is accepted; the product is -60, so that a client is logged out when it has just
    been updated. -/
theorem clientTimeout_wraps :
    configRead configInit "ClientTimeout 2147483647\n".toList =
        some { configInit with clienttimeout := 2147483647 } ∧
      idleClient { smallConfig with clienttimeout := 2147483647 }
        (syncingAt { smallClient with counters := .fresh 1000 }) 1000 =
          some { smallClient with counters := .fresh 1000 } ∧
      ¬ (1000 : Int) + 60 * 2147483647 ≤ 1000 := by
  refine ⟨?_, by decide, by decide⟩
  have hop : configParseToken "ClientTimeout".toList = .clientTimeout := by decide
  have hkey : keyAndArgument "ClientTimeout 2147483647".toList =
      some ("ClientTimeout".toList, "2147483647".toList) := by decide
  have hshape : "ClientTimeout 2147483647\n".toList =
      "ClientTimeout 2147483647".toList ++ '\n' :: [] := by decide
  have hnumber : configOption configInit .clientTimeout "2147483647".toList "2147483647".toList =
      some ⟨{ configInit with clienttimeout := 2147483647 }, .top⟩ := by decide
  rw [hshape, configRead_one hkey (by decide) (by decide) (by decide) (by decide) (by decide),
    hop, hnumber]
  rfl

end Wifidog
