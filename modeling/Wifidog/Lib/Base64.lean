/-
  Base64: three bytes as four digits of six bits each, with `=` to fill up the last group.

  `digits` are the digits without the padding; a last group of one or two bytes has two or three of
  them, the missing bits being zero. A digit is its place in the alphabet (`value`).

  Proved: how many digits a text has (`length_digits`), that they are digits and nothing else is
  (`value_of_mem_digits`, `value_padding`), and what shifting the values of a group together gives
  back (`firstByte`, `secondByte`, `thirdByte`).
-/
import Wifidog.Lib.CText

namespace Wifidog.Base64

open CText

def alphabet : Text :=
  "ABCDEFGHIJKLMNOPQRSTUVWXYZabcdefghijklmnopqrstuvwxyz0123456789+/".toList

/-- The digit of a six-bit value. -/
def digit (n : Nat) : Char := alphabet.getD n '='

/-- The value of a digit; 64 for any other character. -/
def value (c : Char) : Nat := alphabet.idxOf c

theorem value_digit : ∀ n < 64, value (digit n) = n := by decide +kernel

def digits : Text → Text
  | a :: b :: c :: s =>
    digit (a.toNat / 4) :: digit (a.toNat % 4 * 16 + b.toNat / 16) ::
      digit (b.toNat % 16 * 4 + c.toNat / 64) :: digit (c.toNat % 64) :: digits s
  | [a, b] =>
    [digit (a.toNat / 4), digit (a.toNat % 4 * 16 + b.toNat / 16), digit (b.toNat % 16 * 4)]
  | [a] => [digit (a.toNat / 4), digit (a.toNat % 4 * 16)]
  | [] => []

/-- The encoded text. -/
def encode (s : Text) : Text := digits s ++ List.replicate ((3 - s.length % 3) % 3) '='

theorem value_padding : value '=' = 64 := by decide +kernel

theorem length_digits (s : Text) : (digits s).length = (4 * s.length + 2) / 3 := by
  induction s using digits.induct with
  | case1 a b c s ih =>
    simp only [digits, List.length_cons, ih]
    omega
  | case2 a b => simp [digits]
  | case3 a => simp [digits]
  | case4 => simp [digits]

theorem value_of_mem_digits {s : Text} (hs : ∀ c ∈ s, c.toNat < 256) {d : Char}
    (hd : d ∈ digits s) : value d ≤ 63 := by
  have hvalue : ∀ n, n < 64 → value (digit n) ≤ 63 := by
    intro n hn
    rw [value_digit n hn]
    omega
  induction s using digits.induct with
  | case1 a b c s ih =>
    have ha := hs a (by simp)
    have hb := hs b (by simp)
    have hc := hs c (by simp)
    simp only [digits, List.mem_cons] at hd
    rcases hd with rfl | rfl | rfl | rfl | hd
    · exact hvalue _ (by omega)
    · exact hvalue _ (by omega)
    · exact hvalue _ (by omega)
    · exact hvalue _ (by omega)
    · exact ih (fun x hx => hs x (by simp [hx])) hd
  | case2 a b =>
    have ha := hs a (by simp)
    have hb := hs b (by simp)
    simp only [digits, List.mem_cons, List.not_mem_nil, or_false] at hd
    rcases hd with rfl | rfl | rfl
    · exact hvalue _ (by omega)
    · exact hvalue _ (by omega)
    · exact hvalue _ (by omega)
  | case3 a =>
    have ha := hs a (by simp)
    simp only [digits, List.mem_cons, List.not_mem_nil, or_false] at hd
    rcases hd with rfl | rfl
    · exact hvalue _ (by omega)
    · exact hvalue _ (by omega)
  | case4 => cases hd

/-! ## Putting a group together -/

theorem shiftLeft_or {x y k : Nat} (hy : y < 2 ^ k) : x <<< k ||| y = 2 ^ k * x + y := by
  rw [Nat.shiftLeft_eq, Nat.mul_comm, Nat.two_pow_add_eq_or_of_lt hy]

theorem firstByte {a b : Nat} (ha : a < 256) (hb : b < 16) :
    ((a / 4) <<< 2 ||| (a % 4 * 16 + b) >>> 4) % 256 = a := by
  have hlow : (a % 4 * 16 + b) >>> 4 = a % 4 := by
    rw [Nat.shiftRight_eq_div_pow]
    omega
  rw [hlow, shiftLeft_or (by omega)]
  omega

theorem secondByte {a b c : Nat} (hb : b < 256) (hc : c < 4) :
    ((a * 16 + b / 16) <<< 4 ||| (b % 16 * 4 + c) >>> 2) % 256 = b := by
  have hlow : (b % 16 * 4 + c) >>> 2 = b % 16 := by
    rw [Nat.shiftRight_eq_div_pow]
    omega
  rw [hlow, shiftLeft_or (by omega)]
  omega

theorem thirdByte {b c : Nat} (hc : c < 256) :
    ((b * 4 + c / 64) <<< 6 ||| c % 64) % 256 = c := by
  rw [shiftLeft_or (by omega)]
  omega

end Wifidog.Base64
