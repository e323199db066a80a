import Mathlib.Algebra.Order.Ring.Int
import Mathlib.Algebra.Order.Group.Unbundled.Int
import Mathlib.Tactic.Common

/-!
# Casts between integer types

A machine integer is the integer it stands for, and a cast takes the integer of the target
type that agrees with it in the bits of the target.
-/
namespace PhotonRing.Lib

/-- An integer type: signed or not, and its number of bits. -/
structure Width where
  signed : Bool
  bits : Nat

variable {w v : Width} {m n : Int}

def Width.InRange (w : Width) (n : Int) : Prop :=
  if w.signed then -2 ^ w.bits ≤ 2 * n ∧ 2 * n < 2 ^ w.bits else 0 ≤ n ∧ n < 2 ^ w.bits

instance (w : Width) (n : Int) : Decidable (w.InRange n) := by
  unfold Width.InRange
  infer_instance

/-- `n as w`. -/
def Width.wrap (w : Width) (n : Int) : Int := if w.signed then n.bmod (2 ^ w.bits) else n % 2 ^ w.bits

theorem two_pow_pos (b : Nat) : (0 : Int) < 2 ^ b := Int.pow_pos (by decide)

theorem Width.wrap_inRange (w : Width) (n : Int) : w.InRange (w.wrap n) := by
  have hpos := two_pow_pos w.bits
  unfold InRange wrap
  cases w.signed with
  | false => exact ⟨Int.emod_nonneg n hpos.ne', Int.emod_lt_of_pos n hpos⟩
  | true =>
    have hnat : 0 < 2 ^ w.bits := Nat.two_pow_pos w.bits
    have hlo := Int.le_bmod (x := n) hnat
    have hhi := Int.bmod_lt (x := n) hnat
    have hcast : ((2 ^ w.bits : Nat) : Int) = 2 ^ w.bits := Nat.cast_pow 2 w.bits
    rw [hcast] at hlo hhi
    simp only [if_true]
    generalize n.bmod (2 ^ w.bits) = r at hlo hhi ⊢
    clear hpos hnat hcast
    revert hlo hhi
    cases w.bits with
    | zero =>
      intro hlo hhi
      simp only [pow_zero] at hlo hhi ⊢
      omega
    | succ b =>
      intro hlo hhi
      rw [pow_succ] at hlo hhi ⊢
      omega

/-- A cast keeps the bits of the target. -/
theorem Width.dvd_wrap_sub (w : Width) (n : Int) : (2 : Int) ^ w.bits ∣ w.wrap n - n := by
  unfold wrap
  cases w.signed with
  | false => exact Int.dvd_emod_sub_self
  | true =>
    have hcast : ((2 ^ w.bits : Nat) : Int) = 2 ^ w.bits := Nat.cast_pow 2 w.bits
    rw [← hcast]
    exact Int.dvd_bmod_sub_self

theorem Width.InRange.eq_of_dvd (hm : w.InRange m) (hn : w.InRange n) (h : (2 : Int) ^ w.bits ∣ m - n) : m = n := by
  have habs : |m - n| < 2 ^ w.bits := by
    unfold InRange at hm hn
    rw [abs_lt]
    cases hs : w.signed with
    | false =>
      simp only [hs, Bool.false_eq_true, if_false] at hm hn
      omega
    | true =>
      simp only [hs, if_true] at hm hn
      omega
  exact Int.sub_eq_zero.mp (Int.eq_zero_of_abs_lt_dvd h habs)

/-- A cast to a type with at least as many bits loses nothing, whatever the signs. -/
theorem Width.InRange.wrap_wrap (hn : w.InRange n) (hle : w.bits ≤ v.bits) : w.wrap (v.wrap n) = n := by
  refine (w.wrap_inRange _).eq_of_dvd hn ?_
  have hout := w.dvd_wrap_sub (v.wrap n)
  have hin := Int.dvd_trans (pow_dvd_pow 2 hle) (v.dvd_wrap_sub n)
  have hsum := Int.dvd_add hout hin
  rwa [sub_add_sub_cancel] at hsum

end PhotonRing.Lib
