import Mathlib.Data.Nat.ModEq
import Mathlib.Tactic.Common

/-!
# Positions on a ring and 64-bit words

Two sequence numbers share a cell of a ring with `c` cells when they agree
modulo `c`; distinct ones are then whole laps apart. `u64` is reduction to a
64-bit word, used wherever an unsigned machine operation may wrap.
-/
namespace PhotonRing.Lib

/-- The value a 64-bit register keeps of a natural number. -/
def u64 (n : Nat) : Nat := n % 2 ^ 64

/-- The largest 64-bit word. -/
def u64Max : Nat := 2 ^ 64 - 1

theorem u64_of_lt {n : Nat} (h : n < 2 ^ 64) : u64 n = n := Nat.mod_eq_of_lt h

theorem u64_le (n : Nat) : u64 n ≤ n := Nat.mod_le _ _

/-- Distinct positions in one cell are at least a lap apart. -/
theorem lap_le {c a b : Nat} (h : a % c = b % c) (hlt : a < b) : a + c ≤ b :=
  Nat.ModEq.add_le_of_lt h hlt

/-- A position in the cell of `b` that is less than a lap beyond `b` is not beyond it. -/
theorem lap_le_of_lt {c a b : Nat} (h : a % c = b % c) (hab : a < b + c) : a ≤ b := by
  by_contra hn
  have := lap_le h.symm (by omega : b < a)
  omega

/-- Positions strictly between `b` and the next lap use other cells than `b`. -/
theorem lap_ne {c a b : Nat} (hlt : b < a) (hab : a < b + c) : a % c ≠ b % c := by
  intro h
  have := lap_le h.symm hlt
  omega

theorem sub_lap_mod {c a : Nat} (h : c ≤ a) : (a - c) % c = a % c := by
  rw [← Nat.mod_eq_sub_mod h]

end PhotonRing.Lib
