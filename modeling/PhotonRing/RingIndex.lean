import PhotonRing.Lib.Lap
import Mathlib.Data.Nat.Log

/-!
# Slot indexing

`RingIndex` maps a sequence number to a slot without a division: a mask for a
power-of-two capacity, and a reciprocal multiply with one correction otherwise.
Both paths compute the remainder modulo the capacity.
-/
namespace PhotonRing

open Lib

/-- `usize::is_power_of_two`. -/
def isPowerOfTwo (n : Nat) : Bool := n == 2 ^ n.log2

structure RingIndex where
  capacity : Nat
  mask : Nat
  reciprocal : Nat
  isPow2 : Bool

namespace RingIndex

/-- `RingIndex::new`, after its assertion on the capacity. -/
def new (capacity : Nat) : RingIndex where
  capacity := capacity
  mask := if isPowerOfTwo capacity then capacity - 1 else 0
  reciprocal := u64 (2 ^ 64 / capacity)
  isPow2 := isPowerOfTwo capacity

/-- The quotient estimate of the reciprocal path: the high word of the product. -/
def quotient (r : RingIndex) (seq : Nat) : Nat := u64 (seq * r.reciprocal / 2 ^ 64)

/-- `RingIndex::slot`. The product `q * capacity` wraps, as in the source. -/
def slot (r : RingIndex) (seq : Nat) : Nat :=
  if r.isPow2 then
    seq &&& r.mask
  else
    let rem := seq - u64 (r.quotient seq * r.capacity)
    if r.capacity ≤ rem then rem - r.capacity else rem

theorem slot_pow2 {c : Nat} (h : isPowerOfTwo c = true) (seq : Nat) :
    (new c).slot seq = seq % c := by
  have hc : c = 2 ^ c.log2 := by simpa [isPowerOfTwo] using h
  simp only [slot, new, h, ↓reduceIte]
  rw [hc]
  exact Nat.and_two_pow_sub_one_eq_mod seq _

/-- The reciprocal fits a word. -/
theorem reciprocal_eq {c : Nat} (hc : 2 ≤ c) : (new c).reciprocal = 2 ^ 64 / c := by
  have hle : 2 ^ 64 / c ≤ 2 ^ 64 / 2 := Nat.div_le_div_left hc (by decide)
  exact u64_of_lt (lt_of_le_of_lt hle (by decide))

/-- The estimate never exceeds the quotient and misses it by at most one: the
truncated reciprocal loses less than `seq / 2^64 < 1` of it. -/
theorem quotient_bounds {c seq : Nat} (hc : 2 ≤ c) (hseq : seq < 2 ^ 64) :
    (new c).quotient seq ≤ seq / c ∧ seq / c ≤ (new c).quotient seq + 1 := by
  have hpos : 0 < c := by omega
  set R := 2 ^ 64 / c with hR
  have hRc : R * c ≤ 2 ^ 64 := Nat.div_mul_le_self _ _
  have hRlt : 2 ^ 64 < (R + 1) * c := by
    have := Nat.lt_div_mul_add hpos (a := 2 ^ 64)
    rw [← hR] at this
    rw [Nat.add_mul, Nat.one_mul]
    exact this
  have hup : seq * R / 2 ^ 64 ≤ seq / c := by
    rw [Nat.le_div_iff_mul_le hpos]
    have h1 : seq * R / 2 ^ 64 * 2 ^ 64 * c ≤ seq * R * c :=
      Nat.mul_le_mul_right c (Nat.div_mul_le_self _ _)
    have h2 : seq * R * c ≤ seq * 2 ^ 64 := by
      rw [Nat.mul_assoc]; exact Nat.mul_le_mul_left _ hRc
    rw [Nat.mul_right_comm] at h1
    exact Nat.le_of_mul_le_mul_right (h1.trans h2) (by decide)
  have hlow : seq / c ≤ seq * R / 2 ^ 64 + 1 := by
    set d := seq / c with hd
    have hdc : d * c ≤ seq := Nat.div_mul_le_self _ _
    by_contra hn
    have hlt : seq * R / 2 ^ 64 < d - 1 := by omega
    have hm : seq * R < (d - 1) * 2 ^ 64 := (Nat.div_lt_iff_lt_mul (by decide)).mp hlt
    have h1 : (d - 1) * 2 ^ 64 ≤ (d - 1) * ((R + 1) * c) := Nat.mul_le_mul_left _ hRlt.le
    have hd1 : (d - 1) * c + c = d * c := by
      rw [← Nat.succ_mul]; congr 1; omega
    have h2 : (d - 1) * ((R + 1) * c) = ((d - 1) * c) * R + (d - 1) * c := by
      rw [Nat.mul_comm (R + 1) c, ← Nat.mul_assoc, Nat.mul_add, Nat.mul_one]
    have h3 : ((d - 1) * c + c) * R ≤ seq * R := Nat.mul_le_mul_right _ (by omega)
    rw [Nat.add_mul] at h3
    have h4 : 2 ^ 64 < R * c + c := by rw [Nat.add_mul, Nat.one_mul] at hRlt; exact hRlt
    rw [Nat.mul_comm c R] at h3
    omega
  have hq : (new c).quotient seq = seq * R / 2 ^ 64 := by
    rw [quotient, reciprocal_eq hc, ← hR]
    apply u64_of_lt
    exact lt_of_le_of_lt (hup.trans (Nat.div_le_self _ _)) hseq
  rw [hq]
  exact ⟨hup, hlow⟩

theorem quotient_mul_le {c seq : Nat} (hc : 2 ≤ c) (hseq : seq < 2 ^ 64) : (new c).quotient seq * c ≤ seq :=
  (Nat.mul_le_mul_right c (quotient_bounds hc hseq).1).trans (Nat.div_mul_le_self _ _)

theorem slot_reciprocal {c seq : Nat} (hc : 2 ≤ c) (hseq : seq < 2 ^ 64)
    (hp : isPowerOfTwo c = false) : (new c).slot seq = seq % c := by
  obtain ⟨hup, hlow⟩ := quotient_bounds hc hseq
  have hcap : (new c).capacity = c := rfl
  have hmul := quotient_mul_le hc hseq
  have hdm := Nat.div_add_mod seq c
  have hml := Nat.mod_lt seq (show 0 < c by omega)
  simp only [slot, new, hp, Bool.false_eq_true, ↓reduceIte]
  change (if c ≤ seq - u64 ((new c).quotient seq * c) then
    seq - u64 ((new c).quotient seq * c) - c else seq - u64 ((new c).quotient seq * c)) = _
  rw [u64_of_lt (lt_of_le_of_lt hmul hseq)]
  rcases Nat.lt_or_ge ((new c).quotient seq) (seq / c) with hlt | hge
  · have he : seq / c = (new c).quotient seq + 1 := by omega
    rw [he, Nat.mul_comm, Nat.add_mul, Nat.one_mul] at hdm
    rw [if_pos (by omega)]
    omega
  · have he : seq / c = (new c).quotient seq := by omega
    rw [he, Nat.mul_comm] at hdm
    rw [if_neg (by omega)]
    omega

/-- Both paths index by the remainder. -/
theorem slot_eq_mod {c seq : Nat} (hc : 2 ≤ c) (hseq : seq < 2 ^ 64) :
    (new c).slot seq = seq % c := by
  cases hp : isPowerOfTwo c with
  | true => exact slot_pow2 hp seq
  | false => exact slot_reciprocal hc hseq hp

/-- For every capacity and every sequence both paths compute the remainder. The product of
the reciprocal path fits 128 bits and its truncation loses nothing, the product with the
capacity does not wrap, the subtraction does not underflow, and what is left is below twice
the capacity, so that one correction is enough. -/
theorem fast_index_eq_mod {c seq : Nat} (hc : 2 ≤ c) (hcap : c < 2 ^ 64) (hseq : seq < 2 ^ 64) :
    (new c).slot seq = seq % c ∧ (isPowerOfTwo c = true → seq &&& (new c).mask = seq % c) ∧
    seq * (new c).reciprocal < 2 ^ 128 ∧ seq * (new c).reciprocal / 2 ^ 64 < 2 ^ 64 ∧
    (new c).quotient seq * (new c).capacity < 2 ^ 64 ∧
    u64 ((new c).quotient seq * (new c).capacity) ≤ seq ∧
    seq - u64 ((new c).quotient seq * (new c).capacity) < 2 * c := by
  have hrec : (new c).reciprocal < 2 ^ 64 := Nat.mod_lt _ (Nat.two_pow_pos 64)
  have hwide : seq * (new c).reciprocal < 2 ^ 64 * 2 ^ 64 := Nat.mul_lt_mul'' hseq hrec
  have hmul : (new c).quotient seq * (new c).capacity ≤ seq := quotient_mul_le hc hseq
  have hfit : (new c).quotient seq * (new c).capacity < 2 ^ 64 := hmul.trans_lt hseq
  refine ⟨slot_eq_mod hc hseq, fun hp => ?_, hwide, Nat.div_lt_of_lt_mul hwide, hfit, ?_, ?_⟩
  · have hslot := slot_pow2 hp seq
    rwa [slot, if_pos (show (new c).isPow2 = true from hp)] at hslot
  · rw [u64_of_lt hfit]
    exact hmul
  · rw [u64_of_lt hfit]
    obtain ⟨_, hlow⟩ := quotient_bounds hc hseq
    have hnext : seq < seq / c * c + c := Nat.lt_div_mul_add (by omega)
    have hle : seq / c * c ≤ ((new c).quotient seq + 1) * c := Nat.mul_le_mul_right c hlow
    rw [Nat.add_mul] at hle
    change seq - (new c).quotient seq * c < 2 * c
    omega

/-- The last sequence on a ring of three slots, where the quotient is one too small. -/
theorem fast_index_eq_mod_last : (new 3).slot (2 ^ 64 - 1) = 0 ∧
    (new 3).quotient (2 ^ 64 - 1) = (2 ^ 64 - 1) / 3 - 1 ∧
    2 ^ 64 - 1 - u64 ((new 3).quotient (2 ^ 64 - 1) * (new 3).capacity) < 2 * 3 := by
  have h := @fast_index_eq_mod 3 (2 ^ 64 - 1) (by decide) (by decide) (by decide)
  exact ⟨h.1, by decide, h.2.2.2.2.2.2⟩

end RingIndex

end PhotonRing
