import Mathlib.Order.Filter.AtTopBot.Basic
import Mathlib.Order.Filter.Finite

/-!
# Followers that wait for each other

The followers of a finite group have positions that never go back. Each of them moves on
once all of a smaller rank have reached the goal, so all of them reach it.
-/
namespace PhotonRing.Lib

open Filter

variable {ι : Type*} {pos : Nat → ι → Nat} {goal k : Nat}

/-- One follower that is never left where it is arrives, and stays beyond the goal. -/
theorem follower_arrives {i : ι} (hmono : Monotone fun m => pos m i)
    (hadvance : ∀ j ≥ k, pos j i < goal → ∃ m ≥ j, pos j i < pos m i) : ∀ᶠ m in atTop, goal ≤ pos m i := by
  have hreach : ∀ d, ∀ j ≥ k, goal - pos j i ≤ d → ∃ m, goal ≤ pos m i := by
    intro d
    induction d with
    | zero => exact fun j _ hd => ⟨j, by omega⟩
    | succ d ih =>
      intro j hj hd
      by_cases hlt : pos j i < goal
      · obtain ⟨m, hm, hmove⟩ := hadvance j hj hlt
        exact ih m (hj.trans hm) (by omega)
      · exact ⟨j, by omega⟩
  obtain ⟨m, hm⟩ := hreach _ k (Nat.le_refl k) (Nat.le_refl _)
  exact eventually_atTop.mpr ⟨m, fun m' hm' => hm.trans (hmono hm')⟩

/-- The wait of one follower for another goes down in the rank, so nobody waits for ever. -/
theorem catch_up (members : Finset ι) (rank : ι → Nat) (hmono : ∀ i ∈ members, Monotone fun m => pos m i)
    (hadvance : ∀ i ∈ members, ∀ j ≥ k, pos j i < goal →
      (∀ u ∈ members, rank u < rank i → ∀ m ≥ j, goal ≤ pos m u) → ∃ m ≥ j, pos j i < pos m i) :
    ∀ᶠ m in atTop, ∀ i ∈ members, goal ≤ pos m i := by
  have hfollower : ∀ i ∈ members, ∀ᶠ m in atTop, goal ≤ pos m i := by
    intro i
    induction hr : rank i using Nat.strong_induction_on generalizing i with
    | _ r ih =>
      intro hi
      have hlower : ∀ᶠ m in atTop, ∀ u ∈ members, rank u < r → goal ≤ pos m u := by
        refine (eventually_all_finset members).mpr fun u hu => ?_
        by_cases hlt : rank u < r
        · filter_upwards [ih (rank u) hlt u rfl hu] with m hm _
          exact hm
        · exact Eventually.of_forall fun m h => absurd h hlt
      obtain ⟨k', hk'⟩ := eventually_atTop.mp hlower
      refine follower_arrives (k := max k k') (hmono i hi) fun j hj hlt => ?_
      refine hadvance i hi j ((le_max_left k k').trans hj) hlt fun u hu hur m hm => ?_
      exact hk' m ((le_max_right k k').trans (hj.trans hm)) u hu (hr ▸ hur)
  exact (eventually_all_finset members).mpr hfollower

end PhotonRing.Lib
