import Mathlib.Logic.Function.Basic
import Mathlib.Tactic.Common

/-!
# Mutual exclusion by a lock flag

Which threads are inside a critical section, and the flag that says whether any
is. The section is entered only from a clear flag and clears it when left.
-/
namespace PhotonRing.Lib

variable {ι : Type*}

/-- At most one thread is inside, and the flag is set while one is. -/
structure Mutex (locked : Bool) (inside : ι → Prop) : Prop where
  flag : ∀ i, inside i → locked = true
  unique : ∀ i j, inside i → inside j → i = j

namespace Mutex

variable {locked : Bool} {inside inside' : ι → Prop} {i : ι}

theorem of_empty (h : ∀ i, ¬ inside i) (locked : Bool) : Mutex locked inside :=
  ⟨fun i hi => absurd hi (h i), fun i _ hi => absurd hi (h i)⟩

theorem of_imp (h : Mutex locked inside) (hi : ∀ j, inside' j → inside j) : Mutex locked inside' :=
  ⟨fun j hj => h.flag j (hi j hj), fun j k hj hk => h.unique j k (hi j hj) (hi k hk)⟩

/-- Taking a free lock. -/
theorem acquire (h : Mutex false inside) (hi : ∀ j, inside' j → j = i ∨ inside j) :
    Mutex true inside' := by
  have hempty (j : ι) (hj : inside j) : False := by cases h.flag j hj
  refine ⟨fun _ _ => rfl, fun j k hj hk => ?_⟩
  rcases hi j hj with rfl | hj'
  · rcases hi k hk with rfl | hk'
    · rfl
    · exact (hempty k hk').elim
  · exact (hempty j hj').elim

/-- Leaving the section clears the flag: nobody else was inside. -/
theorem release (h : Mutex locked inside) (hin : inside i)
    (hi : ∀ j, inside' j → j ≠ i ∧ inside j) (locked' : Bool) : Mutex locked' inside' := by
  refine of_empty (fun j hj => ?_) locked'
  obtain ⟨hne, hj'⟩ := hi j hj
  exact hne (h.unique j i hj' hin)

/-- One thread moves: it stays where it is, takes the free lock, or leaves. -/
theorem step {locked' : Bool} (h : Mutex locked inside) (hother : ∀ j, j ≠ i → inside' j → inside j)
    (hi : (locked' = locked ∧ (inside' i → inside i)) ∨ (locked = false ∧ locked' = true) ∨
      (inside i ∧ ¬ inside' i)) : Mutex locked' inside' := by
  rcases hi with ⟨rfl, hi⟩ | ⟨rfl, rfl⟩ | ⟨hin, hout⟩
  · refine h.of_imp (fun j hj => ?_)
    by_cases hji : j = i
    · subst hji; exact hi hj
    · exact hother j hji hj
  · refine h.acquire (i := i) (fun j hj => ?_)
    by_cases hji : j = i
    · exact Or.inl hji
    · exact Or.inr (hother j hji hj)
  · refine h.release hin (fun j hj => ?_) locked'
    have hji : j ≠ i := by rintro rfl; exact hout hj
    exact ⟨hji, hother j hji hj⟩

end Mutex

/-- A flag that is set has a holder: some thread is inside. -/
def Held (locked : Bool) (inside : ι → Prop) : Prop := locked = true → ∃ i, inside i

/-- One thread moves. If the flag is set afterwards, the thread holds it, or did not hold it
before and has not touched it. -/
theorem Held.step {locked locked' : Bool} {inside inside' : ι → Prop} {i : ι} (h : Held locked inside)
    (hother : ∀ j, j ≠ i → inside j → inside' j)
    (hi : locked' = true → inside' i ∨ locked = true ∧ ¬ inside i) : Held locked' inside' := by
  intro hl
  rcases hi hl with hin | ⟨hlock, hout⟩
  · exact ⟨i, hin⟩
  · obtain ⟨j, hj⟩ := h hlock
    have hji : j ≠ i := by rintro rfl; exact hout hj
    exact ⟨j, hother j hji hj⟩

end PhotonRing.Lib
