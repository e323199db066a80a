import Mathlib.Data.List.Basic
import Mathlib.Tactic.Common

/-!
# A stable sort by a numeric key
-/
namespace PhotonRing.Lib

variable {α : Type*} {key : α → Nat} {l : List α}

/-- `sort_by_key`. -/
def sortByKey (key : α → Nat) (l : List α) : List α := l.mergeSort fun a b => decide (key a ≤ key b)

theorem sortByKey_perm (key : α → Nat) (l : List α) : List.Perm (sortByKey key l) l := List.mergeSort_perm l _

theorem mem_sortByKey {a : α} : a ∈ sortByKey key l ↔ a ∈ l := (sortByKey_perm key l).mem_iff

theorem key_trans (a b c : α) (hab : decide (key a ≤ key b) = true) (hbc : decide (key b ≤ key c) = true) :
    decide (key a ≤ key c) = true :=
  decide_eq_true (Nat.le_trans (of_decide_eq_true hab) (of_decide_eq_true hbc))

theorem key_total (a b : α) : (decide (key a ≤ key b) || decide (key b ≤ key a)) = true := by
  rw [Bool.or_eq_true, decide_eq_true_eq, decide_eq_true_eq]
  exact Nat.le_total (key a) (key b)

theorem sortByKey_pairwise (key : α → Nat) (l : List α) : (sortByKey key l).Pairwise fun a b => key a ≤ key b :=
  (List.pairwise_mergeSort key_trans key_total l).imp of_decide_eq_true

/-- Elements with the same key keep their order. -/
theorem filter_sortByKey (k : Nat) :
    (sortByKey key l).filter (fun a => key a == k) = l.filter fun a => key a == k := by
  have hkey : ∀ a ∈ l.filter (fun a => key a == k), key a = k := fun a ha =>
    beq_iff_eq.mp (List.mem_filter.mp ha).2
  have hsorted : (l.filter fun a => key a == k).Pairwise fun a b => decide (key a ≤ key b) = true :=
    List.pairwise_of_forall_mem_list fun a ha b hb => decide_eq_true (Nat.le_of_eq ((hkey a ha).trans (hkey b hb).symm))
  have hsub : List.Sublist (l.filter fun a => key a == k) (sortByKey key l) :=
    List.sublist_mergeSort key_trans key_total hsorted List.filter_sublist
  have hfilter := hsub.filter fun a => key a == k
  rw [List.filter_filter, funext fun a => Bool.and_self (key a == k)] at hfilter
  exact (hfilter.eq_of_length ((sortByKey_perm key l).filter _).length_eq.symm).symm

/-- The least key stands first. -/
theorem eq_zeros_append (h : l.Pairwise fun a b => key a ≤ key b) :
    l = (l.filter fun a => key a == 0) ++ l.filter fun a => !(key a == 0) := by
  induction l with
  | nil => rfl
  | cons a l ih =>
    obtain ⟨hfirst, hrest⟩ := List.pairwise_cons.mp h
    by_cases ha : key a = 0
    · have hpos : (key a == 0) = true := beq_iff_eq.mpr ha
      rw [List.filter_cons, if_pos hpos, List.filter_cons, hpos, Bool.not_true, if_neg Bool.false_ne_true,
        List.cons_append, ← ih hrest]
    · have hnone : ∀ b ∈ l, ¬ (key b == 0) = true := fun b hb hb0 => by
        have := hfirst b hb
        have := beq_iff_eq.mp hb0
        omega
      have hall : ∀ b ∈ l, (!(key b == 0)) = true := fun b hb => by
        rw [Bool.not_eq_true', ← Bool.not_eq_true]
        exact hnone b hb
      have hneg : (key a == 0) = false := beq_eq_false_iff_ne.mpr ha
      rw [List.filter_cons, hneg, if_neg Bool.false_ne_true, List.filter_eq_nil_iff.mpr hnone, List.nil_append,
        List.filter_cons, hneg, Bool.not_false, if_pos rfl, List.filter_eq_self.mpr hall]

end PhotonRing.Lib
