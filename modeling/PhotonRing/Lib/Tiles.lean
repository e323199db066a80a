import Mathlib.Algebra.Ring.Nat
import Mathlib.Order.Nat
import Mathlib.Tactic.Common

/-!
# Lists of adjacent intervals

Entries of a journal cover half-open intervals of positions. A journal tiles
`[a, b)` when its entries follow each other without gap or overlap, each covering
at least one position. It grows at the end.
-/
namespace PhotonRing.Lib

variable {ε : Type*} {lo hi : ε → Nat}

/-- The journal covers exactly `[a, b)`, in order. -/
inductive Tiles (lo hi : ε → Nat) (a : Nat) : List ε → Nat → Prop where
  | nil : Tiles lo hi a [] a
  | snoc {es : List ε} {e : ε} {b : Nat} :
      Tiles lo hi a es b → lo e = b → b < hi e → Tiles lo hi a (es ++ [e]) (hi e)

namespace Tiles

variable {a b : Nat} {es : List ε}

theorem le (h : Tiles lo hi a es b) : a ≤ b := by
  induction h with
  | nil => exact Nat.le_refl a
  | snoc _ _ hlt ih => omega

/-- Every entry is a nonempty part of the covered interval. -/
theorem bounds (h : Tiles lo hi a es b) : ∀ e ∈ es, a ≤ lo e ∧ lo e < hi e ∧ hi e ≤ b := by
  induction h with
  | nil => intro e he; cases he
  | snoc ht hlo hlt ih =>
    intro e he
    have hab := ht.le
    rcases List.mem_append.mp he with hm | hm
    · obtain ⟨h1, h2, h3⟩ := ih e hm
      exact ⟨h1, h2, by omega⟩
    · obtain rfl := List.mem_singleton.mp hm
      exact ⟨by omega, by omega, Nat.le_refl _⟩

/-- Earlier entries lie wholly before later ones. -/
theorem pairwise (h : Tiles lo hi a es b) : es.Pairwise (fun e f => hi e ≤ lo f) := by
  induction h with
  | nil => exact List.Pairwise.nil
  | snoc ht hlo _ ih =>
    refine List.pairwise_append.mpr ⟨ih, List.pairwise_singleton _ _, fun e he f hf => ?_⟩
    obtain rfl := List.mem_singleton.mp hf
    rw [hlo]
    exact (ht.bounds e he).2.2

/-- Two measures that share out the width of every entry share out the interval. -/
theorem sum_split (h : Tiles lo hi a es b) {f g : ε → Nat}
    (hw : ∀ e ∈ es, f e + g e = hi e - lo e) : a + (es.map f).sum + (es.map g).sum = b := by
  induction h with
  | nil => rfl
  | @snoc es e b ht hlo hlt ih =>
    have he := hw e (by simp)
    have hes := ih (fun e' he' => hw e' (List.mem_append_left _ he'))
    simp only [List.map_append, List.map_cons, List.map_nil, List.sum_append, List.sum_singleton]
    omega

/-- Every position of the interval is covered by exactly one entry. -/
theorem existsUnique (h : Tiles lo hi a es b) {p : Nat} (ha : a ≤ p) (hb : p < b) :
    ∃! k : Fin es.length, lo (es.get k) ≤ p ∧ p < hi (es.get k) := by
  have hex : ∃ e ∈ es, lo e ≤ p ∧ p < hi e := by
    induction h with
    | nil => omega
    | @snoc es e b ht hlo hlt ih =>
      by_cases hpb : p < b
      · obtain ⟨f, hf, hc⟩ := ih hpb
        exact ⟨f, List.mem_append_left _ hf, hc⟩
      · exact ⟨e, by simp, by omega, hb⟩
  obtain ⟨e, he, hc⟩ := hex
  obtain ⟨k, rfl⟩ := List.get_of_mem he
  refine ⟨k, hc, fun j hj => ?_⟩
  have hpw := List.pairwise_iff_getElem.mp h.pairwise
  obtain ⟨hj1, hj2⟩ := hj
  rcases Nat.lt_trichotomy j.val k.val with hlt | heq | hgt
  · have hjk : hi (es.get j) ≤ lo (es.get k) := hpw j k j.isLt k.isLt hlt
    omega
  · exact Fin.ext heq
  · have hkj : hi (es.get k) ≤ lo (es.get j) := hpw k j k.isLt j.isLt hgt
    omega

/-- When no entry covers more than one position, the `k`-th one covers `a + k`. -/
theorem lo_eq_of_unit (h : Tiles lo hi a es b) (hu : ∀ e ∈ es, hi e = lo e + 1) :
    b = a + es.length ∧ ∀ k e, es[k]? = some e → lo e = a + k := by
  induction h with
  | nil => exact ⟨rfl, fun k e he => by simp at he⟩
  | @snoc es e b ht hlo hlt ih =>
    obtain ⟨hb, hk⟩ := ih (fun f hf => hu f (List.mem_append_left _ hf))
    have he := hu e (by simp)
    refine ⟨by simp; omega, fun k f hf => ?_⟩
    rcases Nat.lt_trichotomy k es.length with hl | rfl | hg
    · rw [List.getElem?_append_left hl] at hf
      exact hk k f hf
    · simp at hf
      subst hf
      omega
    · rw [List.getElem?_eq_none (by simp; omega)] at hf
      cases hf

section Items

variable {β : Type*} {item : ε → Option β} {l : List β}

/-- The items of a journal that sit at their positions in a list come in the order of the list. -/
theorem filterMap_sublist (h : Tiles lo hi a es b)
    (hitem : ∀ e ∈ es, ∀ x, item e = some x → l[lo e]? = some x) : (es.filterMap item).Sublist (l.take b) := by
  induction h with
  | nil => exact List.nil_sublist _
  | @snoc es e b ht hlo hlt ih =>
    have hes := ih (fun e' he' => hitem e' (List.mem_append_left _ he'))
    rw [List.filterMap_append]
    cases hx : item e with
    | none =>
      rw [List.filterMap_cons_none hx, List.filterMap_nil, List.append_nil]
      exact hes.trans (List.take_sublist_take_left hlt.le)
    | some x =>
      have hget := hitem e (List.mem_append_right _ (List.mem_singleton_self e)) x hx
      rw [hlo] at hget
      have htake : l.take (b + 1) = l.take b ++ [x] := by rw [List.take_add_one, hget, Option.toList_some]
      rw [List.filterMap_cons_some hx, List.filterMap_nil]
      refine (hes.append_right [x]).trans ?_
      rw [← htake]
      exact List.take_sublist_take_left hlt

/-- If moreover every entry has an item and covers one position, there is no gap. -/
theorem filterMap_eq_take (h : Tiles lo hi 0 es b) (hu : ∀ e ∈ es, hi e = lo e + 1)
    (hitem : ∀ e ∈ es, ∃ x, item e = some x ∧ l[lo e]? = some x) : es.filterMap item = l.take b := by
  induction h with
  | nil => rfl
  | @snoc es e b ht hlo hlt ih =>
    have hes := ih (fun e' he' => hu e' (List.mem_append_left _ he'))
      (fun e' he' => hitem e' (List.mem_append_left _ he'))
    have hmem : e ∈ es ++ [e] := List.mem_append_right _ (List.mem_singleton_self e)
    obtain ⟨x, hx, hget⟩ := hitem e hmem
    rw [List.filterMap_append, hes, List.filterMap_cons_some hx, List.filterMap_nil, hu e hmem, hlo,
      List.take_add_one, ← hlo, hget, Option.toList_some]

end Items

end Tiles

end PhotonRing.Lib
