import Mathlib.Data.List.Forall2
import Mathlib.Data.List.Nodup
import Mathlib.Tactic.Common

/-!
# Records

A record is a list of named entries. Two lists whose names agree entry by entry are read at
the same place by any name.
-/
namespace PhotonRing.Lib

variable {α β : Type*} {R : α → β → Prop} {n : String} {b : β} {as : List (String × α)} {bs : List (String × β)}

/-- The same names in the same order, with related entries. -/
def Aligned (R : α → β → Prop) : List (String × α) → List (String × β) → Prop :=
  List.Forall₂ fun a b => a.1 = b.1 ∧ R a.2 b.2

theorem Aligned.names (h : Aligned R as bs) : as.map Prod.fst = bs.map Prod.fst := by
  induction h with
  | nil => rfl
  | cons hab _ ih => rw [List.map_cons, List.map_cons, hab.1, ih]

theorem Aligned.append {cs : List (String × α)} {ds : List (String × β)} (h : Aligned R as bs) (h' : Aligned R cs ds) :
    Aligned R (as ++ cs) (bs ++ ds) := List.rel_append h h'

/-- Reading the right side finds an entry on the left. -/
theorem Aligned.lookup_left (h : Aligned R as bs) (hb : bs.lookup n = some b) : ∃ a, as.lookup n = some a ∧ R a b := by
  induction h with
  | nil => cases hb
  | cons hab _ ih =>
    rename_i x y _ _ _
    obtain ⟨hname, hr⟩ := hab
    rw [List.lookup_cons] at hb ⊢
    rw [hname]
    cases hn : n == y.1 with
    | true =>
      rw [hn] at hb
      obtain rfl := Option.some.inj hb
      exact ⟨x.2, rfl, hr⟩
    | false =>
      rw [hn] at hb
      exact ih hb

theorem lookup_of_mem (hnodup : (bs.map Prod.fst).Nodup) (hmem : (n, b) ∈ bs) : bs.lookup n = some b := by
  induction bs with
  | nil => cases hmem
  | cons c bs ih =>
    rw [List.map_cons, List.nodup_cons] at hnodup
    rw [List.lookup_cons]
    rcases List.mem_cons.mp hmem with rfl | hmem
    · rw [beq_self_eq_true]
    · have hne : ¬ n = c.1 := fun he => hnodup.1 (he ▸ List.mem_map_of_mem hmem)
      rw [beq_eq_false_iff_ne.mpr hne]
      exact ih hnodup.2 hmem

/-- With distinct names, an entry on the left is read on the right. -/
theorem Aligned.lookup_right {a : α} (h : Aligned R as bs) (hnodup : (as.map Prod.fst).Nodup) (ha : (n, a) ∈ as) :
    ∃ b, bs.lookup n = some b ∧ R a b := by
  induction h with
  | nil => cases ha
  | cons hab _ ih =>
    rename_i x y as bs _
    obtain ⟨hname, hr⟩ := hab
    rw [List.map_cons, List.nodup_cons] at hnodup
    rw [List.lookup_cons, ← hname]
    rcases List.mem_cons.mp ha with rfl | ha
    · rw [beq_self_eq_true]
      exact ⟨y.2, rfl, hr⟩
    · have hne : ¬ n = x.1 := fun he => hnodup.1 (he ▸ List.mem_map_of_mem ha)
      rw [beq_eq_false_iff_ne.mpr hne]
      exact ih hnodup.2 ha

/-- A record built by reading another one by name reads the same. -/
theorem lookup_copy {cs : List (String × β)} (hcopy : ∀ p ∈ bs, cs.lookup p.1 = some p.2)
    (hn : n ∈ bs.map Prod.fst) : bs.lookup n = cs.lookup n := by
  induction bs with
  | nil => cases hn
  | cons p bs ih =>
    rw [List.lookup_cons]
    cases he : n == p.1 with
    | true =>
      rw [beq_iff_eq.mp he]
      exact (hcopy p List.mem_cons_self).symm
    | false =>
      rw [List.map_cons] at hn
      have hn := (List.mem_cons.mp hn).resolve_left (beq_eq_false_iff_ne.mp he)
      exact ih (fun q hq => hcopy q (List.mem_cons_of_mem _ hq)) hn

/-- One entry after the other, each as the literal's initialiser gives it. -/
theorem mapM_eq_some {f : α → Option β} {as : List α} {bs : List β} (h : List.Forall₂ (fun a b => f a = some b) as bs) :
    as.mapM f = some bs := by
  induction h with
  | nil => rfl
  | cons hab _ ih =>
    rw [List.mapM_cons, hab, ih]
    rfl

theorem forall_mem_right {S : α → β → Prop} {P : β → Prop} {as : List α} {bs : List β} (h : List.Forall₂ S as bs)
    (hP : ∀ a b, S a b → P b) : ∀ b ∈ bs, P b := by
  induction h with
  | nil => exact fun b hb => by cases hb
  | cons hab _ ih => exact List.forall_mem_cons.mpr ⟨hP _ _ hab, ih⟩

theorem exists_forall₂ {S : α → β → Prop} {as : List α} (h : ∀ a ∈ as, ∃ b, S a b) : ∃ bs, List.Forall₂ S as bs := by
  induction as with
  | nil => exact ⟨[], .nil⟩
  | cons a as ih =>
    obtain ⟨b, hb⟩ := h a List.mem_cons_self
    obtain ⟨bs, hbs⟩ := ih fun c hc => h c (List.mem_cons_of_mem _ hc)
    exact ⟨b :: bs, .cons hb hbs⟩

end PhotonRing.Lib
