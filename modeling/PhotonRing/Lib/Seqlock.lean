import Mathlib.Order.Nat
import Mathlib.Tactic.Common

/-!
# Stamped cells

A cell pairs a stamp with memory that is read and written piecewise. The writer
keeps one rule: stamps only grow, and memory changes only under an odd stamp.
A reader that sees the same even stamp before and after its loads has therefore
loaded one state of the memory, however long it was suspended in between.
-/
namespace PhotonRing.Lib.Seqlock

/-- A stamp and the memory it guards. Unwritten memory holds `none`. -/
structure Cell (ι β : Type*) where
  stamp : Nat
  value : ι → Option β

variable {ι β : Type*}

/-- What any number of writer steps may do to a cell. -/
structure Evolves (c d : Cell ι β) : Prop where
  stamp_le : c.stamp ≤ d.stamp
  value_eq : d.stamp = c.stamp → c.stamp % 2 = 0 → d.value = c.value

theorem Evolves.refl (c : Cell ι β) : Evolves c c := ⟨Nat.le_refl _, fun _ _ => rfl⟩

/-- A store of a larger stamp. -/
theorem Evolves.restamp {c d : Cell ι β} (h : c.stamp < d.stamp) : Evolves c d :=
  ⟨h.le, fun he _ => absurd he (by omega)⟩

/-- A memory store under an odd stamp. -/
theorem Evolves.store {c d : Cell ι β} (hs : d.stamp = c.stamp) (ho : c.stamp % 2 = 1) :
    Evolves c d :=
  ⟨hs.ge, fun _ hev => absurd hev (by omega)⟩

/-- A reader that found the even stamp `e` and has since loaded the part `done`
of the memory into `buf`. Once the stamp has moved on, `buf` is worthless, and
the stamp never returns to `e`. -/
structure Reading (c : Cell ι β) (e : Nat) (done : ι → Prop) (buf : ι → Option β) : Prop where
  even : e % 2 = 0
  stamp_ge : e ≤ c.stamp
  loaded : c.stamp = e → ∀ i, done i → buf i = c.value i

theorem Reading.begin {c : Cell ι β} {e : Nat} (he : e % 2 = 0) (hs : c.stamp = e)
    {done : ι → Prop} (hd : ∀ i, ¬ done i) (buf : ι → Option β) : Reading c e done buf :=
  ⟨he, hs.ge, fun _ i hi => absurd hi (hd i)⟩

theorem Reading.evolve {c d : Cell ι β} {e : Nat} {done : ι → Prop} {buf : ι → Option β}
    (h : Reading c e done buf) (hcd : Evolves c d) : Reading d e done buf := by
  refine ⟨h.even, h.stamp_ge.trans hcd.stamp_le, fun hd i hi => ?_⟩
  have hge := h.stamp_ge
  have hle := hcd.stamp_le
  have hc : c.stamp = e := by omega
  rw [h.loaded hc i hi, hcd.value_eq (by omega) (by rw [hc]; exact h.even)]

/-- Loading more of the memory keeps the snapshot. -/
theorem Reading.load {c : Cell ι β} {e : Nat} {done done' : ι → Prop} {buf buf' : ι → Option β}
    (h : Reading c e done buf)
    (hl : ∀ i, done' i → (buf' i = c.value i) ∨ (done i ∧ buf' i = buf i)) :
    Reading c e done' buf' := by
  refine ⟨h.even, h.stamp_ge, fun hc i hi => ?_⟩
  rcases hl i hi with hn | ⟨ho, hb⟩
  · exact hn
  · rw [hb, h.loaded hc i ho]

/-- The validated read: all of the memory was loaded and the stamp is still `e`. -/
theorem Reading.validate {c : Cell ι β} {e : Nat} {done : ι → Prop} {buf : ι → Option β}
    (h : Reading c e done buf) (hs : c.stamp = e) (hd : ∀ i, done i) : buf = c.value :=
  funext fun i => h.loaded hs i (hd i)

end PhotonRing.Lib.Seqlock
