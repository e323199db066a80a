import Mathlib.Algebra.Ring.Nat
import Mathlib.Order.Nat
import Mathlib.Tactic.Common

/-!
# Layout of a record

Fields are placed one after the other, each at the next multiple of its alignment, and the
record ends at a multiple of the largest alignment. The bytes that no field covers are
padding. A field list is packed when every field starts where the one before it ends.
-/
namespace PhotonRing.Lib.Layout

/-- The least multiple of `a` that is not below `n`. -/
def alignUp (n a : Nat) : Nat := (n + a - 1) / a * a

variable {n a off : Nat}

theorem dvd_alignUp (n a : Nat) : a ∣ alignUp n a := Nat.dvd_mul_left a _

theorem le_alignUp (ha : 0 < a) : n ≤ alignUp n a := by
  have h := Nat.lt_div_mul_add (a := n + a - 1) ha
  unfold alignUp
  omega

theorem alignUp_of_dvd (ha : 0 < a) (h : a ∣ n) : alignUp n a = n := by
  obtain ⟨k, rfl⟩ := h
  have hlt : a - 1 < a := by omega
  rw [alignUp, Nat.add_sub_assoc ha, Nat.mul_add_div ha, Nat.div_eq_of_lt hlt, Nat.add_zero, Nat.mul_comm]

theorem lt_alignUp (ha : 0 < a) (h : ¬ a ∣ n) : n < alignUp n a :=
  lt_of_le_of_ne (le_alignUp ha) (fun he => h (he ▸ dvd_alignUp n a))

/-- Size and alignment of a field. -/
structure Shape where
  size : Nat
  align : Nat
  pos : 0 < align
  whole : align ∣ size

/-- `len` bytes. -/
def Shape.bytes (len : Nat) : Shape := ⟨len, 1, Nat.one_pos, Nat.one_dvd len⟩

variable {f : Shape} {fs gs : List Shape}

/-- The fields with their offsets, from `off` on. -/
def placed (off : Nat) : List Shape → List (Nat × Shape)
  | [] => []
  | f :: fs => (alignUp off f.align, f) :: placed (alignUp off f.align + f.size) fs

/-- Where the last field ends. -/
def stop (off : Nat) : List Shape → Nat
  | [] => off
  | f :: fs => stop (alignUp off f.align + f.size) fs

def total (fs : List Shape) : Nat := (fs.map Shape.size).sum

def maxAlign : List Shape → Nat
  | [] => 1
  | f :: fs => max f.align (maxAlign fs)

/-- The size of the record. -/
def size (fs : List Shape) : Nat := alignUp (stop 0 fs) (maxAlign fs)

/-- The byte belongs to a field. -/
def Covered (off : Nat) (fs : List Shape) (b : Nat) : Prop :=
  ∃ p ∈ placed off fs, p.1 ≤ b ∧ b < p.1 + p.2.size

/-- Every byte of the record belongs to a field. -/
def NoPadding (fs : List Shape) : Prop := ∀ b < size fs, Covered 0 fs b

/-- Every field starts where the one before it ends. -/
def Packed (off : Nat) : List Shape → Prop
  | [] => True
  | f :: fs => f.align ∣ off ∧ Packed (off + f.size) fs

@[simp] theorem total_nil : total [] = 0 := rfl

@[simp] theorem total_cons (f : Shape) (fs : List Shape) : total (f :: fs) = f.size + total fs := by
  simp only [total, List.map_cons, List.sum_cons]

theorem total_append (fs gs : List Shape) : total (fs ++ gs) = total fs + total gs := by
  simp only [total, List.map_append, List.sum_append]

theorem maxAlign_pos (fs : List Shape) : 0 < maxAlign fs := by
  induction fs with
  | nil => exact Nat.one_pos
  | cons f fs ih =>
    rw [maxAlign]
    omega

theorem maxAlign_append_bytes (fs : List Shape) (len : Nat) :
    maxAlign (fs ++ [Shape.bytes len]) = maxAlign fs := by
  induction fs with
  | nil => rfl
  | cons f fs ih => simp only [List.cons_append, maxAlign, ih]

theorem packed_append : Packed off (fs ++ gs) ↔ Packed off fs ∧ Packed (off + total fs) gs := by
  induction fs generalizing off with
  | nil => simp only [List.nil_append, Packed, total_nil, Nat.add_zero, true_and]
  | cons f fs ih => rw [List.cons_append, Packed, Packed, ih, total_cons, Nat.add_assoc, and_assoc]

theorem add_total_le_stop (off : Nat) (fs : List Shape) : off + total fs ≤ stop off fs := by
  induction fs generalizing off with
  | nil => exact Nat.le_refl _
  | cons f fs ih =>
    have hle := le_alignUp (n := off) f.pos
    have := ih (alignUp off f.align + f.size)
    rw [total_cons, stop]
    omega

/-- A packed list needs no more than its fields, and only a packed one. -/
theorem stop_eq_iff : stop off fs = off + total fs ↔ Packed off fs := by
  induction fs generalizing off with
  | nil => simp only [stop, total_nil, Nat.add_zero, Packed]
  | cons f fs ih =>
    rw [stop, total_cons, Packed]
    by_cases h : f.align ∣ off
    · rw [alignUp_of_dvd f.pos h, ← Nat.add_assoc, ih]
      exact ⟨fun hp => ⟨h, hp⟩, fun hp => hp.2⟩
    · have hlt := lt_alignUp f.pos h
      have hle := add_total_le_stop (alignUp off f.align + f.size) fs
      exact ⟨fun he => by omega, fun hp => absurd hp.1 h⟩

theorem le_of_mem_placed {p : Nat × Shape} (h : p ∈ placed off fs) : off ≤ p.1 := by
  induction fs generalizing off with
  | nil => cases h
  | cons f fs ih =>
    have hle := le_alignUp (n := off) f.pos
    rcases List.mem_cons.mp h with rfl | h
    · exact hle
    · exact le_trans (by omega) (ih h)

theorem Packed.covered {b : Nat} (h : Packed off fs) (hlo : off ≤ b) (hhi : b < off + total fs) :
    Covered off fs b := by
  induction fs generalizing off with
  | nil =>
    rw [total_nil] at hhi
    omega
  | cons f fs ih =>
    obtain ⟨hdvd, hrest⟩ := h
    rw [total_cons] at hhi
    have hoff := alignUp_of_dvd f.pos hdvd
    by_cases hin : b < off + f.size
    · exact ⟨(alignUp off f.align, f), List.mem_cons_self, by rw [hoff]; exact ⟨hlo, hin⟩⟩
    · obtain ⟨p, hp, hb⟩ := ih hrest (by omega) (by omega)
      refine ⟨p, List.mem_cons_of_mem _ ?_, hb⟩
      rw [hoff]
      exact hp

/-- Where a list is not packed it leaves a byte uncovered. -/
theorem exists_uncovered (h : ¬ Packed off fs) : ∃ b, off ≤ b ∧ b < stop off fs ∧ ¬ Covered off fs b := by
  induction fs generalizing off with
  | nil => exact absurd trivial h
  | cons f fs ih =>
    have hle := le_alignUp (n := off) f.pos
    by_cases hdvd : f.align ∣ off
    · have hoff := alignUp_of_dvd f.pos hdvd
      have hrest : ¬ Packed (off + f.size) fs := fun hp => h ⟨hdvd, hp⟩
      obtain ⟨b, hlo, hhi, hb⟩ := ih hrest
      refine ⟨b, by omega, by rw [stop, hoff]; exact hhi, ?_⟩
      rintro ⟨p, hp, hc⟩
      rw [placed, hoff] at hp
      rcases List.mem_cons.mp hp with rfl | hp
      · exact absurd hc.2 (Nat.not_lt.mpr hlo)
      · exact hb ⟨p, hp, hc⟩
    · have hlt := lt_alignUp f.pos hdvd
      have hstop := add_total_le_stop (alignUp off f.align + f.size) fs
      refine ⟨off, Nat.le_refl off, by rw [stop]; omega, ?_⟩
      rintro ⟨p, hp, hc⟩
      rcases List.mem_cons.mp hp with rfl | hp
      · exact absurd hc.1 (Nat.not_le.mpr hlt)
      · have := le_of_mem_placed hp
        omega

theorem lt_stop_of_covered {b : Nat} (h : Covered off fs b) : b < stop off fs := by
  induction fs generalizing off with
  | nil =>
    obtain ⟨p, hp, _⟩ := h
    cases hp
  | cons f fs ih =>
    obtain ⟨p, hp, hc⟩ := h
    rcases List.mem_cons.mp hp with rfl | hp
    · have hle := add_total_le_stop (alignUp off f.align + f.size) fs
      have hlt : b < alignUp off f.align + f.size := hc.2
      rw [stop]
      omega
    · exact ih ⟨p, hp, hc⟩

/-- The size of a record is the sum of its fields' sizes exactly when it is packed and ends
at a multiple of its alignment. -/
theorem size_eq_total_iff : size fs = total fs ↔ Packed 0 fs ∧ maxAlign fs ∣ total fs := by
  have hle := le_alignUp (n := stop 0 fs) (maxAlign_pos fs)
  have hstop := add_total_le_stop 0 fs
  constructor
  · intro h
    have hpacked : stop 0 fs = 0 + total fs := by
      unfold size at h
      omega
    exact ⟨stop_eq_iff.mp hpacked, h ▸ dvd_alignUp _ _⟩
  · rintro ⟨hpacked, hdvd⟩
    rw [size, stop_eq_iff.mpr hpacked, Nat.zero_add, alignUp_of_dvd (maxAlign_pos fs) hdvd]

/-- It is so exactly when there is no padding. -/
theorem noPadding_iff : NoPadding fs ↔ size fs = total fs := by
  rw [size_eq_total_iff]
  have hle := le_alignUp (n := stop 0 fs) (maxAlign_pos fs)
  constructor
  · intro h
    have hpacked : Packed 0 fs := by
      by_contra hn
      obtain ⟨b, _, hlt, hb⟩ := exists_uncovered hn
      exact hb (h b (hlt.trans_le hle))
    have hstop : stop 0 fs = total fs := by rw [stop_eq_iff.mpr hpacked, Nat.zero_add]
    refine ⟨hpacked, ?_⟩
    by_contra hn
    rw [← hstop] at hn
    exact absurd (lt_stop_of_covered (h _ (lt_alignUp (maxAlign_pos fs) hn))) (Nat.lt_irrefl _)
  · rintro ⟨hpacked, hdvd⟩ b hb
    rw [size_eq_total_iff.mpr ⟨hpacked, hdvd⟩] at hb
    exact hpacked.covered (Nat.zero_le b) (by omega)

/-! ## Closing the end with bytes -/

/-- The bytes that are missing to a multiple of the alignment. -/
def tailPad (fs : List Shape) : Nat := (maxAlign fs - total fs % maxAlign fs) % maxAlign fs

theorem maxAlign_dvd_add_tailPad (fs : List Shape) : maxAlign fs ∣ total fs + tailPad fs := by
  have hlt := Nat.mod_lt (total fs) (maxAlign_pos fs)
  apply Nat.dvd_of_mod_eq_zero
  rw [tailPad, Nat.add_mod_mod, ← Nat.mod_add_mod, Nat.add_sub_of_le hlt.le, Nat.mod_self]

theorem total_append_bytes (fs : List Shape) (len : Nat) : total (fs ++ [Shape.bytes len]) = total fs + len := by
  rw [total_append, total_cons, total_nil]
  rfl

/-- With its end closed, a record has no padding exactly when its fields are packed. -/
theorem size_closed_iff :
    size (fs ++ [Shape.bytes (tailPad fs)]) = total fs + tailPad fs ↔ Packed 0 fs := by
  rw [← total_append_bytes, size_eq_total_iff, packed_append, maxAlign_append_bytes, total_append_bytes]
  exact ⟨fun h => h.1.1, fun h => ⟨⟨h, Nat.one_dvd _, trivial⟩, maxAlign_dvd_add_tailPad fs⟩⟩

theorem noPadding_closed_iff : NoPadding (fs ++ [Shape.bytes (tailPad fs)]) ↔ Packed 0 fs := by
  rw [noPadding_iff, total_append_bytes, size_closed_iff]

/-- Fields in descending alignment are packed from wherever all of them may start. -/
theorem packed_descending (h : fs.Pairwise fun f g => g.align ∣ f.align) :
    Packed off fs ↔ ∀ f ∈ fs, f.align ∣ off := by
  induction fs generalizing off with
  | nil => exact ⟨fun _ f hf => (List.not_mem_nil hf).elim, fun _ => trivial⟩
  | cons f fs ih =>
    obtain ⟨hfirst, hrest⟩ := List.pairwise_cons.mp h
    rw [Packed, ih hrest, List.forall_mem_cons]
    refine and_congr_right fun _ => forall₂_congr fun g hg => ?_
    exact (Nat.dvd_add_iff_left (Nat.dvd_trans (hfirst g hg) f.whole)).symm

end PhotonRing.Lib.Layout
