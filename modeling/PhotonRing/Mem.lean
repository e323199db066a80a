import PhotonRing.Channel.Publisher
import PhotonRing.Lib.Layout

/-!
# Prefaulting the slot array (`src/mem.rs`)

`prefault_pages` writes a zero byte at every 4096th address from the start of a region on. The
start of a slot array is aligned to 64 bytes only, so the region can end on one page more than
the writes reach. It does when its last byte has a lower offset in its page than its first.
-/
namespace PhotonRing.Mem

open Lib.Layout

/-- Memory by address, with the addresses written so far as history. -/
structure Memory where
  byte : Nat → UInt8
  written : List Nat

/-- `core::ptr::write_volatile`. -/
def Memory.writeVolatile (m : Memory) (a : Nat) (b : UInt8) : Memory :=
  ⟨Function.update m.byte a b, m.written ++ [a]⟩

/-- `(0..stop).step_by(step)`. -/
def stepBy (stop step : Nat) : List Nat := List.range' 0 ((stop + step - 1) / step) step

def prefaultPages (ptr size : Nat) (m : Memory) : Memory :=
  (stepBy size 4096).foldl (fun m offset => m.writeVolatile (ptr + offset) 0) m

/-! ## What is meant -/

/-- The page of an address. -/
def page (a : Nat) : Nat := a / 4096

/-- The page has a byte in `[ptr, ptr + size)`. -/
def Intersects (p ptr size : Nat) : Prop := ∃ a, ptr ≤ a ∧ a < ptr + size ∧ page a = p

/-- Every page of the region has been written to, and nothing outside the region has. -/
structure Prefaulted (ptr size : Nat) (written : List Nat) : Prop where
  covers : ∀ p, Intersects p ptr size → ∃ a ∈ written, page a = p
  inside : ∀ a ∈ written, ptr ≤ a ∧ a < ptr + size

/-! ## The writes -/

variable {m : Memory} {a k ptr size stop step : Nat}

theorem mem_stepBy (hstep : 0 < step) : k ∈ stepBy stop step ↔ ∃ i, step * i < stop ∧ k = step * i := by
  have hbound (i : Nat) : i < (stop + step - 1) / step ↔ step * i < stop := by
    rw [Nat.lt_iff_add_one_le, Nat.le_div_iff_mul_le hstep, Nat.add_mul, Nat.mul_comm i]
    omega
  rw [stepBy, List.mem_range']
  constructor
  · rintro ⟨i, hi, rfl⟩
    exact ⟨i, (hbound i).mp hi, Nat.zero_add _⟩
  · rintro ⟨i, hi, rfl⟩
    exact ⟨i, (hbound i).mpr hi, (Nat.zero_add _).symm⟩

theorem fold_written (offsets : List Nat) (m : Memory) :
    (offsets.foldl (fun m offset => m.writeVolatile (ptr + offset) 0) m).written =
      m.written ++ offsets.map (ptr + ·) := by
  induction offsets generalizing m with
  | nil => exact (List.append_nil _).symm
  | cons offset offsets ih =>
    rw [List.foldl_cons, ih, List.map_cons]
    exact List.append_assoc ..

/-- A fold of stores leaves a byte as it was, or zero. -/
theorem fold_byte (offsets : List Nat) (m : Memory) :
    (offsets.foldl (fun m offset => m.writeVolatile (ptr + offset) 0) m).byte a =
      if a ∈ offsets.map (ptr + ·) then 0 else m.byte a := by
  induction offsets generalizing m with
  | nil => rfl
  | cons offset offsets ih =>
    rw [List.foldl_cons, ih, List.map_cons]
    by_cases hlater : a ∈ offsets.map (ptr + ·)
    · rw [if_pos hlater, if_pos (List.mem_cons_of_mem _ hlater)]
    · rw [if_neg hlater]
      by_cases hhere : a = ptr + offset
      · subst hhere
        rw [if_pos List.mem_cons_self]
        exact Function.update_self ..
      · rw [if_neg fun hmem => (List.mem_cons.mp hmem).elim hhere hlater]
        exact Function.update_of_ne hhere ..

theorem prefaultPages_written (byte : Nat → UInt8) :
    a ∈ (prefaultPages ptr size ⟨byte, []⟩).written ↔ ∃ i, 4096 * i < size ∧ a = ptr + 4096 * i := by
  rw [prefaultPages, fold_written, List.nil_append, List.mem_map]
  constructor
  · rintro ⟨k, hk, rfl⟩
    obtain ⟨i, hi, rfl⟩ := (mem_stepBy (by decide)).mp hk
    exact ⟨i, hi, rfl⟩
  · rintro ⟨i, hi, rfl⟩
    exact ⟨4096 * i, (mem_stepBy (by decide)).mpr ⟨i, hi, rfl⟩, rfl⟩

/-- `prefault_pages` reaches every page of a region exactly when the region is empty or its last
byte is at no lower offset in its page than its first. -/
theorem prefault_pages_iff (byte : Nat → UInt8) (ptr size : Nat) :
    Prefaulted ptr size (prefaultPages ptr size ⟨byte, []⟩).written ↔
      size = 0 ∨ ptr % 4096 ≤ (ptr + size - 1) % 4096 := by
  constructor
  · intro h
    by_contra hnot
    -- the page of the last byte is the one that is missed
    obtain ⟨a, ha, hpage⟩ := h.covers (page (ptr + size - 1)) ⟨ptr + size - 1, by omega, by omega, rfl⟩
    obtain ⟨i, hi, rfl⟩ := (prefaultPages_written byte).mp ha
    unfold page at hpage
    omega
  · intro hcond
    constructor
    · rintro p ⟨a, hlo, hhi, rfl⟩
      refine ⟨ptr + 4096 * (a / 4096 - ptr / 4096), (prefaultPages_written byte).mpr ⟨_, ?_, rfl⟩, ?_⟩
      · omega
      · unfold page
        omega
    · intro a ha
      obtain ⟨i, hi, rfl⟩ := (prefaultPages_written byte).mp ha
      omega

/-- 64 slots of 64 bytes, aligned to 64 bytes and not to a page: the second of the two pages
they lie on is not written to. -/
theorem prefault_misses_page :
    (prefaultPages 0x7f0000000040 4096 ⟨fun _ => 0, []⟩).written = [0x7f0000000040] ∧
      Intersects 0x7f0000001 0x7f0000000040 4096 ∧
      ¬ Prefaulted 0x7f0000000040 4096 (prefaultPages 0x7f0000000040 4096 ⟨fun _ => 0, []⟩).written := by
  refine ⟨rfl, ⟨0x7f0000001000, by decide, by decide, rfl⟩, ?_⟩
  rw [prefault_pages_iff]
  decide

/-- Whole pages are reached only from the start of one. -/
theorem prefault_whole_pages_iff (byte : Nat → UInt8) (hsize : 4096 ∣ size) (hpos : 0 < size) :
    Prefaulted ptr size (prefaultPages ptr size ⟨byte, []⟩).written ↔ 4096 ∣ ptr := by
  rw [prefault_pages_iff]
  omega

/-! ## `Publisher::prefault` -/

/-- `AtomicU64`. -/
def stampShape : Shape := ⟨8, 8, Nat.succ_pos 7, Nat.dvd_refl 8⟩

/-- `size_of::<Slot<T>>()` for a payload of the given layout. -/
def slotSize (value : Shape) : Nat :=
  alignUp (Lib.Layout.stop 0 [stampShape, value]) (max 64 (maxAlign [stampShape, value]))

/-- `slots` is the address of the slot array and `len` the number of its slots. -/
def prefault {n : Nat} (p : Publisher n) (value : Shape) (slots len : Nat) (m : Memory) : Except String Memory :=
  if p.seq = 0 then .ok (prefaultPages slots (len * slotSize value) m)
  else .error "prefault() must be called before any publish operations"

/-- Every slot has the stamp that `Slot::new` gives it. -/
def Fresh (value : Shape) (slots len : Nat) (m : Memory) : Prop :=
  ∀ i < len, ∀ j < 8, m.byte (slots + i * slotSize value + j) = 0

/-- A ring that nothing has been published on is still one when its pages have been written to. -/
theorem prefault_fresh {n : Nat} {p : Publisher n} {value : Shape} {slots len : Nat} {m' : Memory}
    (hfresh : Fresh value slots len m) (h : prefault p value slots len m = .ok m') : Fresh value slots len m' := by
  have hm : prefaultPages slots (len * slotSize value) m = m' := by
    unfold prefault at h
    split at h
    · exact Except.ok.inj h
    · cases h
  intro i hi j hj
  rw [← hm, prefaultPages, fold_byte]
  split_ifs with hwritten
  · rfl
  · exact hfresh i hi j hj

end PhotonRing.Mem
