import PhotonRing.Lib.Tiles
import PhotonRing.Slot

/-!
# The payload copy as a whole

`store_payload` and `load_payload` from their first access to their last, on memory that
does not end with the payload. A copy keeps a record of its accesses and of the offsets at
which it computes `size - off`. When nothing interrupts it, a striped write or read of a
slot has the outcome of the volatile one.
-/
namespace PhotonRing.Payload

open Lib

/-- Memory from a pointer on. A byte that was never written is `none`. -/
abbrev Mem := Nat → Option UInt8

/-- One atomic access. -/
structure Access where
  off : Nat
  width : Nat
  deriving DecidableEq, Repr

/-- The first offset behind it. -/
def Access.stop (a : Access) : Nat := a.off + a.width

/-- A copy in progress: the destination, the local `off`, the accesses made, and the offsets
at which `size - off` was computed. -/
structure Copy where
  mem : Mem
  off : Nat
  trace : List Access
  tests : List Nat

namespace Copy

def start (dst : Mem) : Copy := ⟨dst, 0, [], []⟩

/-- `size - off` is computed. -/
def test (c : Copy) : Copy := { c with tests := c.tests ++ [c.off] }

/-- Copy `w` bytes at `off` and advance. -/
def access (src : Mem) (w : Nat) (c : Copy) : Copy where
  mem := fun i => if c.off ≤ i ∧ i < c.off + w then src i else c.mem i
  off := c.off + w
  trace := c.trace ++ [⟨c.off, w⟩]
  tests := c.tests

/-- `while size - off >= 8`. -/
def stripes (src : Mem) (size : Nat) (c : Copy) : Copy :=
  if 8 ≤ size - c.off then stripes src size (c.test.access src 8) else c.test
termination_by size - c.off
decreasing_by simp only [access, test]; omega

/-- `if size - off >= w`. -/
def tail (src : Mem) (size w : Nat) (c : Copy) : Copy :=
  if w ≤ size - c.off then c.test.access src w else c.test

end Copy

/-- Copy `size` bytes by whole stripes of eight and a tail that steps down. -/
def copyPayload (dst src : Mem) (size : Nat) : Copy :=
  (((Copy.start dst).stripes src size).tail src size 4).tail src size 2 |>.tail src size 1

/-- `store_payload`: from the thread-local `src` into the slot at `dst`. -/
def storePayload (dst src : Mem) (size : Nat) : Copy := copyPayload dst src size

/-- `load_payload`: from the slot at `src` into the thread-local `dst`. -/
def loadPayload (dst src : Mem) (size : Nat) : Copy := copyPayload dst src size

/-! ## What a copy has done so far -/

variable {dst src : Mem} {size w : Nat} {c : Copy}

structure Ok (dst src : Mem) (size : Nat) (c : Copy) : Prop where
  tiles : Tiles Access.off Access.stop 0 c.trace c.off
  fits : c.off ≤ size
  mem : ∀ i, c.mem i = if i < c.off then src i else dst i
  widths : ∀ a ∈ c.trace, (a.width = 8 ∨ a.width = 4 ∨ a.width = 2 ∨ a.width = 1) ∧ a.width ∣ a.off
  tests : ∀ off ∈ c.tests, off ≤ size

theorem ok_start (dst src : Mem) (size : Nat) : Ok dst src size (Copy.start dst) where
  tiles := .nil
  fits := Nat.zero_le size
  mem := fun _ => (if_neg (Nat.not_lt_zero _)).symm
  widths := fun _ ha => by cases ha
  tests := fun _ ho => by cases ho

theorem Ok.test (h : Ok dst src size c) : Ok dst src size c.test where
  tiles := h.tiles
  fits := h.fits
  mem := h.mem
  widths := h.widths
  tests := by
    intro off ho
    rcases List.mem_append.mp ho with ho | ho
    · exact h.tests off ho
    · obtain rfl := List.mem_singleton.mp ho
      exact h.fits

theorem Ok.access (h : Ok dst src size c) (hw : w = 8 ∨ w = 4 ∨ w = 2 ∨ w = 1) (hle : w ≤ size - c.off)
    (hdvd : w ∣ c.off) : Ok dst src size (c.access src w) := by
  have hpos : 0 < w := by omega
  have hfits := h.fits
  constructor
  · exact .snoc h.tiles rfl (Nat.lt_add_of_pos_right hpos)
  · change c.off + w ≤ size
    omega
  · intro i
    change (if c.off ≤ i ∧ i < c.off + w then src i else c.mem i) = if i < c.off + w then src i else dst i
    rw [h.mem i]
    by_cases hlt : i < c.off
    · rw [if_neg (by omega), if_pos hlt, if_pos (by omega)]
    · by_cases hin : i < c.off + w
      · rw [if_pos (by omega), if_pos hin]
      · rw [if_neg (by omega), if_neg hlt, if_neg hin]
  · intro a ha
    rcases List.mem_append.mp ha with ha | ha
    · exact h.widths a ha
    · obtain rfl := List.mem_singleton.mp ha
      exact ⟨hw, hdvd⟩
  · exact h.tests

/-- The loop leaves less than a stripe. -/
theorem Ok.stripes (h : Ok dst src size c) (hdvd : 8 ∣ c.off) :
    Ok dst src size (c.stripes src size) ∧ 8 ∣ (c.stripes src size).off ∧
      size - (c.stripes src size).off < 8 := by
  fun_induction Copy.stripes src size c with
  | case1 c hle ih => exact ih (h.test.access (Or.inl rfl) hle hdvd) (Nat.dvd_add_self_right.mpr hdvd)
  | case2 c hlt => exact ⟨h.test, hdvd, Nat.not_le.mp hlt⟩

/-- A step of the tail halves what may be left. -/
theorem Ok.tail (h : Ok dst src size c) (hw : w = 4 ∨ w = 2 ∨ w = 1) (hdvd : w ∣ c.off)
    (hleft : size - c.off < 2 * w) : Ok dst src size (c.tail src size w) ∧ w ∣ (c.tail src size w).off ∧
      size - (c.tail src size w).off < w := by
  unfold Copy.tail
  split_ifs with hle
  · refine ⟨h.test.access (Or.inr hw) hle hdvd, Nat.dvd_add_self_right.mpr hdvd, ?_⟩
    change size - (c.off + w) < w
    omega
  · exact ⟨h.test, hdvd, Nat.not_le.mp hle⟩

/-- At its end a copy has covered the payload. -/
theorem copyPayload_ok (dst src : Mem) (size : Nat) :
    Ok dst src size (copyPayload dst src size) ∧ (copyPayload dst src size).off = size := by
  obtain ⟨h8, hd8, hl8⟩ := (ok_start dst src size).stripes (Nat.dvd_zero 8)
  obtain ⟨h4, hd4, hl4⟩ := h8.tail (Or.inl rfl) (Nat.dvd_trans (by decide) hd8) (by omega)
  obtain ⟨h2, hd2, hl2⟩ := h4.tail (Or.inr (Or.inl rfl)) (Nat.dvd_trans (by decide) hd4) (by omega)
  obtain ⟨h1, _, hl1⟩ := h2.tail (Or.inr (Or.inr rfl)) (Nat.one_dvd _) (by omega)
  have hfits := h1.fits
  exact ⟨h1, by unfold copyPayload; omega⟩

theorem copyPayload_mem (dst src : Mem) (size i : Nat) :
    (copyPayload dst src size).mem i = if i < size then src i else dst i := by
  obtain ⟨h, hoff⟩ := copyPayload_ok dst src size
  rw [h.mem i, hoff]

/-! ## The accesses are those of the stripe-by-stripe copy -/

/-- The accesses that `Slot.writeStep` and `Slot.readStep` make from `off` on. -/
def stripesFrom (size off : Nat) : List Access :=
  if off < size then ⟨off, stripeWidth (size - off)⟩ :: stripesFrom size (off + stripeWidth (size - off)) else []
termination_by size - off
decreasing_by
  have := stripeWidth_pos (size - off)
  omega

theorem stripesFrom_next (hw : stripeWidth (size - c.off) = w) (hlt : c.off < size) :
    (c.access src w).trace ++ stripesFrom size (c.access src w).off = c.trace ++ stripesFrom size c.off := by
  rw [stripesFrom.eq_def size c.off, if_pos hlt, hw]
  simp only [Copy.access, List.append_assoc, List.singleton_append]

theorem stripes_trace (src : Mem) (size : Nat) (c : Copy) :
    (c.stripes src size).trace ++ stripesFrom size (c.stripes src size).off =
      c.trace ++ stripesFrom size c.off := by
  fun_induction Copy.stripes src size c with
  | case1 c hle ih =>
    rw [ih]
    have hw : stripeWidth (size - c.test.off) = 8 := if_pos hle
    exact stripesFrom_next hw (by change c.off < size; omega)
  | case2 c _ => rfl

theorem tail_trace (hw : w = 4 ∨ w = 2 ∨ w = 1) (hleft : size - c.off < 2 * w) :
    (c.tail src size w).trace ++ stripesFrom size (c.tail src size w).off =
      c.trace ++ stripesFrom size c.off := by
  unfold Copy.tail
  split_ifs with hle
  · have hwidth : stripeWidth (size - c.test.off) = w := by
      change stripeWidth (size - c.off) = w
      unfold stripeWidth
      split_ifs <;> omega
    exact stripesFrom_next hwidth (by change c.off < size; omega)
  · rfl

/-- The copy makes the accesses that the interleaved write and read make one by one. -/
theorem copyPayload_trace (dst src : Mem) (size : Nat) : (copyPayload dst src size).trace = stripesFrom size 0 := by
  obtain ⟨h8, hd8, hl8⟩ := (ok_start dst src size).stripes (Nat.dvd_zero 8)
  obtain ⟨h4, hd4, hl4⟩ := h8.tail (Or.inl rfl) (Nat.dvd_trans (by decide) hd8) (by omega)
  obtain ⟨_, _, hl2⟩ := h4.tail (Or.inr (Or.inl rfl)) (Nat.dvd_trans (by decide) hd4) (by omega)
  have hend : stripesFrom size (copyPayload dst src size).off = [] := by
    rw [(copyPayload_ok dst src size).2, stripesFrom, if_neg (Nat.lt_irrefl size)]
  calc (copyPayload dst src size).trace
      = (copyPayload dst src size).trace ++ stripesFrom size (copyPayload dst src size).off := by
        rw [hend, List.append_nil]
    _ = (Copy.start dst).trace ++ stripesFrom size (Copy.start dst).off := by
        rw [copyPayload, tail_trace (Or.inr (Or.inr rfl)) (by omega), tail_trace (Or.inr (Or.inl rfl)) (by omega),
          tail_trace (Or.inl rfl) (by omega), stripes_trace]
    _ = stripesFrom size 0 := rfl

/-! ## Writes and reads that nothing interrupts -/

variable {n : Nat}

/-- The memory of a payload, and the payload in it. -/
def memOf (b : Buf n) : Mem := fun i => if h : i < n then b ⟨i, h⟩ else none

def bufOf (n : Nat) (m : Mem) : Buf n := fun i => m i.val

theorem bufOf_copy (dst src : Buf n) : bufOf n (copyPayload (memOf dst) (memOf src) n).mem = src := by
  funext i
  rw [bufOf, copyPayload_mem, if_pos i.isLt, memOf, dif_pos i.isLt]

/-- `Slot::write` of the `atomic-slots` feature. -/
def write (s : Slot n) (seq : Nat) (v : Value n) : Slot n :=
  let s := { s with stamp := writing seq }
  let s := { s with value := bufOf n (storePayload (memOf s.value) (memOf (bytesOf v)) n).mem }
  { s with stamp := done seq }

/-- `Slot::try_read` of the `atomic-slots` feature. -/
def tryRead (s : Slot n) (seq : Nat) : TryRead n :=
  let s1 := s.stamp
  if s1 = done seq then
    let buf := bufOf n (loadPayload (memOf (uninit n)) (memOf s.value) n).mem
    let s2 := s.stamp
    if s1 = s2 then .value buf else .torn
  else if s1 % 2 ≠ 0 then .torn
  else .other s1

/-- `Slot::write` with `write_volatile`. -/
def writeVolatile (s : Slot n) (seq : Nat) (v : Value n) : Slot n :=
  let s := { s with stamp := writing seq }
  let s := { s with value := bytesOf v }
  { s with stamp := done seq }

/-- `Slot::try_read` with `read_volatile`. -/
def tryReadVolatile (s : Slot n) (seq : Nat) : TryRead n :=
  let s1 := s.stamp
  if s1 = done seq then
    let value := s.value
    let s2 := s.stamp
    if s1 = s2 then .value value else .torn
  else if s1 % 2 ≠ 0 then .torn
  else .other s1

theorem write_eq (s : Slot n) (seq : Nat) (v : Value n) : write s seq v = writeVolatile s seq v := by
  simp only [write, writeVolatile, storePayload, bufOf_copy]

theorem tryRead_eq (s : Slot n) (seq : Nat) : tryRead s seq = tryReadVolatile s seq := by
  simp only [tryRead, tryReadVolatile, loadPayload, bufOf_copy]

/-- For every size and every byte string of that size: a store followed by a load gives the
bytes back and touches nothing behind them. Both make the same accesses, which tile the
payload, are aligned to their width, and are those of the interleaved model; `size - off` is
never computed beyond the size. A slot that nobody else uses is written and read as by the
volatile pair. -/
theorem striped_copy_exact (size : Nat) (v : Value size) (slot buf : Mem) :
    (∀ i : Fin size, (loadPayload buf (storePayload slot (memOf (bytesOf v)) size).mem size).mem i = some (v i)) ∧
    (∀ i, size ≤ i → (storePayload slot (memOf (bytesOf v)) size).mem i = slot i ∧
      (loadPayload buf (storePayload slot (memOf (bytesOf v)) size).mem size).mem i = buf i) ∧
    (storePayload slot (memOf (bytesOf v)) size).trace = stripesFrom size 0 ∧
    (loadPayload buf (storePayload slot (memOf (bytesOf v)) size).mem size).trace = stripesFrom size 0 ∧
    Tiles Access.off Access.stop 0 (stripesFrom size 0) size ∧
    (∀ a ∈ stripesFrom size 0, (a.width = 8 ∨ a.width = 4 ∨ a.width = 2 ∨ a.width = 1) ∧ a.width ∣ a.off ∧
      a.off + a.width ≤ size) ∧
    (∀ off ∈ (storePayload slot (memOf (bytesOf v)) size).tests, off ≤ size) ∧
    (∀ off ∈ (loadPayload buf (storePayload slot (memOf (bytesOf v)) size).mem size).tests, off ≤ size) ∧
    (∀ (s : Slot size) seq, write s seq v = writeVolatile s seq v) ∧
    ∀ (s : Slot size) seq, tryRead s seq = tryReadVolatile s seq := by
  obtain ⟨hstore, hoff⟩ := copyPayload_ok slot (memOf (bytesOf v)) size
  obtain ⟨hload, _⟩ := copyPayload_ok buf (storePayload slot (memOf (bytesOf v)) size).mem size
  have htrace := copyPayload_trace slot (memOf (bytesOf v)) size
  have htiles : Tiles Access.off Access.stop 0 (stripesFrom size 0) size := by
    have hcovered := hstore.tiles
    rwa [htrace, hoff] at hcovered
  refine ⟨fun i => ?_, fun i hi => ⟨?_, ?_⟩, htrace, copyPayload_trace _ _ size, htiles, fun a ha => ?_, hstore.tests,
    hload.tests, fun s seq => write_eq s seq v, tryRead_eq⟩
  · rw [loadPayload, copyPayload_mem, if_pos i.isLt, storePayload, copyPayload_mem, if_pos i.isLt, memOf,
      dif_pos i.isLt]
    rfl
  · rw [storePayload, copyPayload_mem, if_neg (Nat.not_lt.mpr hi)]
  · rw [loadPayload, copyPayload_mem, if_neg (Nat.not_lt.mpr hi)]
  · obtain ⟨hw, hdvd⟩ := hstore.widths a (htrace ▸ ha)
    exact ⟨hw, hdvd, (htiles.bounds a ha).2.2⟩

example : stripesFrom 15 0 = [⟨0, 8⟩, ⟨8, 4⟩, ⟨12, 2⟩, ⟨14, 1⟩] := by
  simp [stripesFrom, stripeWidth]

end PhotonRing.Payload
