import PhotonRing.RingIndex
import PhotonRing.Slot

/-!
# The shared ring

`Config` fixes what a constructor is given and checks. `Ring` is the memory all
handles of a channel share, and `Trackers` the backpressure state together with
the tracker cells. A tracker is named by the subscriber it was created for, since
each subscriber creates at most one.
-/
namespace PhotonRing

open Lib Lib.Seqlock

/-- The three channel constructors. -/
inductive Kind where
  | lossy
  | bounded (watermark : Nat)
  | mpmc
  deriving DecidableEq, Repr

/-- A ring that a constructor accepted. -/
structure Config where
  capacity : Nat
  kind : Kind
  two_le : 2 ≤ capacity
  usize : capacity < 2 ^ 64
  headroom : ∀ w, kind = .bounded w → w < capacity

namespace Config

/-- `RingIndex::slot` at the ring's precomputed constants. -/
def slot (cfg : Config) (seq : Nat) : Nat := (RingIndex.new cfg.capacity).slot seq

/-- `capacity - watermark`, the distance `has_room` keeps on a bounded channel. -/
def effective (cfg : Config) : Nat :=
  match cfg.kind with
  | .bounded w => cfg.capacity - w
  | _ => cfg.capacity

/-- The slot array was allocated: a slot takes at least 64 bytes, and no allocation is larger
than `isize::MAX` bytes. -/
def Allocated (cfg : Config) : Prop := cfg.capacity ≤ 2 ^ 57

/-- The smallest rings that the constructors accept. -/
def smallLossy : Config := ⟨2, .lossy, by decide, by decide, nofun⟩

def smallMpmc : Config := ⟨2, .mpmc, by decide, by decide, nofun⟩

def smallBounded : Config := ⟨2, .bounded 0, by decide, by decide, fun _ h => by cases h; decide⟩

theorem slot_eq (cfg : Config) {seq : Nat} (h : seq < 2 ^ 64) :
    cfg.slot seq = seq % cfg.capacity := RingIndex.slot_eq_mod cfg.two_le h

theorem slot_eq_of_lt (cfg : Config) {seq : Nat} (h : seq < seqLimit) :
    cfg.slot seq = seq % cfg.capacity := cfg.slot_eq (by unfold seqLimit at h; omega)

theorem capacity_pos (cfg : Config) : 0 < cfg.capacity := by have := cfg.two_le; omega

theorem effective_pos (cfg : Config) : 0 < cfg.effective := by
  have hc := cfg.two_le
  unfold effective
  split
  · have := cfg.headroom _ ‹_›; omega
  · omega

theorem effective_le (cfg : Config) : cfg.effective ≤ cfg.capacity := by
  unfold effective
  split <;> omega

end Config

/-- `SharedRing`. The last two fields are history: no step reads them. `log` holds
the value of every sequence in order, entered when the sequence is claimed on an
MPMC channel and when its slot is stamped complete otherwise; `returned` holds the
sequences whose publish call has returned. -/
structure Ring (n : Nat) where
  slots : Nat → Slot n
  cursor : Nat
  nextSeq : Nat
  log : List (Value n)
  returned : List Nat

def Ring.new (n : Nat) : Ring n where
  slots := fun _ => Slot.new n
  cursor := u64Max
  nextSeq := 0
  log := []
  returned := []

/-- The cursor value that the publish of `seq` replaces. -/
def expectedCursor (seq : Nat) : Nat := if seq = 0 then u64Max else seq - 1

/-- The position after the head, where a new subscriber starts. -/
def startOf (head : Nat) : Nat := if head = u64Max then 0 else u64 (head + 1)

/-- The oldest position still in the ring, where `subscribe_from_oldest` starts. -/
def oldestOf (capacity head : Nat) : Nat :=
  if head = u64Max then 0 else if capacity ≤ head then head - capacity + 1 else 0

theorem startOf_expectedCursor {seq : Nat} (hseq : seq < 2 ^ 64) :
    startOf (expectedCursor seq) = seq := by
  unfold startOf expectedCursor
  by_cases h0 : seq = 0
  · simp [h0]
  · rw [if_neg h0, if_neg (by unfold u64Max; omega), u64_of_lt (by omega)]
    omega

theorem oldestOf_expectedCursor {capacity seq : Nat} (hcap : 0 < capacity) (hseq : seq < seqLimit) :
    oldestOf capacity (expectedCursor seq) = seq - capacity := by
  unfold seqLimit at hseq
  unfold oldestOf expectedCursor
  by_cases h0 : seq = 0
  · simp [h0]
  · rw [if_neg h0, if_neg (by unfold u64Max; omega)]
    split_ifs <;> omega

/-- `BackpressureState` with the memory behind its weak references: the lock, the
registered trackers, and the value and strong count of every tracker. -/
structure Trackers where
  locked : Bool
  registered : List Nat
  value : Nat → Nat
  strong : Nat → Nat

def Trackers.new : Trackers := ⟨false, [], fun _ => 0, fun _ => 0⟩

namespace Ring

variable {n : Nat}

def setSlot (r : Ring n) (idx : Nat) (s : Slot n) : Ring n :=
  { r with slots := Function.update r.slots idx s }

/-- Enter the next sequence's value into the history. -/
def append (r : Ring n) (v : Value n) : Ring n := { r with log := r.log ++ [v] }

/-- The stamp of the slot that `seq` uses. -/
def stampAt (cfg : Config) (r : Ring n) (seq : Nat) : Nat := (r.slots (seq % cfg.capacity)).stamp

theorem stampAt_setSlot (cfg : Config) (r : Ring n) (idx q : Nat) (s : Slot n) :
    (r.setSlot idx s).stampAt cfg q = if q % cfg.capacity = idx then s.stamp else r.stampAt cfg q := by
  unfold stampAt setSlot
  by_cases h : q % cfg.capacity = idx
  · simp [h]
  · simp [h]

@[simp] theorem setSlot_log (r : Ring n) (idx : Nat) (s : Slot n) : (r.setSlot idx s).log = r.log := rfl

@[simp] theorem append_log (r : Ring n) (v : Value n) : (r.append v).log = r.log ++ [v] := rfl

@[simp] theorem append_slots (r : Ring n) (v : Value n) : (r.append v).slots = r.slots := rfl

@[simp] theorem append_nextSeq (r : Ring n) (v : Value n) : (r.append v).nextSeq = r.nextSeq := rfl

@[simp] theorem append_stampAt (cfg : Config) (r : Ring n) (v : Value n) (q : Nat) :
    (r.append v).stampAt cfg q = r.stampAt cfg q := rfl

theorem setSlot_slots_self (r : Ring n) (idx : Nat) (s : Slot n) :
    (r.setSlot idx s).slots idx = s := Function.update_self ..

theorem setSlot_slots_ne (r : Ring n) {idx j : Nat} (s : Slot n) (h : j ≠ idx) :
    (r.setSlot idx s).slots j = r.slots j := Function.update_of_ne h ..

theorem setSlot_setSlot (r : Ring n) (idx : Nat) (s s' : Slot n) :
    (r.setSlot idx s).setSlot idx s' = r.setSlot idx s' := by
  unfold setSlot
  rw [Function.update_idem]

theorem setSlot_evolves {r : Ring n} {idx : Nat} {s : Slot n} (h : Evolves (r.slots idx) s)
    (j : Nat) : Evolves (r.slots j) ((r.setSlot idx s).slots j) := by
  by_cases hj : j = idx
  · subst hj
    rw [setSlot_slots_self]
    exact h
  · rw [setSlot_slots_ne r s hj]
    exact Evolves.refl _

/-- What the readers may rely on in every state. -/
structure Ok (cfg : Config) (r : Ring n) : Prop where
  content : ∀ s, r.stampAt cfg s = 2 * s + 2 →
    ∃ v, r.log[s]? = some v ∧ (r.slots (s % cfg.capacity)).value = bytesOf v
  cursor_lt : r.cursor ≠ u64Max → r.cursor < r.log.length
  committed : r.cursor ≠ u64Max → ∀ s ≤ r.cursor, 2 * s + 2 ≤ r.stampAt cfg s

/-- What a step may do to the memory readers look at. -/
structure Grows (r t : Ring n) : Prop where
  slots : ∀ idx, Evolves (r.slots idx) (t.slots idx)
  log : r.log <+: t.log
  cursor : r.cursor ≠ u64Max → t.cursor ≠ u64Max ∧ r.cursor ≤ t.cursor

theorem Grows.refl (r : Ring n) : Grows r r :=
  ⟨fun _ => Evolves.refl _, List.prefix_refl _, fun h => ⟨h, Nat.le_refl _⟩⟩

theorem Grows.log_le {r t : Ring n} (h : Grows r t) : r.log.length ≤ t.log.length := h.log.length_le

theorem Grows.stampAt_le {r t : Ring n} (h : Grows r t) (cfg : Config) (s : Nat) :
    r.stampAt cfg s ≤ t.stampAt cfg s := (h.slots _).stamp_le

theorem Grows.log_eq {r t : Ring n} (h : Grows r t) {s : Nat} {v : Value n}
    (hs : r.log[s]? = some v) : t.log[s]? = some v := by
  obtain ⟨l, hl⟩ := h.log
  obtain ⟨hlt, _⟩ := List.getElem?_eq_some_iff.mp hs
  rw [← hl, List.getElem?_append_left hlt, hs]

theorem append_log_eq {r : Ring n} {s : Nat} {v w : Value n} (hs : r.log[s]? = some v) :
    (r.append w).log[s]? = some v := by
  obtain ⟨hlt, _⟩ := List.getElem?_eq_some_iff.mp hs
  rw [append_log, List.getElem?_append_left hlt, hs]

theorem new_ok (cfg : Config) : (Ring.new n).Ok cfg := by
  refine ⟨fun s hs => ?_, fun h => absurd rfl h, fun h => absurd rfl h⟩
  have : (0 : Nat) = 2 * s + 2 := hs
  omega

/-- A new subscriber starts no later than the next message. -/
theorem startOf_le {cfg : Config} {r : Ring n} (h : r.Ok cfg) (hl : r.log.length < seqLimit) :
    startOf r.cursor ≤ r.log.length := by
  unfold startOf
  split_ifs with hc
  · exact Nat.zero_le _
  · have := h.cursor_lt hc
    unfold seqLimit at hl
    rw [u64_of_lt (by omega)]
    omega

theorem oldestOf_le {cfg : Config} {r : Ring n} (h : r.Ok cfg) :
    oldestOf cfg.capacity r.cursor ≤ r.log.length := by
  have hcap := cfg.two_le
  unfold oldestOf
  split_ifs with hc hge
  · exact Nat.zero_le _
  · have := h.cursor_lt hc
    omega
  · exact Nat.zero_le _

end Ring

end PhotonRing
