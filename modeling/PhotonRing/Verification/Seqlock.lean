import PhotonRing.Lib.Run
import Mathlib.Algebra.Order.Group.Unbundled.Int
import Mathlib.Algebra.Order.Ring.Int

/-!
# The specification of the seqlock ring

`verification/seqlock.tla`: one writer and any number of readers on a ring whose slots
hold a stamp and a value, which is the sequence number it was written for. An action is
a partial function on states, and `Next` takes any of them.
-/
namespace PhotonRing.Verification

open Lib

/-- The constants, with what the specification assumes of them. -/
structure Constants where
  numReaders : Int
  ringSize : Int
  maxSeq : Int
  numReaders_pos : 1 ≤ numReaders
  two_le : 2 ≤ ringSize
  maxSeq_pos : 1 ≤ maxSeq

structure SlotState where
  stamp : Int
  value : Int

inductive WriterPC where
  | idle
  | stamped
  | written
  deriving DecidableEq

inductive ReaderPC where
  | idle
  | stamp1
  | reading
  deriving DecidableEq

structure ReaderState where
  pc : ReaderPC
  cursor : Int
  stamp1 : Int
  value : Int
  stamp2 : Int
  result : Int

structure State where
  slots : Int → SlotState
  cursor : Int
  writerPC : WriterPC
  writerSeq : Int
  readers : Int → ReaderState

variable (c : Constants) (s : State)

def isReader (r : Int) : Prop := 1 ≤ r ∧ r ≤ c.numReaders

instance (r : Int) : Decidable (isReader c r) := inferInstanceAs (Decidable (_ ∧ _))

def slotIndex (seq : Int) : Int := seq % c.ringSize + 1

def init : State where
  slots _ := ⟨0, -1⟩
  cursor := -1
  writerPC := .idle
  writerSeq := 0
  readers _ := ⟨.idle, 0, 0, -1, 0, -1⟩

namespace State

def setSlot (i : Int) (x : SlotState) : State := { s with slots := Function.update s.slots i x }

def setReader (r : Int) (x : ReaderState) : State := { s with readers := Function.update s.readers r x }

end State

/-! ## The writer -/

def writerBegin : Option State :=
  let idx := slotIndex c s.writerSeq
  if s.writerPC = .idle ∧ s.writerSeq ≤ c.maxSeq then
    some { s.setSlot idx { s.slots idx with stamp := s.writerSeq * 2 + 1 } with writerPC := .stamped }
  else none

def writerData : Option State :=
  let idx := slotIndex c s.writerSeq
  if s.writerPC = .stamped ∧ (s.slots idx).stamp = s.writerSeq * 2 + 1 then
    some { s.setSlot idx { s.slots idx with value := s.writerSeq } with writerPC := .written }
  else none

def writerFinish : Option State :=
  let idx := slotIndex c s.writerSeq
  if s.writerPC = .written ∧ (s.slots idx).stamp = s.writerSeq * 2 + 1 then
    some { s.setSlot idx { s.slots idx with stamp := s.writerSeq * 2 + 2 } with
      cursor := s.writerSeq
      writerSeq := s.writerSeq + 1
      writerPC := .idle }
  else none

/-! ## The readers -/

variable (r : Int)

def readerLoadStamp1 : Option State :=
  let x := s.readers r
  if x.pc = .idle then
    some (s.setReader r { x with pc := .stamp1, stamp1 := (s.slots (slotIndex c x.cursor)).stamp })
  else none

def readerLoadValue : Option State :=
  let x := s.readers r
  if x.pc = .stamp1 ∧ x.stamp1 % 2 = 0 ∧ x.stamp1 = x.cursor * 2 + 2 then
    some (s.setReader r { x with pc := .reading, value := (s.slots (slotIndex c x.cursor)).value })
  else none

def readerRetryOdd : Option State :=
  let x := s.readers r
  if x.pc = .stamp1 ∧ x.stamp1 % 2 = 1 then some (s.setReader r { x with pc := .idle }) else none

/-- The oldest message that a reader which lags skips to. -/
def oldest : Int := if s.cursor ≥ c.ringSize then s.cursor - c.ringSize + 1 else 0

def readerStampMismatch : Option State :=
  let x := s.readers r
  if x.pc = .stamp1 ∧ x.stamp1 % 2 = 0 ∧ x.stamp1 ≠ x.cursor * 2 + 2 then
    if x.stamp1 > x.cursor * 2 + 2 then
      some (s.setReader r { x with
        pc := .idle
        cursor := if x.cursor < oldest c s then oldest c s else x.cursor })
    else some (s.setReader r { x with pc := .idle })
  else none

def readerVerify : Option State :=
  let x := s.readers r
  let stamp2 := (s.slots (slotIndex c x.cursor)).stamp
  if x.pc = .reading then
    if x.stamp1 = stamp2 then
      some (s.setReader r { x with pc := .idle, stamp2 := stamp2, result := x.value, cursor := x.cursor + 1 })
    else some (s.setReader r { x with pc := .idle, stamp2 := stamp2 })
  else none

/-! ## Steps and properties -/

inductive Action where
  | writerBegin
  | writerData
  | writerFinish
  | readerLoadStamp1 (r : Int)
  | readerLoadValue (r : Int)
  | readerRetryOdd (r : Int)
  | readerStampMismatch (r : Int)
  | readerVerify (r : Int)

namespace Action

/-- The reader that acts. -/
def reader : Action → Option Int
  | writerBegin => none
  | writerData => none
  | writerFinish => none
  | readerLoadStamp1 r => some r
  | readerLoadValue r => some r
  | readerRetryOdd r => some r
  | readerStampMismatch r => some r
  | readerVerify r => some r

/-- The formula of the action. -/
def fire : Action → Option State
  | writerBegin => Verification.writerBegin c s
  | writerData => Verification.writerData c s
  | writerFinish => Verification.writerFinish c s
  | readerLoadStamp1 r => Verification.readerLoadStamp1 c s r
  | readerLoadValue r => Verification.readerLoadValue c s r
  | readerRetryOdd r => Verification.readerRetryOdd s r
  | readerStampMismatch r => Verification.readerStampMismatch c s r
  | readerVerify r => Verification.readerVerify c s r

end Action

def step (a : Action) : Option State := if ∀ r ∈ a.reader, isReader c r then a.fire c s else none

def Next (s' : State) : Prop := ∃ a, step c s a = some s'

def NoTornRead : Prop :=
  ∀ r, isReader c r → (s.readers r).result ≠ -1 → (s.readers r).result = (s.readers r).cursor - 1

def ResultIsValid : Prop :=
  ∀ r, isReader c r → (s.readers r).result ≠ -1 → 0 ≤ (s.readers r).result ∧ (s.readers r).result ≤ c.maxSeq

/-! ## What a step does -/

section Moves

variable {c : Constants} {s s' : State} {a : Action}

inductive WriterMoves (c : Constants) (s : State) : State → Prop where
  | begin (hpc : s.writerPC = .idle) (hle : s.writerSeq ≤ c.maxSeq) :
      WriterMoves c s { s.setSlot (slotIndex c s.writerSeq)
        { s.slots (slotIndex c s.writerSeq) with stamp := s.writerSeq * 2 + 1 } with writerPC := .stamped }
  | data (hpc : s.writerPC = .stamped) :
      WriterMoves c s { s.setSlot (slotIndex c s.writerSeq)
        { s.slots (slotIndex c s.writerSeq) with value := s.writerSeq } with writerPC := .written }
  | finish (hpc : s.writerPC = .written) :
      WriterMoves c s { s.setSlot (slotIndex c s.writerSeq)
        { s.slots (slotIndex c s.writerSeq) with stamp := s.writerSeq * 2 + 2 } with
        cursor := s.writerSeq, writerSeq := s.writerSeq + 1, writerPC := .idle }

inductive ReaderMoves (c : Constants) (s : State) (x : ReaderState) : ReaderState → Prop where
  | load (hpc : x.pc = .idle) :
      ReaderMoves c s x { x with pc := .stamp1, stamp1 := (s.slots (slotIndex c x.cursor)).stamp }
  | value (hpc : x.pc = .stamp1) (hst : x.stamp1 = x.cursor * 2 + 2) :
      ReaderMoves c s x { x with pc := .reading, value := (s.slots (slotIndex c x.cursor)).value }
  | retry (hpc : x.pc = .stamp1) (hodd : x.stamp1 % 2 = 1) : ReaderMoves c s x { x with pc := .idle }
  | lagged (hpc : x.pc = .stamp1) (heven : x.stamp1 % 2 = 0) (hst : x.cursor * 2 + 2 < x.stamp1) :
      ReaderMoves c s x { x with pc := .idle, cursor := max x.cursor (oldest c s) }
  | early (hpc : x.pc = .stamp1) (heven : x.stamp1 % 2 = 0) (hst : x.stamp1 < x.cursor * 2 + 2) :
      ReaderMoves c s x { x with pc := .idle }
  | commit (hpc : x.pc = .reading) (hst : x.stamp1 = (s.slots (slotIndex c x.cursor)).stamp) :
      ReaderMoves c s x { x with
        pc := .idle, stamp2 := (s.slots (slotIndex c x.cursor)).stamp, result := x.value, cursor := x.cursor + 1 }
  | torn (hpc : x.pc = .reading) (hst : x.stamp1 ≠ (s.slots (slotIndex c x.cursor)).stamp) :
      ReaderMoves c s x { x with pc := .idle, stamp2 := (s.slots (slotIndex c x.cursor)).stamp }

theorem step_writer (h : step c s a = some s') (ha : a.reader = none) : WriterMoves c s s' := by
  obtain ⟨_, h⟩ := Option.ite_none_right_eq_some.mp h
  cases a with
  | writerBegin =>
    obtain ⟨⟨hpc, hle⟩, h⟩ := Option.ite_none_right_eq_some.mp h
    cases h
    exact .begin hpc hle
  | writerData =>
    obtain ⟨⟨hpc, _⟩, h⟩ := Option.ite_none_right_eq_some.mp h
    cases h
    exact .data hpc
  | writerFinish =>
    obtain ⟨⟨hpc, _⟩, h⟩ := Option.ite_none_right_eq_some.mp h
    cases h
    exact .finish hpc
  | _ => cases ha

theorem step_reader {r : Int} (h : step c s a = some s') (ha : a.reader = some r) :
    isReader c r ∧ ∃ x, s' = s.setReader r x ∧ ReaderMoves c s (s.readers r) x := by
  obtain ⟨hr, h⟩ := Option.ite_none_right_eq_some.mp h
  refine ⟨hr r ha, ?_⟩
  cases a with
  | readerLoadStamp1 r =>
    cases ha
    obtain ⟨hpc, h⟩ := Option.ite_none_right_eq_some.mp h
    cases h
    exact ⟨_, rfl, .load hpc⟩
  | readerLoadValue r =>
    cases ha
    obtain ⟨⟨hpc, _, hst⟩, h⟩ := Option.ite_none_right_eq_some.mp h
    cases h
    exact ⟨_, rfl, .value hpc hst⟩
  | readerRetryOdd r =>
    cases ha
    obtain ⟨⟨hpc, hodd⟩, h⟩ := Option.ite_none_right_eq_some.mp h
    cases h
    exact ⟨_, rfl, .retry hpc hodd⟩
  | readerStampMismatch r =>
    cases ha
    obtain ⟨⟨hpc, heven, hne⟩, h⟩ := Option.ite_none_right_eq_some.mp h
    split_ifs at h with hgt hold
    · cases h
      refine ⟨_, rfl, ?_⟩
      rw [← max_eq_right (le_of_lt hold)]
      exact .lagged hpc heven hgt
    · cases h
      refine ⟨_, rfl, ?_⟩
      rw [← max_eq_left (not_lt.mp hold)]
      exact .lagged hpc heven hgt
    · cases h
      exact ⟨_, rfl, .early hpc heven (lt_of_le_of_ne (not_lt.mp hgt) hne)⟩
  | readerVerify r =>
    cases ha
    obtain ⟨hpc, h⟩ := Option.ite_none_right_eq_some.mp h
    split_ifs at h with hst
    · cases h
      exact ⟨_, rfl, .commit hpc hst⟩
    · cases h
      exact ⟨_, rfl, .torn hpc hst⟩
  | _ => cases ha

end Moves

/-! ## Slots and laps -/

section Laps

variable {c : Constants}

theorem slotIndex_ne {a b : Int} (hlt : a < b) (hb : b < a + c.ringSize) : slotIndex c a ≠ slotIndex c b := by
  intro h
  unfold slotIndex at h
  have hmod : (b - a) % c.ringSize = 0 := Int.emod_eq_emod_iff_emod_sub_eq_zero.mp (by omega)
  rw [Int.emod_eq_of_lt (by omega) (by omega)] at hmod
  omega

/-- Of any ring's length of consecutive sequences, one uses the slot of `q`. -/
theorem exists_same_slot (lo q : Int) :
    ∃ p, lo ≤ p ∧ p < lo + c.ringSize ∧ slotIndex c p = slotIndex c q ∧ (q < lo → q < p) := by
  have hR := c.two_le
  have h0 := Int.emod_nonneg (q - lo) (by omega : c.ringSize ≠ 0)
  have h1 := Int.emod_lt_of_pos (q - lo) (by omega : 0 < c.ringSize)
  refine ⟨lo + (q - lo) % c.ringSize, by omega, by omega, ?_, by omega⟩
  unfold slotIndex
  rw [Int.add_emod_emod, add_sub_cancel]

end Laps

/-! ## The invariant -/

section Invariant

variable {c : Constants} {s s' : State} {a : Action}

/-- What a stamp says of the value beside it. -/
structure SlotInv (seq : Int) (x : SlotState) : Prop where
  even : x.stamp % 2 = 0 → x.stamp = 0 ∨ ∃ q, 0 ≤ q ∧ q < seq ∧ x = ⟨q * 2 + 2, q⟩
  stamp_le : x.stamp ≤ seq * 2 + 1
  stamp_nonneg : 0 ≤ x.stamp

structure WriterInv (c : Constants) (s : State) : Prop where
  seq_nonneg : 0 ≤ s.writerSeq
  seq_le : s.writerSeq ≤ c.maxSeq + 1
  cursor : s.cursor = s.writerSeq - 1
  begun : s.writerPC ≠ .idle → s.writerSeq ≤ c.maxSeq ∧ (s.slots (slotIndex c s.writerSeq)).stamp = s.writerSeq * 2 + 1
  written : s.writerPC = .written → (s.slots (slotIndex c s.writerSeq)).value = s.writerSeq
  held : ∀ q, 0 ≤ q → q < s.writerSeq → s.writerSeq ≤ q + c.ringSize →
    (s.writerPC ≠ .idle → s.writerSeq ≠ q + c.ringSize) → s.slots (slotIndex c q) = ⟨q * 2 + 2, q⟩
  slots : ∀ i, SlotInv s.writerSeq (s.slots i)

/-- A reader that has seen its stamp in slot `x` finds it there or finds a later one, and
the value it then loads is the right one unless the stamp has changed. -/
structure ReaderInv (c : Constants) (s : State) (x : ReaderState) : Prop where
  cursor_nonneg : 0 ≤ x.cursor
  cursor_le : x.cursor ≤ s.writerSeq
  seen : x.pc = .reading ∨ x.pc = .stamp1 ∧ x.stamp1 = x.cursor * 2 + 2 →
    x.cursor < s.writerSeq ∧ x.cursor * 2 + 2 ≤ (s.slots (slotIndex c x.cursor)).stamp
  stamp1 : x.pc = .reading → x.stamp1 = x.cursor * 2 + 2
  value : x.pc = .reading → (s.slots (slotIndex c x.cursor)).stamp = x.cursor * 2 + 2 → x.value = x.cursor
  result : x.result ≠ -1 → 0 ≤ x.result ∧ x.result < x.cursor
  unread : x.result = -1 → x.cursor = 0 ∨ c.ringSize ≤ s.cursor ∧ x.cursor < s.writerSeq

structure Inv (c : Constants) (s : State) : Prop where
  writer : WriterInv c s
  readers : ∀ r, ReaderInv c s (s.readers r)

theorem inv_init : Inv c init where
  writer := by
    have hmax := c.maxSeq_pos
    refine ⟨le_refl _, ?_, rfl, fun h => absurd rfl h, fun h => (by cases h), fun q h0 hq => ?_,
      fun _ => ⟨fun _ => Or.inl rfl, Int.zero_le_ofNat 1, le_refl _⟩⟩
    · change 0 ≤ c.maxSeq + 1
      omega
    · change q < 0 at hq
      omega
  readers _ := by
    refine ⟨le_refl _, le_refl _, fun h => ?_, fun h => (by cases h), fun h => (by cases h), fun h => absurd rfl h,
      fun _ => Or.inl rfl⟩
    rcases h with h | ⟨h, _⟩ <;> cases h

@[simp] theorem setSlot_self (i : Int) (x : SlotState) : (s.setSlot i x).slots i = x := Function.update_self ..

theorem setSlot_ne {i j : Int} (x : SlotState) (h : j ≠ i) : (s.setSlot i x).slots j = s.slots j :=
  Function.update_of_ne h ..

/-- Stamps only grow, and the writer touches one slot. -/
structure Grows (c : Constants) (s s' : State) : Prop where
  seq : s.writerSeq ≤ s'.writerSeq
  cursor : s.cursor ≤ s'.cursor
  readers : s'.readers = s.readers
  slots : ∀ i, s'.slots i = s.slots i ∨ s.writerSeq * 2 + 1 ≤ (s'.slots i).stamp

theorem writer_grows (h : WriterInv c s) (hm : WriterMoves c s s') : Grows c s s' := by
  have hcur := h.cursor
  have hslot {t : State} {x : SlotState} (ht : t.slots = (s.setSlot (slotIndex c s.writerSeq) x).slots)
      (hx : s.writerSeq * 2 + 1 ≤ x.stamp) (i : Int) :
      t.slots i = s.slots i ∨ s.writerSeq * 2 + 1 ≤ (t.slots i).stamp := by
    rw [ht]
    by_cases hi : i = slotIndex c s.writerSeq
    · subst hi
      exact Or.inr (by simpa using hx)
    · exact Or.inl (setSlot_ne _ hi)
  cases hm with
  | begin hpc hle => exact ⟨le_refl _, le_refl _, rfl, hslot rfl (le_refl _)⟩
  | data hpc => exact ⟨le_refl _, le_refl _, rfl, hslot rfl (h.begun (by simp [hpc])).2.ge⟩
  | finish hpc => exact ⟨by simp, by change _ ≤ s.writerSeq; omega, rfl, hslot rfl (by simp)⟩

theorem SlotInv.succ {seq : Int} {x : SlotState} (h : SlotInv seq x) : SlotInv (seq + 1) x := by
  refine ⟨fun he => ?_, by have := h.stamp_le; omega, h.stamp_nonneg⟩
  rcases h.even he with hz | ⟨q, hq, hlt, he⟩
  · exact Or.inl hz
  · exact Or.inr ⟨q, hq, by omega, he⟩

theorem SlotInv.writing {seq : Int} (h : 0 ≤ seq) (value : Int) : SlotInv seq ⟨seq * 2 + 1, value⟩ :=
  ⟨fun he => by dsimp only at he; omega, le_refl _, by dsimp only; omega⟩

theorem SlotInv.done {seq : Int} (h : 0 ≤ seq) : SlotInv (seq + 1) ⟨seq * 2 + 2, seq⟩ :=
  ⟨fun _ => Or.inr ⟨seq, h, by omega, rfl⟩, by dsimp only; omega, by dsimp only; omega⟩

theorem writer_inv (h : WriterInv c s) (hm : WriterMoves c s s') : WriterInv c s' := by
  have h0 := h.seq_nonneg
  have hother {q : Int} {x : SlotState} (hlt : q < s.writerSeq) (hlap : s.writerSeq < q + c.ringSize) :
      (s.setSlot (slotIndex c s.writerSeq) x).slots (slotIndex c q) = s.slots (slotIndex c q) :=
    setSlot_ne x (slotIndex_ne hlt hlap)
  cases hm with
  | begin hpc hle =>
    refine ⟨h0, h.seq_le, h.cursor, fun _ => ⟨hle, congrArg SlotState.stamp (setSlot_self ..)⟩,
      fun hw => (by cases hw), fun q hq hlt hlap hne => ?_,
      (Function.forall_update_iff s.slots fun _ => SlotInv s.writerSeq).mpr ⟨.writing h0 _, fun i _ => h.slots i⟩⟩
    exact (hother hlt (lt_of_le_of_ne hlap (hne (by simp)))).trans (h.held q hq hlt hlap fun hn => absurd hpc hn)
  | data hpc =>
    obtain ⟨hle, hst⟩ := h.begun (by rw [hpc]; simp)
    have hnew : ({ s.slots (slotIndex c s.writerSeq) with value := s.writerSeq } : SlotState)
        = ⟨s.writerSeq * 2 + 1, s.writerSeq⟩ := congrArg (SlotState.mk · s.writerSeq) hst
    refine ⟨h0, h.seq_le, h.cursor, fun _ => ⟨hle, ?_⟩, fun _ => congrArg SlotState.value (setSlot_self ..),
      fun q hq hlt hlap hne => ?_, (Function.forall_update_iff s.slots fun _ => SlotInv s.writerSeq).mpr
        ⟨by rw [hnew]; exact .writing h0 _, fun i _ => h.slots i⟩⟩
    · exact (congrArg SlotState.stamp (setSlot_self ..)).trans hst
    · have hne' := hne (by simp)
      exact (hother hlt (lt_of_le_of_ne hlap hne')).trans (h.held q hq hlt hlap fun _ => hne')
  | finish hpc =>
    obtain ⟨hle, hst⟩ := h.begun (by rw [hpc]; simp)
    have hnew : ({ s.slots (slotIndex c s.writerSeq) with stamp := s.writerSeq * 2 + 2 } : SlotState)
        = ⟨s.writerSeq * 2 + 2, s.writerSeq⟩ := congrArg (SlotState.mk (s.writerSeq * 2 + 2)) (h.written hpc)
    refine ⟨by dsimp only; omega, by dsimp only; omega, by dsimp only; omega, fun hn => absurd rfl hn,
      fun hw => (by cases hw), fun q hq hlt hlap _ => ?_,
      (Function.forall_update_iff s.slots fun _ => SlotInv (s.writerSeq + 1)).mpr
        ⟨by rw [hnew]; exact .done h0, fun i _ => (h.slots i).succ⟩⟩
    dsimp only at hlt hlap
    by_cases hqw : q = s.writerSeq
    · subst hqw
      exact (setSlot_self ..).trans hnew
    · exact (hother (by omega) (by omega)).trans (h.held q hq (by omega) (by omega) fun _ => by omega)

/-- The writer's step keeps what a reader has seen. -/
theorem ReaderInv.grows {x : ReaderState} (h : ReaderInv c s x) (hg : Grows c s s') : ReaderInv c s' x := by
  obtain ⟨hseq, hcur, _, hslots⟩ := hg
  refine ⟨h.cursor_nonneg, h.cursor_le.trans hseq, fun hp => ?_, h.stamp1, fun hp hst => ?_, h.result, fun hu => ?_⟩
  · obtain ⟨hlt, hle⟩ := h.seen hp
    refine ⟨by omega, ?_⟩
    rcases hslots (slotIndex c x.cursor) with he | he
    · rwa [he]
    · omega
  · obtain ⟨hlt, hle⟩ := h.seen (Or.inl hp)
    rcases hslots (slotIndex c x.cursor) with he | he
    · exact h.value hp (by rw [← he]; exact hst)
    · omega
  · rcases h.unread hu with h0 | ⟨hR, hlt⟩
    · exact Or.inl h0
    · exact Or.inr ⟨by omega, by omega⟩

theorem oldest_le (h : WriterInv c s) : oldest c s ≤ s.writerSeq := by
  have := h.cursor
  have := h.seq_nonneg
  have := c.two_le
  unfold oldest
  split_ifs <;> omega

/-- A slot whose stamp is that of `q` holds `q`. -/
theorem WriterInv.value_of_stamp {i q : Int} (h : WriterInv c s) (h0 : 0 ≤ q) (hst : (s.slots i).stamp = q * 2 + 2) :
    q < s.writerSeq ∧ (s.slots i).value = q := by
  rcases (h.slots i).even (by omega) with hz | ⟨p, _, hlt, he⟩
  · omega
  · rw [he] at hst ⊢
    dsimp only at hst ⊢
    omega

theorem reader_inv {x x' : ReaderState} (hw : WriterInv c s) (h : ReaderInv c s x) (hm : ReaderMoves c s x x') :
    ReaderInv c s x' := by
  have hold := oldest_le hw
  have h0 := h.cursor_nonneg
  cases hm with
  | load hpc =>
    refine ⟨h0, h.cursor_le, fun hp => ?_, fun hp => (by cases hp), fun hp => (by cases hp), h.result, h.unread⟩
    obtain ⟨_, hst⟩ := hp.resolve_left (by simp)
    exact ⟨(hw.value_of_stamp h0 hst).1, hst.ge⟩
  | value hpc hst =>
    exact ⟨h0, h.cursor_le, fun _ => h.seen (Or.inr ⟨hpc, hst⟩), fun _ => hst,
      fun _ hst' => (hw.value_of_stamp h0 hst').2, h.result, h.unread⟩
  | retry hpc hodd =>
    exact ⟨h0, h.cursor_le, fun hp => absurd hp (by simp), fun hp => (by cases hp), fun hp => (by cases hp),
      h.result, h.unread⟩
  | early hpc heven hst =>
    exact ⟨h0, h.cursor_le, fun hp => absurd hp (by simp), fun hp => (by cases hp), fun hp => (by cases hp),
      h.result, h.unread⟩
  | torn hpc hst =>
    exact ⟨h0, h.cursor_le, fun hp => absurd hp (by simp), fun hp => (by cases hp), fun hp => (by cases hp),
      h.result, h.unread⟩
  | lagged hpc heven hst =>
    refine ⟨le_max_of_le_left h0, max_le h.cursor_le hold, fun hp => absurd hp (by simp), fun hp => (by cases hp),
      fun hp => (by cases hp), fun hr => ?_, fun hu => ?_⟩
    · obtain ⟨hr0, hlt⟩ := h.result hr
      exact ⟨hr0, lt_max_of_lt_left hlt⟩
    · have hcur := hw.cursor
      have hR := c.two_le
      dsimp only at hu ⊢
      unfold oldest
      rcases h.unread hu with hz | ⟨hc, hlt⟩
      · split_ifs <;> omega
      · rw [if_pos hc]
        omega
  | commit hpc hst =>
    have hstamp := h.stamp1 hpc
    have hval := h.value hpc (by rw [← hst]; exact hstamp)
    obtain ⟨hlt, _⟩ := h.seen (Or.inl hpc)
    refine ⟨by dsimp only; omega, by dsimp only; omega, fun hp => absurd hp (by simp), fun hp => (by cases hp),
      fun hp => (by cases hp), fun _ => ?_, fun hu => ?_⟩
    · dsimp only
      omega
    · dsimp only at hu
      omega

@[simp] theorem setReader_self (r : Int) (x : ReaderState) : (s.setReader r x).readers r = x :=
  Function.update_self ..

theorem setReader_ne {r q : Int} (x : ReaderState) (h : q ≠ r) : (s.setReader r x).readers q = s.readers q :=
  Function.update_of_ne h ..

@[simp] theorem setReader_slots (r : Int) (x : ReaderState) : (s.setReader r x).slots = s.slots := rfl

@[simp] theorem setReader_setReader (r : Int) (x y : ReaderState) :
    (s.setReader r x).setReader r y = s.setReader r y := by
  simp [State.setReader]

theorem WriterInv.setReader (h : WriterInv c s) (r : Int) (x : ReaderState) : WriterInv c (s.setReader r x) :=
  ⟨h.seq_nonneg, h.seq_le, h.cursor, h.begun, h.written, h.held, h.slots⟩

theorem ReaderInv.setReader {y : ReaderState} (h : ReaderInv c s y) (r : Int) (x : ReaderState) :
    ReaderInv c (s.setReader r x) y :=
  ⟨h.cursor_nonneg, h.cursor_le, h.seen, h.stamp1, h.value, h.result, h.unread⟩

theorem step_inv (h : Inv c s) (hs : step c s a = some s') : Inv c s' := by
  cases ha : a.reader with
  | none =>
    have hm := step_writer hs ha
    have hg := writer_grows h.writer hm
    refine ⟨writer_inv h.writer hm, fun r => ?_⟩
    rw [hg.readers]
    exact (h.readers r).grows hg
  | some r =>
    obtain ⟨_, x, rfl, hm⟩ := step_reader hs ha
    refine ⟨h.writer.setReader r x, (Function.forall_update_iff s.readers
      fun _ y => ReaderInv c (s.setReader r x) y).mpr ⟨?_, fun q _ => (h.readers q).setReader r x⟩⟩
    exact (reader_inv h.writer (h.readers r) hm).setReader r x

theorem reach_inv (h : Reachable (step c) init s) : Inv c s :=
  h.invariant inv_init fun _ _ _ _ hs hi => step_inv hi hs

end Invariant

/-! ## Safety -/

section Safety

variable {c : Constants} {s s' : State}

theorem result_is_valid (h : Reachable (step c) init s) : ResultIsValid c s := by
  intro r _ hr
  have hi := reach_inv h
  have hx := hi.readers r
  obtain ⟨h0, hlt⟩ := hx.result hr
  have := hx.cursor_le
  have := hi.writer.seq_le
  exact ⟨h0, by omega⟩

/-- A reader commits what it came for, and nothing else changes its result. -/
theorem result_moves {r : Int} {a : Action} (h : Inv c s) (hs : step c s a = some s') :
    ((s'.readers r).result = (s.readers r).result ∧
      ((s'.readers r).cursor = (s.readers r).cursor ∨ (s'.readers r).cursor = max (s.readers r).cursor (oldest c s))) ∨
    ((s'.readers r).result = (s.readers r).cursor ∧ (s'.readers r).cursor = (s.readers r).cursor + 1 ∧
      (s.readers r).cursor ≤ s.cursor) := by
  cases ha : a.reader with
  | none =>
    rw [(writer_grows h.writer (step_writer hs ha)).readers]
    exact Or.inl ⟨rfl, Or.inl rfl⟩
  | some q =>
    obtain ⟨_, x, rfl, hm⟩ := step_reader hs ha
    by_cases hq : r = q
    · subst hq
      rw [setReader_self]
      have hx := h.readers r
      cases hm with
      | commit hpc hst =>
        have hval := hx.value hpc (by rw [← hst]; exact hx.stamp1 hpc)
        have := (hx.seen (Or.inl hpc)).1
        have := h.writer.cursor
        exact Or.inr ⟨hval, rfl, by omega⟩
      | lagged => exact Or.inl ⟨rfl, Or.inr rfl⟩
      | _ => exact Or.inl ⟨rfl, Or.inl rfl⟩
    · rw [setReader_ne x hq]
      exact Or.inl ⟨rfl, Or.inl rfl⟩

theorem step_of_fire {a : Action} (hr : ∀ r ∈ a.reader, isReader c r) (h : a.fire c s = some s') :
    step c s a = some s' := (if_pos hr).trans h

/-- The odd stamp and the value. -/
theorem write_one (hpc : s.writerPC = .idle) (hle : s.writerSeq ≤ c.maxSeq) :
    Reachable (step c) s
      { s.setSlot (slotIndex c s.writerSeq) ⟨s.writerSeq * 2 + 1, s.writerSeq⟩ with writerPC := .written } := by
  have hbegin : step c s .writerBegin = _ :=
    step_of_fire (a := .writerBegin) (by simp [Action.reader]) (if_pos ⟨hpc, hle⟩)
  refine (Reachable.start.next hbegin).next (a := .writerData) (step_of_fire (by simp [Action.reader]) ?_)
  simp only [Action.fire, writerData, State.setSlot, Function.update_self, and_self, ↓reduceIte, Function.update_idem]

/-- The even stamp and the cursor. -/
theorem finish_one (hpc : s.writerPC = .written)
    (hslot : s.slots (slotIndex c s.writerSeq) = ⟨s.writerSeq * 2 + 1, s.writerSeq⟩) :
    step c s .writerFinish = some { s.setSlot (slotIndex c s.writerSeq) ⟨s.writerSeq * 2 + 2, s.writerSeq⟩ with
      cursor := s.writerSeq, writerSeq := s.writerSeq + 1, writerPC := .idle } :=
  step_of_fire (by simp [Action.reader]) (by simp only [Action.fire, writerFinish, hpc, hslot, and_self, ↓reduceIte])

theorem publish_one (hpc : s.writerPC = .idle) (hle : s.writerSeq ≤ c.maxSeq) :
    ∃ s', Reachable (step c) s s' ∧ s'.writerPC = .idle ∧ s'.writerSeq = s.writerSeq + 1 ∧ s'.readers = s.readers :=
  ⟨_, (write_one hpc hle).next (finish_one rfl (setSlot_self ..)), rfl, rfl, rfl⟩

/-- The writer publishes `k` messages while the readers rest. -/
theorem publish_many (k : Nat) (hpc : s.writerPC = .idle) (hle : s.writerSeq + k ≤ c.maxSeq + 1) :
    ∃ s', Reachable (step c) s s' ∧ s'.writerPC = .idle ∧ s'.writerSeq = s.writerSeq + k ∧
      s'.readers = s.readers := by
  induction k with
  | zero => exact ⟨s, .start, hpc, by simp, rfl⟩
  | succ k ih =>
    obtain ⟨t, ht, htpc, hseq, hreaders⟩ := ih (by omega)
    obtain ⟨u, hu, hupc, hseq', hreaders'⟩ := publish_one (c := c) htpc (by omega)
    exact ⟨u, ht.trans hu, hupc, by omega, hreaders'.trans hreaders⟩

theorem ReaderMoves.setReader {x x' : ReaderState} (h : ReaderMoves c s x x') (r : Int) (y : ReaderState) :
    ReaderMoves c (s.setReader r y) x x' := by
  cases h with
  | load hpc => exact .load hpc
  | value hpc hst => exact .value hpc hst
  | retry hpc hodd => exact .retry hpc hodd
  | lagged hpc heven hst => exact .lagged hpc heven hst
  | early hpc heven hst => exact .early hpc heven hst
  | commit hpc hst => exact .commit hpc hst
  | torn hpc hst => exact .torn hpc hst

/-- Each move of a reader is the step of one of its actions. -/
theorem reader_fires {r : Int} {x : ReaderState} (hr : isReader c r) (h : ReaderMoves c s (s.readers r) x) :
    ∃ a : Action, a.reader = some r ∧ step c s a = some (s.setReader r x) := by
  have hall {a : Action} (ha : a.reader = some r) : ∀ q ∈ a.reader, isReader c q := by simpa [ha] using hr
  cases h with
  | load hpc => exact ⟨.readerLoadStamp1 r, rfl, step_of_fire (hall rfl) (if_pos hpc)⟩
  | value hpc hst =>
    exact ⟨.readerLoadValue r, rfl, step_of_fire (hall rfl) (if_pos ⟨hpc, by omega, hst⟩)⟩
  | retry hpc hodd => exact ⟨.readerRetryOdd r, rfl, step_of_fire (hall rfl) (if_pos ⟨hpc, hodd⟩)⟩
  | lagged hpc heven hst =>
    refine ⟨.readerStampMismatch r, rfl, step_of_fire (hall rfl) ((if_pos ⟨hpc, heven, hst.ne'⟩).trans ?_)⟩
    rw [if_pos hst]
    split_ifs with hold
    · rw [max_eq_right hold.le]
    · rw [max_eq_left (not_lt.mp hold)]
  | early hpc heven hst =>
    exact ⟨.readerStampMismatch r, rfl, step_of_fire (hall rfl) ((if_pos ⟨hpc, heven, hst.ne⟩).trans
      (if_neg hst.asymm))⟩
  | commit hpc hst => exact ⟨.readerVerify r, rfl, step_of_fire (hall rfl) ((if_pos hpc).trans (if_pos hst))⟩
  | torn hpc hst => exact ⟨.readerVerify r, rfl, step_of_fire (hall rfl) ((if_pos hpc).trans (if_neg hst))⟩

theorem reader_reach {r : Int} {x x' : ReaderState} (hr : isReader c r) (h : ReaderMoves c s x x') :
    Reachable (step c) (s.setReader r x) (s.setReader r x') := by
  obtain ⟨a, _, ha⟩ := reader_fires (s := s.setReader r x) hr (by
    rw [setReader_self]
    exact h.setReader r x)
  rw [setReader_setReader] at ha
  exact Reachable.start.next ha

theorem setReader_same (r : Int) : s.setReader r (s.readers r) = s := by
  simp [State.setReader]

/-- A reader that comes to a slot with its message takes three steps to commit it. -/
theorem read_one {r : Int} (hr : isReader c r) (hpc : (s.readers r).pc = .idle)
    (hslot : s.slots (slotIndex c (s.readers r).cursor)
      = ⟨(s.readers r).cursor * 2 + 2, (s.readers r).cursor⟩) :
    ∃ x, Reachable (step c) s (s.setReader r x) ∧ x.pc = .idle ∧ x.cursor = (s.readers r).cursor + 1 ∧
      x.result = (s.readers r).cursor := by
  have hst := congrArg SlotState.stamp hslot
  have h₁ := reader_reach hr (.load (c := c) (s := s) hpc)
  have h₂ := reader_reach hr (.value (c := c) (s := s)
    (x := { s.readers r with pc := .stamp1, stamp1 := (s.slots (slotIndex c (s.readers r).cursor)).stamp }) rfl hst)
  have h₃ := reader_reach hr (.commit (c := c) (s := s)
    (x := { s.readers r with
      pc := .reading
      stamp1 := (s.slots (slotIndex c (s.readers r).cursor)).stamp
      value := (s.slots (slotIndex c (s.readers r).cursor)).value }) rfl rfl)
  rw [setReader_same] at h₁
  exact ⟨_, (h₁.trans h₂).trans h₃, rfl, rfl, congrArg SlotState.value hslot⟩

/-- A reader that comes to a slot with a later message takes two steps to skip. -/
theorem skip_one {r : Int} (hr : isReader c r) (hpc : (s.readers r).pc = .idle)
    (heven : (s.slots (slotIndex c (s.readers r).cursor)).stamp % 2 = 0)
    (hgt : (s.readers r).cursor * 2 + 2 < (s.slots (slotIndex c (s.readers r).cursor)).stamp) :
    ∃ x, Reachable (step c) s (s.setReader r x) ∧ x.cursor = max (s.readers r).cursor (oldest c s) ∧
      x.result = (s.readers r).result := by
  have h₁ := reader_reach hr (.load (c := c) (s := s) hpc)
  have h₂ := reader_reach hr (.lagged (c := c) (s := s)
    (x := { s.readers r with pc := .stamp1, stamp1 := (s.slots (slotIndex c (s.readers r).cursor)).stamp })
    rfl heven hgt)
  rw [setReader_same] at h₁
  exact ⟨_, h₁.trans h₂, rfl, rfl⟩

/-- A reader that has committed the first message and then lags skips, and its result stays. -/
theorem torn_after_skip (hlt : c.ringSize < c.maxSeq) : ∃ s, Reachable (step c) init s ∧ ¬ NoTornRead c s := by
  have hR := c.two_le
  have hr : isReader c 1 := ⟨le_refl _, c.numReaders_pos⟩
  obtain ⟨s₁, h₁, hpc₁, hseq₁, hreaders₁⟩ := publish_many (c := c) (s := init) 1 rfl (by
    change (0 : Int) + 1 ≤ c.maxSeq + 1
    omega)
  have hinit : s₁.readers 1 = ⟨.idle, 0, 0, -1, 0, -1⟩ := by rw [hreaders₁]; rfl
  have hseq₁' : s₁.writerSeq = 1 := hseq₁
  have hslot₁ := (reach_inv h₁).writer.held 0 (le_refl _) (by omega) (by omega) (fun hn => absurd hpc₁ hn)
  obtain ⟨x, h₂, hxpc, hxcur, hxres⟩ := read_one (s := s₁) hr (by rw [hinit]) (by rw [hinit]; exact hslot₁)
  rw [hinit] at hxcur hxres
  -- the next lap ends one message beyond the reader's
  have hfits : s₁.writerSeq + (c.ringSize + 1).toNat ≤ c.maxSeq + 1 := by omega
  obtain ⟨s₃, h₃, hpc₃, hseq₃, hreaders₃⟩ :=
    publish_many (c := c) (s := s₁.setReader 1 x) (c.ringSize + 1).toNat hpc₁ hfits
  have hseq₃' : s₃.writerSeq = c.ringSize + 2 := by
    have : (s₁.setReader 1 x).writerSeq = s₁.writerSeq := rfl
    omega
  have hi₃ := (reach_inv ((h₁.trans h₂).trans h₃)).writer
  have hx₃ : s₃.readers 1 = x := by rw [hreaders₃, setReader_self]
  have hslot₃ := hi₃.held (c.ringSize + 1) (by omega) (by omega) (by omega) (fun hn => absurd hpc₃ hn)
  have hcur₃ : (s₃.readers 1).cursor = 1 := by rw [hx₃, hxcur]; rfl
  have hst₃ : (s₃.slots (slotIndex c (s₃.readers 1).cursor)).stamp = (c.ringSize + 1) * 2 + 2 := by
    have hsame : slotIndex c (c.ringSize + 1) = slotIndex c 1 := by simp [slotIndex]
    rw [hcur₃, ← hsame]
    exact congrArg SlotState.stamp hslot₃
  have hold : oldest c s₃ = 2 := by
    have := hi₃.cursor
    unfold oldest
    rw [if_pos (by omega)]
    omega
  obtain ⟨y, h₄, hycur, hyres⟩ := skip_one (s := s₃) hr (by rw [hx₃, hxpc]) (by omega) (by omega)
  refine ⟨_, ((h₁.trans h₂).trans h₃).trans h₄, fun hall => ?_⟩
  have := hall 1 hr
  rw [setReader_self, hyres, hycur, hx₃, hxres, hxcur, hold] at this
  exact absurd (this (by decide)) (by decide)

/-- With a ring no smaller than the last sequence, a reader that has committed never skips. -/
theorem noTornRead_of_le (hle : c.maxSeq ≤ c.ringSize) (h : Reachable (step c) init s) : NoTornRead c s := by
  refine h.invariant (fun _ _ hr => absurd rfl hr) fun s a s' hs ha hP r hr hres => ?_
  have hi := reach_inv hs
  rcases result_moves (r := r) hi ha with ⟨hsame, hcur⟩ | ⟨hnew, hcur, _⟩
  · rw [hsame] at hres ⊢
    have hprev := hP r hr hres
    obtain ⟨h0, hlt⟩ := (hi.readers r).result hres
    have := hi.writer.cursor
    have := hi.writer.seq_le
    have hold : oldest c s ≤ 1 := by
      unfold oldest
      split_ifs <;> omega
    rcases hcur with hcur | hcur
    · omega
    · rw [hcur, max_eq_left (by omega)]
      exact hprev
  · omega

/-- Every result that a reader commits is the sequence it asked for, of a message that was
published, and every result in every state is a sequence number. `NoTornRead` says more, that
the result is always the one before the reader's position: this is an invariant only of the
rings on which no reader can commit a message and then lag. -/
theorem no_torn_read_iff (c : Constants) :
    (∀ s s' a r, Reachable (step c) init s → step c s a = some s' →
      (s'.readers r).result ≠ (s.readers r).result →
        (s'.readers r).result = (s.readers r).cursor ∧ (s'.readers r).cursor = (s.readers r).cursor + 1 ∧
          (s.readers r).cursor ≤ s.cursor) ∧
    (∀ s, Reachable (step c) init s → ResultIsValid c s) ∧
    ((∀ s, Reachable (step c) init s → NoTornRead c s) ↔ c.maxSeq ≤ c.ringSize) := by
  refine ⟨fun s s' a r h hs hne => ?_, fun s h => result_is_valid h, fun hall => ?_,
    fun hle s h => noTornRead_of_le hle h⟩
  · rcases result_moves (r := r) (reach_inv h) hs with ⟨hsame, _⟩ | hcommit
    · exact absurd hsame hne
    · exact hcommit
  · by_contra hlt
    obtain ⟨s, hs, hnot⟩ := torn_after_skip (not_le.mp hlt)
    exact hnot (hall s hs)

end Safety

end PhotonRing.Verification
