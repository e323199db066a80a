import PhotonRing.Lib.Temporal
import PhotonRing.Verification.Seqlock

/-!
# Whether the readers of the specification progress

`FairSpec` asks for weak fairness of `Next` as a whole: somebody moves while somebody
can. That leaves a reader behind when others can move for ever, and a reader can wait
for ever for a write that is not taken further. Weak fairness of every process is enough.
-/
namespace PhotonRing.Verification

open Lib

variable {c : Constants} {s s' : State} {r : Int}

def Spec (c : Constants) (e : Nat → State) : Prop := e 0 = init ∧ Always (Next c) e

def FairSpec (c : Constants) (e : Nat → State) : Prop := Spec c e ∧ WeaklyFair (Next c) e

def ReaderProgress (c : Constants) (e : Nat → State) : Prop :=
  ∀ r, isReader c r → LeadsTo (fun s => s.cursor ≥ 0) (fun s => (s.readers r).result ≠ -1) e

/-- The writer (`none`) or a reader takes a step. -/
def Moves (c : Constants) (process : Option Int) (s s' : State) : Prop :=
  ∃ a : Action, a.reader = process ∧ step c s a = some s'

/-- Fair to each process, not to `Next` as a whole. -/
def ProcessFairSpec (c : Constants) (e : Nat → State) : Prop :=
  Spec c e ∧ WeaklyFair (Moves c none) e ∧ ∀ r, isReader c r → WeaklyFair (Moves c (some r)) e

theorem Spec.inv {e : Nat → State} (h : Spec c e) (k : Nat) : Inv c (e k) :=
  h.2.invariant (by rw [h.1]; exact inv_init) (fun _ _ hi ⟨_, hs⟩ => step_inv hi hs) k

/-! ## Who can move -/

theorem pc_changes {x x' : ReaderState} (h : ReaderMoves c s x x') : x'.pc ≠ x.pc := by
  cases h with
  | load hpc => simp [hpc]
  | value hpc => simp [hpc]
  | retry hpc => simp [hpc]
  | lagged hpc => simp [hpc]
  | early hpc => simp [hpc]
  | commit hpc => simp [hpc]
  | torn hpc => simp [hpc]

theorem step_changes {a : Action} (h : step c s a = some s') : s' ≠ s := by
  intro he
  subst he
  cases ha : a.reader with
  | none =>
    have hpc : ∀ t, WriterMoves c s' t → t.writerPC ≠ s'.writerPC := by
      intro t ht
      cases ht with
      | begin hpc => simp [hpc]
      | data hpc => simp [hpc]
      | finish hpc => simp [hpc]
    exact hpc _ (step_writer h ha) rfl
  | some r =>
    obtain ⟨_, x, he, hm⟩ := step_reader h ha
    have hx : (s'.readers r).pc = x.pc := by
      conv_lhs => rw [he]
      rw [setReader_self]
    exact pc_changes hm hx.symm

theorem moves_changes {process : Option Int} (h : Moves c process s s') : Changes (Moves c process) s s' := by
  obtain ⟨a, ha, hs⟩ := h
  exact ⟨⟨a, ha, hs⟩, step_changes hs⟩

theorem writer_enabled (h : WriterInv c s) (hle : s.writerSeq ≤ c.maxSeq) : ∃ s', Moves c none s s' := by
  have hnone {a : Action} (ha : a.reader = none) : ∀ r ∈ a.reader, isReader c r := by simp [ha]
  cases hpc : s.writerPC with
  | idle => exact ⟨_, .writerBegin, rfl, step_of_fire (hnone rfl) (if_pos ⟨hpc, hle⟩)⟩
  | stamped =>
    have hst := (h.begun (by rw [hpc]; simp)).2
    exact ⟨_, .writerData, rfl, step_of_fire (hnone rfl) (if_pos ⟨hpc, hst⟩)⟩
  | written =>
    have hst := (h.begun (by rw [hpc]; simp)).2
    exact ⟨_, .writerFinish, rfl, step_of_fire (hnone rfl) (if_pos ⟨hpc, hst⟩)⟩

theorem reader_enabled (hr : isReader c r) : ∃ s', Moves c (some r) s s' := by
  suffices h : ∃ x, ReaderMoves c s (s.readers r) x by
    obtain ⟨x, hx⟩ := h
    obtain ⟨a, ha, hs⟩ := reader_fires hr hx
    exact ⟨_, a, ha, hs⟩
  cases hpc : (s.readers r).pc with
  | idle => exact ⟨_, .load hpc⟩
  | stamp1 =>
    rcases Int.emod_two_eq_zero_or_one (s.readers r).stamp1 with heven | hodd
    · rcases lt_trichotomy (s.readers r).stamp1 ((s.readers r).cursor * 2 + 2) with hlt | heq | hgt
      · exact ⟨_, .early hpc heven hlt⟩
      · exact ⟨_, .value hpc heq⟩
      · exact ⟨_, .lagged hpc heven hgt⟩
    · exact ⟨_, .retry hpc hodd⟩
  | reading =>
    by_cases hst : (s.readers r).stamp1 = (s.slots (slotIndex c (s.readers r).cursor)).stamp
    · exact ⟨_, .commit hpc hst⟩
    · exact ⟨_, .torn hpc hst⟩

/-! ## The way of a reader to its first message -/

/-- How far a reader is from committing, when its slot has settled. A stamp it holds that is
not the slot's costs it another round, and so does a lag. -/
def distance (c : Constants) (s : State) (x : ReaderState) : Nat :=
  let current := (s.slots (slotIndex c x.cursor)).stamp
  (if x.cursor < oldest c s then 6 else 0) +
    match x.pc with
    | .idle => 3
    | .stamp1 => if x.stamp1 = current then 2 else 5
    | .reading => if x.stamp1 = current then 1 else 4

/-- The slot of the reader's position holds its message or, if the reader lags, a later one. -/
structure Settled (c : Constants) (s : State) (x : ReaderState) : Prop where
  even : (s.slots (slotIndex c x.cursor)).stamp % 2 = 0
  le : x.cursor * 2 + 2 ≤ (s.slots (slotIndex c x.cursor)).stamp
  own : oldest c s ≤ x.cursor → (s.slots (slotIndex c x.cursor)).stamp = x.cursor * 2 + 2

theorem reader_descends {x x' : ReaderState} (hx : ReaderInv c s x) (h : Settled c s x) (hm : ReaderMoves c s x x') :
    x'.result ≠ -1 ∨ x'.result = x.result ∧ distance c s x' < distance c s x := by
  have hle := h.le
  have heven := h.even
  cases hm with
  | load hpc =>
    right
    refine ⟨rfl, ?_⟩
    simp only [distance, hpc, ↓reduceIte]
    omega
  | value hpc hst =>
    right
    refine ⟨rfl, ?_⟩
    simp only [distance, hpc]
    split_ifs <;> omega
  | retry hpc hodd =>
    right
    have hne : x.stamp1 ≠ (s.slots (slotIndex c x.cursor)).stamp := by omega
    refine ⟨rfl, ?_⟩
    simp only [distance, hpc, hne, ↓reduceIte]
    omega
  | early hpc _ hst =>
    right
    have hne : x.stamp1 ≠ (s.slots (slotIndex c x.cursor)).stamp := by omega
    refine ⟨rfl, ?_⟩
    simp only [distance, hpc, hne, ↓reduceIte]
    omega
  | lagged hpc _ hst =>
    right
    refine ⟨rfl, ?_⟩
    have hnew : ¬ max x.cursor (oldest c s) < oldest c s := not_lt.mpr (le_max_right _ _)
    simp only [distance, hpc, hnew, ↓reduceIte]
    by_cases hold : x.cursor < oldest c s
    · rw [if_pos hold]
      omega
    · have hown := h.own (not_lt.mp hold)
      have hne : x.stamp1 ≠ (s.slots (slotIndex c x.cursor)).stamp := by omega
      rw [if_neg hold, if_neg hne]
      omega
  | commit hpc hst =>
    left
    have hval := hx.value hpc (by rw [← hst]; exact hx.stamp1 hpc)
    have := hx.cursor_nonneg
    dsimp only
    omega
  | torn hpc hst =>
    right
    refine ⟨rfl, ?_⟩
    simp only [distance, hpc, hst, ↓reduceIte]
    omega

/-- A slot settles when the writer has come to its end, or when it never comes back to it. -/
theorem WriterInv.settled (h : WriterInv c s) (hrest : s.writerPC ≠ .idle → s.writerSeq < c.ringSize)
    {x : ReaderState} (h0 : 0 ≤ x.cursor) (hlt : x.cursor < s.writerSeq) : Settled c s x := by
  have hcur := h.cursor
  by_cases hold : oldest c s ≤ x.cursor
  · have hslot := h.held x.cursor h0 hlt (by unfold oldest at hold; split_ifs at hold <;> omega)
      (fun hn => by have := hrest hn; omega)
    have hst : (s.slots (slotIndex c x.cursor)).stamp = x.cursor * 2 + 2 := congrArg SlotState.stamp hslot
    exact ⟨by omega, hst.ge, fun _ => hst⟩
  · have hpos : x.cursor < s.writerSeq - c.ringSize := by
      unfold oldest at hold
      split_ifs at hold <;> omega
    obtain ⟨p, hlo, hhi, hsame, hqp⟩ := exists_same_slot (c := c) (s.writerSeq - c.ringSize) x.cursor
    have hp := hqp hpos
    have hslot := h.held p (by omega) (by omega) (by omega) (fun hn => by have := hrest hn; omega)
    rw [hsame] at hslot
    have hst : (s.slots (slotIndex c x.cursor)).stamp = p * 2 + 2 := congrArg SlotState.stamp hslot
    exact ⟨by omega, by omega, fun ho => absurd ho hold⟩

/-! ## Fair processes -/

/-- The steps that the writer has left. -/
def writerLeft (c : Constants) (s : State) : Nat :=
  (3 * (c.maxSeq + 1 - s.writerSeq) -
    match s.writerPC with
    | .idle => 0
    | .stamped => 1
    | .written => 2).toNat

theorem writerLeft_lt (h : WriterInv c s) (hm : WriterMoves c s s') : writerLeft c s' < writerLeft c s := by
  cases hm with
  | begin hpc hle =>
    simp only [writerLeft, State.setSlot, hpc]
    omega
  | data hpc =>
    have := (h.begun (by rw [hpc]; simp)).1
    simp only [writerLeft, State.setSlot, hpc]
    omega
  | finish hpc =>
    have := (h.begun (by rw [hpc]; simp)).1
    simp only [writerLeft, hpc]
    omega

/-- All messages are published. -/
def Final (c : Constants) (s : State) : Prop := Inv c s ∧ s.writerSeq = c.maxSeq + 1

theorem Final.idle (h : Final c s) : s.writerPC = .idle := by
  by_contra hn
  have := (h.1.writer.begun hn).1
  have := h.2
  omega

theorem Final.reader {a : Action} (h : Final c s) (hs : step c s a = some s') : a.reader ≠ none := by
  intro ha
  have hw := h.2
  cases step_writer hs ha with
  | begin _ hle => omega
  | data hpc => rw [h.idle] at hpc; cases hpc
  | finish hpc => rw [h.idle] at hpc; cases hpc

theorem leadsTo_final {e : Nat → State} (h : Spec c e) (hfair : WeaklyFair (Moves c none) e) :
    LeadsTo (fun _ => True) (Final c) e := by
  have hleads : LeadsTo (fun s => Inv c s ∧ s.writerSeq ≤ c.maxSeq) (Final c) e := by
    have hown (s s' : State) (hP : Inv c s ∧ s.writerSeq ≤ c.maxSeq) (hm : Moves c none s s') :
        Final c s' ∨ (Inv c s' ∧ s'.writerSeq ≤ c.maxSeq) ∧ writerLeft c s' < writerLeft c s := by
      obtain ⟨a, ha, hs⟩ := hm
      have hi := step_inv hP.1 hs
      by_cases hle : s'.writerSeq ≤ c.maxSeq
      · exact Or.inr ⟨⟨hi, hle⟩, writerLeft_lt hP.1.writer (step_writer hs ha)⟩
      · exact Or.inl ⟨hi, by have := hi.writer.seq_le; omega⟩
    refine hfair.leadsTo h.2 (writerLeft c) (fun s hP => ?_) hown fun s s' hP ⟨a, hs⟩ => ?_
    · obtain ⟨s', hs'⟩ := writer_enabled hP.1.writer hP.2
      exact ⟨s', moves_changes hs'⟩
    · cases ha : a.reader with
      | none => exact (hown s s' hP ⟨a, ha, hs⟩).imp_right fun hm => ⟨hm.1, hm.2.le⟩
      | some q =>
        have hi := step_inv hP.1 hs
        obtain ⟨_, x, rfl, _⟩ := step_reader hs ha
        exact Or.inr ⟨⟨hi, hP.2⟩, le_refl _⟩
  intro k _
  have hi := h.inv k
  by_cases hle : (e k).writerSeq ≤ c.maxSeq
  · exact hleads k ⟨hi, hle⟩
  · exact ⟨k, le_refl _, hi, by have := hi.writer.seq_le; omega⟩

theorem Final.settled (h : Final c s) (hres : (s.readers r).result = -1) : Settled c s (s.readers r) := by
  have hx := h.1.readers r
  have hmax := c.maxSeq_pos
  have hw := h.2
  refine h.1.writer.settled (fun hn => absurd h.idle hn) hx.cursor_nonneg ?_
  rcases hx.unread hres with h0 | ⟨_, hlt⟩ <;> omega

theorem leadsTo_result {e : Nat → State} (hr : isReader c r) (h : Spec c e) (hfair : WeaklyFair (Moves c (some r)) e) :
    LeadsTo (fun s => Final c s ∧ (s.readers r).result = -1) (fun s => (s.readers r).result ≠ -1) e := by
  have hown (s s' : State) (hP : Final c s ∧ (s.readers r).result = -1) (hm : Moves c (some r) s s') :
      (s'.readers r).result ≠ -1 ∨ (Final c s' ∧ (s'.readers r).result = -1) ∧
        distance c s' (s'.readers r) < distance c s (s.readers r) := by
    obtain ⟨a, ha, hs⟩ := hm
    have hi := step_inv hP.1.1 hs
    obtain ⟨_, x, rfl, hmoves⟩ := step_reader hs ha
    rw [setReader_self]
    rcases reader_descends (hP.1.1.readers r) (hP.1.settled hP.2) hmoves with hdone | ⟨hsame, hlt⟩
    · exact Or.inl hdone
    · exact Or.inr ⟨⟨⟨hi, hP.1.2⟩, hsame.trans hP.2⟩, hlt⟩
  refine hfair.leadsTo h.2 (fun s => distance c s (s.readers r)) (fun s _ => ?_) hown fun s s' hP ⟨a, hs⟩ => ?_
  · obtain ⟨s', hs'⟩ := reader_enabled (s := s) hr
    exact ⟨s', moves_changes hs'⟩
  · cases ha : a.reader with
    | none => exact absurd ha (hP.1.reader hs)
    | some q =>
      by_cases hq : q = r
      · subst hq
        exact (hown s s' hP ⟨a, ha, hs⟩).imp_right fun hm => ⟨hm.1, hm.2.le⟩
      · have hi := step_inv hP.1.1 hs
        obtain ⟨_, x, rfl, _⟩ := step_reader hs ha
        rw [setReader_ne x (Ne.symm hq)]
        exact Or.inr ⟨⟨⟨hi, hP.1.2⟩, hP.2⟩, le_refl _⟩

theorem progress_of_processFair {e : Nat → State} (h : ProcessFairSpec c e) : ReaderProgress c e := by
  obtain ⟨hspec, hwriter, hreaders⟩ := h
  intro r hr k _
  obtain ⟨m, hm, hfinal⟩ := leadsTo_final hspec hwriter k trivial
  by_cases hres : ((e m).readers r).result = -1
  · obtain ⟨j, hj, hdone⟩ := leadsTo_result hr hspec (hreaders r hr) m ⟨hfinal, hres⟩
    exact ⟨j, hm.trans hj, hdone⟩
  · exact ⟨m, hm, hres⟩

/-- There are such behaviours, whatever the constants. -/
theorem exists_processFair (c : Constants) : ∃ e, ProcessFairSpec c e := by
  obtain ⟨e, h0, hnext, hfair⟩ := exists_weaklyFair (Moves c) init
  refine ⟨e, ⟨h0, fun k => ?_⟩, hfair none, fun r _ => hfair (some r)⟩
  rcases hnext k with ⟨_, a, _, hs⟩ | hstay
  · exact Or.inl ⟨a, hs⟩
  · exact Or.inr hstay

/-! ## Fairness to `Next` alone -/

/-- With a single reader and no second lap, its slot keeps the first message. -/
theorem first_lap (hlt : c.maxSeq < c.ringSize) (h : Inv c s) (hcur : 0 ≤ s.cursor)
    (hres : (s.readers r).result = -1) :
    (s.readers r).cursor = 0 ∧ oldest c s = 0 ∧ s.slots (slotIndex c 0) = ⟨2, 0⟩ := by
  have hw := h.writer.cursor
  have hle := h.writer.seq_le
  have hold : oldest c s = 0 := if_neg (by omega)
  refine ⟨?_, hold, h.writer.held 0 (le_refl _) (by omega) (by omega) fun hn => ?_⟩
  · rcases (h.readers r).unread hres with h0 | ⟨hR, _⟩ <;> omega
  · have := (h.writer.begun hn).1
    omega

theorem progress_of_single (h1 : c.numReaders = 1) (hlt : c.maxSeq < c.ringSize) {e : Nat → State}
    (h : FairSpec c e) : ReaderProgress c e := by
  obtain ⟨hspec, hfair⟩ := h
  intro r hr
  have hleads : LeadsTo (fun s => (Inv c s ∧ 0 ≤ s.cursor) ∧ (s.readers r).result = -1)
      (fun s => (s.readers r).result ≠ -1) e := by
    have hdown (s s' : State) (hP : (Inv c s ∧ 0 ≤ s.cursor) ∧ (s.readers r).result = -1) (hn : Next c s s') :
        (s'.readers r).result ≠ -1 ∨ ((Inv c s' ∧ 0 ≤ s'.cursor) ∧ (s'.readers r).result = -1) ∧
          writerLeft c s' + distance c s' (s'.readers r) < writerLeft c s + distance c s (s.readers r) := by
      obtain ⟨a, hs⟩ := hn
      obtain ⟨⟨hi, hcur⟩, hres⟩ := hP
      have hi' := step_inv hi hs
      obtain ⟨hx0, hold, hslot⟩ := first_lap hlt hi hcur hres
      cases ha : a.reader with
      | none =>
        have hm := step_writer hs ha
        have hg := writer_grows hi.writer hm
        have hres' : (s'.readers r).result = -1 := by rw [hg.readers]; exact hres
        have hcur' : 0 ≤ s'.cursor := hcur.trans hg.cursor
        obtain ⟨_, hold', hslot'⟩ := first_lap hlt hi' hcur' hres'
        have hsame : distance c s' (s'.readers r) = distance c s (s.readers r) := by
          unfold distance
          rw [hg.readers, hx0, hold, hold', hslot, hslot']
        rw [hsame]
        exact Or.inr ⟨⟨⟨hi', hcur'⟩, hres'⟩, Nat.add_lt_add_right (writerLeft_lt hi.writer hm) _⟩
      | some q =>
        obtain ⟨hq, x, rfl, hmoves⟩ := step_reader hs ha
        obtain rfl : q = r := by
          unfold isReader at hq hr
          omega
        rw [setReader_self]
        have hset : Settled c s (s.readers q) := by
          refine hi.writer.settled (fun hn => ?_) (hi.readers q).cursor_nonneg ?_
          · have := (hi.writer.begun hn).1
            omega
          · have := hi.writer.cursor
            omega
        rcases reader_descends (hi.readers q) hset hmoves with hdone | ⟨hsame, hless⟩
        · exact Or.inl hdone
        · exact Or.inr ⟨⟨⟨hi', hcur⟩, hsame.trans hres⟩, Nat.add_lt_add_left hless _⟩
    refine hfair.leadsTo hspec.2 _ (fun s _ => ?_) hdown fun s s' hP hn => (hdown s s' hP hn).imp_right
      fun hm => ⟨hm.1, hm.2.le⟩
    obtain ⟨s', a, _, hs'⟩ := reader_enabled (s := s) hr
    exact ⟨s', ⟨a, hs'⟩, step_changes hs'⟩
  intro k hk
  by_cases hres : ((e k).readers r).result = -1
  · exact hleads k ⟨⟨hspec.inv k, hk⟩, hres⟩
  · exact ⟨k, le_refl _, hres⟩

/-- While the writer rests in the middle of a write, a reader that waits for it takes all
the steps, and reader 1 has no message. -/
theorem starves {q : Int} (h : Reachable (step c) init s) (hcur : 0 ≤ s.cursor) (hres : (s.readers 1).result = -1)
    (hq : isReader c q) (hpc : (s.readers q).pc = .idle)
    (hodd : (s.slots (slotIndex c (s.readers q).cursor)).stamp % 2 = 1) :
    ∃ e, FairSpec c e ∧ ¬ ReaderProgress c e := by
  let y : ReaderState :=
    { s.readers q with pc := .stamp1, stamp1 := (s.slots (slotIndex c (s.readers q).cursor)).stamp }
  let z : ReaderState := { y with pc := .idle }
  have hfirst := reader_reach hq (.load (c := c) (s := s) hpc)
  rw [setReader_same] at hfirst
  have hmove {u u' : ReaderState} (hm : ReaderMoves c s u u') : Next c (s.setReader q u) (s.setReader q u') := by
    obtain ⟨a, _, ha⟩ := reader_fires (s := s.setReader q u) hq (by
      rw [setReader_self]
      exact hm.setReader q u)
    rw [setReader_setReader] at ha
    exact ⟨a, ha⟩
  have hload : Next c (s.setReader q z) (s.setReader q y) := hmove (.load rfl)
  have hretry : Next c (s.setReader q y) (s.setReader q z) := hmove (.retry rfl hodd)
  have hne : s.setReader q z ≠ s.setReader q y := by
    obtain ⟨a, ha⟩ := hretry
    exact step_changes ha
  obtain ⟨e, h0, hnext, hfair, d, hd⟩ := (h.trans hfirst).lasso (fun s a t hs => ⟨a, hs⟩) hretry hload hne.symm
  refine ⟨e, ⟨⟨h0, hnext⟩, hfair⟩, fun hall => ?_⟩
  have hkeep (u : ReaderState) (hu : u.result = (s.readers q).result) : ((s.setReader q u).readers 1).result = -1 := by
    by_cases hq1 : 1 = q
    · subst hq1
      rw [setReader_self, hu]
      exact hres
    · rw [setReader_ne u hq1]
      exact hres
  have hlast (k : Nat) (hk : k ≥ d) : 0 ≤ (e k).cursor ∧ ((e k).readers 1).result = -1 := by
    rcases hd k hk with he | he
    · rw [he]
      exact ⟨hcur, hkeep y rfl⟩
    · rw [he]
      exact ⟨hcur, hkeep z rfl⟩
  obtain ⟨m, hm, hdone⟩ := hall 1 ⟨le_refl _, c.numReaders_pos⟩ d (hlast d (le_refl _)).1
  exact hdone (hlast m hm).2

/-- The writer begins to write into the slot that reader `q` waits for, and stops there. -/
theorem starves_at_begin {q : Int} (h : Reachable (step c) init s) (hpc : s.writerPC = .idle)
    (hle : s.writerSeq ≤ c.maxSeq) (hcur : 0 ≤ s.cursor) (hres : (s.readers 1).result = -1) (hq : isReader c q)
    (hidle : (s.readers q).pc = .idle)
    (hslot : slotIndex c (s.readers q).cursor = slotIndex c s.writerSeq) :
    ∃ e, FairSpec c e ∧ ¬ ReaderProgress c e := by
  have hbegin : step c s .writerBegin = _ :=
    step_of_fire (a := .writerBegin) (by simp [Action.reader]) (if_pos ⟨hpc, hle⟩)
  refine starves (h.next hbegin) hcur hres hq hidle ?_
  have hodd : ((s.setSlot (slotIndex c s.writerSeq)
      ⟨s.writerSeq * 2 + 1, (s.slots (slotIndex c s.writerSeq)).value⟩).slots
      (slotIndex c (s.readers q).cursor)).stamp = s.writerSeq * 2 + 1 := by
    rw [hslot, setSlot_self]
  have hodd' := congrArg (· % 2) hodd
  exact hodd'.trans (by omega)

theorem starves_of_two (h2 : 2 ≤ c.numReaders) : ∃ e, FairSpec c e ∧ ¬ ReaderProgress c e := by
  have hmax := c.maxSeq_pos
  have hR := c.two_le
  have hr : isReader c 2 := ⟨by decide, h2⟩
  obtain ⟨s₁, h₁, hpc₁, hseq₁, hreaders₁⟩ := publish_one (c := c) (s := init) rfl (by
    change (0 : Int) ≤ c.maxSeq
    omega)
  have hseq₁' : s₁.writerSeq = 1 := hseq₁
  have hi₁ := (reach_inv h₁).writer
  have hslot₁ := hi₁.held 0 (le_refl _) (by omega) (by omega) (fun hn => absurd hpc₁ hn)
  have hinit (q : Int) : s₁.readers q = ⟨.idle, 0, 0, -1, 0, -1⟩ := by rw [hreaders₁]; rfl
  obtain ⟨x, h₂, hxpc, hxcur, _⟩ := read_one (s := s₁) hr (by rw [hinit]) (by rw [hinit]; exact hslot₁)
  rw [hinit] at hxcur
  refine starves_at_begin (q := 2) (h₁.trans h₂) hpc₁ ?_ ?_ ?_ hr ?_ ?_
  · change s₁.writerSeq ≤ c.maxSeq
    omega
  · change 0 ≤ s₁.cursor
    have := hi₁.cursor
    omega
  · rw [setReader_ne x (by decide), hinit]
  · rw [setReader_self, hxpc]
  · change slotIndex c ((s₁.setReader 2 x).readers 2).cursor = slotIndex c s₁.writerSeq
    rw [setReader_self, hxcur, hseq₁']
    rfl

theorem starves_of_lap (hle : c.ringSize ≤ c.maxSeq) : ∃ e, FairSpec c e ∧ ¬ ReaderProgress c e := by
  have hR := c.two_le
  obtain ⟨s₁, h₁, hpc₁, hseq₁, hreaders₁⟩ := publish_many (c := c) (s := init) c.ringSize.toNat rfl (by
    change (0 : Int) + _ ≤ _
    omega)
  have hseq₁' : s₁.writerSeq = c.ringSize := by
    have : init.writerSeq = 0 := rfl
    omega
  have hinit : s₁.readers 1 = ⟨.idle, 0, 0, -1, 0, -1⟩ := by rw [hreaders₁]; rfl
  have hcur := (reach_inv h₁).writer.cursor
  refine starves_at_begin (q := 1) h₁ hpc₁ (by omega) (by omega) (by rw [hinit]) ⟨le_refl _, c.numReaders_pos⟩
    (by rw [hinit]) ?_
  rw [hinit, hseq₁']
  simp [slotIndex]

/-- Weak fairness of `Next` gives `ReaderProgress` only to a single reader on a ring that is
never lapped. Weak fairness of the writer and of every reader gives it for all constants. -/
theorem reader_progress_iff (c : Constants) :
    ((∀ e, FairSpec c e → ReaderProgress c e) ↔ c.numReaders = 1 ∧ c.maxSeq < c.ringSize) ∧
    ∀ e, ProcessFairSpec c e → ReaderProgress c e := by
  refine ⟨⟨fun hall => ?_, fun ⟨h1, hlt⟩ e h => progress_of_single h1 hlt h⟩, fun e h => progress_of_processFair h⟩
  have hone := c.numReaders_pos
  constructor
  · by_contra hne
    obtain ⟨e, he, hnot⟩ := starves_of_two (c := c) (by omega)
    exact hnot (hall e he)
  · by_contra hlt
    obtain ⟨e, he, hnot⟩ := starves_of_lap (not_lt.mp hlt)
    exact hnot (hall e he)

end PhotonRing.Verification
