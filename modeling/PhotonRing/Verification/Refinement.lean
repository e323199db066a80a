import PhotonRing.Lib.Simulation
import PhotonRing.Channel.ReadSide
import PhotonRing.Verification.Seqlock

/-!
# The channels of one publisher follow the specification

The code stores a stamp and the cursor one after the other where the specification takes
one step, it copies a payload in pieces, and it computes a lag from a head loaded later
than the stamp. The specification's reader waits in `stamp1` while that head is behind:
what it skips then is what the code skips.
-/
namespace PhotonRing.Verification

open Lib Reader World

variable {n : Nat} {cfg : Config} {c : Constants} {w w' : World n} {r r' : Ring n} {t t' : Trackers} {i : Nat}
  {s s' : Subscriber n} {z : State} {x : ReaderState}

/-! ## What both levels show -/

/-- The record of a slot with this stamp: its value is the sequence that the stamp is for. -/
def slotOf (stamp : Nat) : SlotState := ⟨stamp, ((stamp : Int) - 1) / 2⟩

/-- The sequence of the last message that a history holds as received. -/
def lastReceived (events : List (Event n)) : Int :=
  events.foldl (fun last e => match e with
    | .received seq _ => seq
    | .skipped _ _ => last) (-1)

/-- It is committed when its read has been validated, although it is counted a step later. -/
def lastCommitted (s : Subscriber n) : Int :=
  match s.pc with
  | .commit _ (.ok _) => s.cursor - 1
  | _ => lastReceived s.events

/-- A later message than that of the subscriber's position is in its slot. -/
def Passed (cfg : Config) (r : Ring n) (s : Subscriber n) : Prop := 2 * s.cursor + 2 < r.stampAt cfg s.cursor

/-- A reader of the specification starts at message 0 and knows no `latest`. -/
def Watched (s : Subscriber n) : Prop := Created (stage s.pc) ∧ s.start = 0 ∧ s.latestUsed = false

/-- Subscriber `i` is reader `i + 1`, if there is one. A reader's position is its subscriber's,
unless it has to skip and the subscriber does not know how far yet, or knows less. -/
structure Agrees (cfg : Config) (c : Constants) (w : World n) (z : State) : Prop where
  cursor : z.cursor = (w.ring.log.length : Int) - 1
  slots : ∀ k < cfg.capacity, z.slots ((k : Int) + 1) = slotOf (w.ring.slots k).stamp
  result : ∀ i : Nat, (i : Int) < c.numReaders → Watched (w.subs i) →
    (z.readers ((i : Int) + 1)).result = lastCommitted (w.subs i)
  position : ∀ i : Nat, (i : Int) < c.numReaders → Watched (w.subs i) →
    (z.readers ((i : Int) + 1)).cursor = (w.subs i).cursor ∨
      (z.readers ((i : Int) + 1)).cursor < (w.subs i).cursor ∧ Passed cfg w.ring (w.subs i)

/-! ## One subscriber and its reader -/

/-- Neither between the two looks at a stamp nor before a look at the head. -/
def Resting (pc : SubPc n) : Prop := (∀ c, pc ≠ .head c) ∧ ∀ off buf, stage pc ≠ .loading off buf

inductive Follows (cfg : Config) (r : Ring n) (s : Subscriber n) (x : ReaderState) : Prop where
  | resting (hs : Resting s.pc) (hpc : x.pc = .idle) (hcur : x.cursor = s.cursor) : Follows cfg r s x
  | reading {c : Caller n} {off : Nat} {buf : Buf n} (hs : s.pc = .read c (.load off buf)) (hpc : x.pc = .reading)
      (hcur : x.cursor = s.cursor) : Follows cfg r s x
  | behind (hs : ∀ off buf, stage s.pc ≠ .loading off buf) (hpc : x.pc = .stamp1) (heven : x.stamp1 % 2 = 0)
      (hlate : x.cursor * 2 + 2 < x.stamp1) (hcur : x.cursor ≤ s.cursor) (hover : Passed cfg r s) : Follows cfg r s x

structure Tied (cfg : Config) (r : Ring n) (s : Subscriber n) (x : ReaderState) : Prop where
  follows : Follows cfg r s x
  result : x.result = lastCommitted s
  created : Created (stage s.pc)
  latest : s.latestUsed = false

theorem Tied.mono (h : Tied cfg r s x) (hg : r.Grows r') : Tied cfg r' s x := by
  refine ⟨?_, h.result, h.created, h.latest⟩
  cases h.follows with
  | resting hs hpc hcur => exact .resting hs hpc hcur
  | reading hs hpc hcur => exact .reading hs hpc hcur
  | behind hs hpc heven hlate hcur hover =>
    exact .behind hs hpc heven hlate hcur (lt_of_lt_of_le hover (hg.stampAt_le cfg s.cursor))

theorem lastReceived_append (events : List (Event n)) (e : Event n) :
    lastReceived (events ++ [e]) = match e with
      | .received seq _ => (seq : Int)
      | .skipped _ _ => lastReceived events := by
  simp only [lastReceived, List.foldl_append, List.foldl_cons, List.foldl_nil]

theorem lastCommitted_ready (h : stage s.pc = .ready) : lastCommitted s = lastReceived s.events := by
  unfold lastCommitted
  split
  · rename_i hp
    rw [hp] at h
    cases h
  · rfl

theorem commit_resting (c : Caller n) (res : Recv n) : Resting (.commit c res) := ⟨by simp, by simp [stage]⟩

theorem poll_not_head (s : Subscriber n) (c c' : Caller n) : (s.poll c).pc ≠ .head c' := by simp [Subscriber.poll]

theorem finish_not_head (s : Subscriber n) (r : Ret n) (c' : Caller n) : (s.finish r).pc ≠ .head c' := by
  simp [Subscriber.finish]

/-- The caller of a read is never left before a look at the head. -/
theorem resume_not_head (s : Subscriber n) (res : Recv n) (c c' : Caller n) : (s.resume res c).pc ≠ .head c' := by
  have hend (s : Subscriber n) (b : Batch) : (s.endBatch b).pc ≠ .head c' := by
    unfold Subscriber.endBatch
    split_ifs <;> simp
  have hnext (s : Subscriber n) (b : Batch) : (s.nextInBatch b).pc ≠ .head c' := by
    unfold Subscriber.nextInBatch
    split_ifs
    · apply poll_not_head
    · exact hend s b
  cases c with
  | recvBatch left filled again =>
    cases res with
    | empty => apply finish_not_head
    | _ =>
      simp only [Subscriber.resume]
      split_ifs
      · apply finish_not_head
      · apply poll_not_head
  | drainBatch b =>
    cases res with
    | ok buf => exact Subscriber.handle_cases (P := fun u => u.pc ≠ .head c') (fun _ => by simp) fun _ => hnext _ _
    | empty => exact hend _ _
    | lagged k => exact hnext _ _
  | _ => cases res <;> simp [Subscriber.resume, Subscriber.poll, Subscriber.finish, Subscriber.gate]

theorem endBatch_resting (s : Subscriber n) (b : Batch) : Resting (s.endBatch b).pc := by
  unfold Subscriber.endBatch
  split_ifs <;> exact ⟨by simp, by simp [stage]⟩

theorem resume_resting (s : Subscriber n) (res : Recv n) (c : Caller n) : Resting (s.resume res c).pc :=
  ⟨resume_not_head s res c, fun off buf h => by rw [(resume_local s res c).1.stage] at h; cases h⟩

theorem poll_resting (s : Subscriber n) (c : Caller n) : Resting (s.poll c).pc :=
  ⟨poll_not_head s c, by simp [Subscriber.poll, stage]⟩

theorem onTryRead_torn_local (s : Subscriber n) (c : Caller n) :
    Local s (s.onTryRead c .torn) ∧ Resting (s.onTryRead c .torn).pc := by
  by_cases hc : ThroughReadSlot c
  · rw [onTryRead_torn hc]
    exact ⟨(resume_local s .empty c).1, resume_resting s .empty c⟩
  · have hpoll (c' : Caller n) : Local s (s.poll c') := ⟨rfl, rfl, rfl, rfl, rfl, rfl⟩
    cases c with
    | recv bare => exact ⟨hpoll _, poll_resting _ _⟩
    | recvWith iter => exact ⟨hpoll _, poll_resting _ _⟩
    | _ => exact absurd trivial hc

theorem onTryRead_other_local (s : Subscriber n) (c : Caller n) (st : Nat) :
    (Local s (s.onTryRead c (.other st)) ∧ Resting (s.onTryRead c (.other st)).pc) ∨
      s.onTryRead c (.other st) = { s with pc := .head c } := by
  have hpoll (c' : Caller n) : Local s (s.poll c') := ⟨rfl, rfl, rfl, rfl, rfl, rfl⟩
  by_cases hc : ThroughReadSlot c
  · rw [onTryRead_other hc]
    split_ifs
    · exact Or.inl ⟨(resume_local s .empty c).1, resume_resting s .empty c⟩
    · exact Or.inl ⟨(resume_local s .empty c).1, resume_resting s .empty c⟩
    · exact Or.inr rfl
  · left
    cases c with
    | recv bare =>
      simp only [Subscriber.onTryRead]
      split_ifs <;> exact ⟨hpoll _, poll_resting _ _⟩
    | recvWith iter =>
      simp only [Subscriber.onTryRead]
      split_ifs <;> exact ⟨hpoll _, poll_resting _ _⟩
    | _ => exact absurd trivial hc

/-- Local work between two program points moves no reader. -/
theorem Tied.local (h : Tied cfg r s x) (hs : stage s.pc = .ready) (hl : Local s s') (hrest : Resting s'.pc) :
    Tied cfg r s' x := by
  have hevents : s'.events = s.events := congrArg Book.events hl.book
  refine ⟨?_, ?_, by rw [hl.stage]; trivial, hl.latestUsed.trans h.latest⟩
  · cases h.follows with
    | resting _ hpc hcur => exact .resting hrest hpc (by rw [hl.cursor]; exact hcur)
    | reading hp =>
      rw [hp] at hs
      cases hs
    | behind _ hpc heven hlate hcur hover =>
      exact .behind hrest.2 hpc heven hlate (by rw [hl.cursor]; exact hcur)
        (by unfold Passed; rw [hl.cursor]; exact hover)
  · rw [h.result, lastCommitted_ready hs, lastCommitted_ready hl.stage, hevents]

/-- The memory of the two levels. -/
structure Mirrors (cfg : Config) (c : Constants) (r : Ring n) (z : State) : Prop where
  size : c.ringSize = cfg.capacity
  slots : ∀ k < cfg.capacity, z.slots ((k : Int) + 1) = slotOf (r.slots k).stamp
  seq : z.writerSeq = r.log.length

theorem Mirrors.slotIndex_eq (h : Mirrors cfg c r z) (q : Nat) :
    slotIndex c q = ((q % cfg.capacity : Nat) : Int) + 1 := by
  unfold slotIndex
  rw [h.size, Int.natCast_mod]

theorem Mirrors.stamp (h : Mirrors cfg c r z) (q : Nat) : (z.slots (slotIndex c q)).stamp = r.stampAt cfg q := by
  rw [h.slotIndex_eq, h.slots _ (Nat.mod_lt _ cfg.capacity_pos)]
  rfl

/-- What the code has overwritten is below what the specification skips to. -/
theorem Mirrors.oldest (h : Mirrors cfg c r z) (hi : Inv c z) {head : Nat} (hcap : cfg.capacity ≤ head)
    (hhead : head + 1 = r.log.length) : oldest c z = ((head - cfg.capacity + 1 : Nat) : Int) := by
  have hcur := hi.writer.cursor
  have hseq := h.seq
  have hsize := h.size
  unfold Verification.oldest
  rw [if_pos (by omega)]
  omega

section Step

variable {k : Int} {seq : Nat} {ph : SpWriter.Phase n}

/-- What the slot of a position tells: `try_read` goes on to the lag only past a later message. -/
theorem head_passed {c : Caller n} {pc : ReadPc n} {res : TryRead n} (hlt : s.cursor < seqLimit)
    (hread : (r.slots (cfg.slot s.cursor)).readStep s.cursor pc = .inr res)
    (hhead : ∃ c', (s.onTryRead c res).pc = .head c') :
    r.stampAt cfg s.cursor % 2 = 0 ∧ Passed cfg r s := by
  obtain ⟨c', hpc⟩ := hhead
  rw [cfg.slot_eq_of_lt hlt] at hread
  have hdone := done_eq hlt
  have hres : ∃ st, res = .other st ∧ st % 2 = 0 ∧ done s.cursor ≤ st := by
    cases res with
    | value buf => cases hpc
    | torn =>
      cases c with
      | recv bare => cases hpc
      | recvWith iter => cases hpc
      | _ => exact absurd hpc (resume_not_head _ _ _ _)
    | other st =>
      by_cases hc : ThroughReadSlot c
      · rw [onTryRead_other hc] at hpc
        split_ifs at hpc with hodd hless
        · exact absurd hpc (resume_not_head _ _ _ _)
        · exact absurd hpc (resume_not_head _ _ _ _)
        · exact ⟨st, rfl, by omega, by omega⟩
      · cases c with
        | recv bare =>
          simp only [Subscriber.onTryRead] at hpc
          split_ifs at hpc <;> cases hpc
        | recvWith iter =>
          simp only [Subscriber.onTryRead] at hpc
          split_ifs at hpc <;> cases hpc
        | _ => exact absurd trivial hc
  obtain ⟨st, rfl, heven, hle⟩ := hres
  cases pc with
  | stamp =>
    simp only [Slot.readStep] at hread
    split_ifs at hread with heq hodd
    · cases hread
    · obtain rfl : (r.slots (s.cursor % cfg.capacity)).stamp = st := by simpa using hread
      unfold Passed Ring.stampAt
      omega
  | load off buf =>
    simp only [Slot.readStep] at hread
    split_ifs at hread <;> cases hread

/-- `try_read` returns: the specification verifies when the code has looked at the stamp for the
second time, and otherwise takes its first look only if the subscriber turns to the lag. -/
theorem read_follows {cc : Caller n} {pc : ReadPc n} {res : TryRead n} (hm : Mirrors cfg c r z) (hx : ReaderInv c z x)
    (hk : isReader c k) (hok : Reader.Ok cfg r s) (hl : r.log.length < seqLimit) (h : Tied cfg r s x)
    (hp : s.pc = .read cc pc) (hread : (r.slots (cfg.slot s.cursor)).readStep s.cursor pc = .inr res) :
    ∃ x', Reachable (step c) (z.setReader k x) (z.setReader k x') ∧ Tied cfg r (s.onTryRead cc res) x' := by
  have hlt := hok.cursor_lt hl
  have hcommitted : lastCommitted s = lastReceived s.events := by
    unfold lastCommitted
    rw [hp]
  have hslot (hcur : x.cursor = s.cursor) : (z.slots (slotIndex c x.cursor)).stamp = r.stampAt cfg s.cursor := by
    rw [hcur]
    exact hm.stamp s.cursor
  cases pc with
  | stamp =>
    have hready : stage s.pc = .ready := by rw [hp]; rfl
    have hnot : ∀ buf, res ≠ .value buf := by
      rintro buf rfl
      simp only [Slot.readStep] at hread
      split_ifs at hread <;> cases hread
    cases res with
    | value buf => exact absurd rfl (hnot buf)
    | torn => exact ⟨x, .start, h.local hready (onTryRead_torn_local s cc).1 (onTryRead_torn_local s cc).2⟩
    | other st =>
      rcases onTryRead_other_local s cc st with ⟨hloc, hrest⟩ | he
      · exact ⟨x, .start, h.local hready hloc hrest⟩
      · obtain ⟨heven, hover⟩ := head_passed hlt hread ⟨cc, by rw [he]⟩
        rw [he]
        cases h.follows with
        | resting _ hpc hcur =>
          refine ⟨_, reader_reach hk (.load (c := c) (s := z) hpc), .behind (by simp [stage]) rfl ?_ ?_ hcur.le hover,
            h.result.trans hcommitted, trivial, h.latest⟩
          · change (z.slots (slotIndex c x.cursor)).stamp % 2 = 0
            rw [hslot hcur]
            omega
          · change x.cursor * 2 + 2 < (z.slots (slotIndex c x.cursor)).stamp
            unfold Passed at hover
            rw [hslot hcur, hcur]
            omega
        | reading hs' => rw [hp] at hs'; cases hs'
        | behind _ hpc heven' hlate hcur _ =>
          exact ⟨x, .start, .behind (by simp [stage]) hpc heven' hlate hcur hover, h.result.trans hcommitted,
            trivial, h.latest⟩
  | load off buf =>
    cases h.follows with
    | resting hrest => exact absurd (by rw [hp]; rfl) (hrest.2 off buf)
    | behind hs' => exact absurd (by rw [hp]; rfl) (hs' off buf)
    | reading _ hpc hcur =>
      have hst₁ := hx.stamp1 hpc
      cases res with
      | value b =>
        obtain ⟨hstamp, _⟩ := hok.value_stamp hl hp hread
        have hsame : x.stamp1 = (z.slots (slotIndex c x.cursor)).stamp := by
          rw [hslot hcur]
          omega
        have hval := hx.value hpc (by rw [← hsame]; exact hst₁)
        have hword : u64 (s.cursor + 1) = s.cursor + 1 := u64_of_lt (by unfold seqLimit at hlt; omega)
        refine ⟨_, reader_reach hk (.commit (c := c) (s := z) hpc hsame), .resting (commit_resting _ _) rfl ?_,
          ?_, trivial, h.latest⟩
        · change x.cursor + 1 = ((u64 (s.cursor + 1) : Nat) : Int)
          rw [hword]
          omega
        · change x.value = ((u64 (s.cursor + 1) : Nat) : Int) - 1
          rw [hword]
          omega
      | torn =>
        rw [cfg.slot_eq_of_lt hlt] at hread
        simp only [Slot.readStep] at hread
        have hne : r.stampAt cfg s.cursor ≠ done s.cursor := by
          intro hst
          have hst' : (r.slots (s.cursor % cfg.capacity)).stamp = done s.cursor := hst
          rw [if_pos hst'] at hread
          split_ifs at hread
          cases hread
        have hdiff : x.stamp1 ≠ (z.slots (slotIndex c x.cursor)).stamp := by
          have hdone := done_eq hlt
          rw [hslot hcur]
          omega
        obtain ⟨hloc, hrest⟩ := onTryRead_torn_local s cc
        have hevents : (s.onTryRead cc .torn).events = s.events := congrArg Book.events hloc.book
        refine ⟨_, reader_reach hk (.torn (c := c) (s := z) hpc hdiff), .resting hrest rfl ?_, h.result.trans ?_,
          by rw [hloc.stage]; trivial, hloc.latestUsed.trans h.latest⟩
        · rw [hloc.cursor]
          exact hcur
        · rw [hcommitted, lastCommitted_ready hloc.stage, hevents]
      | other st =>
        simp only [Slot.readStep] at hread
        split_ifs at hread <;> cases hread

/-- The head has been loaded. The specification skips with the code when that head is the last
message, and waits when it is not: the slot the code comes to has then been overwritten, too. -/
theorem head_follows {cc : Caller n} (hm : Mirrors cfg c r z) (hi : Inv c z) (hk : isReader c k)
    (hring : SpWriter.Ok cfg r seq ph) (h : Tied cfg r s x) (hp : s.pc = .head cc) :
    ∃ x', Reachable (step c) (z.setReader k x) (z.setReader k x') ∧ Tied cfg r (s.onHead cfg cc r.cursor) x' := by
  have hready : stage s.pc = .ready := by rw [hp]; rfl
  refine Subscriber.onHead_cases (P := fun u => ∃ x', Reachable (step c) (z.setReader k x) (z.setReader k x') ∧
    Tied cfg r u x') ⟨x, .start, h.local hready (resume_local s .empty cc).1 (resume_resting s .empty cc)⟩ ?_
  intro hmax hcap hskip
  have hhead := hring.ring.cursor_lt hmax
  have hcommitted : x.result = lastReceived s.events := h.result.trans (lastCommitted_ready hready)
  cases h.follows with
  | resting hrest => exact absurd hp (hrest.1 cc)
  | reading hs' => rw [hp] at hs'; cases hs'
  | behind _ hpc heven hlate hcur _ =>
    by_cases hlast : r.cursor + 1 = r.log.length
    · have hold := hm.oldest hi hcap hlast
      have hcur' : max x.cursor (oldest c z) = ((r.cursor - cfg.capacity + 1 : Nat) : Int) := by
        rw [hold]
        exact max_eq_right (by omega)
      exact ⟨_, reader_reach hk (.lagged (c := c) (s := z) hpc heven hlate), .resting (commit_resting _ _) rfl hcur',
        hcommitted, trivial, h.latest⟩
    · refine ⟨x, .start, .behind (by simp [stage]) hpc heven hlate (by dsimp only; omega) ?_, hcommitted, trivial,
        h.latest⟩
      have hst := hring.stamped (r.cursor - cfg.capacity + 1 + cfg.capacity) (by omega)
      have hcapacity := cfg.capacity_pos
      unfold Ring.stampAt at hst
      rw [Nat.add_mod_right] at hst
      unfold Passed Ring.stampAt
      dsimp only
      omega

theorem reader_follows (hm : Mirrors cfg c r z) (hi : Inv c z) (hx : ReaderInv c z x) (hk : isReader c k)
    (hok : Reader.Ok cfg r s) (hring : SpWriter.Ok cfg r seq ph) (hl : r.log.length < seqLimit) (h : Tied cfg r s x)
    (hs : s.step cfg r t i = some (t', s')) :
    ∃ x', Reachable (step c) (z.setReader k x) (z.setReader k x') ∧ Tied cfg r s' x' := by
  have hlt := hok.cursor_lt hl
  have hcreated := h.created
  have hstay (hready : stage s.pc = .ready) (hloc : Local s s') (hrest : Resting s'.pc) :
      ∃ x', Reachable (step c) (z.setReader k x) (z.setReader k x') ∧ Tied cfg r s' x' :=
    ⟨x, .start, h.local hready hloc hrest⟩
  have hnotLatest (hp : InLatest s.pc) : False := by
    have := hok.latest hp
    rw [h.latest] at this
    cases this
  cases Subscriber.step_moves hs with
  | takeLock hp _ | join hp _ _ | tracked hp _ | history hp _ | bareHistory hp _ | lockPush hp _ | push hp
  | bare hp _ =>
    rw [hp] at hcreated
    exact hcreated.elim
  | gateNext hp => exact hstay (by rw [hp]; rfl) ⟨rfl, rfl, rfl, rfl, rfl, rfl⟩ ⟨by simp, by simp [stage]⟩
  | @gateClosed c' _ hp _ => exact hstay (by rw [hp]; rfl) (resume_local s .empty c').1 (resume_resting s .empty c')
  | @gateOpen c' _ hp _ => exact hstay (by rw [hp]; rfl) ⟨rfl, rfl, rfl, rfl, rfl, rfl⟩ (poll_resting s c')
  | @reading cc pc pc' hp hread =>
    cases pc with
    | stamp =>
      rw [cfg.slot_eq_of_lt hlt] at hread
      simp only [Slot.readStep] at hread
      split_ifs at hread with hst
      obtain rfl := Sum.inl.inj hread
      have hstamp : r.stampAt cfg s.cursor = 2 * s.cursor + 2 := hst.trans (done_eq hlt)
      cases h.follows with
      | resting _ hpc hcur =>
        have hslot : (z.slots (slotIndex c x.cursor)).stamp = x.cursor * 2 + 2 := by
          rw [hcur, hm.stamp, hstamp]
          omega
        have h₁ := reader_reach hk (.load (c := c) (s := z) hpc)
        have h₂ := reader_reach hk (.value (c := c) (s := z)
          (x := { x with pc := .stamp1, stamp1 := (z.slots (slotIndex c x.cursor)).stamp }) rfl hslot)
        refine ⟨_, h₁.trans h₂, .reading rfl rfl hcur, h.result.trans ?_, trivial, h.latest⟩
        unfold lastCommitted
        rw [hp]
      | reading hs' => rw [hp] at hs'; cases hs'
      | behind _ _ _ _ _ hover =>
        unfold Passed at hover
        omega
    | load off buf =>
      simp only [Slot.readStep] at hread
      split_ifs at hread
      obtain rfl := Sum.inl.inj hread
      cases h.follows with
      | resting hrest => exact absurd (by rw [hp]; rfl) (hrest.2 off buf)
      | reading _ hpc hcur =>
        refine ⟨x, .start, .reading rfl hpc hcur, h.result.trans ?_, trivial, h.latest⟩
        unfold lastCommitted
        rw [hp]
      | behind hs' => exact absurd (by rw [hp]; rfl) (hs' off buf)
  | @read cc pc res hp hread => exact read_follows hm hx hk hok hl h hp hread
  | @head cc hp => exact head_follows hm hi hk hring h hp
  | @commit cc res hp =>
    have hcount := onCommit_counted s cc res
    have hrest : Resting (s.onCommit cc res).pc := by cases res <;> exact resume_resting _ _ cc
    refine ⟨x, .start, ?_, ?_, by rw [hcount.stage]; trivial, hcount.latestUsed.trans h.latest⟩
    · cases h.follows with
      | resting _ hpc hcur => exact .resting hrest hpc (by rw [hcount.cursor]; exact hcur)
      | reading hs' => rw [hp] at hs'; cases hs'
      | behind _ hpc heven hlate hcur hover =>
        exact .behind hrest.2 hpc heven hlate (by rw [hcount.cursor]; exact hcur)
          (by unfold Passed; rw [hcount.cursor]; exact hover)
    · rw [h.result, lastCommitted_ready hcount.stage]
      have hst := hok.stage
      rw [hp] at hst
      cases res with
      | empty => exact hst.elim
      | ok buf =>
        have hpos : 0 < s.cursor := hst.1
        have hevents : (s.onCommit cc (.ok buf)).events = s.events ++ [Event.received (s.cursor - 1) buf] :=
          congrArg Book.events (resume_local _ _ cc).1.book
        rw [hevents, lastReceived_append]
        unfold lastCommitted
        rw [hp]
        dsimp only
        omega
      | lagged skipped =>
        have hevents : (s.onCommit cc (.lagged skipped)).events
            = s.events ++ [Event.skipped (s.cursor - skipped) s.cursor] :=
          congrArg Book.events (resume_local _ _ cc).1.book
        rw [hevents, lastReceived_append]
        unfold lastCommitted
        rw [hp]
  | latestNone hp _ | latestHead hp _ => exact (hnotLatest (by rw [hp]; trivial)).elim
  | pending hp =>
    exact hstay (by rw [hp]; rfl) ⟨rfl, rfl, rfl, rfl, rfl, rfl⟩
      ⟨finish_not_head s _, by simp [Subscriber.finish, stage]⟩
  | checkDrain hp _ | checkStop hp _ | checkGo hp _ | dropLock hp _ | dropRetain hp | dropArc hp =>
    exact hstay (by rw [hp]; rfl) ⟨rfl, rfl, rfl, rfl, rfl, rfl⟩ ⟨by simp, by simp [stage]⟩
  | @loadPending policy idle final hp =>
    exact hstay (by rw [hp]; rfl) (onPending_local cfg policy idle final r.cursor s).1
      (Subscriber.onPending_cases (P := fun u => Resting u.pc) (fun _ => endBatch_resting s _)
        (fun _ => poll_resting s _))

end Step

/-! ## The publisher and the writer -/

theorem slotOf_writing (q : Nat) : slotOf (2 * q + 1) = ⟨(q : Int) * 2 + 1, q⟩ := by
  unfold slotOf
  congr 1 <;> omega

theorem slotOf_done (q : Nat) : slotOf (2 * q + 2) = ⟨(q : Int) * 2 + 2, q⟩ := by
  unfold slotOf
  congr 1 <;> omega

/-- One slot has changed on both sides. -/
theorem Mirrors.setSlot {z' : State} {q : Nat} {u : Slot n} (h : Mirrors cfg c r z)
    (hslots : r'.slots = (r.setSlot (q % cfg.capacity) u).slots)
    (hz : z'.slots = (z.setSlot (slotIndex c q) (slotOf u.stamp)).slots) (hseq : z'.writerSeq = r'.log.length) :
    Mirrors cfg c r' z' := by
  refine ⟨h.size, fun k hk => ?_, hseq⟩
  rw [hslots, hz, h.slotIndex_eq]
  by_cases hkq : k = q % cfg.capacity
  · subst hkq
    rw [setSlot_self, Ring.setSlot_slots_self]
  · rw [setSlot_ne _ (by omega), Ring.setSlot_slots_ne _ _ hkq]
    exact h.slots k hk

/-- Where the writer stands while the publisher is at `pc`. -/
def writerAt (pc : PubPc n) : WriterPC :=
  match SpWriter.phase pc with
  | .storing _ _ => .written
  | _ => .idle

theorem writer_follows {p p' : Publisher n} (hm : Mirrors cfg c r z) (hpc : z.writerPC = writerAt p.pc)
    (he : SpWriter.Effect cfg r p r' p') (hok : SpWriter.Ok cfg r p.seq (SpWriter.phase p.pc))
    (hl : r'.log.length < seqLimit) (hmax : (r'.log.length : Int) ≤ c.maxSeq) :
    ∃ z', Reachable (step c) z z' ∧ z'.readers = z.readers ∧ Mirrors cfg c r' z' ∧ z'.writerPC = writerAt p'.pc := by
  have hlen := hok.length
  cases he with
  | quiet _ hp hp' =>
    refine ⟨z, .start, rfl, hm, hpc.trans ?_⟩
    unfold writerAt
    rw [hp, hp']
  | @write v rest wr wr' _ hseq hp hw hp' =>
    have hseq' : z.writerSeq = p.seq := by
      rw [hm.seq, hlen, hp]
      cases wr <;> rfl
    have hlt : p.seq < seqLimit := by
      rw [Ring.setSlot_log] at hl
      omega
    rw [cfg.slot_eq_of_lt hlt] at hw ⊢
    cases wr with
    | begin =>
      obtain rfl := Option.some.inj hw
      refine ⟨_, write_one (hpc.trans (by rw [hp]; rfl)) ?_, rfl, ?_, by rw [hp']; rfl⟩
      · rw [hm.seq]
        exact hmax
      · refine hm.setSlot rfl ?_ hm.seq
        rw [hseq']
        change _ = (z.setSlot _ (slotOf (writing p.seq))).slots
        rw [writing_eq hlt, slotOf_writing]
    | store off =>
      simp only [Slot.writeStep] at hw ⊢
      split_ifs at hw ⊢ with hoff
      obtain rfl := Option.some.inj hw
      refine ⟨z, .start, rfl, hm.setSlot rfl ?_ hm.seq, hpc.trans (by rw [hp, hp']; rfl)⟩
      change _ = Function.update z.slots _ (slotOf (r.slots (p.seq % cfg.capacity)).stamp)
      rw [← hm.slots _ (Nat.mod_lt _ cfg.capacity_pos), ← hm.slotIndex_eq, Function.update_eq_self]
  | @finish v rest wr _ hseq hp hw hp' =>
    have hlt : p.seq < seqLimit := by
      rw [Ring.append_log, Ring.setSlot_log, List.length_append] at hl
      omega
    rw [cfg.slot_eq_of_lt hlt] at hw ⊢
    cases wr with
    | begin => cases hw
    | store off =>
      rw [hp] at hlen hok
      have hseq' : z.writerSeq = p.seq := by rw [hm.seq, hlen]; rfl
      have hstamp := (hok.storing v off rfl).1
      have hslot : z.slots (slotIndex c z.writerSeq) = ⟨z.writerSeq * 2 + 1, z.writerSeq⟩ := by
        rw [hseq', hm.slotIndex_eq, hm.slots _ (Nat.mod_lt _ cfg.capacity_pos), hstamp, slotOf_writing]
      simp only [Slot.writeStep] at hw ⊢
      split_ifs at hw ⊢ with hoff
      refine ⟨_, Reachable.start.next (finish_one (hpc.trans (by rw [hp]; rfl)) hslot), rfl, ?_, by rw [hp']; rfl⟩
      refine hm.setSlot rfl ?_ ?_
      · rw [hseq']
        change _ = (z.setSlot _ (slotOf (done p.seq))).slots
        rw [done_eq hlt, slotOf_done]
      · change z.writerSeq + 1 = ((r.log ++ [v]).length : Int)
        rw [hm.seq, List.length_append]
        rfl
  | announce hp _ hp' =>
    refine ⟨z, .start, rfl, ⟨hm.size, hm.slots, hm.seq⟩, hpc.trans ?_⟩
    unfold writerAt
    rw [hp, hp']
    rfl

/-! ## The simulation -/

/-- A reader waits at message 0 for its subscriber to be created, and is left where it is when
that one begins elsewhere or calls `latest`. -/
structure Paired (cfg : Config) (r : Ring n) (s : Subscriber n) (x : ReaderState) : Prop where
  waiting : ¬ Created (stage s.pc) → x.pc = .idle ∧ x.cursor = 0 ∧ x.result = -1
  tied : Watched s → Tied cfg r s x

theorem Paired.mono (h : Paired cfg r s x) (hg : r.Grows r') : Paired cfg r' s x :=
  ⟨h.waiting, fun hw => (h.tied hw).mono hg⟩

theorem Tied.paired (h : Tied cfg r s x) : Paired cfg r s x := ⟨fun hn => absurd h.created hn, fun _ => h⟩

/-- A subscriber that its reader does not follow, or does not follow yet, has moved. -/
theorem Paired.change (h : Paired cfg r s x) (hok : Reader.Ok cfg r s) (hc : Change cfg r s s') (hnot : ¬ Watched s) :
    Paired cfg r s' x := by
  by_cases hcr : Created (stage s.pc)
  · obtain ⟨hcr', hstart⟩ := hc.created hcr
    refine ⟨fun hn => absurd hcr' hn, fun hw => absurd ?_ hnot⟩
    exact ⟨hcr, hstart.symm.trans hw.2.1, hc.used hw.2.2⟩
  · have hwaiting := h.waiting hcr
    cases hc with
    | wait hst _ _ _ _ =>
      rcases hst with hst | ⟨⟨off, buf, hload⟩, _⟩
      · exact ⟨fun _ => hwaiting, fun hw => absurd (hst ▸ hw.1) hcr⟩
      · exact absurd (by rw [hload]; trivial) hcr
    | join _ _ hs' _ _ _ _ =>
      refine ⟨fun _ => hwaiting, fun hw => ?_⟩
      have hcr' := hw.1
      rw [hs'] at hcr'
      exact hcr'.elim
    | @create start tracker _ =>
      refine ⟨fun hn => absurd trivial hn, fun hw => ?_⟩
      obtain ⟨hpc, hcur, hres⟩ := hwaiting
      have hstart : start = 0 := hw.2.1
      refine ⟨.resting ⟨by simp [Subscriber.created], by simp [Subscriber.created, stage]⟩ hpc ?_, ?_, trivial, hw.2.2⟩
      · rw [hcur, hstart]
        rfl
      · rw [hres, lastCommitted_ready rfl]
        change (-1 : Int) = lastReceived s.events
        rw [(hok.blank hcr).1]
        rfl
    | @load cc pc pc' hs _ =>
      refine absurd ?_ hcr
      rw [hs]
      cases pc <;> trivial
    | @value cc pc buf hs _ =>
      refine absurd ?_ hcr
      rw [hs]
      cases pc <;> trivial
    | lag hs _ _ _ | commit hs | jump hs _ =>
      refine absurd ?_ hcr
      rw [hs]
      trivial

/-- Local work of a subscriber moves no reader. -/
theorem Paired.local (h : Paired cfg r s x) (hs : stage s.pc = .ready) (hl : Local s s') (hrest : Resting s'.pc) :
    Paired cfg r s' x := by
  refine ⟨fun hn => absurd (by rw [hl.stage]; trivial) hn, fun hw => ?_⟩
  have hstart : s'.start = s.start := congrArg Book.start hl.book
  have hwatched : Watched s := ⟨by rw [hs]; trivial, hstart.symm.trans hw.2.1, hl.latestUsed.symm.trans hw.2.2⟩
  exact (h.tied hwatched).local hs hl hrest

structure Coupled (cfg : Config) (c : Constants) (w : World n) (z : State) : Prop where
  sane : Sane cfg w
  reach : Reachable (step c) init z
  mirrors : Mirrors cfg c w.ring z
  writerPC : z.writerPC = writerAt w.publisher.pc
  readers : ∀ i : Nat, (i : Int) < c.numReaders → Paired cfg w.ring (w.subs i) (z.readers ((i : Int) + 1))

variable {a : Act n}

/-- A subscriber has moved, and its reader with it. -/
theorem Coupled.sub {x' : ReaderState} (h : Coupled cfg c w z) (hsane : Sane cfg w')
    (hring : w'.ring = w.ring) (hpub : w'.publisher = w.publisher) (hothers : ∀ j, j ≠ i → w'.subs j = w.subs j)
    (hmoved : (i : Int) < c.numReaders →
      Reachable (step c) z (z.setReader ((i : Int) + 1) x') ∧ Paired cfg w.ring (w'.subs i) x') :
    ∃ z', Reachable (step c) z z' ∧ Coupled cfg c w' z' := by
  by_cases hi : (i : Int) < c.numReaders
  · obtain ⟨hreach, hpaired⟩ := hmoved hi
    refine ⟨_, hreach, hsane, h.reach.trans hreach, ?_, by rw [hpub]; exact h.writerPC, fun j hj => ?_⟩
    · rw [hring]
      exact ⟨h.mirrors.size, h.mirrors.slots, h.mirrors.seq⟩
    · rw [hring]
      by_cases hji : j = i
      · subst hji
        rw [setReader_self]
        exact hpaired
      · rw [hothers j hji, setReader_ne _ (by omega)]
        exact h.readers j hj
  · refine ⟨z, .start, hsane, h.reach, by rw [hring]; exact h.mirrors, by rw [hpub]; exact h.writerPC, fun j hj => ?_⟩
    rw [hring, hothers j (fun he => hi (he ▸ hj))]
    exact h.readers j hj

theorem Coupled.subStays (h : Coupled cfg c w z) (hsane : Sane cfg w') (hring : w'.ring = w.ring)
    (hpub : w'.publisher = w.publisher) (hothers : ∀ j, j ≠ i → w'.subs j = w.subs j)
    (hmoved : (i : Int) < c.numReaders → Paired cfg w.ring (w'.subs i) (z.readers ((i : Int) + 1))) :
    ∃ z', Reachable (step c) z z' ∧ Coupled cfg c w' z' := by
  refine h.sub hsane hring hpub hothers fun hi => ⟨?_, hmoved hi⟩
  rw [setReader_same]
  exact .start

theorem Tied.shutdown (h : Tied cfg r s x) (r' : Ring n) : Tied cfg r (requestShutdown r' s) x := by
  refine ⟨?_, h.result, h.created, h.latest⟩
  cases h.follows with
  | resting hs hpc hcur => exact .resting hs hpc hcur
  | reading hs hpc hcur => exact .reading hs hpc hcur
  | behind hs hpc heven hlate hcur hover => exact .behind hs hpc heven hlate hcur hover

theorem call_local {call : SubCall} (h : s.call call = some s') (hlat : call ≠ .latest) :
    Local s s' ∧ Resting s'.pc := by
  cases (Subscriber.call_begins h).2 with
  | latest => exact absurd rfl hlat
  | _ => exact ⟨⟨rfl, rfl, rfl, rfl, rfl, rfl⟩, by simp [Subscriber.poll, Subscriber.finish, Subscriber.gate],
    by simp [Subscriber.poll, Subscriber.finish, Subscriber.gate, stage]⟩

theorem Paired.call {call : SubCall} (h : Paired cfg r s x) (hcall : s.call call = some s') : Paired cfg r s' x := by
  have hready : stage s.pc = .ready := by
    rw [(Subscriber.call_begins hcall).1]
    rfl
  by_cases hlat : call = .latest
  · subst hlat
    cases (Subscriber.call_begins hcall).2
    refine ⟨fun hn => absurd trivial hn, fun hw => ?_⟩
    cases hw.2.2
  · obtain ⟨hloc, hrest⟩ := call_local hcall hlat
    exact h.local hready hloc hrest

/-- A step of the channel is answered by the steps of the writer or of one reader. -/
theorem step_simulates (hk : cfg.kind ≠ .mpmc) (h : Coupled cfg c w z) (hs : World.step cfg w a = some w')
    (hl : messages w' < seqLimit) (hmax : (messages w' : Int) ≤ c.maxSeq) :
    ∃ z', Reachable (step c) z z' ∧ Coupled cfg c w' z' := by
  have hsane := step_sane hs hl h.sane
  have hi := reach_inv h.reach
  have hl0 : messages w < seqLimit := (step_log_le hs).trans_lt hl
  obtain ⟨hok, hidle⟩ := h.sane.written.single hk
  cases a with
  | pubCall call =>
    simp only [World.step, if_neg hk] at hs
    obtain ⟨p, hp, rfl⟩ := Option.map_eq_some_iff.mp hs
    obtain ⟨_, _, hpc, hpc'⟩ := pubCall_quiet hp
    refine ⟨z, .start, hsane, h.reach, h.mirrors, h.writerPC.trans ?_, h.readers⟩
    rcases hpc' with hpc' | hpc'
    · rw [hpc, hpc']
    · rw [hpc, hpc']
      rfl
  | pub =>
    obtain ⟨⟨r, t, p⟩, hp, rfl⟩ := Option.map_eq_some_iff.mp hs
    have he := SpWriter.step_effect hp
    have hg := (he.ok hok hl).2
    obtain ⟨z', hreach, hreaders, hm, hpc⟩ := writer_follows h.mirrors h.writerPC he hok hl hmax
    refine ⟨z', hreach, hsane, h.reach.trans hreach, hm, hpc, fun j hj => ?_⟩
    rw [hreaders]
    exact (h.readers j hj).mono hg
  | mpCall p call =>
    simp only [World.step, if_neg hk] at hs
    cases hs
  | mp p =>
    obtain ⟨⟨r, pc⟩, hp, _⟩ := Option.map_eq_some_iff.mp hs
    rw [hidle p] at hp
    cases hp
  | subscribe j kind =>
    obtain ⟨s, hsub, rfl⟩ := Option.map_eq_some_iff.mp hs
    refine h.subStays (i := j) hsane rfl rfl (fun q hq => setSub_ne w s hq) fun hj => ?_
    rw [setSub_self]
    obtain ⟨hpc, pc, hpc', rfl⟩ := subscribe_pc hsub
    have hnot : ¬ Created (stage (w.subs j).pc) := by
      rw [hpc]
      exact fun h => h
    refine ⟨fun _ => (h.readers j hj).waiting hnot, fun hw => ?_⟩
    rcases hpc' with rfl | rfl <;> exact hw.1.elim
  | subCall j call =>
    obtain ⟨s, hcall, rfl⟩ := Option.map_eq_some_iff.mp hs
    refine h.subStays (i := j) hsane rfl rfl (fun q hq => setSub_ne w s hq) fun hj => ?_
    rw [setSub_self]
    exact (h.readers j hj).call hcall
  | sub j =>
    obtain ⟨⟨t, s⟩, hst, rfl⟩ := Option.map_eq_some_iff.mp hs
    by_cases hj : (j : Int) < c.numReaders ∧ Watched (w.subs j)
    · obtain ⟨hj, hwatched⟩ := hj
      have hr : isReader c ((j : Int) + 1) := ⟨by omega, by omega⟩
      obtain ⟨x', hreach, htied⟩ := reader_follows h.mirrors hi (hi.readers _) hr (h.sane.readers j) hok hl0
        ((h.readers j hj).tied hwatched) hst
      rw [setReader_same] at hreach
      refine h.sub (i := j) hsane rfl rfl (fun q hq => setSub_ne _ s hq) fun _ => ⟨hreach, ?_⟩
      rw [setSub_self]
      exact htied.paired
    · refine h.subStays (i := j) hsane rfl rfl (fun q hq => setSub_ne _ s hq) fun hj' => ?_
      rw [setSub_self]
      exact (h.readers j hj').change (h.sane.readers j) (step_change hst) fun hw => hj ⟨hj', hw⟩
  | drop j =>
    obtain ⟨s, hdrop, rfl⟩ := Option.map_eq_some_iff.mp hs
    refine h.subStays (i := j) hsane rfl rfl (fun q hq => setSub_ne w s hq) fun hj => ?_
    rw [setSub_self]
    obtain ⟨hpc, hs'⟩ := drop_pc hdrop
    have hst : stage (w.subs j).pc = .ready := by rcases hpc with hpc | hpc <;> rw [hpc] <;> rfl
    rcases hs' with rfl | rfl
    · exact (h.readers j hj).local hst ⟨rfl, rfl, rfl, rfl, rfl, rfl⟩ ⟨by simp, by simp [stage]⟩
    · exact (h.readers j hj).local hst ⟨rfl, rfl, rfl, rfl, rfl, rfl⟩ ⟨by simp, by simp [stage]⟩
  | cloneTracker j =>
    simp only [World.step] at hs
    split_ifs at hs
    cases hs
    exact ⟨z, .start, hsane, h.reach, h.mirrors, h.writerPC, h.readers⟩
  | dropClone j =>
    simp only [World.step] at hs
    split_ifs at hs
    cases hs
    exact ⟨z, .start, hsane, h.reach, h.mirrors, h.writerPC, h.readers⟩
  | shutdown j =>
    cases hs
    refine h.subStays (i := j) hsane rfl rfl (fun q hq => setSub_ne w _ hq) fun hj => ?_
    rw [setSub_self]
    have hp := h.readers j hj
    exact ⟨hp.waiting, fun hw => (hp.tied hw).shutdown w.ring⟩

theorem coupled_new (cfg : Config) (hR : c.ringSize = cfg.capacity) : Coupled cfg c (World.new n) init where
  sane := ⟨written_new cfg, fun _ => Reader.ok_absent cfg _⟩
  reach := .start
  mirrors := ⟨hR, fun _ _ => rfl, rfl⟩
  writerPC := rfl
  readers _ _ := ⟨fun _ => ⟨rfl, rfl, rfl⟩, fun hw => hw.1.elim⟩

theorem Coupled.agrees (h : Coupled cfg c w z) : Agrees cfg c w z := by
  have hi := reach_inv h.reach
  refine ⟨by rw [hi.writer.cursor, h.mirrors.seq], h.mirrors.slots,
    fun i hi hw => ((h.readers i hi).tied hw).result, fun i hi hw => ?_⟩
  cases ((h.readers i hi).tied hw).follows with
  | resting _ _ hcur => exact Or.inl hcur
  | reading _ _ hcur => exact Or.inl hcur
  | behind _ _ _ _ hcur hover =>
    rcases eq_or_lt_of_le hcur with he | hlt
    · exact Or.inl he
    · exact Or.inr ⟨hlt, hover⟩

/-- A channel with one publisher, bounded or not, runs as the specification does: for every
run of it below the limit on messages there is a run of the specification, with any number of
readers and room for these messages, that shows after every step of the channel the same slots
and the same published messages and, for each of the first subscribers that began at message 0
and has not called `latest`, the same committed read. -/
theorem channel_refines_spec (hk : cfg.kind ≠ .mpmc) (hR : c.ringSize = cfg.capacity) {as : List (Act n)}
    (hrun : run (World.step cfg) (World.new n) as = some w) (hl : messages w < seqLimit)
    (hmax : (messages w : Int) ≤ c.maxSeq) :
    ∃ f : Nat → State, f 0 = init ∧ (∀ k, Reachable (step c) (f k) (f (k + 1))) ∧
      ∀ k u, run (World.step cfg) (World.new n) (as.take k) = some u → Agrees cfg c u (f k) := by
  obtain ⟨f, hf0, hf, hcoupled⟩ := run_simulates (R := Coupled cfg c)
    (G := fun u => messages u < seqLimit ∧ (messages u : Int) ≤ c.maxSeq)
    (fun s a t hs ⟨hl, hm⟩ => by have := step_log_le hs; unfold messages at *; omega)
    (fun s s' a t hR hs ⟨hl, hm⟩ => step_simulates hk hR hs hl hm) hrun ⟨hl, hmax⟩ (coupled_new cfg hR)
  exact ⟨f, hf0, hf, fun k u hu => (hcoupled k u hu).agrees⟩

/-- The reader commits one message and lags; when it looks at the head, the fifth message is
stamped and not announced. A second reader has no subscriber. -/
theorem channel_refines_spec_lagged : ∃ (w : World 1) (z : State),
    Reachable (step ⟨2, 2, 5, by decide, by decide, by decide⟩) init z ∧
    Agrees Config.smallLossy ⟨2, 2, 5, by decide, by decide, by decide⟩ w z ∧
    w.ring.cursor = 3 ∧ z.cursor = 4 ∧ (w.subs 0).cursor = 2 ∧ (z.readers 1).result = 0 := by
  let publish (v : UInt8) (steps : Nat) : List (Act 1) := .pubCall (.publish fun _ => v) :: List.replicate steps .pub
  let receive (steps : Nat) : List (Act 1) := .subCall 0 .tryRecv :: List.replicate steps (.sub 0)
  let as := [.subscribe 0 .subscribe, .sub 0] ++ publish 7 5 ++ receive 4 ++ publish 8 5 ++ publish 9 5 ++
    publish 10 5 ++ publish 11 4 ++ receive 3
  have hrun : (run (World.step Config.smallLossy) (World.new 1) as).any (fun w =>
      decide (messages w = 5 ∧ w.ring.cursor = 3 ∧ (w.subs 0).cursor = 2 ∧ lastCommitted (w.subs 0) = 0 ∧
        (w.subs 0).start = 0 ∧ (w.subs 0).latestUsed = false) && ((w.subs 0).call .tryRecv).isSome) = true := by
    decide +kernel
  obtain ⟨w, hw, htest⟩ := (Option.any_eq_true _ _).mp hrun
  obtain ⟨htest, hcall⟩ := (Bool.and_eq_true _ _).mp htest
  obtain ⟨_, hcall⟩ := Option.isSome_iff_exists.mp hcall
  have hcreated : Created (stage (w.subs 0).pc) := by
    rw [(call_idle hcall).1]
    trivial
  obtain ⟨hmsg, hcur, hpos, hlast, hstart, hlatest⟩ := of_decide_eq_true htest
  obtain ⟨f, hf0, hf, hall⟩ := channel_refines_spec (c := ⟨2, 2, 5, by decide, by decide, by decide⟩)
    (by decide) rfl hw (by rw [hmsg]; decide) (by rw [hmsg]; decide)
  have hagrees := hall as.length w (by rw [List.take_length]; exact hw)
  have hreach (k : Nat) : Reachable (step ⟨2, 2, 5, by decide, by decide, by decide⟩) init (f k) := by
    induction k with
    | zero =>
      rw [hf0]
      exact .start
    | succ k ih => exact ih.trans (hf k)
  refine ⟨w, f as.length, hreach as.length, hagrees, hcur, ?_, hpos, ?_⟩
  · rw [hagrees.cursor]
    unfold messages at hmsg
    rw [hmsg]
    rfl
  · exact (hagrees.result 0 (by decide) ⟨hcreated, hstart, hlatest⟩).trans hlast

end PhotonRing.Verification
