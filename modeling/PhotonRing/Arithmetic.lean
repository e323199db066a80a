import PhotonRing.Channel.Bounded
import PhotonRing.Event.Exclusive

/-!
# Sequence arithmetic stays in range

Every program point comes with the list of the `u64` operations on sequences, stamps and
cursors that the next step evaluates, and of the slots it addresses. In every run with at
most `2^63 - 2` claimed sequences none of them wraps, and every index is below the number
of slots.
-/
namespace PhotonRing

open Lib

/-- A `u64` operation with its operands, or an index into an array of `len` slots. -/
inductive Arith where
  | add (a b : Nat)
  | sub (a b : Nat)
  | mul (a b : Nat)
  | index (idx len : Nat)
  deriving DecidableEq, Repr

/-- The operation does not wrap; the index is in bounds. -/
def Arith.Safe : Arith → Prop
  | .add a b => a + b < 2 ^ 64
  | .sub a b => b ≤ a
  | .mul a b => a * b < 2 ^ 64
  | .index idx len => idx < len

/-- The word that the operation leaves. -/
def Arith.word : Arith → Nat
  | .add a b => u64 (a + b)
  | .sub a b => u64 (2 ^ 64 + a - b)
  | .mul a b => u64 (a * b)
  | .index idx _ => idx

namespace Arithmetic

/-! ## The operations of the source -/

/-- `RingIndex::slot`, and the address that its result is added to. -/
def slotArith (x : RingIndex) (seq : Nat) : List Arith :=
  (if x.isPow2 then []
    else
      let rem := seq - u64 (x.quotient seq * x.capacity)
      .sub seq (u64 (x.quotient seq * x.capacity)) :: if x.capacity ≤ rem then [.sub rem x.capacity] else []) ++
  [.index (x.slot seq) x.capacity]

/-- The slot of a sequence to be published, and the prefetch of the one after it. -/
def prefetchArith (x : RingIndex) (seq : Nat) : List Arith :=
  slotArith x seq ++ .add seq 1 :: slotArith x (seq + 1)

/-- `seq * 2 + 2`. -/
def doneArith (seq : Nat) : List Arith := [.mul seq 2, .add (seq * 2) 2]

/-- The two stamps of `Slot::write`. -/
def writeArith (seq : Nat) : List Arith := .mul seq 2 :: .add (seq * 2) 1 :: doneArith seq

/-- `head + 1`, unless nothing was published. -/
def startArith (head : Nat) : List Arith := if head = u64Max then [] else [.add head 1]

/-- `head - capacity + 1`, once the ring has been filled. -/
def oldestArith (capacity head : Nat) : List Arith :=
  if head = u64Max then []
  else if capacity ≤ head then [.sub head capacity, .add (head - capacity) 1] else []

/-- `head - cursor + 1`, if there is something to read. -/
def pendingArith (head cursor : Nat) : List Arith :=
  if head = u64Max ∨ head < cursor then [] else [.sub head cursor, .add (head - cursor) 1]

/-- The lag computed at the end of `read_slot`. -/
def lagArith (capacity head cursor : Nat) : List Arith :=
  if head = u64Max ∨ head < cursor then []
  else oldestArith capacity head ++
    if capacity ≤ head ∧ cursor < head - capacity + 1 then [.sub (head - capacity + 1) cursor] else []

/-- `has_room` on a minimum that it was given. -/
def roomArith (cfg : Config) (slowest : Nat) : List Arith :=
  match cfg.kind with
  | .bounded w => [.sub cfg.capacity w, .add slowest (cfg.capacity - w)]
  | _ => []

variable {n : Nat} {τ : Type}

/-- What the next step of the publisher evaluates. -/
def pubArith (cfg : Config) (p : Publisher n) : List Arith :=
  match p.pc with
  | .room _ => roomArith cfg p.cachedSlowest
  | .scan _ [] _ min true => roomArith cfg min
  | .closure _ => prefetchArith (.new cfg.capacity) p.seq
  | .write _ _ .begin => prefetchArith (.new cfg.capacity) p.seq ++ writeArith p.seq
  | .cursor _ => [.add p.seq 1]
  | _ => []

/-- What the next step of a producer evaluates. -/
def mpArith (cfg : Config) (r : Ring n) : MpPc n → List Arith
  | .claim _ => [.add r.nextSeq 1]
  | .waitSlot own _ =>
    prefetchArith (.new cfg.capacity) own ++
      if own < cfg.capacity then [] else .sub own cfg.capacity :: doneArith (own - cfg.capacity)
  | .write own _ .begin => writeArith own
  | .cas own => if own = 0 then [] else [.sub own 1]
  | .waitPred own => .sub own 1 :: slotArith (.new cfg.capacity) (own - 1) ++ doneArith (own - 1)
  | .catchNext _ seq => [.add seq 1]
  | .catchStamp _ seq => doneArith (seq + 1) ++ slotArith (.new cfg.capacity) (seq + 1)
  | _ => []

/-- What the next step of a subscriber evaluates. The increment after the last load is made
only if the read is validated. -/
def subArith (cfg : Config) (r : Ring n) (s : Subscriber n) : List Arith :=
  match s.pc with
  | .loadHead .fromOldest => oldestArith cfg.capacity r.cursor
  | .loadHead _ => startArith r.cursor
  | .read _ .stamp => slotArith (.new cfg.capacity) s.cursor ++ doneArith s.cursor
  | .read _ (.load _ _) => [.add s.cursor 1]
  | .head _ => lagArith cfg.capacity r.cursor s.cursor
  | .pending => pendingArith r.cursor s.cursor
  | .loadPending _ _ _ => pendingArith r.cursor s.cursor
  | _ => []

/-- What the next step of the event ring's publisher evaluates. -/
def eventPubArith (cfg : Event.Config) (p : Event.EventPublisher τ) : List Arith :=
  match p.pc with
  | .room _ => [.add p.cachedSlowest cfg.capacity]
  | .scan _ [] _ min true => [.add min cfg.capacity]
  | .closure _ _ => slotArith (.new cfg.capacity) p.seq
  | .cursor => [.add p.seq 1]
  | _ => []

/-- What the next step of the event ring's subscriber evaluates. -/
def eventSubArith (cfg : Event.Config) (r : Event.EventRing τ) (s : Event.EventSubscriber τ) : List Arith :=
  match s.pc with
  | .loadHead => startArith r.cursor
  | .borrow (_ + 1) _ => slotArith (.new cfg.capacity) s.cursor
  | .borrow 0 _ => slotArith (.new cfg.capacity) s.cursor ++ [.add s.cursor 1]
  | .pending => pendingArith r.cursor s.cursor
  | _ => []

/-! ## The lists and the steps

What a step compares with, stores and addresses is what an operation of its list leaves.
The stamps and the address of a write are evaluated when it begins, and a producer that
moves the cursor on has evaluated its new value two steps before. -/

/-- Some operation of the list leaves `x`. -/
def Yields (l : List Arith) (x : Nat) : Prop := ∃ e ∈ l, e.word = x

section Lists

variable {l l' : List Arith} {x c seq head cursor : Nat}

theorem Yields.left (h : Yields l x) : Yields (l ++ l') x := by
  obtain ⟨e, he, hx⟩ := h
  exact ⟨e, List.mem_append_left _ he, hx⟩

theorem Yields.right (h : Yields l' x) : Yields (l ++ l') x := by
  obtain ⟨e, he, hx⟩ := h
  exact ⟨e, List.mem_append_right _ he, hx⟩

theorem word_sub {a b : Nat} (hle : b ≤ a) (ha : a < 2 ^ 64) : (Arith.sub a b).word = a - b := by
  simp only [Arith.word, u64]
  omega

theorem slot_yields (ix : RingIndex) (seq : Nat) : Yields (slotArith ix seq) (ix.slot seq) :=
  Yields.right ⟨_, List.mem_singleton.mpr rfl, rfl⟩

theorem prefetch_yields (ix : RingIndex) (seq : Nat) : Yields (prefetchArith ix seq) (ix.slot seq) :=
  (slot_yields ix seq).left

theorem done_yields (seq : Nat) : Yields (doneArith seq) (done seq) := ⟨.add (seq * 2) 2, by simp [doneArith], rfl⟩

theorem write_yields {n : Nat} (s : Slot n) (v : Value n) (pc : WritePc) :
    (s.writeStep seq v pc).1.stamp = s.stamp ∨ Yields (writeArith seq) (s.writeStep seq v pc).1.stamp := by
  cases pc with
  | begin => exact Or.inr ⟨.add (seq * 2) 1, by simp [writeArith], rfl⟩
  | store off =>
    simp only [Slot.writeStep]
    split_ifs
    · exact Or.inl rfl
    · exact Or.inr ⟨.add (seq * 2) 2, by simp [writeArith, doneArith], rfl⟩

theorem start_yields (head : Nat) : startOf head = 0 ∨ Yields (startArith head) (startOf head) := by
  unfold startOf startArith
  split_ifs
  · exact Or.inl rfl
  · exact Or.inr ⟨_, List.mem_singleton.mpr rfl, rfl⟩

theorem add_one_yields {a b : Nat} (hlt : a - b + 1 < 2 ^ 64) :
    Yields [.sub a b, .add (a - b) 1] (a - b + 1) :=
  ⟨.add (a - b) 1, by simp, u64_of_lt hlt⟩

theorem oldest_yields (hc : 0 < c) (hhead : head < 2 ^ 64) :
    oldestOf c head = 0 ∨ Yields (oldestArith c head) (oldestOf c head) := by
  unfold oldestOf oldestArith
  split_ifs
  · exact Or.inl rfl
  · exact Or.inr (add_one_yields (by omega))
  · exact Or.inl rfl

end Lists

section Steps

variable {cfg : Config} {r r' : Ring n} {t t' : Trackers} {p p' : Publisher n} {wm : Nat}

/-- The room test of the fast path, against what `has_room` has computed. -/
theorem pub_room {c : PubCall n} (hk : cfg.kind = .bounded wm) (hpc : p.pc = .room c) :
    ∃ limit, Yields (pubArith cfg p) limit ∧ p.step cfg r t =
      some (r, t, if limit ≤ p.seq then { p with pc := .lock c } else p.enter c) := by
  refine ⟨u64 (p.cachedSlowest + cfg.effective), ⟨.add p.cachedSlowest (cfg.capacity - wm), ?_, ?_⟩, ?_⟩
  · simp [pubArith, hpc, roomArith, hk]
  · simp [Arith.word, Config.effective, hk]
  · simp only [Publisher.step, hpc, hk]
    split_ifs <;> rfl

/-- The same after the scan of the trackers. -/
theorem pub_scan {c : PubCall n} {kept : List Nat} {min : Nat} (hk : cfg.kind = .bounded wm)
    (hpc : p.pc = .scan c [] kept min true) :
    ∃ limit, Yields (pubArith cfg p) limit ∧ p.step cfg r t =
      some (r, { t with locked := false, registered := kept }, if limit ≤ p.seq
        then { p with cachedSlowest := min }.full c else { p with cachedSlowest := min }.enter c) := by
  refine ⟨u64 (min + cfg.effective), ⟨.add min (cfg.capacity - wm), ?_, ?_⟩, ?_⟩
  · simp [pubArith, hpc, roomArith, hk]
  · simp [Arith.word, Config.effective, hk]
  · simp only [Publisher.step, hpc, if_true]
    split_ifs <;> rfl

/-- The publisher's sequence, the slot it writes and the stamp that it leaves there. -/
theorem pub_stores (h : p.step cfg r t = some (r', t', p')) :
    (p'.seq = p.seq ∨ Yields (pubArith cfg p) p'.seq) ∧
    (r'.slots = r.slots ∨ ∃ v rest pc idx s, p.pc = .write v rest pc ∧ r'.slots = Function.update r.slots idx s ∧
      Yields (pubArith cfg { p with pc := .write v rest .begin }) idx ∧
      (s.stamp = (r.slots idx).stamp ∨ Yields (pubArith cfg { p with pc := .write v rest .begin }) s.stamp)) := by
  have hwrite (v : Value n) (rest : List (Value n)) (pc : WritePc) :
      Yields (pubArith cfg { p with pc := .write v rest .begin }) (cfg.slot p.seq) ∧
      (((r.slots (cfg.slot p.seq)).writeStep p.seq v pc).1.stamp = (r.slots (cfg.slot p.seq)).stamp ∨
        Yields (pubArith cfg { p with pc := .write v rest .begin })
          ((r.slots (cfg.slot p.seq)).writeStep p.seq v pc).1.stamp) :=
    ⟨(prefetch_yields _ _).left, (write_yields _ v pc).imp_right .right⟩
  cases SpWriter.step_effect h with
  | quiet hseq _ _ => exact ⟨Or.inl hseq, Or.inl rfl⟩
  | @write v rest pc _ _ hseq hp _ _ =>
    exact ⟨Or.inl hseq, Or.inr ⟨v, rest, pc, _, _, hp, rfl, (hwrite v rest pc).1, (hwrite v rest pc).2⟩⟩
  | @finish v rest pc _ hseq hp _ _ =>
    exact ⟨Or.inl hseq, Or.inr ⟨v, rest, pc, _, _, hp, rfl, (hwrite v rest pc).1, (hwrite v rest pc).2⟩⟩
  | announce hp hseq _ => exact ⟨Or.inr ⟨.add p.seq 1, by simp [pubArith, hp], hseq.symm⟩, Or.inl rfl⟩

/-! The producers -/

variable {pc pc' : MpPc n} {own seq : Nat}

theorem mp_stores (h : pc.step cfg r = some (r', pc')) :
    (r'.nextSeq = r.nextSeq ∨ Yields (mpArith cfg r pc) r'.nextSeq) ∧
    (r'.cursor = r.cursor ∨ pc = .cas r'.cursor ∨ pc = .recas r'.cursor ∨
      ∃ own seq, pc = .catchCas own seq ∧ Yields (mpArith cfg r (.catchNext own seq)) r'.cursor) ∧
    (r'.slots = r.slots ∨ ∃ own v wpc idx s, pc = .write own v wpc ∧ r'.slots = Function.update r.slots idx s ∧
      (∀ c, Yields (mpArith cfg r (.waitSlot own c)) idx) ∧
      (s.stamp = (r.slots idx).stamp ∨ Yields (mpArith cfg r (.write own v .begin)) s.stamp)) := by
  cases pc with
  | claim c =>
    cases h
    exact ⟨Or.inr ⟨.add r.nextSeq 1, List.mem_singleton.mpr rfl, rfl⟩, Or.inl rfl, Or.inl rfl⟩
  | write own v wpc =>
    have hstores : r'.nextSeq = r.nextSeq ∧ r'.cursor = r.cursor ∧ r'.slots = Function.update r.slots (cfg.slot own)
        ((r.slots (cfg.slot own)).writeStep own v wpc).1 := by
      simp only [MpPc.step] at h
      split at h <;> cases h <;> exact ⟨rfl, rfl, rfl⟩
    exact ⟨Or.inl hstores.1, Or.inl hstores.2.1, Or.inr ⟨own, v, wpc, _, _, rfl, hstores.2.2,
      fun _ => (prefetch_yields _ _).left, write_yields _ v wpc⟩⟩
  | cas own =>
    simp only [MpPc.step] at h
    split_ifs at h <;> cases h
    · exact ⟨Or.inl rfl, Or.inr (Or.inl rfl), Or.inl rfl⟩
    · exact ⟨Or.inl rfl, Or.inl rfl, Or.inl rfl⟩
    · exact ⟨Or.inl rfl, Or.inl rfl, Or.inl rfl⟩
  | recas own =>
    simp only [MpPc.step] at h
    split_ifs at h <;> cases h
    · exact ⟨Or.inl rfl, Or.inr (Or.inr (Or.inl rfl)), Or.inl rfl⟩
    · exact ⟨Or.inl rfl, Or.inl rfl, Or.inl rfl⟩
  | catchCas own seq =>
    simp only [MpPc.step, MpPc.ret] at h
    split_ifs at h <;> cases h
    · have hnext : Yields (mpArith cfg r (.catchNext own seq)) (u64 (seq + 1)) :=
        ⟨.add seq 1, List.mem_singleton.mpr rfl, rfl⟩
      exact ⟨Or.inl rfl, Or.inr (Or.inr (Or.inr ⟨own, seq, rfl, hnext⟩)), Or.inl rfl⟩
    · exact ⟨Or.inl rfl, Or.inl rfl, Or.inl rfl⟩
  | idle => cases h
  | closure own v =>
    cases h
    exact ⟨Or.inl rfl, Or.inl rfl, Or.inl rfl⟩
  | _ =>
    simp only [MpPc.step, MpPc.ret] at h
    split_ifs at h <;> cases h <;> exact ⟨Or.inl rfl, Or.inl rfl, Or.inl rfl⟩

/-- The lap wait tests a slot and a stamp of the list. -/
theorem mp_waitSlot (c : MpCall n) (hlap : cfg.capacity ≤ own) :
    ∃ idx stamp, Yields (mpArith cfg r (.waitSlot own c)) idx ∧ Yields (mpArith cfg r (.waitSlot own c)) stamp ∧
      (MpPc.waitSlot own c).step cfg r =
        some (r, if (r.slots idx).stamp < stamp then .waitSlot own c else MpPc.written own c) := by
  refine ⟨cfg.slot own, u64 ((own - cfg.capacity) * 2 + 2), (prefetch_yields _ _).left, Yields.right ?_, ?_⟩
  · rw [if_neg (Nat.not_lt.mpr hlap)]
    exact Yields.right (l := [_]) (done_yields (own - cfg.capacity))
  · simp only [MpPc.step, if_neg (Nat.not_lt.mpr hlap)]
    split_ifs <;> rfl

/-- The predecessor wait. -/
theorem mp_waitPred : ∃ idx stamp, Yields (mpArith cfg r (.waitPred own)) idx ∧
    Yields (mpArith cfg r (.waitPred own)) stamp ∧
      (MpPc.waitPred own).step cfg r = some (r, if (r.slots idx).stamp < stamp then .waitPred own else .recas own) := by
  refine ⟨cfg.slot (own - 1), u64 ((own - 1) * 2 + 2), ?_, Yields.right (done_yields (own - 1)), ?_⟩
  · exact Yields.left (Yields.right (l := [_]) (slot_yields _ _))
  · simp only [MpPc.step]
    split_ifs <;> rfl

/-- The catch-up loop: the position after the cursor, then its slot and stamp. -/
theorem mp_catchNext : ∃ next, Yields (mpArith cfg r (.catchNext own seq)) next ∧
    (MpPc.catchNext own seq).step cfg r =
      some (if r.nextSeq ≤ next then MpPc.ret r own else (r, .catchStamp own seq)) := by
  refine ⟨u64 (seq + 1), ⟨_, List.mem_singleton.mpr rfl, rfl⟩, ?_⟩
  simp only [MpPc.step]
  split_ifs <;> rfl

theorem mp_catchStamp (hseq : seq + 1 < 2 ^ 64) : ∃ idx stamp, Yields (mpArith cfg r (.catchStamp own seq)) idx ∧
    Yields (mpArith cfg r (.catchStamp own seq)) stamp ∧ (MpPc.catchStamp own seq).step cfg r =
      some (if (r.slots idx).stamp < stamp then MpPc.ret r own else (r, .catchCas own seq)) := by
  refine ⟨cfg.slot (seq + 1), u64 ((seq + 1) * 2 + 2), (slot_yields _ _).right, (done_yields (seq + 1)).left, ?_⟩
  simp only [MpPc.step, u64_of_lt hseq]
  split_ifs <;> rfl

/-! The subscribers -/

variable {i : Nat} {s s' : Subscriber n}

/-- A read addresses a slot of the list and compares its stamp with one. -/
theorem sub_reads {c : Caller n} (hpc : s.pc = .read c .stamp) :
    Yields (subArith cfg r s) (cfg.slot s.cursor) ∧ Yields (subArith cfg r s) (done s.cursor) := by
  simp only [subArith, hpc]
  exact ⟨(slot_yields _ _).left, (done_yields _).right⟩

/-- Where a subscriber starts: at the front, or at a position of the list. -/
theorem sub_starts {k : SubscribeKind} (hhead : r.cursor < 2 ^ 64) (hpc : s.pc = .loadHead k)
    (h : s.step cfg r t i = some (t', s')) : ∃ start, (start = 0 ∨ Yields (subArith cfg r s) start) ∧
      (s'.pc = .push start ∨ s'.pc = .lockPush start ∨ s'.pc = .idle ∧ s'.cursor = start) := by
  cases k with
  | fromOldest =>
    have hold := oldest_yields (c := cfg.capacity) (by have := cfg.two_le; omega) hhead
    refine ⟨oldestOf cfg.capacity r.cursor, by simpa only [subArith, hpc] using hold, ?_⟩
    simp only [Subscriber.step, hpc] at h
    split at h <;> cases h
    · exact Or.inr (Or.inl rfl)
    · exact Or.inr (Or.inr ⟨rfl, rfl⟩)
  | lossy =>
    refine ⟨startOf r.cursor, by simpa only [subArith, hpc] using start_yields r.cursor, ?_⟩
    simp only [Subscriber.step, hpc] at h
    cases h
    exact Or.inr (Or.inr ⟨rfl, rfl⟩)
  | _ =>
    refine ⟨startOf r.cursor, by simpa only [subArith, hpc] using start_yields r.cursor, ?_⟩
    simp only [Subscriber.step, hpc] at h
    split at h <;> cases h
    · exact Or.inl rfl
    · exact Or.inr (Or.inr ⟨rfl, rfl⟩)

/-- The tail of `read_slot`: the new cursor, and the loss that is reported. -/
theorem sub_lag {c : Caller n} (hhead : r.cursor < 2 ^ 64) (hpc : s.pc = .head c) :
    s.onHead cfg c r.cursor = s.resume .empty c ∨ ∃ start skipped, Yields (subArith cfg r s) start ∧
      Yields (subArith cfg r s) skipped ∧
      s.onHead cfg c r.cursor = { s with cursor := start, pc := .commit c (.lagged skipped) } := by
  refine Subscriber.onHead_cases (P := fun s' => s' = s.resume .empty c ∨ ∃ start skipped,
    Yields (subArith cfg r s) start ∧ Yields (subArith cfg r s) skipped ∧
      s' = { s with cursor := start, pc := .commit c (.lagged skipped) }) (Or.inl rfl) fun hmax hcap hlt => ?_
  have hlist : subArith cfg r s = [.sub r.cursor cfg.capacity, .add (r.cursor - cfg.capacity) 1] ++
      [.sub (r.cursor - cfg.capacity + 1) s.cursor] := by
    have hsome : ¬ (r.cursor = u64Max ∨ r.cursor < s.cursor) := by
      have := cfg.two_le
      omega
    simp only [subArith, hpc, lagArith, oldestArith, if_neg hsome, if_neg hmax, if_pos hcap,
      if_pos (And.intro hcap hlt)]
  have htwo := cfg.two_le
  refine Or.inr ⟨_, _, ?_, ?_, rfl⟩
  · rw [hlist]
    exact (add_one_yields (by omega)).left
  · rw [hlist]
    exact Yields.right ⟨_, List.mem_singleton.mpr rfl, word_sub hlt.le (by omega)⟩

/-- What `pending` counts, before the capacity caps it. -/
theorem sub_pending (hhead : r.cursor < 2 ^ 64) (hpc : s.pc = .pending ∨ ∃ policy idle final,
    s.pc = .loadPending policy idle final) : pendingOf cfg.capacity r.cursor s.cursor = 0 ∨
      ∃ count, Yields (subArith cfg r s) count ∧
        pendingOf cfg.capacity r.cursor s.cursor = min count cfg.capacity := by
  have hlist : subArith cfg r s = pendingArith r.cursor s.cursor := by
    rcases hpc with hpc | ⟨_, _, _, hpc⟩ <;> simp only [subArith, hpc]
  rw [hlist]
  unfold pendingOf pendingArith
  split_ifs with hnone
  · exact Or.inl rfl
  · have hsome : r.cursor ≠ u64Max := fun hmax => hnone (Or.inl hmax)
    unfold u64Max at hsome
    exact Or.inr ⟨_, add_one_yields (by omega), rfl⟩

/-- A message that is taken moves the cursor by an addition of the list. -/
theorem sub_takes {c : Caller n} {pc : ReadPc n} {buf : Buf n} (hpc : s.pc = .read c pc)
    (hread : (r.slots (cfg.slot s.cursor)).readStep s.cursor pc = .inr (.value buf)) :
    ∃ next, Yields (subArith cfg r s) next ∧
      s.onTryRead c (.value buf) = { s with cursor := next, pc := .commit c (.ok buf) } := by
  cases pc with
  | stamp =>
    simp only [Slot.readStep] at hread
    split_ifs at hread <;> cases hread
  | load off buf' => exact ⟨u64 (s.cursor + 1), ⟨.add s.cursor 1, by simp [subArith, hpc], rfl⟩, rfl⟩

end Steps

/-! The event ring -/

section EventSteps

variable {cfg : Event.Config} {r r' : Event.EventRing τ} {t t' : Trackers} {i : Nat}
  {p p' : Event.EventPublisher τ} {s s' : Event.EventSubscriber τ}

theorem event_pub_room {c : Event.Call τ} (hpc : p.pc = .room c) :
    ∃ limit, Yields (eventPubArith cfg p) limit ∧ p.step cfg r t =
      some (r, t, if limit ≤ p.seq then { p with pc := .lock c } else p.write c) := by
  refine ⟨u64 (p.cachedSlowest + cfg.capacity), ⟨.add p.cachedSlowest cfg.capacity, ?_, rfl⟩, ?_⟩
  · simp [eventPubArith, hpc]
  · simp only [Event.EventPublisher.step, hpc]
    split_ifs <;> rfl

theorem event_pub_scan {c : Event.Call τ} {kept : List Nat} {min : Nat} (hpc : p.pc = .scan c [] kept min true) :
    ∃ limit, Yields (eventPubArith cfg p) limit ∧ p.step cfg r t =
      some (r, { t with locked := false, registered := kept }, if limit ≤ p.seq
        then { p with cachedSlowest := min }.full c else { p with cachedSlowest := min }.write c) := by
  refine ⟨u64 (min + cfg.capacity), ⟨.add min cfg.capacity, by simp [eventPubArith, hpc], rfl⟩, ?_⟩
  simp only [Event.EventPublisher.step, hpc, if_true]
  split_ifs <;> rfl

/-- Every store of the closure goes to the slot of the list, and `publish` adds one. -/
theorem event_pub_stores (h : p.step cfg r t = some (r', t', p')) :
    (p'.seq = p.seq ∨ Yields (eventPubArith cfg p) p'.seq) ∧
    (r'.slots = r.slots ∨
      ∃ idx x, Yields (eventPubArith cfg p) idx ∧ r'.slots = Function.update r.slots idx x) := by
  cases Event.Backpressure.pub_ring h with
  | stay hseq => exact ⟨Or.inl hseq, Or.inl rfl⟩
  | write hp =>
    have hslot : Yields (eventPubArith cfg p) (cfg.slot p.seq) := by
      simp only [eventPubArith, hp]
      exact slot_yields _ _
    exact ⟨Or.inl rfl, Or.inr ⟨_, _, hslot, rfl⟩⟩
  | publish hp => exact ⟨Or.inr ⟨.add p.seq 1, by simp [eventPubArith, hp], rfl⟩, Or.inl rfl⟩

theorem event_sub_starts (hpc : s.pc = .loadHead) (h : s.step cfg r t i = some (t', s')) :
    ∃ start, (start = 0 ∨ Yields (eventSubArith cfg r s) start) ∧ s'.pc = .push start := by
  simp only [Event.EventSubscriber.step, hpc] at h
  cases h
  exact ⟨startOf r.cursor, by simpa only [eventSubArith, hpc] using start_yields r.cursor, rfl⟩

theorem event_sub_borrows {reads : Nat} {panics : Bool} (hpc : s.pc = .borrow reads panics)
    (h : s.step cfg r t i = some (t', s')) :
    Yields (eventSubArith cfg r s) (cfg.slot s.cursor) ∧
      (s'.cursor = s.cursor ∨ Yields (eventSubArith cfg r s) s'.cursor) := by
  cases reads with
  | zero =>
    simp only [eventSubArith, hpc]
    refine ⟨(slot_yields _ _).left, ?_⟩
    cases panics with
    | true =>
      simp only [Event.EventSubscriber.step, hpc] at h
      cases h
      exact Or.inl rfl
    | false =>
      simp only [Event.EventSubscriber.step, hpc] at h
      cases h
      exact Or.inr (Yields.right ⟨_, List.mem_singleton.mpr rfl, rfl⟩)
  | succ reads =>
    simp only [eventSubArith, hpc]
    refine ⟨slot_yields _ _, Or.inl ?_⟩
    simp only [Event.EventSubscriber.step, hpc] at h
    cases h
    rfl

end EventSteps

/-! ## They are safe -/

abbrev AllSafe (l : List Arith) : Prop := ∀ e ∈ l, e.Safe

/-- Sequences that can be claimed, or come right after one that was. -/
abbrev InRange (seq : Nat) : Prop := seq ≤ 2 ^ 63 - 2

variable {c seq head cursor : Nat}

theorem slot_safe (hc : 2 ≤ c) (hseq : seq < 2 ^ 64) : AllSafe (slotArith (.new c) seq) := by
  have hle := RingIndex.quotient_mul_le hc hseq
  have hindex : (RingIndex.new c).slot seq < c := by
    rw [RingIndex.slot_eq_mod hc hseq]
    exact Nat.mod_lt _ (by omega)
  have hword : u64 ((RingIndex.new c).quotient seq * c) ≤ seq := (u64_le _).trans hle
  intro e he
  rcases List.mem_append.mp he with he | he
  · split at he
    · cases he
    · rcases List.mem_cons.mp he with rfl | he
      · exact hword
      · split_ifs at he with hrem
        · obtain rfl := List.mem_singleton.mp he
          exact hrem
        · cases he
  · obtain rfl := List.mem_singleton.mp he
    exact hindex

theorem done_safe (h : InRange seq) : AllSafe (doneArith seq) := by
  intro e he
  rcases List.mem_pair.mp he with rfl | rfl <;> simp only [Arith.Safe] <;> unfold InRange at h <;> omega

theorem write_safe (h : InRange seq) : AllSafe (writeArith seq) := by
  intro e he
  rcases List.mem_cons.mp he with rfl | he
  · simp only [Arith.Safe]
    omega
  · rcases List.mem_cons.mp he with rfl | he
    · simp only [Arith.Safe]
      omega
    · exact done_safe h e he

theorem prefetch_safe (hc : 2 ≤ c) (h : InRange seq) : AllSafe (prefetchArith (.new c) seq) := by
  intro e he
  rcases List.mem_append.mp he with he | he
  · exact slot_safe hc (by omega) e he
  · rcases List.mem_cons.mp he with rfl | he
    · simp only [Arith.Safe]
      omega
    · exact slot_safe hc (by omega) e he

theorem start_safe (h : head ≠ u64Max → InRange head) : AllSafe (startArith head) := by
  intro e he
  unfold startArith at he
  split_ifs at he with hmax
  · cases he
  · obtain rfl := List.mem_singleton.mp he
    have := h hmax
    simp only [Arith.Safe]
    omega

theorem oldest_safe (h : head ≠ u64Max → InRange head) : AllSafe (oldestArith c head) := by
  intro e he
  unfold oldestArith at he
  split_ifs at he with hmax hle
  · cases he
  · have := h hmax
    rcases List.mem_pair.mp he with rfl | rfl <;> simp only [Arith.Safe] <;> omega
  · cases he

theorem pending_safe (h : head ≠ u64Max → InRange head) : AllSafe (pendingArith head cursor) := by
  intro e he
  unfold pendingArith at he
  split_ifs at he with hcase
  · cases he
  · have := h (fun hmax => hcase (Or.inl hmax))
    rcases List.mem_pair.mp he with rfl | rfl <;> simp only [Arith.Safe] <;> omega

theorem lag_safe (h : head ≠ u64Max → InRange head) : AllSafe (lagArith c head cursor) := by
  intro e he
  unfold lagArith at he
  split_ifs at he with hcase hlag
  · cases he
  · rcases List.mem_append.mp he with he | he
    · exact oldest_safe h e he
    · obtain rfl := List.mem_singleton.mp he
      simp only [Arith.Safe]
      omega
  · rw [List.append_nil] at he
    exact oldest_safe h e he

theorem room_safe {cfg : Config} (ha : cfg.Allocated) (h : ∀ w, cfg.kind = .bounded w → InRange c) :
    AllSafe (roomArith cfg c) := by
  intro e he
  unfold roomArith at he
  unfold Config.Allocated at ha
  split at he
  · rename_i w hk
    have := cfg.headroom w hk
    have := h w hk
    rcases List.mem_pair.mp he with rfl | rfl <;> simp only [Arith.Safe] <;> omega
  · cases he

/-! ## The channels -/

section Channel

open World Reader

variable {cfg : Config} {w : World n}

theorem head_range (hw : Written cfg w) (hl : InRange (messages w)) (hmax : w.ring.cursor ≠ u64Max) :
    InRange w.ring.cursor := by
  have := hw.ring.cursor_lt hmax
  unfold messages at hl
  omega

theorem pub_safe (ha : cfg.Allocated) (h : Reach cfg w) (hl : InRange (messages w)) :
    AllSafe (pubArith cfg w.publisher) := by
  have hlim : messages w < seqLimit := by unfold seqLimit; omega
  have hw := reach_written h hlim
  by_cases hk : cfg.kind = .mpmc
  · unfold pubArith
    rw [(hw.mpmc hk).2]
    exact fun e he => by cases he
  · have hlen := (hw.single hk).1.length
    have hseq : InRange w.publisher.seq := by unfold messages at hl; omega
    have hbehind (wm : Nat) (hb : cfg.kind = .bounded wm) := (Bounded.reach_ok hb h hlim).2.behind
    unfold pubArith
    split
    · exact room_safe ha (fun wm hb => (hbehind wm hb).cached_le.trans hseq)
    · rename_i hpc
      refine room_safe ha (fun wm hb => ((hbehind wm hb).min_le [] _ ?_).trans hseq)
      change Bounded.scanOf w.publisher.pc = _
      rw [hpc]
      rfl
    · exact prefetch_safe cfg.two_le hseq
    · intro e he
      rcases List.mem_append.mp he with he | he
      · exact prefetch_safe cfg.two_le hseq e he
      · exact write_safe hseq e he
    · intro e he
      obtain rfl := List.mem_singleton.mp he
      simp only [Arith.Safe]
      omega
    · exact fun e he => by cases he

/-- Only a sequence that has a predecessor waits for it. -/
theorem waitPred_pos {r r' : Ring n} {pc : MpPc n} {own : Nat} (h : pc.step cfg r = some (r', .waitPred own)) :
    0 < own ∨ pc = .waitPred own := by
  cases pc with
  | cas own' =>
    simp only [MpPc.step] at h
    split_ifs at h <;> cases h
    exact Or.inl ‹_›
  | waitPred own' =>
    simp only [MpPc.step] at h
    split_ifs at h <;> cases h
    exact Or.inr rfl
  | waitSlot own' c =>
    simp only [MpPc.step, MpPc.written] at h
    split_ifs at h <;> cases h
  | write own' v pc =>
    simp only [MpPc.step] at h
    split at h <;> cases h
  | idle => cases h
  | claim c => cases h
  | closure own' v => cases h
  | _ =>
    simp only [MpPc.step, MpPc.ret] at h
    split_ifs at h <;> cases h

theorem pred_pos (h : Reach cfg w) (p own : Nat) (hp : w.producers p = .waitPred own) : 0 < own := by
  revert p own
  refine h.invariant (P := fun w => ∀ p own, w.producers p = .waitPred own → 0 < own)
    (fun _ _ hp => (by cases hp)) (fun s a t _ hs ih q own hq => ?_)
  rcases step_writers hs with ⟨_, _, hps⟩ | ⟨c, p, _, _, _, rfl⟩ | ⟨r, t, p, _, _, rfl⟩ |
    ⟨p, c, pc, _, _, hpc, rfl⟩ | ⟨p, r, pc, _, hpc, rfl⟩
  · exact ih q own (hps ▸ hq)
  · exact ih q own hq
  · exact ih q own hq
  · by_cases hqp : q = p
    · have hpc' : pc = .waitPred own := by simpa [setProducer, hqp] using hq
      rw [(mpCall_claim hpc).2] at hpc'
      cases hpc'
    · exact ih q own (by simpa [setProducer, hqp] using hq)
  · by_cases hqp : q = p
    · have hpc' : pc = .waitPred own := by simpa [setProducer, hqp] using hq
      rw [hpc'] at hpc
      rcases waitPred_pos hpc with hpos | hwait
      · exact hpos
      · exact ih p own hwait
    · exact ih q own (by simpa [setProducer, hqp] using hq)

theorem mp_safe (h : Reach cfg w) (hl : InRange (messages w)) (p : Nat) :
    AllSafe (mpArith cfg w.ring (w.producers p)) := by
  have hlim : messages w < seqLimit := by unfold seqLimit; omega
  have hw := reach_written h hlim
  by_cases hk : cfg.kind = .mpmc
  · obtain ⟨hs, _⟩ := hw.mpmc hk
    have hnext := hs.writers.next
    have hpc := hs.cursor.pcs p
    have hown {own : Nat} (ho : (MpWriter.task (w.producers p)).own? = some own) : own < messages w :=
      hs.writers.own_lt p own ho
    have hreached {seq : Nat} (hr : MpCursor.Reached w.ring seq) : seq < messages w :=
      hr.2.trans_lt (hw.ring.cursor_lt hr.1)
    have hone {a : Nat} (hle : a < messages w) : AllSafe [.add a 1] := by
      intro e he
      obtain rfl := List.mem_singleton.mp he
      simp only [Arith.Safe]
      omega
    cases hp : w.producers p with
    | claim c =>
      intro e he
      obtain rfl := List.mem_singleton.mp he
      simp only [Arith.Safe]
      unfold messages at hl
      omega
    | waitSlot own c =>
      have hlt : own < messages w := hown (by rw [hp]; rfl)
      intro e he
      rcases List.mem_append.mp he with he | he
      · exact prefetch_safe cfg.two_le (by omega) e he
      · split_ifs at he with hlap
        · cases he
        · rcases List.mem_cons.mp he with rfl | he
          · exact Nat.le_of_not_lt hlap
          · exact done_safe (by omega) e he
    | write own v pc =>
      cases pc with
      | begin =>
        have hlt : own < messages w := hown (by rw [hp]; rfl)
        exact write_safe (by omega)
      | store off => exact fun e he => by cases he
    | cas own =>
      intro e he
      simp only [mpArith] at he
      split_ifs at he with h0
      · cases he
      · obtain rfl := List.mem_singleton.mp he
        simp only [Arith.Safe]
        omega
    | waitPred own =>
      have hlt : own < messages w := hown (by rw [hp]; rfl)
      have hpos := pred_pos h p own hp
      intro e he
      rcases List.mem_append.mp he with he | he
      · rcases List.mem_cons.mp he with rfl | he
        · exact hpos
        · exact slot_safe cfg.two_le (by omega) e he
      · exact done_safe (by omega) e he
    | catchNext own seq =>
      rw [hp] at hpc
      exact hone (hreached hpc)
    | catchStamp own seq =>
      rw [hp] at hpc
      have := hreached hpc.1
      intro e he
      rcases List.mem_append.mp he with he | he
      · exact done_safe (by omega) e he
      · exact slot_safe cfg.two_le (by omega) e he
    | _ => exact fun e he => by cases he
  · rw [(hw.single hk).2 p]
    exact fun e he => by cases he

theorem sub_safe (h : Reach cfg w) (hl : InRange (messages w)) (i : Nat) :
    AllSafe (subArith cfg w.ring (w.subs i)) := by
  have hlim : messages w < seqLimit := by unfold seqLimit; omega
  have hs := reach_sane h hlim
  have hhead := head_range hs.written hl
  have hcur : InRange (w.subs i).cursor := ((hs.readers i).cursor_le).trans hl
  unfold subArith
  split
  · exact oldest_safe hhead
  · exact start_safe hhead
  · intro e he
    rcases List.mem_append.mp he with he | he
    · exact slot_safe cfg.two_le (by omega) e he
    · exact done_safe hcur e he
  · intro e he
    obtain rfl := List.mem_singleton.mp he
    simp only [Arith.Safe]
    omega
  · exact lag_safe hhead
  · exact pending_safe hhead
  · exact pending_safe hhead
  · exact fun e he => by cases he

end Channel

/-! ## The event ring -/

section EventRing

open Event Event.World

variable {cfg : Event.Config} {factory : Nat → τ} {w : Event.World τ}

theorem event_pub_safe (hc : cfg.capacity ≤ 2 ^ 57) (h : Reach cfg factory w) (hl : InRange (messages w)) :
    AllSafe (eventPubArith cfg w.publisher) := by
  have hok := Exclusive.reach_ok h (by omega)
  have hseq : InRange w.publisher.seq := by rw [hok.seq]; exact hl
  have hadd {a b : Nat} (hlt : a + b < 2 ^ 64) : AllSafe [.add a b] := by
    intro e he
    obtain rfl := List.mem_singleton.mp he
    exact hlt
  have hcached : w.publisher.cachedSlowest ≤ w.publisher.seq := hok.behind.cached_le
  unfold eventPubArith
  split
  · exact hadd (by omega)
  · rename_i hpc
    have hmin := hok.behind.min_le [] _ (by
      change Backpressure.scanOf w.publisher.pc = _
      rw [hpc]
      rfl)
    have hmin' : _ ≤ w.publisher.seq := hmin
    exact hadd (by omega)
  · exact slot_safe cfg.two_le (by omega)
  · exact hadd (by omega)
  · exact fun e he => by cases he

theorem event_sub_safe (h : Reach cfg factory w) (hl : InRange (messages w)) (i : Nat) :
    AllSafe (eventSubArith cfg w.ring (w.subs i)) := by
  have hok := Exclusive.reach_ok h (by omega)
  have hcur : InRange (w.subs i).cursor := (hok.journals i).cursor_le.trans hl
  have hhead (hmax : w.ring.cursor ≠ u64Max) : InRange w.ring.cursor := by
    have hc := hok.cursor
    unfold expectedCursor at hc
    unfold messages at hl
    split_ifs at hc
    · exact absurd hc hmax
    · omega
  unfold eventSubArith
  split
  · exact start_safe hhead
  · exact slot_safe cfg.two_le (by omega)
  · intro e he
    rcases List.mem_append.mp he with he | he
    · exact slot_safe cfg.two_le (by omega) e he
    · obtain rfl := List.mem_singleton.mp he
      simp only [Arith.Safe]
      omega
  · exact pending_safe hhead
  · exact fun e he => by cases he

end EventRing

/-- In every run of a lossy, bounded or MPMC channel and of the event ring with at most
`2^63 - 2` claimed sequences, no thread is ever about to evaluate an operation on sequences,
stamps or cursors that wraps, nor to address a slot that does not exist. -/
theorem arithmetic_in_range :
    (∀ (n : Nat) (cfg : Config) (w : World n), cfg.capacity ≤ 2 ^ 57 → World.Reach cfg w →
      World.messages w ≤ 2 ^ 63 - 2 → AllSafe (pubArith cfg w.publisher) ∧
        (∀ p, AllSafe (mpArith cfg w.ring (w.producers p))) ∧ ∀ i, AllSafe (subArith cfg w.ring (w.subs i))) ∧
    ∀ (τ : Type) (cfg : Event.Config) (factory : Nat → τ) (w : Event.World τ), cfg.capacity ≤ 2 ^ 57 →
      Event.World.Reach cfg factory w → Event.World.messages w ≤ 2 ^ 63 - 2 →
        AllSafe (eventPubArith cfg w.publisher) ∧ ∀ i, AllSafe (eventSubArith cfg w.ring (w.subs i)) :=
  ⟨fun _ _ _ hc h hl => ⟨pub_safe hc h hl, mp_safe h hl, sub_safe h hl⟩,
    fun _ _ _ _ hc h hl => ⟨event_pub_safe hc h hl, event_sub_safe h hl⟩⟩

/-- A publisher that is about to write, with a subscriber about to compute its lag. -/
theorem arithmetic_in_range_lagging : ∃ w : World 1, World.Reach Config.smallLossy w ∧
    Arith.add 3 1 ∈ pubArith Config.smallLossy w.publisher ∧ Arith.Safe (.add 3 1) ∧
    Arith.sub 1 0 ∈ subArith Config.smallLossy w.ring (w.subs 0) ∧ Arith.Safe (.sub 1 0) := by
  obtain ⟨w, hr, hp⟩ := Reachable.of_run_any (World.step Config.smallLossy) (World.new 1)
    (fun w => decide (World.messages w ≤ 2 ^ 63 - 2 ∧ Arith.add 3 1 ∈ pubArith Config.smallLossy w.publisher ∧
      Arith.sub 1 0 ∈ subArith Config.smallLossy w.ring (w.subs 0)))
    (List.flatten [[.subscribe 0 .subscribe, .sub 0], .pubCall (.publish fun _ => 7) :: List.replicate 5 .pub,
      .pubCall (.publish fun _ => 8) :: List.replicate 5 .pub,
      .pubCall (.publish fun _ => 9) :: List.replicate 5 .pub, [.subCall 0 .tryRecv, .sub 0],
      [.pubCall (.publish fun _ => 10), .pub]]) (by decide +kernel)
  obtain ⟨hl, hadd, hsub⟩ := of_decide_eq_true hp
  obtain ⟨hpub, _, hsubs⟩ := arithmetic_in_range.1 1 Config.smallLossy w (by decide) hr hl
  exact ⟨w, hr, hadd, hpub _ hadd, hsub, hsubs 0 _ hsub⟩

end Arithmetic

end PhotonRing
