import PhotonRing.Channel.ReadSide

/-!
# What a subscriber is given

Consequences of the invariants of both sides, for every interleaving: a validated
read returns the message of its sequence and nothing else, same-slot producers
exclude each other and stamp a slot in order, and without `latest` every message
is delivered once or counted as lost once.
-/
namespace PhotonRing.World

open Lib Lib.Seqlock Reader MpWriter MpCursor

variable {n : Nat} {cfg : Config} {w w' : World n} {a : Act n}

/-! ## Integrity of reads -/

/-- Whenever `try_read` returns a value for sequence `s`, every byte of it is the
byte that was published with `s`. -/
theorem try_read_integrity (h : Reach cfg w) (hl : messages w < seqLimit) (i : Nat) {c : Caller n}
    {pc : ReadPc n} {buf : Buf n} (hpc : (w.subs i).pc = .read c pc)
    (hret : (w.ring.slots (cfg.slot (w.subs i).cursor)).readStep (w.subs i).cursor pc
      = .inr (.value buf)) :
    ∃ v, w.ring.log[(w.subs i).cursor]? = some v ∧ ∀ j, buf j = some (v j) := by
  have hs := reach_sane h hl
  obtain ⟨v, hv, hb⟩ := (hs.readers i).value hs.written.ring hl hpc hret
  exact ⟨v, hv, fun j => congrFun hb j⟩

/-- A subscriber of a lossy ring about to validate its read of the first message. -/
theorem try_read_integrity_first : ∃ w : World 1, Reach Config.smallLossy w ∧
    ∃ (pc : ReadPc 1) (buf : Buf 1) (v : Value 1), (w.subs 0).pc = .read .tryRecv pc ∧
      (w.ring.slots 0).readStep 0 pc = .inr (.value buf) ∧
      w.ring.log[0]? = some v ∧ ∀ j, buf j = some (v j) := by
  obtain ⟨w, hr, hp⟩ := Reachable.of_run_any (step Config.smallLossy)
    (new 1) (fun w => decide (messages w < seqLimit ∧ (w.subs 0).cursor = 0) &&
      match (w.subs 0).pc with
      | .read .tryRecv pc => (match (w.ring.slots 0).readStep 0 pc with
        | .inr (.value _) => true
        | _ => false)
      | _ => false)
    ([.subscribe 0 .subscribe, .sub 0, .pubCall (.publish fun _ => 7), .pub, .pub, .pub, .pub,
      .pub, .subCall 0 .tryRecv, .sub 0, .sub 0]) (by decide +kernel)
  simp only [Bool.and_eq_true, decide_eq_true_eq] at hp
  obtain ⟨⟨hl, hc⟩, hm⟩ := hp
  split at hm
  · rename_i pc hpc
    split at hm
    · rename_i buf hbuf
      have hslot : Config.smallLossy.slot 0 = 0 := by decide +kernel
      have hret : (w.ring.slots (Config.smallLossy.slot (w.subs 0).cursor)).readStep
          (w.subs 0).cursor pc = .inr (.value buf) := by rw [hc, hslot]; exact hbuf
      obtain ⟨v, hv, hb⟩ := try_read_integrity hr hl 0 hpc hret
      rw [hc] at hv
      exact ⟨w, hr, pc, buf, v, hpc, hbuf, hv, hb⟩
    · cases hm
  · cases hm

/-! ## Exclusion and order of the producers of one slot -/

/-- The stamps of slot `idx` of a ring of `c` slots, in the order they are taken:
zero, then the odd and the even stamp of every lap. -/
def stampOrder (c idx : Nat) : Nat → Nat
  | 0 => 0
  | k + 1 => 2 * (idx + k / 2 * c) + 1 + k % 2

theorem stampOrder_odd (c idx m : Nat) : stampOrder c idx (2 * m + 1) = 2 * (idx + m * c) + 1 := by
  simp [stampOrder]

theorem stampOrder_even (c idx m : Nat) : stampOrder c idx (2 * m + 2) = 2 * (idx + m * c) + 2 := by
  have h1 : (2 * m + 1) / 2 = m := by omega
  have h2 : (2 * m + 1) % 2 = 1 := by omega
  simp only [stampOrder, h1, h2]

theorem stampOrder_strictMono {c : Nat} (hc : 0 < c) (idx : Nat) : StrictMono (stampOrder c idx) := by
  refine strictMono_nat_of_lt_succ (fun k => ?_)
  obtain ⟨m, rfl | rfl⟩ : ∃ m, k = 2 * m ∨ k = 2 * m + 1 := ⟨k / 2, by omega⟩
  · rw [stampOrder_odd]
    cases m with
    | zero => simp [stampOrder]
    | succ m =>
      rw [show 2 * (m + 1) = 2 * m + 2 by omega, stampOrder_even, Nat.add_one_mul m c]
      omega
  · rw [stampOrder_even, stampOrder_odd]
    omega

/-- The sequences of a slot by lap. -/
theorem seq_of_slot {c idx s : Nat} (h : s % c = idx) : s = idx + s / c * c := by
  rw [← h, Nat.mul_comm]
  exact (Nat.mod_add_div s c).symm

theorem stampOrder_of_nextStamp {c idx old new : Nat} (h : NextStamp c idx old new) :
    ∃ k, old = stampOrder c idx k ∧ new = stampOrder c idx (k + 1) := by
  rcases h with ⟨rfl, rfl⟩ | ⟨s, hs, ⟨rfl, rfl⟩ | ⟨rfl, rfl⟩⟩
  · exact ⟨0, rfl, by simp [stampOrder]⟩
  · refine ⟨2 * (s / c) + 1, ?_, ?_⟩
    · rw [stampOrder_odd, ← seq_of_slot hs]
    · rw [stampOrder_even, ← seq_of_slot hs]
  · refine ⟨2 * (s / c) + 2, ?_, ?_⟩
    · rw [stampOrder_even, ← seq_of_slot hs]
    · rw [show 2 * (s / c) + 2 + 1 = 2 * (s / c + 1) + 1 by omega, stampOrder_odd,
        Nat.add_one_mul (s / c) c, ← Nat.add_assoc, ← seq_of_slot hs]

/-- A producer inside `Slot::write` is the only one there: the slot's odd stamp
names its sequence. -/
theorem storing_unique (hs : Sound cfg w.ring w.producers) {p q own own' off off' : Nat}
    {v v' : Value n} (hp : w.producers p = .write own v (.store off))
    (hq : w.producers q = .write own' v' (.store off'))
    (hslot : own % cfg.capacity = own' % cfg.capacity) : p = q := by
  have tp := hs.writers.tasks p
  have tq := hs.writers.tasks q
  simp only [hp, hq, task, TaskOk, WriteOk] at tp tq
  obtain rfl : own = own' := by
    have h1 := tp.2.1
    have h2 := tq.2.1
    rw [← hslot] at h2
    omega
  exact hs.writers.unique p q own (by simp only [hp]; rfl) (by simp only [hq]; rfl)

theorem stamp_in_order (hs : Sound cfg w.ring w.producers) {idx : Nat} (hidx : idx < cfg.capacity) :
    ∃ k, (w.ring.slots idx).stamp = stampOrder cfg.capacity idx k := by
  have ho := hs.writers.origin idx
  unfold Ring.stampAt at ho
  rw [Nat.mod_eq_of_lt hidx] at ho
  rcases ho with h0 | ⟨s, hm, _, hst | hst⟩
  · exact ⟨0, h0⟩
  · exact ⟨2 * (s / cfg.capacity) + 1, by rw [stampOrder_odd, ← seq_of_slot hm, hst]⟩
  · exact ⟨2 * (s / cfg.capacity) + 2, by rw [stampOrder_even, ← seq_of_slot hm, hst]⟩

/-- Only an MPMC producer's step changes a stamp, to the next one of its slot. -/
theorem step_stamp (hk : cfg.kind = .mpmc) (hw : Written cfg w) (hstep : step cfg w a = some w')
    (hl : messages w' < seqLimit) {idx : Nat} (hidx : idx < cfg.capacity) :
    (w'.ring.slots idx).stamp = (w.ring.slots idx).stamp ∨
      NextStamp cfg.capacity idx (w.ring.slots idx).stamp (w'.ring.slots idx).stamp := by
  obtain ⟨hs, hidle⟩ := hw.mpmc hk
  rcases step_writers hstep with ⟨hr, _⟩ | ⟨c, p, _, hk', _⟩ | ⟨r, t, p, _, hp, _⟩ |
    ⟨p, c, pc, _, _, _, rfl⟩ | ⟨p, r, pc, _, hp, rfl⟩
  · exact Or.inl (by rw [hr])
  · exact absurd hk hk'
  · rw [Publisher.step, hidle] at hp
    cases hp
  · exact Or.inl rfl
  · exact (hs.step hp hl).2.stamps idx hidx

/-- On an MPMC channel at most one producer is between the two stamp stores of a
slot, the stamps of a slot are taken in order, a claim enters the call's value into
the history at the claimed sequence, and every validated read returns exactly the
bytes of the call that claimed the sequence read. -/
theorem mpmc_writer_exclusion (hk : cfg.kind = .mpmc) (h : Reach cfg w) (hl : messages w < seqLimit) :
    (∀ p q own own' v v' off off', w.producers p = .write own v (.store off) →
      w.producers q = .write own' v' (.store off') → cfg.slot own = cfg.slot own' → p = q) ∧
    (∀ idx < cfg.capacity, StrictMono (stampOrder cfg.capacity idx) ∧
      ∃ k, (w.ring.slots idx).stamp = stampOrder cfg.capacity idx k ∧
        ∀ a w', step cfg w a = some w' → messages w' < seqLimit →
          (w'.ring.slots idx).stamp = stampOrder cfg.capacity idx k ∨
          (w'.ring.slots idx).stamp = stampOrder cfg.capacity idx (k + 1)) ∧
    (∀ p c w', w.producers p = .claim c → step cfg w (.mp p) = some w' →
      w'.producers p = .waitSlot w.ring.log.length c ∧ w'.ring.log = w.ring.log ++ [c.value]) ∧
    (∀ i c pc buf, (w.subs i).pc = .read c pc →
      (w.ring.slots (cfg.slot (w.subs i).cursor)).readStep (w.subs i).cursor pc = .inr (.value buf) →
      ∃ v, w.ring.log[(w.subs i).cursor]? = some v ∧ ∀ j, buf j = some (v j)) := by
  have hsane := reach_sane h hl
  obtain ⟨hs, _⟩ := hsane.written.mpmc hk
  refine ⟨fun p q own own' v v' off off' hp hq hslot => ?_, fun idx hidx => ?_,
    fun p c w' hp hstep => ?_, fun i c pc buf hpc hret => ?_⟩
  · have ho := hs.writers.own_lt p own (by simp only [hp]; rfl)
    have ho' := hs.writers.own_lt q own' (by simp only [hq]; rfl)
    rw [cfg.slot_eq_of_lt (ho.trans hl), cfg.slot_eq_of_lt (ho'.trans hl)] at hslot
    exact storing_unique hs hp hq hslot
  · have hmono := stampOrder_strictMono cfg.capacity_pos idx
    obtain ⟨k, hstamp⟩ := stamp_in_order hs hidx
    refine ⟨hmono, k, hstamp, fun a w' hstep hl' => ?_⟩
    rcases step_stamp hk hsane.written hstep hl' hidx with he | hn
    · exact Or.inl (he.trans hstamp)
    · obtain ⟨j, hj, hj'⟩ := stampOrder_of_nextStamp hn
      rw [hstamp] at hj
      rw [hmono.injective hj]
      exact Or.inr hj'
  · simp only [step, hp, MpPc.step, Option.map_some, Option.some.injEq] at hstep
    subst hstep
    rw [← hs.writers.next]
    exact ⟨by simp [setProducer], rfl⟩
  · obtain ⟨v, hv, hb⟩ := (hsane.readers i).value hsane.written.ring hl hpc hret
    exact ⟨v, hv, fun j => congrFun hb j⟩

/-- Two producers a lap apart on a ring of two slots, the first inside its write. -/
theorem mpmc_writer_exclusion_lapped :
    ∃ w : World 1, Reach Config.smallMpmc w ∧
      (∃ v, w.producers 0 = .write 0 v (.store 0)) ∧ (∃ c, w.producers 2 = .waitSlot 2 c) ∧
      ∀ q v off, w.producers q = .write 2 v (.store off) → 0 = q := by
  obtain ⟨w, hr, hp⟩ := Reachable.of_run_any (step Config.smallMpmc)
    (new 1) (fun w => decide (messages w < seqLimit ∧ w.producers 0 = .write 0 (fun _ => 7) (.store 0) ∧
      w.producers 2 = .waitSlot 2 ⟨fun _ => 9, true⟩))
    ([.mpCall 0 ⟨fun _ => 7, false⟩, .mp 0, .mp 0, .mp 0, .mpCall 1 ⟨fun _ => 8, false⟩, .mp 1,
      .mpCall 2 ⟨fun _ => 9, true⟩, .mp 2]) (by decide +kernel)
  obtain ⟨hl, h0, h2⟩ := of_decide_eq_true hp
  refine ⟨w, hr, ⟨_, h0⟩, ⟨_, h2⟩, fun q v off hq => ?_⟩
  exact (mpmc_writer_exclusion rfl hr hl).1 0 q 0 2 _ v 0 off h0 hq (by decide +kernel)

/-! ## Exact accounting of losses -/

/-- The sequences a subscriber was given, in the order it was given them. -/
def receivedSeqs (es : List (Event n)) : List Nat :=
  es.filterMap fun
    | .received seq _ => some seq
    | .skipped _ _ => none

theorem mem_receivedSeqs {es : List (Event n)} {q : Nat} :
    q ∈ receivedSeqs es ↔ ∃ buf, Event.received q buf ∈ es := by
  unfold receivedSeqs
  rw [List.mem_filterMap]
  constructor
  · rintro ⟨e, he, hq⟩
    cases e with
    | received seq buf =>
      obtain rfl : seq = q := by simpa using hq
      exact ⟨buf, he⟩
    | skipped old new => cases hq
  · rintro ⟨buf, he⟩
    exact ⟨_, he, rfl⟩

theorem receivedSeqs_increasing {a b : Nat} {es : List (Event n)}
    (h : Tiles Event.lo Event.hi a es b) : (receivedSeqs es).Pairwise (· < ·) := by
  refine List.Pairwise.filterMap _ (fun e e' hle s hs s' hs' => ?_) h.pairwise
  cases e with
  | received seq buf =>
    cases e' with
    | received seq' buf' =>
      obtain rfl : seq = s := by simpa using hs
      obtain rfl : seq' = s' := by simpa using hs'
      exact hle
    | skipped old new => simp at hs'
  | skipped old new => simp at hs

/-- The one step that makes a subscriber report a loss. -/
theorem lag_of_change {r : Ring n} {s s' : Subscriber n} (hc : Change cfg r s s') (hr : r.Ok cfg)
    {c : Caller n} {k : Nat} (hs : ∀ c k, s.pc ≠ .commit c (.lagged k))
    (hs' : s'.pc = .commit c (.lagged k)) :
    0 < k ∧ s'.cursor = s.cursor + k ∧
      ∀ q, s.cursor ≤ q → q < s.cursor + k → Overwritten cfg r q := by
  have hst : stage s'.pc = .ahead (.lagged k) := by rw [hs']; rfl
  cases hc with
  | wait h _ _ _ _ =>
    exfalso
    rcases h with h | ⟨_, h⟩
    · rw [hst] at h
      revert h hs
      cases s.pc with
      | commit c' res => exact fun hs h => hs c' k (by rw [Stage.ahead.inj h])
      | read c' pc => cases pc <;> exact fun _ h => by cases h
      | _ => exact fun _ h => by cases h
    · rw [hst] at h; cases h
  | join _ _ h _ _ _ _ => rw [hst] at h; cases h
  | create _ => cases hs'
  | load _ _ => cases hs'
  | value _ _ => cases hs'
  | lag _ hmax hcap hlt =>
    obtain ⟨-, hk⟩ := SubPc.commit.inj hs'
    obtain rfl := Recv.lagged.inj hk
    exact ⟨by omega, by dsimp only; omega, fun q _ h2 => overwritten_of_head hr hmax (by omega)⟩
  | @commit c' res h =>
    exfalso
    have hready := (onCommit_counted s c' res).stage
    rw [hst] at hready
    cases hready
  | jump _ _ => cases hs'

/-- For a subscriber that never called `latest`: outside the moment between moving
the cursor and counting the outcome, the counters add up to the distance from the
start and every position in between is accounted for exactly once; the sequences
received increase; and the step that detects a loss skips at least one message, up
to exactly the new cursor, each of which a later message has replaced. -/
theorem exact_loss_accounting (h : Reach cfg w) (hl : messages w < seqLimit) (i : Nat)
    (hlat : (w.subs i).latestUsed = false) :
    ((∀ c res, (w.subs i).pc ≠ .commit c res) →
      (w.subs i).start ≤ (w.subs i).cursor ∧
      (w.subs i).cursor - (w.subs i).start = (w.subs i).totalReceived + (w.subs i).totalLagged ∧
      ∀ q, (w.subs i).start ≤ q → q < (w.subs i).cursor →
        ∃! k : Fin (w.subs i).events.length,
          Event.lo ((w.subs i).events.get k) ≤ q ∧ q < Event.hi ((w.subs i).events.get k)) ∧
    (w.subs i).totalReceived = ((w.subs i).events.map Event.count).sum ∧
    (w.subs i).totalLagged = ((w.subs i).events.map Event.lost).sum ∧
    (receivedSeqs (w.subs i).events).Pairwise (· < ·) ∧
    (∀ old new, Event.skipped old new ∈ (w.subs i).events → old < new ∧
      ∀ q, old ≤ q → q < new → Overwritten cfg w.ring q) ∧
    (∀ a w' c k, step cfg w a = some w' → (∀ c k, (w.subs i).pc ≠ .commit c (.lagged k)) →
      (w'.subs i).pc = .commit c (.lagged k) →
      0 < k ∧ (w'.subs i).cursor = (w.subs i).cursor + k ∧
      ∀ q, (w.subs i).cursor ≤ q → q < (w.subs i).cursor + k → Overwritten cfg w.ring q) ∧
    (∀ c k, (w.subs i).pc = .commit c (.lagged k) → ∃ w', step cfg w (.sub i) = some w' ∧
      (w'.subs i).cursor = (w.subs i).cursor ∧
      (w'.subs i).events = (w.subs i).events ++ [.skipped ((w.subs i).cursor - k) (w.subs i).cursor]) := by
  have hs := reach_sane h hl
  have hi := hs.readers i
  have htiles := hi.tiles hlat
  refine ⟨fun hnc => ?_, hi.received hlat, hi.lagged hlat, receivedSeqs_increasing htiles,
    fun old new hm => ⟨(htiles.bounds _ hm).2.1, hi.events _ hm⟩,
    fun a w' c k hstep hnc hpc => ?_, fun c k hpc => ?_⟩
  · have hset := settled_eq hnc
    have htotal := hi.total hlat
    rw [hset] at htotal htiles
    exact ⟨by omega, by omega, fun q h1 h2 => htiles.existsUnique h1 h2⟩
  · rcases step_reader hstep i with he | hc
    · rw [he] at hpc
      exact absurd hpc (hnc c k)
    · exact lag_of_change hc hs.written.ring hnc hpc
  · simp only [step, Subscriber.step, hpc, Option.map_some, Option.some.injEq, exists_eq_left',
      setSub_self]
    obtain ⟨hloc, _⟩ := resume_local { w.subs i with
      totalLagged := u64 ((w.subs i).totalLagged + k)
      events := (w.subs i).events ++ [Event.skipped ((w.subs i).cursor - k) (w.subs i).cursor] }
      (.lagged k) c
    exact ⟨hloc.cursor, (Book.mk.inj hloc.book).2.2.2⟩

/-- A subscriber of a ring of two slots after three messages and one receive. -/
theorem exact_loss_accounting_lapped : ∃ w : World 1, Reach Config.smallLossy w ∧
    (w.subs 0).pc matches .idle ∧ (w.subs 0).start = 0 ∧ (w.subs 0).cursor = 1 ∧
    (w.subs 0).totalReceived + (w.subs 0).totalLagged = 1 ∧
    ∃! k : Fin (w.subs 0).events.length,
      Event.lo ((w.subs 0).events.get k) ≤ 0 ∧ 0 < Event.hi ((w.subs 0).events.get k) := by
  obtain ⟨w, hr, hp⟩ := Reachable.of_run_any (step Config.smallLossy)
    (new 1) (fun w => decide (messages w < seqLimit ∧ (w.subs 0).start = 0 ∧
      (w.subs 0).cursor = 1 ∧ (w.subs 0).latestUsed = false) && (w.subs 0).pc matches .idle)
    (List.flatten [[.subscribe 0 .subscribe, .sub 0],
      List.flatten (List.replicate 3 (.pubCall (.publish fun _ => 7) :: List.replicate 5 .pub)),
      [.subCall 0 .tryRecv, .sub 0, .sub 0, .sub 0]]) (by decide +kernel)
  simp only [Bool.and_eq_true, decide_eq_true_eq] at hp
  obtain ⟨⟨hl, hstart, hcur, hlat⟩, hidle⟩ := hp
  obtain ⟨_, hsum, hcover⟩ := (exact_loss_accounting hr hl 0 hlat).1 (fun c res hpc => by
    rw [hpc] at hidle
    cases hidle)
  rw [hstart, hcur] at hsum hcover
  exact ⟨w, hr, hidle, hstart, hcur, hsum.symm, hcover 0 (Nat.le_refl _) Nat.zero_lt_one⟩

/-! ## What is received of the history -/

/-- The payloads a subscriber was given, in the order it was given them. -/
def receivedBufs (es : List (Event n)) : List (Buf n) :=
  es.filterMap fun
    | .received _ buf => some buf
    | .skipped _ _ => none

theorem receivedBufs_append (es es' : List (Event n)) :
    receivedBufs (es ++ es') = receivedBufs es ++ receivedBufs es' := List.filterMap_append

/-- Without `latest`, a subscriber is given published messages in the order of publication. -/
theorem receivedBufs_sublist {r : Ring n} {s : Subscriber n} (h : Reader.Ok cfg r s)
    (hlat : s.latestUsed = false) : (receivedBufs s.events).Sublist (r.log.map bytesOf) := by
  refine ((h.tiles hlat).filterMap_sublist (fun e he x hx => ?_)).trans (List.take_sublist _ _)
  cases e with
  | received seq buf =>
    obtain ⟨v, hv, rfl⟩ : Published r seq buf := h.events _ he
    obtain rfl := Option.some.inj hx
    rw [Event.lo, List.getElem?_map, hv]
    rfl
  | skipped old new => cases hx

/-- A subscriber that has counted no loss has entries for received messages only. -/
theorem received_of_lossless {r : Ring n} {s : Subscriber n} (h : Reader.Ok cfg r s)
    (hlat : s.latestUsed = false) (hlost : s.totalLagged = 0) {e : Event n} (he : e ∈ s.events) :
    ∃ seq buf, e = .received seq buf := by
  cases e with
  | received seq buf => exact ⟨seq, buf, rfl⟩
  | skipped old new =>
    have hsum := (h.lagged hlat).symm.trans hlost
    have hzero : Event.lost (.skipped old new : Event n) = 0 :=
      List.sum_eq_zero_iff_forall_eq_nat.mp hsum _ (List.mem_map_of_mem he)
    obtain ⟨_, hlt, _⟩ := (h.tiles hlat).bounds _ he
    exact absurd (Nat.sub_eq_zero_iff_le.mp hzero) (Nat.not_le_of_lt hlt)

/-- A subscriber that started with the first message and has counted no loss was given the
first messages, without a gap. -/
theorem receivedBufs_prefix {r : Ring n} {s : Subscriber n} (h : Reader.Ok cfg r s)
    (hlat : s.latestUsed = false) (hstart : s.start = 0) (hlost : s.totalLagged = 0) :
    receivedBufs s.events <+: r.log.map bytesOf := by
  have htiles := h.tiles hlat
  rw [hstart] at htiles
  have hall : ∀ e ∈ s.events, ∃ seq buf, e = .received seq buf := fun e he =>
    received_of_lossless h hlat hlost he
  have hunit : ∀ e ∈ s.events, Event.hi e = Event.lo e + 1 := by
    intro e he
    obtain ⟨seq, buf, rfl⟩ := hall e he
    rfl
  rw [receivedBufs, htiles.filterMap_eq_take hunit (fun e he => ?_)]
  · exact List.take_prefix _ _
  · obtain ⟨seq, buf, rfl⟩ := hall e he
    obtain ⟨v, hv, rfl⟩ : Published r seq buf := h.events _ he
    exact ⟨bytesOf v, rfl, by rw [Event.lo, List.getElem?_map, hv]; rfl⟩

end PhotonRing.World
