import PhotonRing.Channel.WriteSide

/-!
# What the shared cursor of an MPMC channel promises

Three consequences of the write side's invariant, for every interleaving of any
number of producers: the cursor covers no incomplete write and moves by single
positions, it is not left behind once all calls have returned, and the two spin
waits of a publish never block all producers at once.
-/
namespace PhotonRing.World

open Lib MpWriter MpCursor

variable {n : Nat} {cfg : Config} {w w' : World n}

/-- The publish that claimed `s` has not completed its slot write. -/
def Incomplete (w : World n) (s : Nat) : Prop := ∃ p, (task (w.producers p)).open? = some s

/-- A complete stamp leaves no publish of that sequence before the end of its write. -/
theorem not_incomplete (h : Sound cfg w.ring w.producers) {s : Nat}
    (hd : 2 * s + 2 ≤ w.ring.stampAt cfg s) : ¬ Incomplete w s := by
  rintro ⟨p, hp⟩
  have ht := h.writers.tasks p
  revert ht hp
  cases task (w.producers p) with
  | none => exact fun hp => by cases hp
  | waiting own v =>
    intro hp ht
    obtain rfl := Option.some.inj hp
    have := ht.2
    omega
  | ready own v =>
    intro hp ht
    obtain rfl := Option.some.inj hp
    have := ht.2
    have := prevDone_lt cfg own
    omega
  | storing own v off =>
    intro hp ht
    obtain rfl := Option.some.inj hp
    have : w.ring.stampAt cfg own = 2 * own + 1 := ht.2.1
    omega
  | published own => exact fun hp => by cases hp

/-- The cursor never covers an incomplete write, and every store to it moves it to
the next position, whatever laps the inspected stamps belong to. -/
theorem mpmc_no_gap (hk : cfg.kind = .mpmc) (h : Reach cfg w) (hl : messages w < seqLimit) :
    (w.ring.cursor ≠ u64Max → w.ring.cursor < w.ring.nextSeq ∧ ∀ s ≤ w.ring.cursor,
      2 * s + 2 ≤ (w.ring.slots (cfg.slot s)).stamp ∧ ¬ Incomplete w s) ∧
    ∀ a w', step cfg w a = some w' → messages w' < seqLimit → w'.ring.cursor ≠ w.ring.cursor →
      (w.ring.cursor = u64Max ∧ w'.ring.cursor = 0) ∨
      (w.ring.cursor ≠ u64Max ∧ w'.ring.cursor = w.ring.cursor + 1) := by
  obtain ⟨hs, hidle⟩ := (reach_written h hl).mpmc hk
  constructor
  · intro hc
    have hlt := hs.cursor.cursor_lt hc
    have hnext := hs.writers.next
    refine ⟨hlt, fun s hsc => ?_⟩
    have hd := hs.cursor.committed hc s hsc
    rw [cfg.slot_eq_of_lt (show s < seqLimit by unfold messages at hl; omega)]
    exact ⟨hd, not_incomplete hs hd⟩
  · intro a w' hstep hl' hne
    rcases step_writers hstep with ⟨hr, _⟩ | ⟨c, p, _, hk', _⟩ | ⟨r, t, p, _, hp, _⟩ |
      ⟨p, c, pc, _, _, _, rfl⟩ | ⟨p, r, pc, _, hp, rfl⟩
    · exact absurd (by rw [hr]) hne
    · exact absurd hk hk'
    · rw [Publisher.step, hidle] at hp
      cases hp
    · exact absurd rfl hne
    · obtain ⟨_, hmoves⟩ := hs.step hp hl'
      rcases hmoves.cursor with he | ⟨he, hlim⟩
      · exact absurd he hne
      · change w.ring.cursor = expectedCursor r.cursor at he
        unfold expectedCursor at he
        unfold seqLimit at hlim
        split_ifs at he with h0
        · exact Or.inl ⟨he, h0⟩
        · refine Or.inr ⟨?_, ?_⟩
          · rw [he]; unfold u64Max; omega
          · change r.cursor = _
            omega

/-- Three messages on a ring of two slots: the first slot already holds the next lap. -/
theorem mpmc_no_gap_lapped : ∃ w : World 1, Reach Config.smallMpmc w ∧
    w.ring.cursor = 2 ∧ w.ring.nextSeq = 3 ∧ ∀ s ≤ 2, ¬ Incomplete w s := by
  obtain ⟨w, hr, hp⟩ := Reachable.of_run_any (step Config.smallMpmc)
    (new 1) (fun w => decide (messages w < seqLimit ∧ w.ring.cursor = 2 ∧
      w.ring.nextSeq = 3))
    (List.flatten (List.replicate 3 (.mpCall 0 ⟨fun _ => 7, false⟩ :: List.replicate 7 (.mp 0))))
    (by decide +kernel)
  obtain ⟨hl, hcur, hnext⟩ := of_decide_eq_true hp
  obtain ⟨_, hdone⟩ := (mpmc_no_gap rfl hr hl).1 (by rw [hcur]; decide)
  exact ⟨w, hr, hcur, hnext, fun s hs => (hdone s (by omega)).2⟩

/-- A producer moves only by labels that name it. -/
theorem run_producers {as : List (Act n)} {p : Nat}
    (hp : ∀ a ∈ as, a ≠ .mp p ∧ ∀ c, a ≠ .mpCall p c)
    (h : run (step cfg) w as = some w') : w'.producers p = w.producers p := by
  refine run_untouched (f := fun w => w.producers p) (fun a ha s t hstep => ?_) h
  obtain ⟨hmp, hcall⟩ := hp a ha
  rcases step_writers hstep with ⟨_, _, hps⟩ | ⟨c, q, _, _, _, rfl⟩ | ⟨r, t, q, _, _, rfl⟩ |
    ⟨q, c, pc, rfl, _, _, rfl⟩ | ⟨q, r, pc, rfl, _, rfl⟩
  · rw [hps]
  · rfl
  · rfl
  · exact Function.update_of_ne (by rintro rfl; exact hcall c rfl) ..
  · exact Function.update_of_ne (by rintro rfl; exact hmp rfl) ..

/-- Once every call has returned, the cursor stands at the last claimed sequence. -/
theorem mpmc_cursor_not_stranded (hk : cfg.kind = .mpmc) (h : Reach cfg w)
    (hl : messages w < seqLimit) (hidle : ∀ p, w.producers p = .idle) :
    (w.ring.nextSeq ≠ 0 → w.ring.cursor = w.ring.nextSeq - 1) ∧
      (w.ring.cursor = u64Max ↔ w.ring.nextSeq = 0) := by
  obtain ⟨hs, _⟩ := (reach_written h hl).mpmc hk
  have hcount := hs.nextSeq_le_count hidle
  have hnext := hs.writers.next
  have hlt := hs.cursor.cursor_lt
  unfold count at hcount
  unfold messages seqLimit at hl
  split_ifs at hcount with hc
  · exact ⟨fun h0 => by omega, fun _ => by omega, fun _ => hc⟩
  · have := hlt hc
    exact ⟨fun _ => by omega, fun h' => absurd h' hc, fun h0 => by omega⟩

/-- The second of two producers finished its write first and returned last. -/
theorem mpmc_cursor_not_stranded_overtaken :
    ∃ w : World 1, Reach Config.smallMpmc w ∧ (∀ p, w.producers p = .idle) ∧
      w.ring.nextSeq = 2 ∧ w.ring.cursor = 1 := by
  have hrun : (run (step Config.smallMpmc) (new 1)
      (List.flatten [[.mpCall 0 ⟨fun _ => 7, false⟩, .mpCall 1 ⟨fun _ => 8, false⟩, .mp 0],
        List.replicate 6 (.mp 1), List.replicate 9 (.mp 0), List.replicate 4 (.mp 1)])).any
      (fun w => decide (messages w < seqLimit ∧ w.ring.nextSeq = 2 ∧
        w.producers 0 = .idle ∧ w.producers 1 = .idle)) = true := by decide +kernel
  obtain ⟨w, hw, hp⟩ := (Option.any_eq_true _ _).mp hrun
  obtain ⟨hl, hnext, h0, h1⟩ := of_decide_eq_true hp
  have hr : Reach _ w := Reachable.start.of_run hw
  have hidle : ∀ p, w.producers p = .idle := by
    intro p
    rcases p with _ | _ | p
    · exact h0
    · exact h1
    · rw [run_producers (p := p + 2) (by simp) hw]
      rfl
  have hcur := (mpmc_cursor_not_stranded rfl hr hl hidle).1 (by omega)
  exact ⟨w, hr, hidle, hnext, by omega⟩

/-- A producer in one of the two spin waits whose condition does not hold. -/
def Blocked (cfg : Config) (r : Ring n) : MpPc n → Prop
  | .waitSlot own _ => cfg.capacity ≤ own ∧
      (r.slots (cfg.slot own)).stamp < u64 ((own - cfg.capacity) * 2 + 2)
  | .waitPred own => (r.slots (cfg.slot (own - 1))).stamp < u64 ((own - 1) * 2 + 2)
  | _ => False

/-- A producer that is not blocked leaves the program point it is at. -/
theorem step_of_not_blocked {r : Ring n} {pc : MpPc n} (hpc : pc ≠ .idle)
    (hb : ¬ Blocked cfg r pc) : ∃ r' pc', pc.step cfg r = some (r', pc') ∧ pc' ≠ pc := by
  cases pc with
  | idle => exact absurd rfl hpc
  | claim c => exact ⟨_, _, rfl, by simp⟩
  | waitSlot own c =>
    have hw : MpPc.written own c ≠ .waitSlot own c := by unfold MpPc.written; split_ifs <;> simp
    simp only [MpPc.step]
    split_ifs with hc hst
    · exact ⟨_, _, rfl, hw⟩
    · exact absurd ⟨by omega, hst⟩ hb
    · exact ⟨_, _, rfl, hw⟩
  | closure own v => exact ⟨_, _, rfl, by simp⟩
  | write own v wp =>
    simp only [MpPc.step]
    cases wp with
    | begin => exact ⟨_, _, rfl, by simp⟩
    | store off =>
      simp only [Slot.writeStep]
      split_ifs with hlt
      · have := stripeWidth_pos (n - off)
        refine ⟨_, _, rfl, ?_⟩
        simp only [ne_eq, MpPc.write.injEq, WritePc.store.injEq, true_and]
        omega
      · exact ⟨_, _, rfl, by simp⟩
  | cas own =>
    simp only [MpPc.step]
    split_ifs <;> exact ⟨_, _, rfl, by simp⟩
  | waitPred own =>
    simp only [MpPc.step]
    split_ifs with hst
    · exact absurd hst hb
    · exact ⟨_, _, rfl, by simp⟩
  | recas own =>
    simp only [MpPc.step]
    split_ifs <;> exact ⟨_, _, rfl, by simp⟩
  | reload own =>
    simp only [MpPc.step]
    split_ifs <;> exact ⟨_, _, rfl, by simp⟩
  | catchNext own seq =>
    simp only [MpPc.step]
    split_ifs <;> exact ⟨_, _, rfl, by simp⟩
  | catchStamp own seq =>
    simp only [MpPc.step]
    split_ifs <;> exact ⟨_, _, rfl, by simp⟩
  | catchCas own seq =>
    simp only [MpPc.step]
    split_ifs <;> exact ⟨_, _, rfl, by simp⟩

/-- Both waits are for a smaller sequence whose producer is still before the end
of its write, so following them ends at a producer that can move. -/
theorem unblocked_below (hs : Sound cfg w.ring w.producers) (hl : messages w < seqLimit) :
    ∀ s p, (task (w.producers p)).own? = some s →
      ∃ q, w.producers q ≠ .idle ∧ ¬ Blocked cfg w.ring (w.producers q) := by
  intro s
  unfold messages seqLimit at hl
  have hcap := cfg.two_le
  induction s using Nat.strong_induction_on with
  | _ s ih =>
    intro p hp
    have hlt := hs.writers.own_lt p s hp
    by_cases hb : Blocked cfg w.ring (w.producers p)
    · have hopen : ∀ m < s, w.ring.stampAt cfg m < 2 * m + 2 →
          ∃ q, w.producers q ≠ .idle ∧ ¬ Blocked cfg w.ring (w.producers q) := by
        intro m hm hst
        rcases hs.writers.claimed m (by omega) with hd | ⟨q, hq⟩
        · omega
        · exact ih m hm q (Task.own_of_open hq)
      have htask := hs.writers.tasks p
      revert hb hp htask
      cases w.producers p with
      | waitSlot own c =>
        rintro hp ⟨hc, hst⟩ _
        obtain rfl := Option.some.inj hp
        rw [cfg.slot_eq (by omega), u64_of_lt (by omega)] at hst
        refine hopen (own - cfg.capacity) (by omega) ?_
        unfold Ring.stampAt
        rw [sub_lap_mod hc]
        omega
      | waitPred own =>
        intro hp hst htask
        obtain rfl := Option.some.inj hp
        have hst' : (w.ring.slots (cfg.slot (own - 1))).stamp < u64 ((own - 1) * 2 + 2) := hst
        have hdone : 2 * own + 2 ≤ w.ring.stampAt cfg own := htask
        rw [cfg.slot_eq (by omega), u64_of_lt (by omega)] at hst'
        rcases Nat.eq_zero_or_pos own with rfl | hpos
        · unfold Ring.stampAt at hdone
          simp only [Nat.zero_sub] at hst'
          omega
        · refine hopen (own - 1) (by omega) ?_
          unfold Ring.stampAt
          omega
      | _ => exact fun _ hb => hb.elim
    · refine ⟨p, ?_, hb⟩
      intro hidle
      rw [hidle] at hp
      cases hp

/-- With a publish in progress, some publish in progress can take its next step. -/
theorem mpmc_deadlock_free (hk : cfg.kind = .mpmc) (h : Reach cfg w) (hl : messages w < seqLimit)
    (hbusy : ∃ p, w.producers p ≠ .idle) :
    ∃ p, w.producers p ≠ .idle ∧ ¬ Blocked cfg w.ring (w.producers p) ∧
      ∃ w', step cfg w (.mp p) = some w' ∧ w'.producers p ≠ w.producers p := by
  obtain ⟨hs, _⟩ := (reach_written h hl).mpmc hk
  obtain ⟨p, hp⟩ := hbusy
  obtain ⟨q, hq, hb⟩ : ∃ q, w.producers q ≠ .idle ∧ ¬ Blocked cfg w.ring (w.producers q) := by
    cases ho : (task (w.producers p)).own? with
    | none =>
      refine ⟨p, hp, ?_⟩
      intro hb
      revert hb ho
      cases w.producers p with
      | waitSlot own c => exact fun ho => by cases ho
      | waitPred own => exact fun ho => by cases ho
      | _ => exact fun _ hb => hb.elim
    | some s => exact unblocked_below hs hl s p ho
  obtain ⟨r', pc', hstep, hne⟩ := step_of_not_blocked hq hb
  refine ⟨q, hq, hb, { w with ring := r' }.setProducer q pc', ?_, ?_⟩
  · simp only [step, hstep, Option.map_some]
  · simpa [setProducer] using hne

/-- The second of two producers waits for its predecessor, which can go on. -/
theorem mpmc_deadlock_free_waiting : ∃ w : World 1, Reach Config.smallMpmc w ∧
    w.producers 1 = .waitPred 1 ∧ ∃ p, w.producers p ≠ .idle ∧
      ¬ Blocked Config.smallMpmc w.ring (w.producers p) := by
  obtain ⟨w, hr, hp⟩ := Reachable.of_run_any (step Config.smallMpmc)
    (new 1) (fun w => decide (messages w < seqLimit ∧ w.producers 1 = .waitPred 1))
    (List.flatten [[.mpCall 0 ⟨fun _ => 7, false⟩, .mpCall 1 ⟨fun _ => 8, false⟩, .mp 0],
      List.replicate 6 (.mp 1)]) (by decide +kernel)
  obtain ⟨hl, h1⟩ := of_decide_eq_true hp
  obtain ⟨p, hb, hn, _⟩ := mpmc_deadlock_free rfl hr hl ⟨1, by rw [h1]; exact fun h => by cases h⟩
  exact ⟨w, hr, h1, p, hb, hn⟩

end PhotonRing.World
