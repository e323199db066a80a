import PhotonRing.Lib.Progress
import PhotonRing.Channel.MpProgress

/-!
# Every publish of an MPMC channel returns

Somebody can always move, but that alone leaves a spinning producer waiting for
ever. Here the scheduler is fair to every producer, and each publish is shown to
return. Both spin waits are for a smaller sequence, so the slot writes complete in
the order of their sequences; once all are complete nobody waits any more, and the
catch-up loop of a producer has only as many positions left as were ever claimed.
-/
namespace PhotonRing.World

open Lib Lib.Seqlock MpWriter MpCursor

variable {n : Nat} {cfg : Config} {w w' : World n} {a : Act n}

/-- What a step does to producer `p`. -/
theorem step_producer (h : step cfg w a = some w') (p : Nat) :
    (a = .mp p ∧ (w.producers p).step cfg w.ring = some (w'.ring, w'.producers p)) ∨
    (a ≠ .mp p ∧ w.producers p = .idle ∧ ∃ c, w'.producers p = .claim c) ∨
    (a ≠ .mp p ∧ w'.producers p = w.producers p) := by
  rcases step_writers h with ⟨_, _, hps⟩ | ⟨c, q, rfl, _, _, rfl⟩ | ⟨r, t, q, rfl, _, rfl⟩ |
    ⟨q, c, pc, rfl, _, hq, rfl⟩ | ⟨q, r, pc, rfl, hq, rfl⟩
  · by_cases ha : a = .mp p
    · left
      subst ha
      obtain ⟨⟨r, pc⟩, hp, rfl⟩ := Option.map_eq_some_iff.mp h
      exact ⟨rfl, by simpa [setProducer] using hp⟩
    · exact Or.inr (Or.inr ⟨ha, congrFun hps p⟩)
  · exact Or.inr (Or.inr ⟨by simp, rfl⟩)
  · exact Or.inr (Or.inr ⟨by simp, rfl⟩)
  · obtain ⟨hidle, rfl⟩ := mpCall_claim hq
    by_cases hqp : q = p
    · subst hqp
      exact Or.inr (Or.inl ⟨by simp, hidle, c, Function.update_self ..⟩)
    · exact Or.inr (Or.inr ⟨by simp, Function.update_of_ne (Ne.symm hqp) ..⟩)
  · by_cases hqp : q = p
    · subst hqp
      exact Or.inl ⟨rfl, by simpa [setProducer] using hq⟩
    · exact Or.inr (Or.inr ⟨by simpa using hqp, Function.update_of_ne (Ne.symm hqp) ..⟩)

/-- Producers that never made a call are idle, and only finitely many have made one. -/
theorem idle_above (h : Reach cfg w) : ∃ b, ∀ p ≥ b, w.producers p = .idle := by
  induction h with
  | start => exact ⟨0, fun _ _ => rfl⟩
  | @next s t a _ ha ih =>
    obtain ⟨b, hb⟩ := ih
    rcases step_writers ha with ⟨_, _, hps⟩ | ⟨c, q, _, _, _, rfl⟩ | ⟨r, tr, q, _, _, rfl⟩ |
      ⟨q, c, pc, _, _, _, rfl⟩ | ⟨q, r, pc, _, _, rfl⟩
    · exact ⟨b, fun p hp => by rw [hps]; exact hb p hp⟩
    · exact ⟨b, hb⟩
    · exact ⟨b, hb⟩
    all_goals
      refine ⟨max b (q + 1), fun p hp => ?_⟩
      have hne : p ≠ q := by have := le_max_right b (q + 1); omega
      refine Eq.trans (Function.update_of_ne hne ..) (hb p ?_)
      exact (le_max_left b (q + 1)).trans hp

theorem log_of_claim {r r' : Ring n} {c : MpCall n} {pc : MpPc n} (h : (MpPc.claim c).step cfg r = some (r', pc)) :
    r'.log.length = r.log.length + 1 := by
  cases h
  simp

/-! ## A rank for one publish -/

/-- A bound on the steps that a publish has left while it does not have to wait, when no more
than `limit` sequences are ever claimed. -/
def stepsLeft (limit : Nat) : MpPc n → Nat
  | .idle => 0
  | .claim _ => 3 * limit + n + 12
  | .waitSlot _ _ => 3 * limit + n + 11
  | .closure _ _ => 3 * limit + n + 10
  | .write _ _ .begin => 3 * limit + n + 9
  | .write _ _ (.store off) => 3 * limit + (n - off) + 8
  | .cas _ => 3 * limit + 7
  | .waitPred _ => 3 * limit + 6
  | .recas _ => 3 * limit + 5
  | .reload _ => 3 * limit + 4
  | .catchNext _ seq => 3 * (limit - seq) + 2
  | .catchStamp _ seq => 3 * (limit - seq) + 1
  | .catchCas _ seq => 3 * (limit - seq)

theorem stepsLeft_written (limit own : Nat) (c : MpCall n) :
    stepsLeft limit (MpPc.written own c) < 3 * limit + n + 11 := by
  unfold MpPc.written
  split_ifs <;> simp only [stepsLeft] <;> omega

/-- Each step of a producer that does not wait brings it nearer to its return. -/
theorem stepsLeft_lt {r r' : Ring n} {ps : Nat → MpPc n} {p limit : Nat} {pc : MpPc n}
    (hs : Sound cfg r ps) (hb : ¬ Blocked cfg r (ps p)) (hstep : (ps p).step cfg r = some (r', pc))
    (hlim : r.nextSeq ≤ limit) (hl : limit < seqLimit) :
    pc = .idle ∨ stepsLeft limit pc < stepsLeft limit (ps p) := by
  have hpcs := hs.cursor.pcs p
  have hcur : ∀ seq, Reached r seq → seq < limit := by
    rintro seq ⟨hc, hle⟩
    have := hs.cursor.cursor_lt hc
    omega
  have hown : ∀ own, (task (ps p)).own? = some own → own < limit := by
    intro own ho
    have := hs.writers.own_lt p own ho
    have := hs.writers.next
    omega
  have hword : ∀ seq < limit, u64 (seq + 1) = seq + 1 := by
    intro seq hlt
    unfold seqLimit at hl
    exact u64_of_lt (by omega)
  generalize ps p = pc₀ at hstep hb hpcs hown
  cases pc₀ with
  | idle => cases hstep
  | claim c =>
    cases hstep
    right
    simp only [stepsLeft]
    omega
  | waitSlot own c =>
    right
    have hw := stepsLeft_written limit own c
    simp only [MpPc.step] at hstep
    split_ifs at hstep with hcap hst
    · cases hstep
      exact hw
    · exact absurd ⟨by omega, hst⟩ hb
    · cases hstep
      exact hw
  | closure own v =>
    cases hstep
    right
    simp only [stepsLeft]
    omega
  | write own v wp =>
    right
    simp only [MpPc.step] at hstep
    cases wp with
    | begin =>
      cases hstep
      simp only [stepsLeft]
      omega
    | store off =>
      simp only [Slot.writeStep] at hstep
      split_ifs at hstep with hlt
      · cases hstep
        have := stripeWidth_pos (n - off)
        simp only [stepsLeft]
        omega
      · cases hstep
        simp only [stepsLeft]
        omega
  | cas own =>
    right
    simp only [MpPc.step] at hstep
    split_ifs at hstep <;> cases hstep <;> simp only [stepsLeft] <;> omega
  | waitPred own =>
    right
    simp only [MpPc.step] at hstep
    split_ifs at hstep with hst
    · exact absurd hst hb
    · cases hstep
      simp only [stepsLeft]
      omega
  | recas own =>
    right
    simp only [MpPc.step] at hstep
    split_ifs at hstep <;> cases hstep <;> simp only [stepsLeft] <;> omega
  | reload own =>
    simp only [MpPc.step] at hstep
    split_ifs at hstep <;> cases hstep
    · right
      simp only [stepsLeft]
      omega
    · exact Or.inl rfl
  | catchNext own seq =>
    simp only [MpPc.step] at hstep
    split_ifs at hstep <;> cases hstep
    · exact Or.inl rfl
    · right
      simp only [stepsLeft]
      omega
  | catchStamp own seq =>
    simp only [MpPc.step] at hstep
    split_ifs at hstep <;> cases hstep
    · exact Or.inl rfl
    · right
      simp only [stepsLeft]
      omega
  | catchCas own seq =>
    have hlt := hcur seq hpcs.1
    have hnext : seq + 1 < r.nextSeq := hpcs.2.1
    simp only [MpPc.step, hword seq hlt] at hstep
    split_ifs at hstep <;> cases hstep
    · right
      simp only [stepsLeft]
      omega
    · exact Or.inl rfl

/-- Nobody waits once the writes of all earlier sequences are complete. -/
theorem not_blocked_of_done {r : Ring n} {ps : Nat → MpPc n} {p own : Nat} (hs : Sound cfg r ps)
    (hl : r.log.length < seqLimit) (hown : (task (ps p)).own? = some own)
    (hdone : ∀ q < own, 2 * q + 2 ≤ r.stampAt cfg q) : ¬ Blocked cfg r (ps p) := by
  have hlt := hs.writers.own_lt p own hown
  have htask := hs.writers.tasks p
  have hcap := cfg.two_le
  unfold seqLimit at hl
  generalize ps p = pc at hown htask
  cases pc with
  | waitSlot s c =>
    obtain rfl := Option.some.inj hown
    rintro ⟨hle, hst⟩
    have hd := hdone (s - cfg.capacity) (by omega)
    unfold Ring.stampAt at hd
    rw [sub_lap_mod hle] at hd
    rw [cfg.slot_eq (by omega), u64_of_lt (by omega)] at hst
    omega
  | waitPred s =>
    obtain rfl := Option.some.inj hown
    intro hst
    have hst' : (r.slots (cfg.slot (s - 1))).stamp < u64 ((s - 1) * 2 + 2) := hst
    have hd : 2 * (s - 1) + 2 ≤ r.stampAt cfg (s - 1) := by
      rcases Nat.eq_zero_or_pos s with rfl | hpos
      · exact htask
      · exact hdone (s - 1) (by omega)
    unfold Ring.stampAt at hd
    rw [cfg.slot_eq (by omega), u64_of_lt (by omega)] at hst'
    omega
  | _ => exact fun hb => hb.elim

/-- A producer past its claim holds a sequence. -/
theorem own_of_busy {pc : MpPc n} (hidle : pc ≠ .idle) : (∃ c, pc = .claim c) ∨ ∃ own, (task pc).own? = some own := by
  cases pc with
  | idle => exact absurd rfl hidle
  | claim c => exact Or.inl ⟨c, rfl⟩
  | write own v wp => cases wp <;> exact Or.inr ⟨own, rfl⟩
  | waitSlot own c => exact Or.inr ⟨own, rfl⟩
  | closure own v => exact Or.inr ⟨own, rfl⟩
  | cas own => exact Or.inr ⟨own, rfl⟩
  | waitPred own => exact Or.inr ⟨own, rfl⟩
  | recas own => exact Or.inr ⟨own, rfl⟩
  | reload own => exact Or.inr ⟨own, rfl⟩
  | catchNext own seq => exact Or.inr ⟨own, rfl⟩
  | catchStamp own seq => exact Or.inr ⟨own, rfl⟩
  | catchCas own seq => exact Or.inr ⟨own, rfl⟩

/-- A producer inside a call always has a step, be it one more look at a stamp. -/
theorem step_of_busy {r : Ring n} {pc : MpPc n} (hidle : pc ≠ .idle) : ∃ x, pc.step cfg r = some x := by
  cases pc with
  | idle => exact absurd rfl hidle
  | write own v wp =>
    simp only [MpPc.step]
    split <;> exact ⟨_, rfl⟩
  | _ =>
    simp only [MpPc.step]
    (try split_ifs) <;> exact ⟨_, rfl⟩

/-! ## Fair executions -/

/-- An execution of an MPMC channel that is fair to every producer and stays below the
sequence limit. -/
structure FairRun (cfg : Config) (e : Execution (step (n := n) cfg)) : Prop where
  kind : cfg.kind = .mpmc
  reach : Reach cfg (e.state 0)
  fair : ∀ p, e.Fair (.mp p)
  limit : ∀ k, messages (e.state k) < seqLimit

namespace FairRun

variable {e : Execution (step (n := n) cfg)}

theorem sound (h : FairRun cfg e) (k : Nat) : Sound cfg (e.state k).ring (e.state k).producers :=
  ((reach_written (Execution.reachable h.reach k) (h.limit k)).mpmc h.kind).1

theorem messages_mono (k : Nat) : messages (e.state k) ≤ messages (e.state (k + 1)) := step_log_le (e.next k)

/-- A completed write stays completed. -/
theorem done_stays (h : FairRun cfg e) {s k : Nat} (hd : 2 * s + 2 ≤ (e.state k).ring.stampAt cfg s) :
    ∀ m ≥ k, 2 * s + 2 ≤ (e.state m).ring.stampAt cfg s := by
  refine Execution.stays hd fun m _ hm => ?_
  have hw := reach_written (Execution.reachable h.reach m) (h.limit m)
  exact hm.trans ((step_written (e.next m) (h.limit (m + 1)) hw).2.stampAt_le cfg s)

/-- A fair producer moves on from wherever it does not wait, until it is where it is wanted. -/
theorem arrives (h : FairRun cfg e) {p k : Nat} {P Q : World n → Prop}
    (hbusy : ∀ m ≥ k, P (e.state m) → (e.state m).producers p ≠ .idle)
    (hclear : ∀ m ≥ k, P (e.state m) → ¬ Blocked cfg (e.state m).ring ((e.state m).producers p))
    (hnext : ∀ m ≥ k, P (e.state m) → Q (e.state (m + 1)) ∨ P (e.state (m + 1))) (h0 : P (e.state k)) :
    ∃ m ≥ k, Q (e.state m) := by
  have hnextSeq : ∀ m, (e.state m).ring.nextSeq ≤ seqLimit - 1 := by
    intro m
    have hlt : (e.state m).ring.log.length < seqLimit := h.limit m
    have := (h.sound m).writers.next
    omega
  refine Execution.arrives (h.fair p) (P := P) (Q := Q)
    (fun w => stepsLeft (seqLimit - 1) (w.producers p)) (fun m hm hP => ?_) (fun m hm hP ha => ?_)
    (fun m hm hP ha => ?_) h0
  · obtain ⟨x, hx⟩ : ∃ x, ((e.state m).producers p).step cfg (e.state m).ring = some x := step_of_busy (hbusy m hm hP)
    simp [step, hx]
  · rcases step_producer (e.next m) p with ⟨_, hstep⟩ | ⟨hne, _⟩ | ⟨hne, _⟩
    · rcases stepsLeft_lt (h.sound m) (hclear m hm hP) hstep (hnextSeq m) (by decide) with hret | hlt
      · exact (hnext m hm hP).imp_right fun hP' => absurd hret (hbusy (m + 1) (by omega) hP')
      · exact (hnext m hm hP).imp_right fun hP' => ⟨hP', hlt⟩
    · exact absurd ha hne
    · exact absurd ha hne
  · rcases step_producer (e.next m) p with ⟨he, _⟩ | ⟨_, hi, _⟩ | ⟨_, he⟩
    · exact absurd he ha
    · exact absurd hi (hbusy m hm hP)
    · exact (hnext m hm hP).imp_right fun hP' => ⟨hP', by rw [he]⟩

/-- The slot writes complete in the order of their sequences. -/
theorem writes_complete (h : FairRun cfg e) (k s : Nat) (hs : s ≤ messages (e.state k)) :
    ∃ j ≥ k, ∀ m ≥ j, ∀ q < s, 2 * q + 2 ≤ (e.state m).ring.stampAt cfg q := by
  induction s with
  | zero => exact ⟨k, Nat.le_refl k, fun _ _ q hq => absurd hq (Nat.not_lt_zero q)⟩
  | succ s ih =>
    obtain ⟨j, hj, hdone⟩ := ih (by omega)
    have hlog : ∀ m ≥ j, s < (e.state m).ring.log.length := fun m hm =>
      lt_of_lt_of_le (show s < messages (e.state k) by omega) (Execution.le_of_le messages_mono (by omega))
    obtain ⟨i, hi, hd⟩ : ∃ i ≥ j, 2 * s + 2 ≤ (e.state i).ring.stampAt cfg s := by
      rcases (h.sound j).writers.claimed s (hlog j (Nat.le_refl j)) with hd | ⟨p, hp⟩
      · exact ⟨j, Nat.le_refl j, hd⟩
      have hopen : ∀ m ≥ j, (task ((e.state m).producers p)).open? = some s →
          2 * s + 2 ≤ (e.state (m + 1)).ring.stampAt cfg s ∨
            (task ((e.state (m + 1)).producers p)).open? = some s := by
        intro m hm ho
        rcases (h.sound (m + 1)).writers.claimed s (hlog (m + 1) (by omega)) with hd | ⟨q, hq⟩
        · exact Or.inl hd
        -- whoever holds the sequence after the step held it before
        rcases step_producer (e.next m) q with ⟨ha, _⟩ | ⟨_, _, c, hc⟩ | ⟨_, he⟩
        · rcases step_producer (e.next m) p with ⟨ha', _⟩ | ⟨_, hidle, _⟩ | ⟨_, he⟩
          · obtain rfl : q = p := by rw [ha] at ha'; cases ha'; rfl
            exact Or.inr hq
          · rw [hidle] at ho
            cases ho
          · rw [he]
            exact Or.inr ho
        · rw [hc] at hq
          cases hq
        · rw [he] at hq
          obtain rfl := (h.sound m).writers.unique q p s (Task.own_of_open hq) (Task.own_of_open ho)
          rw [he]
          exact Or.inr hq
      refine h.arrives (p := p) (P := fun w => (task (w.producers p)).open? = some s)
        (Q := fun w => 2 * s + 2 ≤ w.ring.stampAt cfg s) (fun m _ ho hidle => ?_) (fun m hm ho => ?_) hopen hp
      · rw [hidle] at ho
        cases ho
      · exact not_blocked_of_done (h.sound m) (h.limit m) (Task.own_of_open ho) (hdone m hm)
    refine ⟨i, by omega, fun m hm q hq => ?_⟩
    rcases Nat.lt_succ_iff_lt_or_eq.mp hq with hlt | rfl
    · exact hdone m (by omega) q hlt
    · exact h.done_stays hd m hm

/-- From some point on nothing is claimed any more. -/
theorem settles (h : FairRun cfg e) : ∃ k, ∀ m ≥ k, messages (e.state m) = messages (e.state k) :=
  Execution.settles messages_mono h.limit

/-- A call that has begun claims its sequence, so from there on no call begins. -/
theorem not_claim (h : FairRun cfg e) {k : Nat} (hset : ∀ m ≥ k, messages (e.state m) = messages (e.state k))
    {m p : Nat} (hm : m ≥ k) (c : MpCall n) : (e.state m).producers p ≠ .claim c := by
  intro hc
  suffices hnever : ∃ j ≥ m, False by exact hnever.elim fun _ hj => hj.2
  refine Execution.arrives (h.fair p) (P := fun w => w.producers p = .claim c) (Q := fun _ => False) (fun _ => 0)
    (fun j _ hP => ?_) (fun j hj hP ha => ?_) (fun j hj hP ha => ?_) hc
  · simp [step, hP, MpPc.step]
  · rcases step_producer (e.next j) p with ⟨_, hstep⟩ | ⟨hne, _⟩ | ⟨hne, _⟩
    · rw [hP] at hstep
      have hgrow : messages (e.state (j + 1)) = messages (e.state j) + 1 := log_of_claim hstep
      have := hset j (by omega)
      have := hset (j + 1) (by omega)
      omega
    · exact absurd ha hne
    · exact absurd ha hne
  · rcases step_producer (e.next j) p with ⟨he, _⟩ | ⟨_, hi, _⟩ | ⟨_, he⟩
    · exact absurd he ha
    · rw [hP] at hi
      cases hi
    · exact Or.inr ⟨he.trans hP, Nat.le_refl _⟩

theorem stays_idle (h : FairRun cfg e) {k : Nat} (hset : ∀ m ≥ k, messages (e.state m) = messages (e.state k))
    {j p : Nat} (hj : j ≥ k) (hidle : (e.state j).producers p = .idle) :
    ∀ m ≥ j, (e.state m).producers p = .idle := by
  refine Execution.stays hidle fun m hm hidle => ?_
  rcases step_producer (e.next m) p with ⟨_, hstep⟩ | ⟨_, _, c, hc⟩ | ⟨_, he⟩
  · rw [hidle] at hstep
    cases hstep
  · exact absurd hc (h.not_claim hset (show m + 1 ≥ k by omega) c)
  · exact he.trans hidle

/-- Once all writes are complete and nothing is claimed any more, each publish returns and no other begins. -/
theorem returns (h : FairRun cfg e) {k : Nat} (hset : ∀ m ≥ k, messages (e.state m) = messages (e.state k))
    (hdone : ∀ m ≥ k, ∀ q < messages (e.state k), 2 * q + 2 ≤ (e.state m).ring.stampAt cfg q) (p : Nat) :
    ∃ j ≥ k, ∀ m ≥ j, (e.state m).producers p = .idle := by
  obtain ⟨j, hj, hidle⟩ : ∃ j ≥ k, (e.state j).producers p = .idle := by
    by_cases hidle : (e.state k).producers p = .idle
    · exact ⟨k, Nat.le_refl k, hidle⟩
    refine h.arrives (P := fun w => w.producers p ≠ .idle) (Q := fun w => w.producers p = .idle)
      (fun _ _ hP => hP) (fun m hm hP => ?_) (fun m _ _ => Classical.em _) hidle
    rcases own_of_busy hP with ⟨c, hc⟩ | ⟨own, hown⟩
    · exact absurd hc (h.not_claim hset hm c)
    · have hlt : own < messages (e.state k) := by
        rw [← hset m hm]
        exact (h.sound m).writers.own_lt p own hown
      exact not_blocked_of_done (h.sound m) (h.limit m) hown (fun q hq => hdone m hm q (hq.trans hlt))
  exact ⟨j, hj, h.stays_idle hset hj hidle⟩

end FairRun

/-- Under a fair scheduler all publishes return, however many producers there are and whatever
the readers do meanwhile, and the shared cursor ends at the last claimed sequence. -/
theorem mpmc_publishes_return (hk : cfg.kind = .mpmc) (e : Execution (step (n := n) cfg)) (h0 : Reach cfg (e.state 0))
    (hfair : ∀ p, e.Fair (.mp p)) (hl : ∀ k, messages (e.state k) < seqLimit) :
    ∃ k, ∀ m ≥ k, (∀ p, (e.state m).producers p = .idle) ∧
      ((e.state m).ring.nextSeq ≠ 0 → (e.state m).ring.cursor = (e.state m).ring.nextSeq - 1) := by
  have h : FairRun cfg e := ⟨hk, h0, hfair, hl⟩
  obtain ⟨k₀, hset₀⟩ := h.settles
  obtain ⟨k, hk₀, hdone⟩ := h.writes_complete k₀ _ (Nat.le_refl _)
  have hset : ∀ m ≥ k, messages (e.state m) = messages (e.state k) := fun m hm => by
    rw [hset₀ m (by omega), hset₀ k hk₀]
  rw [← hset₀ k hk₀] at hdone
  obtain ⟨b, hb⟩ := idle_above (Execution.reachable h0 k)
  -- finitely many producers are inside a call, and each has a last moment there
  have hall : ∀ c, ∃ j ≥ k, ∀ m ≥ j, ∀ p < c, (e.state m).producers p = .idle := by
    intro c
    induction c with
    | zero => exact ⟨k, Nat.le_refl k, fun _ _ p hp => absurd hp (Nat.not_lt_zero p)⟩
    | succ c ih =>
      obtain ⟨j, hj, hidle⟩ := ih
      obtain ⟨i, _, hi⟩ := h.returns hset hdone c
      refine ⟨max i j, hj.trans (le_max_right i j), fun m hm p hp => ?_⟩
      rcases Nat.lt_succ_iff_lt_or_eq.mp hp with hlt | heq
      · exact hidle m ((le_max_right i j).trans hm) p hlt
      · rw [heq]
        exact hi m ((le_max_left i j).trans hm)
  obtain ⟨j, hj, hbelow⟩ := hall b
  refine ⟨j, fun m hm => ?_⟩
  have hidle : ∀ p, (e.state m).producers p = .idle := by
    intro p
    by_cases hp : p < b
    · exact hbelow m hm p hp
    · exact h.stays_idle hset (Nat.le_refl k) (hb p (Nat.le_of_not_lt hp)) m (by omega)
  have hcount := (h.sound m).nextSeq_le_count hidle
  have hlt := (h.sound m).cursor.cursor_lt
  refine ⟨hidle, fun h0 => ?_⟩
  unfold count at hcount
  split_ifs at hcount with hc
  · omega
  · have := hlt hc
    omega

/-- The second of two producers finishes its write first and returns last; nothing happens afterwards. -/
theorem mpmc_publishes_return_overtaken : ∃ e : Execution (step (n := 1) Config.smallMpmc), ∃ k,
    (e.state 0).ring.nextSeq = 0 ∧ ∀ m ≥ k, (∀ p, (e.state m).producers p = .idle) ∧ (e.state m).ring.cursor = 1 := by
  have hrun : (run (step Config.smallMpmc) (new 1)
      (List.flatten [[.mpCall 0 ⟨fun _ => 7, false⟩, .mpCall 1 ⟨fun _ => 8, false⟩, .mp 0],
        List.replicate 6 (.mp 1), List.replicate 9 (.mp 0), List.replicate 4 (.mp 1)])).any
      (fun w => decide (messages w < seqLimit ∧ w.ring.nextSeq = 2 ∧
        w.producers 0 = .idle ∧ w.producers 1 = .idle)) = true := by decide +kernel
  obtain ⟨w, hw, hp⟩ := (Option.any_eq_true _ _).mp hrun
  obtain ⟨hl, hnext, h0, h1⟩ := of_decide_eq_true hp
  have hidle : ∀ p, w.producers p = .idle := by
    intro p
    rcases p with _ | _ | p
    · exact h0
    · exact h1
    · rw [run_producers (p := p + 2) (by simp) hw]
      rfl
  have hstop : step Config.smallMpmc w (.shutdown 0) = some (w.setSub 0 (requestShutdown w.ring (w.subs 0))) := rfl
  obtain ⟨as, hall⟩ : ∃ as, run (step Config.smallMpmc) (new 1) as =
      some (w.setSub 0 (requestShutdown w.ring (w.subs 0))) :=
    ⟨_, (Execution.run_concat _ _ (.shutdown 0)).trans (by rw [hw]; exact hstop)⟩
  have hloop : run (step Config.smallMpmc) (w.setSub 0 (requestShutdown w.ring (w.subs 0))) [.shutdown 0] =
      some (w.setSub 0 (requestShutdown w.ring (w.subs 0))) := run_cons (shutdown_again hstop) rfl
  let e := Execution.ofLoop (.shutdown 0) [] hall hloop
  have hlast : ∀ k ≥ as.length, e.state k = w.setSub 0 (requestShutdown w.ring (w.subs 0)) :=
    fun k hk => Execution.ofLoop_state hall hloop hk
  have hlim : ∀ k, messages (e.state k) < seqLimit := by
    intro k
    have hle := Execution.le_of_le (e := e) FairRun.messages_mono (Nat.le_add_right k as.length)
    rw [hlast _ (Nat.le_add_left _ _)] at hle
    exact lt_of_le_of_lt hle hl
  obtain ⟨k, hk⟩ := mpmc_publishes_return rfl e .start
    (fun p => Execution.ofLoop_fair _ _ (by simp [step, setSub, hidle, MpPc.step])) hlim
  refine ⟨e, max k as.length, rfl, fun m hm => ?_⟩
  obtain ⟨hi, hcur⟩ := hk m ((le_max_left k _).trans hm)
  refine ⟨hi, ?_⟩
  rw [hlast m ((le_max_right k _).trans hm)] at hcur ⊢
  have hnext' : (w.setSub 0 (requestShutdown w.ring (w.subs 0))).ring.nextSeq = 2 := hnext
  rw [hnext'] at hcur
  exact hcur (by decide)

end PhotonRing.World
