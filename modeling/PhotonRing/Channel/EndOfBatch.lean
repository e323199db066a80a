import PhotonRing.Channel.Stream

/-!
# The last handler call of a batch

`drain_batch` sets `end_of_batch` in its last iteration. An iteration that reports a lag
delivers nothing, and one that reports `Empty` ends the loop, so after a delivery either can
leave the batch without a call that has the flag. So does a handler that panics with
iterations to come. When nothing after a delivery does, a batch with a call at all has the
flag set on its last call, and on no other.
-/
namespace PhotonRing.EndOfBatch

open Lib Lib.Seqlock Reader World

variable {n : Nat} {cfg : Config} {r : Ring n} {t t' : Trackers} {i : Nat} {s s' : Subscriber n}
  {w w' w1 : World n} {a : Act n} {before : List (Buf n × Nat × Bool)}

/-- The condition on a receive of a batch in which the handler has been called: the slot
holds the message at the cursor, or, with iterations to come, a later one, and the head has
passed the cursor by the capacity. A call with iterations to come returns. -/
def staysFilled (cfg : Config) (r : Ring n) (s : Subscriber n) : Bool :=
  match s.pc with
  | .read (.drainBatch b) .stamp =>
    let stamp := (r.slots (cfg.slot s.cursor)).stamp
    decide (b.done = 0 ∨ stamp = done s.cursor ∨ b.i + 1 < b.batch ∧ stamp % 2 = 0 ∧ done s.cursor < stamp)
  | .read (.drainBatch b) (.load off _) =>
    decide (b.done = 0 ∨ off < n ∨ (r.slots (cfg.slot s.cursor)).stamp = done s.cursor)
  | .head (.drainBatch b) =>
    decide (b.done = 0 ∨ b.i + 1 < b.batch ∧ r.cursor ≠ u64Max ∧ cfg.capacity ≤ r.cursor ∧
      s.cursor < r.cursor - cfg.capacity + 1)
  | .commit (.drainBatch b) (.ok _) => decide (s.panicAt ≠ some s.handled.length ∨ b.i + 1 = b.batch)
  | _ => true

/-- The steps of a batch whose receives meet the condition. -/
def filledStep (cfg : Config) (i : Nat) (w : World n) (a : Act n) : Option (World n) :=
  match a with
  | .sub j => if j = i ∧ staysFilled cfg w.ring (w.subs i) = false then none else Stream.batchStep cfg i w (.sub j)
  | a => Stream.batchStep cfg i w a

theorem filledStep_step (h : filledStep cfg i w a = some w') :
    Stream.inBatch (w.subs i).pc = true ∧ step cfg w a = some w' ∧
      (a = .sub i → staysFilled cfg w.ring (w.subs i) = true) := by
  cases a with
  | sub j =>
    simp only [filledStep] at h
    obtain ⟨hok, h⟩ := Option.ite_none_left_eq_some.mp h
    obtain ⟨hin, hstep⟩ := Stream.batch_step h
    refine ⟨hin, hstep, fun ha => ?_⟩
    by_contra hfilled
    exact hok ⟨Act.sub.inj ha, Bool.not_eq_true _ ▸ hfilled⟩
  | _ =>
    obtain ⟨hin, hstep⟩ := Stream.batch_step h
    exact ⟨hin, hstep, fun ha => by cases ha⟩

/-- No call, or the flag on the last one alone. -/
def Closed (hs : List (Buf n × Nat × Bool)) : Prop :=
  hs = [] ∨ ∃ init final, hs = init ++ [final] ∧ (∀ h ∈ init, h.2.2 = false) ∧ final.2.2 = true

/-- Where a batch can be: every call so far was without the flag, and a lag that was
reported after a call was not reported by the last iteration. -/
structure Running (before : List (Buf n × Nat × Bool)) (b : Batch) (s : Subscriber n) : Prop where
  calls : ∃ hs, s.handled = before ++ hs ∧ hs.length = b.done ∧ ∀ h ∈ hs, h.2.2 = false
  within : b.i < b.batch
  point : (∃ pc, s.pc = .read (.drainBatch b) pc) ∨ s.pc = .head (.drainBatch b) ∨
    (∃ buf, s.pc = .commit (.drainBatch b) (.ok buf)) ∨
    ∃ k, s.pc = .commit (.drainBatch b) (.lagged k) ∧ (b.done = 0 ∨ b.i + 1 < b.batch)

/-- A batch under way or finished. -/
inductive Calls (before : List (Buf n × Nat × Bool)) (s : Subscriber n) : Prop where
  | running {b : Batch} (h : Running before b s)
  | finished {hs : List (Buf n × Nat × Bool)} (hpc : Stream.inBatch s.pc = false) (hcalls : s.handled = before ++ hs)
      (hclosed : Closed hs)

theorem Running.inBatch {b : Batch} (h : Running before b s) : Stream.inBatch s.pc = true := by
  obtain ⟨pc, hpc⟩ | hpc | ⟨buf, hpc⟩ | ⟨k, hpc, _⟩ := h.point <;> rw [hpc] <;> rfl

theorem endBatch_calls {b : Batch} {hs : List (Buf n × Nat × Bool)} (hcalls : s.handled = before ++ hs)
    (hclosed : Closed hs) : Calls before (s.endBatch b) := by
  obtain ⟨hout, hhandled⟩ := Stream.endBatch_over s b
  exact .finished hout (hhandled.trans hcalls) hclosed

/-- The end of a batch that has not called the handler. -/
theorem Running.abandon {b : Batch} (h : Running before b s) (hdone : b.done = 0) : Calls before (s.endBatch b) := by
  obtain ⟨hs, hcalls, hlen, _⟩ := h.calls
  rw [hdone, List.length_eq_zero_iff] at hlen
  exact endBatch_calls hcalls (Or.inl hlen)

theorem Running.move {b : Batch} (h : Running before b s) (hhandled : s'.handled = s.handled)
    (hpoint : (∃ pc, s'.pc = .read (.drainBatch b) pc) ∨ s'.pc = .head (.drainBatch b) ∨
      (∃ buf, s'.pc = .commit (.drainBatch b) (.ok buf)) ∨
      ∃ k, s'.pc = .commit (.drainBatch b) (.lagged k) ∧ (b.done = 0 ∨ b.i + 1 < b.batch)) : Calls before s' := by
  obtain ⟨hs, hcalls, hlen, hopen⟩ := h.calls
  exact .running ⟨⟨hs, hhandled.trans hcalls, hlen, hopen⟩, h.within, hpoint⟩

/-- A delivery: without the flag if iterations follow, with it otherwise. -/
theorem Running.deliver {b : Batch} (h : Running before b s) (buf : Buf n)
    (hok : s.panicAt ≠ some s.handled.length ∨ b.i + 1 = b.batch) : Calls before (s.handle b buf) := by
  obtain ⟨hs, hcalls, hlen, hopen⟩ := h.calls
  have hwithin := h.within
  have hgrown : s.handled ++ [(buf, b.seq, b.i + 1 == b.batch)] =
      before ++ (hs ++ [(buf, b.seq, b.i + 1 == b.batch)]) := by
    rw [hcalls, List.append_assoc]
  have hclosed (hlast : b.i + 1 = b.batch) : Closed (hs ++ [(buf, b.seq, b.i + 1 == b.batch)]) :=
    Or.inr ⟨hs, _, rfl, hopen, beq_iff_eq.mpr hlast⟩
  refine Subscriber.handle_cases (P := Calls before) (fun hpanic => ?_) (fun _ => ?_)
  · exact .finished rfl hgrown (hclosed (hok.resolve_left fun hreturns => hreturns hpanic))
  · unfold Subscriber.nextInBatch
    split
    · rename_i hnext
      dsimp only at hnext
      refine .running (b := { b with done := b.done + 1, i := b.i + 1, seq := s.cursor }) ⟨⟨_, hgrown, ?_, ?_⟩, hnext,
        Or.inl ⟨.stamp, rfl⟩⟩
      · rw [List.length_append, hlen]
        rfl
      · intro x hx
        rcases List.mem_append.mp hx with hx | hx
        · exact hopen x hx
        · rw [List.mem_singleton.mp hx]
          exact beq_eq_false_iff_ne.mpr (by omega)
    · rename_i hnext
      dsimp only at hnext
      exact endBatch_calls hgrown (hclosed (by omega))

/-- An iteration that reported a lag. -/
theorem Running.skip {b : Batch} (h : Running before b s) (hnext : b.done = 0 ∨ b.i + 1 < b.batch) :
    Calls before (s.nextInBatch b) := by
  obtain ⟨hs, hcalls, hlen, hopen⟩ := h.calls
  unfold Subscriber.nextInBatch
  split
  · rename_i hi
    exact .running (b := { b with i := b.i + 1, seq := s.cursor }) ⟨⟨hs, hcalls, hlen, hopen⟩, hi, Or.inl ⟨.stamp, rfl⟩⟩
  · rename_i hi
    exact h.abandon (hnext.resolve_right hi)

/-- A receive of the batch. -/
theorem Running.read {b : Batch} {pc : ReadPc n} (h : Running before b s) (hpc : s.pc = .read (.drainBatch b) pc)
    (hok : staysFilled cfg r s = true) (hstep : s.step cfg r t i = some (t', s')) : Calls before s' := by
  simp only [Subscriber.step, hpc] at hstep
  cases pc with
  | stamp =>
    simp only [staysFilled, hpc, decide_eq_true_eq] at hok
    by_cases hd : (r.slots (cfg.slot s.cursor)).stamp = done s.cursor
    · simp only [Slot.readStep, hd, ↓reduceIte] at hstep
      cases hstep
      exact h.move rfl (Or.inl ⟨_, rfl⟩)
    · have hrest : b.done = 0 ∨ b.i + 1 < b.batch ∧ (r.slots (cfg.slot s.cursor)).stamp % 2 = 0 ∧
          done s.cursor < (r.slots (cfg.slot s.cursor)).stamp :=
        hok.imp_right fun hok => hok.resolve_left hd
      by_cases heven : (r.slots (cfg.slot s.cursor)).stamp % 2 = 0
      · simp only [Slot.readStep, hd, heven, ne_eq, not_true_eq_false, ↓reduceIte, Subscriber.onTryRead] at hstep
        by_cases hold : (r.slots (cfg.slot s.cursor)).stamp < done s.cursor
        · rw [if_pos hold] at hstep
          cases hstep
          exact h.abandon (hrest.resolve_right fun hk => absurd hold (Nat.lt_asymm hk.2.2))
        · rw [if_neg hold] at hstep
          cases hstep
          exact h.move rfl (Or.inr (Or.inl rfl))
      · simp only [Slot.readStep, hd, heven, ne_eq, not_false_eq_true, ↓reduceIte] at hstep
        cases hstep
        exact h.abandon (hrest.resolve_right fun hk => heven hk.2.1)
  | load off buf =>
    simp only [staysFilled, hpc, decide_eq_true_eq] at hok
    by_cases hoff : off < n
    · simp only [Slot.readStep, hoff, ↓reduceIte] at hstep
      cases hstep
      exact h.move rfl (Or.inl ⟨_, rfl⟩)
    · by_cases hd : (r.slots (cfg.slot s.cursor)).stamp = done s.cursor
      · simp only [Slot.readStep, hoff, hd, ↓reduceIte] at hstep
        cases hstep
        exact h.move rfl (Or.inr (Or.inr (Or.inl ⟨buf, rfl⟩)))
      · simp only [Slot.readStep, hoff, hd, ↓reduceIte] at hstep
        cases hstep
        exact h.abandon (hok.resolve_right fun hk => hk.elim hoff hd)

/-- A step of the consumer in its batch. -/
theorem Running.step {b : Batch} (h : Running before b s) (hok : staysFilled cfg r s = true)
    (hstep : s.step cfg r t i = some (t', s')) : Calls before s' := by
  obtain ⟨pc, hpc⟩ | hpc | ⟨buf, hpc⟩ | ⟨k, hpc, hnext⟩ := h.point
  · exact h.read hpc hok hstep
  · simp only [staysFilled, hpc, decide_eq_true_eq] at hok
    simp only [Subscriber.step, hpc, Subscriber.onHead] at hstep
    split_ifs at hstep with hmax hlag
    · cases hstep
      exact h.abandon (hok.resolve_right fun hk => by omega)
    · cases hstep
      exact h.move rfl (Or.inr (Or.inr (Or.inr ⟨_, rfl, hok.imp_right fun hk => hk.1⟩)))
    · cases hstep
      exact h.abandon (hok.resolve_right fun hk => hlag hk.2.2)
  · simp only [staysFilled, hpc, decide_eq_true_eq] at hok
    simp only [Subscriber.step, hpc] at hstep
    cases hstep
    have hcounted : Running before b { s with
        totalReceived := u64 (s.totalReceived + 1)
        events := s.events ++ [Event.received (s.cursor - 1) buf] } := ⟨h.calls, h.within, h.point⟩
    exact hcounted.deliver buf hok
  · simp only [Subscriber.step, hpc] at hstep
    cases hstep
    have hcounted : Running before b { s with
        totalLagged := u64 (s.totalLagged + k)
        events := s.events ++ [Event.skipped (s.cursor - k) s.cursor] } := ⟨h.calls, h.within, h.point⟩
    exact hcounted.skip hnext

theorem Calls.step (h : Calls before (w.subs i)) (hstep : filledStep cfg i w a = some w') :
    Calls before (w'.subs i) := by
  obtain ⟨hin, hst, hok⟩ := filledStep_step hstep
  cases h with
  | finished hpc _ _ =>
    rw [hpc] at hin
    cases hin
  | running hr =>
    cases step_subs hst i with
    | other he =>
      rw [he]
      exact .running hr
    | subscribe he _ =>
      rw [(subscribe_pc he).1] at hin
      cases hin
    | call he _ =>
      rw [(call_idle he).1] at hin
      cases hin
    | step he => exact hr.step (hok rfl) he
    | drop he _ =>
      rcases (drop_pc he).1 with hpc | hpc <;> rw [hpc] at hin <;> cases hin
    | shutdown he _ =>
      rw [he]
      exact .running ⟨hr.calls, hr.within, hr.point⟩

/-- The sample of `pending` begins a batch. -/
theorem onPending_calls (policy : DrainPolicy) (idle : Nat) (final : Bool) (head : Nat) :
    Calls s.handled (s.onPending cfg policy idle final head) := by
  refine Subscriber.onPending_cases (fun _ => endBatch_calls (List.append_nil _).symm (Or.inl rfl)) (fun hne => ?_)
  exact .running ⟨⟨[], (List.append_nil _).symm, rfl, fun h hh => by cases hh⟩, Nat.pos_of_ne_zero hne,
    Or.inl ⟨.stamp, rfl⟩⟩

/-- On every kind of channel and for every subscriber, whoever publishes in between: a
`drain_batch` whose receives and calls met the condition and that is over made no call, or
set `end_of_batch` on its last call and on no other. -/
theorem end_of_batch_closes {policy : DrainPolicy} {idle : Nat} {final : Bool}
    {w0 : World n} (hpc : (w0.subs i).pc = .loadPending policy idle final) (hbegin : step cfg w0 (.sub i) = some w1)
    (hrun : Reachable (filledStep cfg i) w1 w) (hover : Stream.inBatch (w.subs i).pc = false) :
    ∃ hs, (w.subs i).handled = (w0.subs i).handled ++ hs ∧ Closed hs := by
  obtain ⟨⟨t, s⟩, hs, rfl⟩ := Option.map_eq_some_iff.mp hbegin
  have hcalls : Calls (w0.subs i).handled (w.subs i) := by
    refine hrun.invariant (P := fun w => Calls (w0.subs i).handled (w.subs i)) ?_ fun _ _ _ _ ha hc => hc.step ha
    simp only [Subscriber.step, hpc] at hs
    cases hs
    rw [setSub_self]
    exact onPending_calls policy idle final w0.ring.cursor
  cases hcalls with
  | running hr =>
    rw [hr.inBatch] at hover
    cases hover
  | finished _ hhandled hclosed => exact ⟨_, hhandled, hclosed⟩

theorem loadPending_of_test {pc : SubPc n} (h : Stream.samplesPending pc = true) :
    ∃ policy idle final, pc = .loadPending policy idle final := by
  cases pc with
  | loadPending policy idle final => exact ⟨policy, idle, final, rfl⟩
  | _ => cases h

/-- The flags of the handler calls. -/
def flags (s : Subscriber n) : List (Nat × Bool) := s.handled.map fun h => (h.2.1, h.2.2)

/-- A batch of two whose first receive reports a lag: the second one delivers with the flag. -/
theorem end_of_batch_closes_lagged :
    ∃ w0 w1 w : World 1, Reach Config.smallLossy w0 ∧ step Config.smallLossy w0 (.sub 0) = some w1 ∧
      Reachable (filledStep Config.smallLossy 0) w1 w ∧ (w.subs 0).totalLagged = 1 ∧ flags (w.subs 0) = [(1, true)] ∧
      ∃ hs, (w.subs 0).handled = (w0.subs 0).handled ++ hs ∧ Closed hs := by
  obtain ⟨w0, w1, w, h0, h1, h, hp⟩ := Reachable.of_run_step_run (step Config.smallLossy)
    (filledStep Config.smallLossy 0) (World.new 1)
    (fun w0 _ w => decide (Stream.samplesPending (w0.subs 0).pc = true ∧ Stream.inBatch (w.subs 0).pc = false ∧
      (w.subs 0).totalLagged = 1 ∧ flags (w.subs 0) = [(1, true)]))
    (List.flatten [[.subscribe 0 .subscribe, .sub 0], .pubCall (.publish fun _ => 5) :: List.replicate 5 .pub,
      .pubCall (.publish fun _ => 6) :: List.replicate 5 .pub, [.subCall 0 (.consume .drain none), .sub 0]]) (.sub 0)
    (List.flatten [.pubCall (.publish fun _ => 7) :: List.replicate 5 .pub, List.replicate 7 (.sub 0)])
    (by decide +kernel)
  obtain ⟨hsample, hover, hlag, hflags⟩ := of_decide_eq_true hp
  obtain ⟨policy, idle, final, hpc⟩ := loadPending_of_test hsample
  exact ⟨w0, w1, w, h0, h1, h, hlag, hflags, end_of_batch_closes hpc h1 h hover⟩

/-- A batch of two whose second receive reports a lag: one message was delivered, and the
batch is over without the flag. -/
theorem batch_without_end :
    ∃ w0 w1 w : World 1, Reach Config.smallLossy w0 ∧ Stream.samplesPending (w0.subs 0).pc = true ∧
      step Config.smallLossy w0 (.sub 0) = some w1 ∧ Reachable (Stream.batchStep Config.smallLossy 0) w1 w ∧
      Stream.inBatch (w.subs 0).pc = false ∧ flags (w0.subs 0) = [] ∧ flags (w.subs 0) = [(0, false)] := by
  obtain ⟨w0, w1, w, h0, h1, h, hp⟩ := Reachable.of_run_step_run (step Config.smallLossy)
    (Stream.batchStep Config.smallLossy 0) (World.new 1)
    (fun w0 _ w => decide (Stream.samplesPending (w0.subs 0).pc = true ∧ Stream.inBatch (w.subs 0).pc = false ∧
      flags (w0.subs 0) = [] ∧ flags (w.subs 0) = [(0, false)]))
    (List.flatten [[.subscribe 0 .subscribe, .sub 0], .pubCall (.publish fun _ => 5) :: List.replicate 5 .pub,
      .pubCall (.publish fun _ => 6) :: List.replicate 5 .pub, [.subCall 0 (.consume .drain none), .sub 0]]) (.sub 0)
    (List.flatten [List.replicate 4 (.sub 0), .pubCall (.publish fun _ => 7) :: List.replicate 5 .pub,
      .pubCall (.publish fun _ => 8) :: List.replicate 5 .pub, List.replicate 3 (.sub 0)]) (by decide +kernel)
  obtain ⟨hsample, hover, hnone, hflags⟩ := of_decide_eq_true hp
  exact ⟨w0, w1, w, h0, hsample, h1, h, hover, hnone, hflags⟩

end PhotonRing.EndOfBatch
