import PhotonRing.Channel.ReadSide

/-!
# Draining at shutdown

A consumer that sees its shutdown flag runs one last batch. Its length is the
number of pending messages, sampled once and capped at the capacity, and every
receive uses up one iteration whether it delivers a message or reports a loss. So
the last batch reaches everything that was accepted only if the shared cursor had
got there when `pending` was sampled, and every message was still in its slot when
its turn came.
-/
namespace PhotonRing.Drain

open Lib Lib.Seqlock Reader World

variable {n : Nat} {cfg : Config} {r r' : Ring n} {t t' : Trackers} {i : Nat} {s s' : Subscriber n}

/-- The message published with sequence `q` was passed to the handler, or `q` was
counted as lost. -/
def Accounted (r : Ring n) (s : Subscriber n) (q : Nat) : Prop :=
  (∃ v last, r.log[q]? = some v ∧ (bytesOf v, q, last) ∈ s.handled) ∨
    ∃ old new, Event.skipped old new ∈ s.events ∧ old ≤ q ∧ q < new

/-- Everything from where the consumer took over up to `b` is accounted for. -/
def Covered (r : Ring n) (s : Subscriber n) (b : Nat) : Prop :=
  ∀ policy a, s.spawned = some (policy, a) → ∀ q, a ≤ q → q < b → Accounted r s q

/-- Everything accepted before the shutdown request is below `b`. -/
def OwedBelow (s : Subscriber n) (b : Nat) : Prop := ∀ o ∈ s.owed, o < b

/-- The condition on a step of a final drain: when `pending` is sampled, the shared
cursor covers all that is owed, and at a slot access, unless nothing owed is left,
the slot still holds the message at the cursor. -/
def drainOk (cfg : Config) (w : World n) : Act n → Bool
  | .sub i =>
    match (w.subs i).pc with
    | .loadPending _ _ true => (w.subs i).owed.all fun o =>
        decide (o < (w.subs i).cursor) || decide (w.ring.cursor ≠ u64Max ∧ o ≤ w.ring.cursor)
    | .read (.drainBatch b) _ => !b.final || ((w.subs i).owed.all fun o => decide (o < (w.subs i).cursor)) ||
        decide ((w.ring.slots (cfg.slot (w.subs i).cursor)).stamp = done (w.subs i).cursor)
    | _ => true
  | _ => true

/-- The steps that meet the condition. -/
def orderlyStep (cfg : Config) (w : World n) (a : Act n) : Option (World n) :=
  if drainOk cfg w a then step cfg w a else none

/-! ## The consumer loop -/

/-- The facts about a batch that do not change while it runs. -/
structure BatchOk (s : Subscriber n) (b : Batch) : Prop where
  spawned : ∃ a, s.spawned = some (b.policy, a)
  i_lt : b.i < b.batch
  final : b.final = true → s.shutdown = true

def LoopOk (cfg : Config) (r : Ring n) (s : Subscriber n) : SubPc n → Prop
  | .checkShutdown policy _ => (∃ a, s.spawned = some (policy, a)) ∧ Covered r s s.cursor
  | .loadPending policy _ final => (∃ a, s.spawned = some (policy, a)) ∧ Covered r s s.cursor ∧
      (final = true → s.shutdown = true)
  | .gate (.drainBatch _) _ _ => False
  | .read (.drainBatch b) pc => BatchOk s b ∧ Covered r s s.cursor ∧ b.seq = s.cursor ∧
      (b.final = true → OwedBelow s (s.cursor + (b.batch - b.i)) ∨ pc = .stamp ∧ Overwritten cfg r s.cursor)
  | .head (.drainBatch b) => BatchOk s b ∧ Covered r s s.cursor ∧ (b.final = true → OwedBelow s s.cursor)
  | .commit (.drainBatch b) (.ok _) => BatchOk s b ∧ Covered r s b.seq ∧ b.seq + 1 = s.cursor ∧
      (b.final = true → OwedBelow s (b.seq + (b.batch - b.i)))
  | .commit (.drainBatch b) (.lagged k) => BatchOk s b ∧ Covered r s (s.cursor - k) ∧
      (b.final = true → OwedBelow s (s.cursor - k))
  | .commit (.drainBatch _) .empty => False
  | .exited => s.panicked = false → s.shutdown = true ∧ Covered r s s.cursor ∧
      ∀ a, s.spawned = some (.drain, a) → OwedBelow s s.cursor
  | _ => True

theorem OwedBelow.mono {b b' : Nat} (h : OwedBelow s b) (hb : b ≤ b') : OwedBelow s b' :=
  fun o ho => (h o ho).trans_le hb

/-- More in the journals, and nothing accepted later, keeps what is covered. -/
theorem Covered.extend {b b' : Nat} (h : Covered r s b) (hsp : s'.spawned = s.spawned)
    (hh : ∀ x ∈ s.handled, x ∈ s'.handled) (he : ∀ e ∈ s.events, e ∈ s'.events)
    (hnew : ∀ q, b ≤ q → q < b' → Accounted r s' q) : Covered r s' b' := by
  intro policy a ha q hq hqb
  rw [hsp] at ha
  rcases Nat.lt_or_ge q b with hlt | hge
  · rcases h policy a ha q hq hlt with ⟨v, last, hv, hm⟩ | ⟨old, new, hm, hr⟩
    · exact Or.inl ⟨v, last, hv, hh _ hm⟩
    · exact Or.inr ⟨old, new, he _ hm, hr⟩
  · exact hnew q hge hqb

theorem Covered.mono {b : Nat} (h : Covered r s b) (hg : r.Grows r') : Covered r' s b := by
  intro policy a ha q hq hqb
  rcases h policy a ha q hq hqb with ⟨v, last, hv, hm⟩ | hlost
  · exact Or.inl ⟨v, last, hg.log_eq hv, hm⟩
  · exact Or.inr hlost

/-- Returning from a batch, with everything up to the cursor accounted for. -/
theorem endBatch_ok {b : Batch} (hsp : ∃ a, s.spawned = some (b.policy, a))
    (hshut : b.final = true → s.shutdown = true) (hc : Covered r s s.cursor)
    (ho : b.final = true → OwedBelow s s.cursor) :
    LoopOk cfg r (s.endBatch b) (s.endBatch b).pc := by
  unfold Subscriber.endBatch
  by_cases hf : b.final = true
  · rw [if_pos hf]
    exact fun _ => ⟨hshut hf, hc, fun _ _ => ho hf⟩
  · rw [if_neg hf]
    exact ⟨hsp, hc⟩

/-- The next iteration of a batch, or its end. -/
theorem nextInBatch_ok {b : Batch} (hb : BatchOk s b) (hc : Covered r s s.cursor)
    (ho : b.final = true → OwedBelow s (s.cursor + (b.batch - b.i - 1))) :
    LoopOk cfg r (s.nextInBatch b) (s.nextInBatch b).pc := by
  unfold Subscriber.nextInBatch
  split
  · rename_i hlt
    refine ⟨⟨hb.spawned, hlt, hb.final⟩, hc, rfl, fun hf => Or.inl ((ho hf).mono ?_)⟩
    dsimp only [Subscriber.poll]
    omega
  · rename_i hge
    refine endBatch_ok hb.spawned hb.final hc (fun hf => (ho hf).mono ?_)
    omega

/-- A caller outside the consumer loop stays outside. -/
theorem resume_other {c : Caller n} (hc : ∀ b, c ≠ .drainBatch b) (res : Recv n) :
    LoopOk cfg r (s.resume res c) (s.resume res c).pc := by
  cases c with
  | drainBatch b => exact absurd rfl (hc b)
  | recvBatch left filled again =>
    cases res <;> simp only [Subscriber.resume] <;> first | trivial | (split <;> trivial)
  | _ => cases res <;> trivial

theorem read_other {c : Caller n} (hc : ∀ b, c ≠ .drainBatch b) (pc : ReadPc n) :
    LoopOk cfg r s (.read c pc) := by
  cases c <;> first | trivial | exact absurd rfl (hc _)

theorem commit_other {c : Caller n} (hc : ∀ b, c ≠ .drainBatch b) (res : Recv n) :
    LoopOk cfg r s (.commit c res) := by
  cases c <;> first | trivial | exact absurd rfl (hc _)

theorem afterRead_other {c : Caller n} {res : TryRead n} (h : AfterRead s c res s')
    (hc : ∀ b, c ≠ .drainBatch b) : LoopOk cfg r s' s'.pc := by
  cases h with
  | value _ => exact commit_other hc _
  | again _ hdrain => exact read_other hdrain _
  | empty => exact resume_other hc .empty
  | passed => cases c <;> first | trivial | exact absurd rfl (hc _)

theorem onHead_other {c : Caller n} (hc : ∀ b, c ≠ .drainBatch b) (head : Nat) :
    LoopOk cfg r (s.onHead cfg c head) (s.onHead cfg c head).pc := by
  exact Subscriber.onHead_cases (P := fun u => LoopOk cfg r u u.pc) (resume_other hc .empty)
    (fun _ _ _ => commit_other hc _)

/-- The condition of `drainOk` on a slot access. -/
def AccessOk (cfg : Config) (r : Ring n) (s : Subscriber n) : Prop :=
  OwedBelow s s.cursor ∨ (r.slots (cfg.slot s.cursor)).stamp = done s.cursor

/-- The condition of `drainOk` on the sample of `pending`. -/
def SampleOk (r : Ring n) (s : Subscriber n) : Prop :=
  ∀ o ∈ s.owed, o < s.cursor ∨ r.cursor ≠ u64Max ∧ o ≤ r.cursor

/-- A slot that still holds the message at the cursor lets the read go on. -/
theorem readStep_of_done {sl : Slot n} {seq : Nat} {pc : ReadPc n} {res : TryRead n}
    (hst : sl.stamp = done seq) (h : sl.readStep seq pc = .inr res) : ∃ buf, res = .value buf := by
  cases pc with
  | stamp => simp [Slot.readStep, hst] at h
  | load off buf =>
    simp only [Slot.readStep, hst, ↓reduceIte] at h
    split at h
    · cases h
    · exact ⟨buf, (Sum.inr.inj h).symm⟩

/-- A read of the consumer loop. -/
theorem read_ok {b : Batch} {pc : ReadPc n} (hcur : s.cursor < seqLimit) (hpc : s.pc = .read (.drainBatch b) pc)
    (h : LoopOk cfg r s (.read (.drainBatch b) pc)) (hacc : b.final = true → AccessOk cfg r s)
    (hstep : s.step cfg r t i = some (t', s')) : LoopOk cfg r s' s'.pc := by
  obtain ⟨hb, hcov, hseq, hown⟩ := h
  have hslot := cfg.slot_eq_of_lt hcur
  have hcap := cfg.two_le
  -- a slot that was overwritten does not hold the message at the cursor
  have hstale (ho : Overwritten cfg r s.cursor) : (r.slots (cfg.slot s.cursor)).stamp ≠ done s.cursor := by
    unfold Overwritten Ring.stampAt at ho
    rw [hslot, done_eq hcur]
    omega
  simp only [Subscriber.step, hpc] at hstep
  cases hrs : (r.slots (cfg.slot s.cursor)).readStep s.cursor pc with
  | inl pc' =>
    rw [hrs] at hstep
    cases hstep
    refine ⟨⟨hb.spawned, hb.i_lt, hb.final⟩, hcov, hseq, fun hf => ?_⟩
    rcases hown hf with ho | ⟨rfl, ho⟩
    · exact Or.inl ho
    · have := hstale ho
      simp only [Slot.readStep, this, ↓reduceIte] at hrs
      split at hrs <;> cases hrs
  | inr res =>
    rw [hrs] at hstep
    cases hstep
    have hmiss (hne : ∀ buf, res ≠ .value buf) (hf : b.final = true) : OwedBelow s s.cursor := by
      rcases hacc hf with ho | hst
      · exact ho
      · obtain ⟨buf, hv⟩ := readStep_of_done hst hrs
        exact absurd hv (hne buf)
    cases res with
    | value buf =>
      have hword : u64 (s.cursor + 1) = s.cursor + 1 := u64_of_lt (by unfold seqLimit at hcur; omega)
      refine ⟨⟨hb.spawned, hb.i_lt, hb.final⟩, ?_, by rw [hseq]; exact hword.symm, ?_⟩
      · rw [hseq]
        exact hcov
      · intro hf
        rcases hown hf with ho | ⟨rfl, ho⟩
        · rw [hseq]
          exact ho
        · have := hstale ho
          simp only [Slot.readStep, this, ↓reduceIte] at hrs
          split at hrs <;> cases hrs
    | torn => exact endBatch_ok hb.spawned hb.final hcov (hmiss (fun _ h => by cases h))
    | other st =>
      have ho := hmiss (fun _ h => by cases h)
      simp only [Subscriber.onTryRead]
      split_ifs
      · exact endBatch_ok hb.spawned hb.final hcov ho
      · exact endBatch_ok hb.spawned hb.final hcov ho
      · exact ⟨⟨hb.spawned, hb.i_lt, hb.final⟩, hcov, ho⟩

/-- The lag computation of the consumer loop. -/
theorem head_ok {b : Batch} (h : LoopOk cfg r s (.head (.drainBatch b))) (head : Nat) :
    LoopOk cfg r (s.onHead cfg (.drainBatch b) head) (s.onHead cfg (.drainBatch b) head).pc := by
  obtain ⟨hb, hcov, hown⟩ := h
  refine Subscriber.onHead_cases (P := fun u => LoopOk cfg r u u.pc)
    (endBatch_ok hb.spawned hb.final hcov hown) (fun _ _ hlt => ?_)
  have hback : head - cfg.capacity + 1 - (head - cfg.capacity + 1 - s.cursor) = s.cursor := by omega
  refine ⟨⟨hb.spawned, hb.i_lt, hb.final⟩, ?_, fun hf => ?_⟩
  · dsimp only
    rw [hback]
    exact hcov
  · dsimp only
    rw [hback]
    exact hown hf

/-- The outcome of a receive of the consumer loop is counted. -/
theorem commit_ok {b : Batch} {res : Recv n} (h : LoopOk cfg r s (.commit (.drainBatch b) res))
    (hst : StageOk cfg r s.cursor (.ahead res)) :
    LoopOk cfg r (s.onCommit (.drainBatch b) res) (s.onCommit (.drainBatch b) res).pc := by
  cases res with
  | ok buf =>
    obtain ⟨hb, hcov, hseq, hown⟩ := h
    refine Subscriber.handle_cases (P := fun u => LoopOk cfg r u u.pc) (fun _ hreturned => (by cases hreturned))
      (fun _ => ?_)
    refine nextInBatch_ok (b := { b with done := b.done + 1 }) ⟨hb.spawned, hb.i_lt, hb.final⟩ ?_ (fun hf => ?_)
    · refine hcov.extend rfl (fun x hx => List.mem_append_left _ hx) (fun e he => List.mem_append_left _ he) ?_
      intro q h1 h2
      obtain rfl : q = b.seq := by dsimp only at h2; omega
      obtain ⟨v, hv, rfl⟩ := hst.2
      rw [show s.cursor - 1 = b.seq by omega] at hv
      exact Or.inl ⟨v, _, hv, List.mem_append_right _ (List.mem_singleton.mpr rfl)⟩
    · have hlt := hb.i_lt
      exact (hown hf).mono (by dsimp only; omega)
  | empty => exact h.elim
  | lagged k =>
    obtain ⟨hb, hcov, hown⟩ := h
    refine nextInBatch_ok ⟨hb.spawned, hb.i_lt, hb.final⟩ ?_ (fun hf => (hown hf).mono (by dsimp only; omega))
    refine hcov.extend rfl (fun x hx => hx) (fun e he => List.mem_append_left _ he) ?_
    intro q h1 h2
    exact Or.inr ⟨s.cursor - k, s.cursor, List.mem_append_right _ (List.mem_singleton.mpr rfl), h1, h2⟩

/-- The sample of `pending` that fixes the length of a batch. -/
theorem pending_ok (hr : r.Ok cfg) {policy : DrainPolicy} {idle : Nat} {final : Bool}
    (h : LoopOk cfg r s (.loadPending policy idle final)) (hsample : final = true → SampleOk r s) :
    LoopOk cfg r (s.onPending cfg policy idle final r.cursor) (s.onPending cfg policy idle final r.cursor).pc := by
  obtain ⟨hsp, hcov, hshut⟩ := h
  have hcap := cfg.two_le
  refine Subscriber.onPending_cases (P := fun u => LoopOk cfg r u u.pc) (fun h0 => ?_) (fun h0 => ?_)
  · refine endBatch_ok hsp hshut hcov (fun hf o ho => ?_)
    rcases hsample hf o ho with hlt | ⟨hmax, hle⟩
    · exact hlt
    · by_contra hge
      unfold pendingOf at h0
      rw [if_neg (by omega)] at h0
      omega
  · refine ⟨⟨hsp, by dsimp only; omega, hshut⟩, hcov, rfl, fun hf => ?_⟩
    dsimp only [Subscriber.poll]
    by_cases hlap : r.cursor ≠ u64Max ∧ s.cursor + cfg.capacity ≤ r.cursor
    · exact Or.inr ⟨rfl, overwritten_of_head hr hlap.1 hlap.2⟩
    · left
      intro o ho
      rcases hsample hf o ho with hlt | ⟨hmax, hle⟩
      · omega
      · rcases Nat.lt_or_ge o s.cursor with hlt | hge
        · omega
        · unfold pendingOf
          rw [if_neg (by omega)]
          have : ¬ s.cursor + cfg.capacity ≤ r.cursor := fun hc => hlap ⟨hmax, hc⟩
          omega

/-- A step of the subscriber keeps the loop's invariant, given the condition on the
two kinds of steps it concerns. -/
theorem step_ok (hr : r.Ok cfg) (hs : Reader.Ok cfg r s) (hcur : s.cursor < seqLimit)
    (h : LoopOk cfg r s s.pc)
    (hsample : ∀ policy idle, s.pc = .loadPending policy idle true → SampleOk r s)
    (hacc : ∀ b pc, s.pc = .read (.drainBatch b) pc → b.final = true → AccessOk cfg r s)
    (hstep : s.step cfg r t i = some (t', s')) : LoopOk cfg r s' s'.pc := by
  cases Subscriber.step_moves hstep with
  | @reading c pc pc' hpc _ =>
    by_cases hc : ∃ b, c = .drainBatch b
    · obtain ⟨b, rfl⟩ := hc
      rw [hpc] at h
      exact read_ok hcur hpc h (hacc b pc hpc) hstep
    · exact read_other (fun b hb => hc ⟨b, hb⟩) pc'
  | @read c pc res hpc _ =>
    by_cases hc : ∃ b, c = .drainBatch b
    · obtain ⟨b, rfl⟩ := hc
      rw [hpc] at h
      exact read_ok hcur hpc h (hacc b pc hpc) hstep
    · exact afterRead_other (onTryRead_after s c res) (fun b hb => hc ⟨b, hb⟩)
  | @head c hpc =>
    rw [hpc] at h
    by_cases hc : ∃ b, c = .drainBatch b
    · obtain ⟨b, rfl⟩ := hc
      exact head_ok h r.cursor
    · exact onHead_other (fun b hb => hc ⟨b, hb⟩) r.cursor
  | @commit c res hpc =>
    rw [hpc] at h
    by_cases hc : ∃ b, c = .drainBatch b
    · obtain ⟨b, rfl⟩ := hc
      have hst := hs.stage
      rw [hpc] at hst
      exact commit_ok h hst
    · cases res <;> exact resume_other (fun b hb => hc ⟨b, hb⟩) _
  | @gateNext c u us m hpc =>
    rw [hpc] at h
    cases c <;> exact h
  | gateClosed hpc _ =>
    rw [hpc] at h
    exact resume_other (by rintro b rfl; exact h) .empty
  | gateOpen hpc _ =>
    rw [hpc] at h
    exact read_other (by rintro b rfl; exact h) .stamp
  | checkDrain hpc hset =>
    rw [hpc] at h
    exact ⟨h.1, h.2, fun _ => hset⟩
  | checkStop hpc hset =>
    rw [hpc] at h
    obtain ⟨⟨a', ha'⟩, hcov⟩ := h
    refine fun _ => ⟨hset, hcov, fun a ha => ?_⟩
    have hdrain : s.spawned = some (.drain, a) := ha
    rw [ha'] at hdrain
    cases hdrain
  | checkGo hpc _ =>
    rw [hpc] at h
    exact ⟨h.1, h.2, fun hf => by cases hf⟩
  | @loadPending policy idle final hpc =>
    rw [hpc] at h
    refine pending_ok hr h (fun hf => ?_)
    subst hf
    exact hsample policy idle hpc
  | _ => trivial

/-! ## Along a run -/

theorem LoopOk.mono {pc : SubPc n} (h : LoopOk cfg r s pc) (hg : r.Grows r') : LoopOk cfg r' s pc := by
  cases pc with
  | checkShutdown policy idle => exact ⟨h.1, h.2.mono hg⟩
  | loadPending policy idle final => exact ⟨h.1, h.2.1.mono hg, h.2.2⟩
  | read c rp =>
    cases c with
    | drainBatch b =>
      obtain ⟨hb, hcov, hseq, hown⟩ := h
      refine ⟨hb, hcov.mono hg, hseq, fun hf => ?_⟩
      rcases hown hf with ho | ⟨hrp, ho⟩
      · exact Or.inl ho
      · exact Or.inr ⟨hrp, ho.mono hg⟩
    | _ => trivial
  | gate c us m => cases c <;> exact h
  | head c =>
    cases c with
    | drainBatch b => exact ⟨h.1, h.2.1.mono hg, h.2.2⟩
    | _ => trivial
  | commit c res =>
    cases c with
    | drainBatch b =>
      cases res with
      | ok buf => exact ⟨h.1, h.2.1.mono hg, h.2.2⟩
      | empty => exact h
      | lagged k => exact ⟨h.1, h.2.1.mono hg, h.2.2⟩
    | _ => trivial
  | exited =>
    intro hreturned
    obtain ⟨hset, hcov, hown⟩ := h hreturned
    exact ⟨hset, hcov.mono hg, hown⟩
  | _ => exact h

/-- A repeated request changes nothing, and the first one comes before the final drain. -/
theorem shutdown_ok (h : LoopOk cfg r s s.pc) :
    LoopOk cfg r (requestShutdown r s) (requestShutdown r s).pc := by
  have howed (b : Nat) (hs : s.shutdown = true) (ho : OwedBelow s b) : OwedBelow (requestShutdown r s) b := by
    intro o hm
    have hm' : o ∈ if s.shutdown then s.owed else r.returned := hm
    rw [if_pos hs] at hm'
    exact ho o hm'
  change LoopOk cfg r (requestShutdown r s) s.pc
  revert h
  cases s.pc with
  | loadPending policy idle final => exact fun h => ⟨h.1, h.2.1, fun _ => rfl⟩
  | gate c us m => cases c <;> exact fun h => h
  | read c rp =>
    cases c with
    | drainBatch b =>
      rintro ⟨hb, hcov, hseq, hown⟩
      refine ⟨⟨hb.spawned, hb.i_lt, fun _ => rfl⟩, hcov, hseq, fun hf => ?_⟩
      exact (hown hf).imp (howed _ (hb.final hf)) (fun h => h)
    | _ => exact fun _ => trivial
  | head c =>
    cases c with
    | drainBatch b =>
      rintro ⟨hb, hcov, hown⟩
      exact ⟨⟨hb.spawned, hb.i_lt, fun _ => rfl⟩, hcov, fun hf => howed _ (hb.final hf) (hown hf)⟩
    | _ => exact fun _ => trivial
  | commit c res =>
    cases c with
    | drainBatch b =>
      cases res with
      | ok buf =>
        rintro ⟨hb, hcov, hseq, hown⟩
        exact ⟨⟨hb.spawned, hb.i_lt, fun _ => rfl⟩, hcov, hseq, fun hf => howed _ (hb.final hf) (hown hf)⟩
      | empty => exact fun h => h
      | lagged k =>
        rintro ⟨hb, hcov, hown⟩
        exact ⟨⟨hb.spawned, hb.i_lt, fun _ => rfl⟩, hcov, fun hf => howed _ (hb.final hf) (hown hf)⟩
    | _ => exact fun _ => trivial
  | exited =>
    intro h hreturned
    obtain ⟨hset, hcov, hown⟩ := h hreturned
    exact ⟨rfl, hcov, fun a ha => howed _ hset (hown a ha)⟩
  | _ => exact fun h => h

theorem call_ok {c : SubCall} (h : s.call c = some s') : LoopOk cfg r s' s'.pc := by
  cases (Subscriber.call_begins h).2 with
  | consume policy panicAt =>
    refine ⟨⟨_, rfl⟩, fun p a ha q h1 h2 => ?_⟩
    have ha' : some (policy, s.cursor) = some (p, a) := ha
    cases ha'
    exact absurd h2 (by dsimp only; omega)
  | _ => trivial

variable {w w' : World n} {a : Act n}

theorem orderly_step (h : orderlyStep cfg w a = some w') :
    step cfg w a = some w' ∧ drainOk cfg w a = true := by
  unfold orderlyStep at h
  split at h
  · exact ⟨h, ‹_›⟩
  · cases h

theorem sampleOk_of {i : Nat} (h : drainOk cfg w (.sub i) = true) {policy : DrainPolicy} {idle : Nat}
    (hpc : (w.subs i).pc = .loadPending policy idle true) : SampleOk w.ring (w.subs i) := by
  simp only [drainOk, hpc, List.all_eq_true, Bool.or_eq_true, decide_eq_true_eq] at h
  exact h

theorem accessOk_of {i : Nat} (h : drainOk cfg w (.sub i) = true) {b : Batch} {pc : ReadPc n}
    (hpc : (w.subs i).pc = .read (.drainBatch b) pc) (hf : b.final = true) :
    AccessOk cfg w.ring (w.subs i) := by
  simp only [drainOk, hpc, hf, Bool.not_true, Bool.false_or, Bool.or_eq_true, List.all_eq_true,
    decide_eq_true_eq] at h
  exact h

structure Ok (cfg : Config) (w : World n) : Prop where
  sane : Sane cfg w
  loops : ∀ i, LoopOk cfg w.ring (w.subs i) (w.subs i).pc

theorem step_orderly (h : orderlyStep cfg w a = some w') (hl : messages w' < seqLimit) (hw : Ok cfg w) :
    Ok cfg w' := by
  obtain ⟨hstep, hcond⟩ := orderly_step h
  obtain ⟨_, hgrows⟩ := step_written hstep hl hw.sane.written
  have hl0 : w.ring.log.length < seqLimit := hgrows.log_le.trans_lt hl
  refine ⟨step_sane hstep hl hw.sane, fun i => ?_⟩
  refine LoopOk.mono ?_ hgrows
  have hi := hw.loops i
  cases step_subs hstep i with
  | other hs => rw [hs]; exact hi
  | subscribe hs _ =>
    obtain ⟨_, pc, hpc, he⟩ := subscribe_pc hs
    rw [he]
    rcases hpc with rfl | rfl <;> trivial
  | call hs _ => exact call_ok hs
  | step hs =>
    exact step_ok hw.sane.written.ring (hw.sane.readers i) ((hw.sane.readers i).cursor_lt hl0) hi
      (fun _ _ hpc => sampleOk_of hcond hpc) (fun _ _ hpc hf => accessOk_of hcond hpc hf) hs
  | drop hs _ =>
    obtain ⟨_, he | he⟩ := drop_pc hs <;> rw [he] <;> trivial
  | shutdown hs _ => rw [hs]; exact shutdown_ok hi

theorem reach_orderly (h : Reachable (orderlyStep cfg) (World.new n) w) (hl : messages w < seqLimit) :
    Ok cfg w :=
  Reachable.invariant_below messages seqLimit (fun _ _ _ hs => step_log_le (orderly_step hs).1)
    ⟨⟨written_new cfg, fun _ => ok_absent cfg _⟩, fun _ => trivial⟩
    (fun _ _ _ hs hlt hw => step_orderly hs hlt hw) h hl

/-- In every run whose final drains find the shared cursor caught up and the
messages in their slots, a consumer with the draining policy that has exited without a
panic of its handler has handled or counted as lost everything accepted before it was
asked to stop. -/
theorem drain_complete (h : Reachable (orderlyStep cfg) (World.new n) w) (hl : messages w < seqLimit)
    (i : Nat) (hexit : (w.subs i).pc = .exited) (hreturned : (w.subs i).panicked = false) {a q : Nat}
    (hspawn : (w.subs i).spawned = some (.drain, a)) (howed : q ∈ (w.subs i).owed) (hq : a ≤ q) :
    Accounted w.ring (w.subs i) q := by
  have hi := (reach_orderly h hl).loops i
  rw [hexit] at hi
  obtain ⟨_, hcov, hown⟩ := hi hreturned
  exact hcov .drain a hspawn q hq (hown a hspawn q howed)

/-- One message, accepted before the shutdown request and drained after it. -/
theorem drain_complete_one :
    ∃ w : World 1, Reachable (orderlyStep Config.smallLossy) (World.new 1) w ∧
      (w.subs 0).pc = .exited ∧ 0 ∈ (w.subs 0).owed ∧ Accounted w.ring (w.subs 0) 0 := by
  obtain ⟨w, hr, hp⟩ := Reachable.of_run_any
    (orderlyStep Config.smallLossy) (World.new 1)
    (fun w => decide (messages w < seqLimit ∧ (w.subs 0).panicked = false ∧
      (w.subs 0).spawned = some (.drain, 0) ∧ 0 ∈ (w.subs 0).owed) && (w.subs 0).pc matches .exited)
    (List.flatten [[.subscribe 0 .subscribe, .sub 0], .pubCall (.publish fun _ => 7) :: List.replicate 5 .pub,
      [.subCall 0 (.consume .drain none), .shutdown 0], List.replicate 6 (.sub 0)]) (by decide +kernel)
  simp only [Bool.and_eq_true, decide_eq_true_eq] at hp
  obtain ⟨⟨hl, hreturned, hspawn, howed⟩, hpc⟩ := hp
  split at hpc
  · rename_i hexit
    exact ⟨w, hr, hexit, howed, drain_complete hr hl 0 hexit hreturned hspawn howed (Nat.le_refl 0)⟩
  · cases hpc

/-- Three messages published to a ring of two slots before a draining consumer is
asked to stop: the final batch has two iterations, the first reports the loss of
the first message, the second delivers the second one, and the third message is
neither handled nor counted. -/
theorem drain_drops_last :
    ∃ w : World 1, Reach Config.smallLossy w ∧ (w.subs 0).pc = .exited ∧
      (w.subs 0).spawned = some (.drain, (w.subs 0).start) ∧ (w.subs 0).start = 0 ∧
      2 ∈ (w.subs 0).owed ∧ (w.subs 0).handled = [(bytesOf fun _ => 8, 1, true)] ∧
      (w.subs 0).panicAt = none ∧ (w.subs 0).totalLagged = 1 ∧ ¬ Accounted w.ring (w.subs 0) 2 := by
  obtain ⟨w, hr, hp⟩ := Reachable.of_run_any
    (step Config.smallLossy) (World.new 1)
    (fun w => decide ((w.subs 0).spawned = some (.drain, (w.subs 0).start) ∧ (w.subs 0).start = 0 ∧
        2 ∈ (w.subs 0).owed ∧ (w.subs 0).handled = [(bytesOf fun _ => 8, 1, true)] ∧
        (w.subs 0).panicAt = none ∧ (w.subs 0).totalLagged = 1) &&
      ((w.subs 0).events.all fun
        | .skipped _ new => decide (new ≤ 2)
        | .received _ _ => true) && (w.subs 0).pc matches .exited)
    (List.flatten [[.subscribe 0 .subscribe, .sub 0],
      .pubCall (.publish fun _ => 7) :: List.replicate 5 .pub,
      .pubCall (.publish fun _ => 8) :: List.replicate 5 .pub,
      .pubCall (.publish fun _ => 9) :: List.replicate 5 .pub,
      [.subCall 0 (.consume .drain none), .shutdown 0], List.replicate 9 (.sub 0)]) (by decide +kernel)
  simp only [Bool.and_eq_true, decide_eq_true_eq, List.all_eq_true] at hp
  obtain ⟨⟨⟨hspawn, hstart, howed, hhandled, hcalm, hlagged⟩, hevents⟩, hpc⟩ := hp
  have hmiss : ¬ Accounted w.ring (w.subs 0) 2 := by
    rintro (⟨v, last, _, hm⟩ | ⟨old, new, hm, _, hlt⟩)
    · rw [hhandled] at hm
      simp at hm
    · have := of_decide_eq_true (hevents _ hm)
      omega
  split at hpc
  · rename_i hexit
    exact ⟨w, hr, hexit, hspawn, hstart, howed, hhandled, hcalm, hlagged, hmiss⟩
  · cases hpc

end PhotonRing.Drain
