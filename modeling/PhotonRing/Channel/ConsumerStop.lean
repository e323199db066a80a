import PhotonRing.Channel.WaitFree

/-!
# A consumer stops

`Consumer::shutdown` sets a flag, and `Consumer::join` waits for the thread. The loop looks at
the flag between batches only, and after it has seen the flag `DrainPolicy::Drain` makes one more
pass. A batch has at most as many receives as the ring has slots, and its receives wait for
nobody, so the thread ends within a bound that does not depend on how fast the publisher is.
-/
namespace PhotonRing.ConsumerStop

open Lib Lib.Seqlock Reader WaitFree

variable {n : Nat} {cfg : Config} {r : Ring n} {t t' : Trackers} {i : Nat} {s s' : Subscriber n}

/-- The thread of the consumer that reads subscriber `i` has not ended. -/
def running (i : Nat) (w : World n) : Bool :=
  match (w.subs i).pc with
  | .exited => false
  | _ => true

/-- Own steps of all receives of a full batch. -/
def batchSteps (cfg : Config) (n : Nat) : Nat := cfg.capacity * (n + 4)

/-- A batch is never longer than the ring. -/
def BatchAt (cfg : Config) (b : Batch) : Prop := b.i < b.batch ∧ b.batch ≤ cfg.capacity

/-- The program points of the loop of `Consumer::spawn`. -/
def LoopAt (cfg : Config) : SubPc n → Prop
  | .checkShutdown _ _ => True
  | .loadPending _ _ _ => True
  | .read (.drainBatch b) _ => BatchAt cfg b
  | .head (.drainBatch b) => BatchAt cfg b
  | .commit (.drainBatch b) _ => BatchAt cfg b
  | _ => False

/-- What follows the receive in progress: the rest of the batch, and the final pass. -/
def afterReceive (cfg : Config) (n : Nat) (b : Batch) : Nat :=
  (b.batch - b.i - 1) * (n + 4) + if b.final then 0 else batchSteps cfg n + 2

/-- Own steps until the thread ends, once the flag is set. -/
def loopLeft (cfg : Config) : SubPc n → Nat
  | .checkShutdown _ _ => batchSteps cfg n + 2
  | .loadPending _ _ final => batchSteps cfg n + 1 + if final then 0 else batchSteps cfg n + 2
  | .read (.drainBatch b) pc => readLeft pc + afterReceive cfg n b
  | .head (.drainBatch b) => 2 + afterReceive cfg n b
  | .commit (.drainBatch b) _ => 1 + afterReceive cfg n b
  | _ => 0

theorem endBatch_left (s : Subscriber n) (b : Batch) :
    (s.endBatch b).pc = .exited ∨ LoopAt cfg (s.endBatch b).pc ∧
      loopLeft cfg (s.endBatch b).pc < 1 + afterReceive cfg n b := by
  unfold Subscriber.endBatch
  cases hf : b.final with
  | true => exact Or.inl rfl
  | false =>
    refine Or.inr ⟨trivial, ?_⟩
    simp only [Bool.false_eq_true, ↓reduceIte, loopLeft, afterReceive, hf]
    omega

theorem nextInBatch_left {b : Batch} (hb : BatchAt cfg b) (s : Subscriber n) (done : Nat) :
    (s.nextInBatch { b with done := done }).pc = .exited ∨ LoopAt cfg (s.nextInBatch { b with done := done }).pc ∧
      loopLeft cfg (s.nextInBatch { b with done := done }).pc < 1 + afterReceive cfg n b := by
  unfold Subscriber.nextInBatch
  split_ifs with hnext
  · obtain ⟨m, hm⟩ : ∃ m, b.batch - b.i - 1 = m + 1 := ⟨b.batch - b.i - 2, by dsimp only at hnext; omega⟩
    have hm' : b.batch - (b.i + 1) - 1 = m := by omega
    refine Or.inr ⟨⟨hnext, hb.2⟩, ?_⟩
    simp only [Subscriber.poll, loopLeft, readLeft, afterReceive, hm, hm', Nat.succ_mul]
    omega
  · exact endBatch_left s _

theorem resume_left {b : Batch} (hb : BatchAt cfg b) (s : Subscriber n) (res : Recv n) :
    (s.resume res (.drainBatch b)).pc = .exited ∨ LoopAt cfg (s.resume res (.drainBatch b)).pc ∧
      loopLeft cfg (s.resume res (.drainBatch b)).pc < 1 + afterReceive cfg n b := by
  cases res with
  | ok buf =>
    exact Subscriber.handle_cases
      (P := fun u => u.pc = .exited ∨ LoopAt cfg u.pc ∧ loopLeft cfg u.pc < 1 + afterReceive cfg n b)
      (fun _ => Or.inl rfl) fun _ => nextInBatch_left hb _ (b.done + 1)
  | empty => exact endBatch_left s b
  | lagged skipped => exact nextInBatch_left hb s b.done

theorem endBatch_shutdown (s : Subscriber n) (b : Batch) : (s.endBatch b).shutdown = s.shutdown := by
  unfold Subscriber.endBatch
  split_ifs <;> rfl

theorem nextInBatch_shutdown (s : Subscriber n) (b : Batch) : (s.nextInBatch b).shutdown = s.shutdown := by
  unfold Subscriber.nextInBatch
  split_ifs
  · rfl
  · exact endBatch_shutdown s b

theorem resume_shutdown (s : Subscriber n) (res : Recv n) (b : Batch) :
    (s.resume res (.drainBatch b)).shutdown = s.shutdown := by
  cases res with
  | ok buf =>
    exact Subscriber.handle_cases (P := fun u => u.shutdown = s.shutdown) (fun _ => rfl) fun _ =>
      nextInBatch_shutdown _ _
  | empty => exact endBatch_shutdown s b
  | lagged skipped => exact nextInBatch_shutdown s b

/-- What one step of the loop does: the flag stays, and the thread has ended or is in the loop,
nearer to its end if the flag is set. -/
def Onward (cfg : Config) (s s' : Subscriber n) : Prop :=
  s'.shutdown = s.shutdown ∧ (s'.pc = .exited ∨
    LoopAt cfg s'.pc ∧ (s.shutdown = true → loopLeft cfg s'.pc < loopLeft cfg s.pc))

theorem onward_resume {b : Batch} (hb : BatchAt cfg b) {u : Subscriber n} (hu : u.shutdown = s.shutdown)
    (res : Recv n) (hleft : 1 + afterReceive cfg n b ≤ loopLeft cfg s.pc) :
    Onward cfg s (u.resume res (.drainBatch b)) :=
  ⟨(resume_shutdown u res b).trans hu,
    (resume_left hb u res).imp_right fun h => ⟨h.1, fun _ => h.2.trans_le hleft⟩⟩

theorem onward_pending {policy : DrainPolicy} {idle : Nat} {final : Bool} (hpc : s.pc = .loadPending policy idle final)
    (head : Nat) : Onward cfg s (s.onPending cfg policy idle final head) := by
  have hle : pendingOf cfg.capacity head s.cursor ≤ cfg.capacity := by
    unfold pendingOf
    split_ifs
    · exact Nat.zero_le _
    · exact Nat.min_le_right _ _
  refine Subscriber.onPending_cases (P := Onward cfg s) (fun hnone => ⟨endBatch_shutdown s _, ?_⟩)
    (fun hsome => ⟨rfl, Or.inr ⟨⟨Nat.pos_of_ne_zero hsome, hle⟩, fun _ => ?_⟩⟩)
  · refine (endBatch_left s _).imp_right fun h => ⟨h.1, fun _ => h.2.trans_le ?_⟩
    rw [hpc, hnone]
    simp only [afterReceive, loopLeft]
    omega
  · obtain ⟨m, hm⟩ : ∃ m, pendingOf cfg.capacity head s.cursor = m + 1 := ⟨_, (Nat.succ_pred hsome).symm⟩
    have hmul : (m + 1) * (n + 4) ≤ batchSteps cfg n := Nat.mul_le_mul_right _ (by omega)
    rw [Nat.succ_mul] at hmul
    simp only [Subscriber.poll, hpc, loopLeft, readLeft, afterReceive, hm, Nat.sub_zero, Nat.add_sub_cancel]
    omega

theorem step_loop (h : s.step cfg r t i = some (t', s')) (ha : LoopAt cfg s.pc) : Onward cfg s s' := by
  cases Subscriber.step_moves h with
  | @reading c pc pc' hpc hread =>
    rw [hpc] at ha
    refine ⟨rfl, Or.inr ?_⟩
    cases c with
    | drainBatch b =>
      refine ⟨ha, fun _ => ?_⟩
      rw [hpc]
      exact Nat.add_lt_add_right (readStep_left hread) _
    | _ => exact ha.elim
  | @read c pc res hpc hread =>
    rw [hpc] at ha
    cases c with
    | drainBatch b =>
      have hpos := readLeft_pos pc
      have hleft : loopLeft cfg s.pc = readLeft pc + afterReceive cfg n b := by rw [hpc]; rfl
      refine onTryRead_cases (P := Onward cfg s) trivial (fun buf _ => ⟨rfl, Or.inr ⟨ha, fun _ => ?_⟩⟩)
        (onward_resume ha rfl .empty (by omega)) ⟨rfl, Or.inr ⟨ha, fun _ => ?_⟩⟩
      · simp only [loopLeft] at hleft ⊢
        omega
      · simp only [loopLeft] at hleft ⊢
        omega
    | _ => exact ha.elim
  | @head c hpc =>
    rw [hpc] at ha
    cases c with
    | drainBatch b =>
      have hleft : loopLeft cfg s.pc = 2 + afterReceive cfg n b := by rw [hpc]; rfl
      refine Subscriber.onHead_cases (P := Onward cfg s) (onward_resume ha rfl .empty (by omega))
        (fun _ _ _ => ⟨rfl, Or.inr ⟨ha, fun _ => ?_⟩⟩)
      rw [hleft]
      simp only [loopLeft]
      omega
    | _ => exact ha.elim
  | @commit c res hpc =>
    rw [hpc] at ha
    cases c with
    | drainBatch b =>
      have hleft : 1 + afterReceive cfg n b ≤ loopLeft cfg s.pc := by rw [hpc]; exact Nat.le_refl _
      cases res with
      | ok buf => exact onward_resume (b := b) ha rfl _ hleft
      | empty => exact onward_resume ha rfl .empty hleft
      | lagged skipped => exact onward_resume (b := b) ha rfl _ hleft
    | _ => exact ha.elim
  | @checkDrain idle hpc hset =>
    refine ⟨rfl, Or.inr ⟨trivial, fun _ => ?_⟩⟩
    rw [hpc]
    simp only [loopLeft, ↓reduceIte]
    omega
  | checkStop hpc hset => exact ⟨rfl, Or.inl rfl⟩
  | @checkGo policy idle hpc hset =>
    refine ⟨rfl, Or.inr ⟨trivial, fun hset' => ?_⟩⟩
    rw [hset] at hset'
    cases hset'
  | loadPending hpc => exact onward_pending hpc r.cursor
  | _ hpc => rw [hpc] at ha; exact ha.elim

theorem loopLeft_pos {pc : SubPc n} (h : LoopAt cfg pc) : 0 < loopLeft cfg pc := by
  cases pc with
  | checkShutdown policy idle => exact Nat.succ_pos _
  | loadPending policy idle final => simp only [loopLeft]; omega
  | read c pc =>
    cases c with
    | drainBatch b => have := readLeft_pos pc; simp only [loopLeft]; omega
    | _ => exact h.elim
  | head c =>
    cases c with
    | drainBatch b => simp only [loopLeft]; omega
    | _ => exact h.elim
  | commit c res =>
    cases c with
    | drainBatch b => simp only [loopLeft]; omega
    | _ => exact h.elim
  | _ => exact h.elim

/-- How many own steps a consumer still makes after the flag was set, at most: the batch in
progress, the look at the flag, and the final pass. -/
def stopSteps (cfg : Config) (n : Nat) : Nat := 2 * batchSteps cfg n + 3

theorem loopLeft_le {pc : SubPc n} (h : LoopAt cfg pc) : loopLeft cfg pc ≤ stopSteps cfg n := by
  have hreceive {b : Batch} (hb : BatchAt cfg b) : n + 4 + afterReceive cfg n b ≤ stopSteps cfg n := by
    obtain ⟨m, hm⟩ : ∃ m, b.batch - b.i - 1 = m := ⟨_, rfl⟩
    have hmul : (m + 1) * (n + 4) ≤ batchSteps cfg n := by
      obtain ⟨hlt, hle⟩ := hb
      exact Nat.mul_le_mul_right _ (by omega)
    rw [Nat.succ_mul] at hmul
    unfold stopSteps afterReceive
    rw [hm]
    split_ifs <;> omega
  have hread : ∀ pc : ReadPc n, readLeft pc ≤ n + 4 := by
    intro pc
    cases pc <;> simp only [readLeft] <;> omega
  cases pc with
  | checkShutdown policy idle => simp only [loopLeft, stopSteps]; omega
  | loadPending policy idle final => simp only [loopLeft, stopSteps]; split_ifs <;> omega
  | read c pc =>
    cases c with
    | drainBatch b =>
      have := hreceive h
      have := hread pc
      simp only [loopLeft]
      omega
    | _ => exact h.elim
  | head c =>
    cases c with
    | drainBatch b => have := hreceive h; simp only [loopLeft]; omega
    | _ => exact h.elim
  | commit c res =>
    cases c with
    | drainBatch b => have := hreceive h; simp only [loopLeft]; omega
    | _ => exact h.elim
  | _ => exact h.elim

theorem step_of_loop (ha : LoopAt cfg s.pc) : ∃ x, s.step cfg r t i = some x := by
  unfold Subscriber.step
  cases hpc : s.pc with
  | checkShutdown policy idle =>
    dsimp only
    split_ifs
    · cases policy <;> exact ⟨_, rfl⟩
    · exact ⟨_, rfl⟩
  | loadPending policy idle final => exact ⟨_, rfl⟩
  | read c pc => dsimp only; split <;> exact ⟨_, rfl⟩
  | head c => exact ⟨_, rfl⟩
  | commit c res => exact ⟨_, rfl⟩
  | _ => rw [hpc] at ha; exact ha.elim

/-- A label while the consumer is in its loop. -/
theorem step_in_loop {w w' : World n} {a : Act n} (ha : LoopAt cfg (w.subs i).pc) (h : World.step cfg w a = some w') :
    a = .sub i ∧ Onward cfg (w.subs i) (w'.subs i) ∨
      a ≠ .sub i ∧ (w'.subs i).pc = (w.subs i).pc ∧ ((w.subs i).shutdown = true → (w'.subs i).shutdown = true) := by
  have hpc : ∀ pc : SubPc n, LoopAt cfg pc → pc ≠ .absent ∧ pc ≠ .idle ∧ pc ≠ .exited :=
    fun pc h => ⟨by rintro rfl; exact h, by rintro rfl; exact h, by rintro rfl; exact h⟩
  obtain ⟨habsent, hidle, hexited⟩ := hpc _ ha
  by_cases he : a = .sub i
  · subst he
    obtain ⟨⟨t, s⟩, hs, rfl⟩ := Option.map_eq_some_iff.mp h
    have hs' : (({ w with trackers := t } : World n).setSub i s).subs i = s := World.setSub_self ..
    exact Or.inl ⟨rfl, by rw [hs']; exact step_loop hs ha⟩
  · refine Or.inr ⟨he, ?_⟩
    cases World.step_subs h i with
    | other hs => rw [hs]; exact ⟨rfl, fun hset => hset⟩
    | subscribe hs _ => exact absurd (World.subscribe_pc hs).1 habsent
    | call hs _ => exact absurd (Subscriber.call_begins hs).1 hidle
    | step _ => exact absurd rfl he
    | drop hs _ => exact ((World.drop_pc hs).1.elim hidle hexited).elim
    | shutdown hs _ => rw [hs]; exact ⟨rfl, fun _ => rfl⟩

theorem not_exited {w : World n} (h : running i w = true) : (w.subs i).pc ≠ .exited := by
  intro hpc
  unfold running at h
  rw [hpc] at h
  cases h

/-- A consumer that has been asked to stop ends by itself: whichever policy it was spawned with,
whatever it was doing when the flag was set and however fast messages are published meanwhile, it
can always go on and ends within the bound. -/
theorem consumer_stops {w w₁ w₂ w₃ w₄ : World n} {policy : DrainPolicy} {panicAt : Option Nat}
    {as bs : List (Act n)} (hspawn : World.step cfg w (.subCall i (.consume policy panicAt)) = some w₁)
    (hrun : run (during (running i) (World.step cfg)) w₁ as = some w₂)
    (hstop : World.step cfg w₂ (.shutdown i) = some w₃)
    (hrun' : run (during (running i) (World.step cfg)) w₃ bs = some w₄) (hbusy : running i w₄ = true) :
    bs.count (.sub i) < stopSteps cfg n ∧ ∃ w₅, World.step cfg w₄ (.sub i) = some w₅ := by
  obtain ⟨s, hcall, rfl⟩ := Option.map_eq_some_iff.mp hspawn
  have hloop₁ : LoopAt cfg s.pc := by
    cases (Subscriber.call_begins hcall).2
    exact trivial
  have hloop₂ : (w₂.subs i).pc = .exited ∨ LoopAt cfg (w₂.subs i).pc := by
    refine run_during_invariant (I := fun w => (w.subs i).pc = .exited ∨ LoopAt cfg (w.subs i).pc)
      (fun u a v hu hin hstep => ?_) hrun (Or.inr (by rw [World.setSub_self]; exact hloop₁))
    have hat := hu.resolve_left (not_exited hin)
    rcases step_in_loop hat hstep with ⟨_, _, hnext⟩ | ⟨_, hpc, _⟩
    · exact hnext.imp_right fun h => h.1
    · rw [hpc]
      exact Or.inr hat
  have hpc₃ : (w₃.subs i).pc = (w₂.subs i).pc ∧ (w₃.subs i).shutdown = true := by
    cases hstop
    rw [World.setSub_self]
    exact ⟨rfl, rfl⟩
  have hloop₃ : LoopAt cfg (w₃.subs i).pc := by
    rw [hpc₃.1]
    refine hloop₂.resolve_left fun hexit => ?_
    have hend : running i w₃ = false := by
      unfold running
      rw [hpc₃.1, hexit]
    cases bs with
    | nil =>
      cases hrun'
      rw [hend] at hbusy
      cases hbusy
    | cons b bs => simp [run, during, hend] at hrun'
  have hstep : ∀ (u : World n) (a : Act n) (v : World n),
      LoopAt cfg (u.subs i).pc ∧ (u.subs i).shutdown = true → World.step cfg u a = some v → running i v = true →
      (LoopAt cfg (v.subs i).pc ∧ (v.subs i).shutdown = true) ∧
        (a = .sub i → loopLeft cfg (v.subs i).pc < loopLeft cfg (u.subs i).pc) ∧
        (a ≠ .sub i → loopLeft cfg (v.subs i).pc = loopLeft cfg (u.subs i).pc) := by
    rintro u a v ⟨hat, hset⟩ hst hin
    rcases step_in_loop hat hst with ⟨he, hflag, hnext⟩ | ⟨he, hpc, hflag⟩
    · obtain ⟨hat', hlt⟩ := hnext.resolve_left (not_exited hin)
      exact ⟨⟨hat', hflag.trans hset⟩, fun _ => hlt hset, fun hne => absurd he hne⟩
    · rw [hpc]
      exact ⟨⟨hat, hflag hset⟩, fun he' => absurd he' he, fun _ => rfl⟩
  have hbound := count_add_rank_le (fun w : World n => loopLeft cfg (w.subs i).pc) (fun _ => 0) hrun' hbusy
    (I := fun w : World n => LoopAt cfg (w.subs i).pc ∧ (w.subs i).shutdown = true) (G := fun _ => True)
    (fun _ _ _ _ h => h) trivial (fun u a v hu _ _ hst hin => (hstep u a v hu hst hin).1)
    (fun u v hu _ _ hst hin => Nat.succ_le_of_lt ((hstep u _ v hu hst hin).2.1 rfl))
    (fun u a v hu _ _ hne hst hin => ((hstep u a v hu hst hin).2.2 hne).le) ⟨hloop₃, hpc₃.2⟩
  obtain ⟨⟨hat₄, _⟩, hcount⟩ := hbound
  have hpos := loopLeft_pos hat₄
  have hle := loopLeft_le hloop₃
  obtain ⟨⟨t, u⟩, hu⟩ : ∃ x, (w₄.subs i).step cfg w₄.ring w₄.trackers i = some x := step_of_loop hat₄
  refine ⟨by omega, { w₄ with trackers := t }.setSub i u, ?_⟩
  simp only [World.step, hu, Option.map_some]

/-- A draining consumer is asked to stop in the middle of a batch, and a message is published before
it looks at the flag. -/
theorem consumer_stops_publishing : ∃ w₁ w₂ w₃ w₄ : World 1,
    World.Reach Config.smallLossy w₁ ∧
    run (during (running 0) (World.step Config.smallLossy)) w₁ [.sub 0, .sub 0] = some w₂ ∧
    World.step Config.smallLossy w₂ (.shutdown 0) = some w₃ ∧
    run (during (running 0) (World.step Config.smallLossy)) w₃
      (.pubCall (.publish fun _ => 8) :: List.replicate 5 .pub ++ List.replicate 5 (.sub 0)) = some w₄ ∧
    ∃ w₅, World.step Config.smallLossy w₄ (.sub 0) = some w₅ := by
  have hrun : ((run (World.step Config.smallLossy) (World.new 1)
      ([.subscribe 0 .subscribe, .sub 0, .pubCall (.publish fun _ => 7)] ++ List.replicate 5 .pub)).any fun w =>
      (World.step Config.smallLossy w (.subCall 0 (.consume .drain none))).any fun w₁ =>
      (run (during (running 0) (World.step Config.smallLossy)) w₁ [.sub 0, .sub 0]).any fun w₂ =>
      (World.step Config.smallLossy w₂ (.shutdown 0)).any fun w₃ =>
      (run (during (running 0) (World.step Config.smallLossy)) w₃
        (.pubCall (.publish fun _ => 8) :: List.replicate 5 .pub ++ List.replicate 5 (.sub 0))).any
        fun w₄ => running 0 w₄) = true := by decide +kernel
  obtain ⟨w, hw, hrest⟩ := (Option.any_eq_true _ _).mp hrun
  obtain ⟨w₁, hspawn, hrest⟩ := (Option.any_eq_true _ _).mp hrest
  obtain ⟨w₂, hrun₁, hrest⟩ := (Option.any_eq_true _ _).mp hrest
  obtain ⟨w₃, hstop, hrest⟩ := (Option.any_eq_true _ _).mp hrest
  obtain ⟨w₄, hrun₂, hbusy⟩ := (Option.any_eq_true _ _).mp hrest
  have hr : World.Reach Config.smallLossy w₁ := (Reachable.start.of_run hw).next hspawn
  exact ⟨w₁, w₂, w₃, w₄, hr, hrun₁, hstop, hrun₂, (consumer_stops hspawn hrun₁ hstop hrun₂ hbusy).2⟩

end PhotonRing.ConsumerStop
