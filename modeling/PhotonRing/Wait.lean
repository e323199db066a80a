import PhotonRing.Channel.Blocking
import PhotonRing.Channel.RecvBatch
import PhotonRing.Topology.Stage

/-!
# Wait strategies (`src/wait.rs`)

`WaitStrategy::wait` gets the number of empty polls since the last message from the loop that
calls it. `Adaptive` compares it with the sum of its two parameters, which a `u32` need not
hold. The loops are `recv_with`, `recv_with_slow` and the threads of pipeline stages and managed
consumers, and their counters saturate.
-/
namespace PhotonRing

open Lib

/-- `WaitStrategy`. -/
inductive WaitStrategy where
  | busySpin
  | yieldSpin
  | backoffSpin
  | adaptive (spinIters yieldIters : UInt32)
  | monitorWaitFallback
  deriving DecidableEq, Repr

/-- What `wait` distinguishes at compile time and by `waitpkg_supported`. -/
inductive Cpu where
  | x86_64 (waitpkg : Bool)
  | aarch64
  | other

/-- The instructions of a wait. `spinLoop` is `core::hint::spin_loop`. -/
inductive Hint where
  | spinLoop
  | sevl
  | wfe
  | tpause
  deriving DecidableEq, Repr

/-- What a call of `wait` executes, and whether a `u32` addition overflowed on the way: with
overflow checks the call panics there, without them it goes on with the wrapped sum. -/
structure Waited where
  hints : List Hint
  overflow : Bool

namespace WaitStrategy

/-- `Default for WaitStrategy`. -/
def default : WaitStrategy := .adaptive 64 64

/-- `SEVL` and `WFE` on aarch64, `PAUSE` elsewhere. -/
def yieldHints : Cpu → List Hint
  | .aarch64 => [.sevl, .wfe]
  | _ => [.spinLoop]

def wait (cpu : Cpu) (self : WaitStrategy) (iter : UInt32) : Waited :=
  match self with
  | .busySpin => ⟨[], false⟩
  | .yieldSpin => ⟨yieldHints cpu, false⟩
  | .backoffSpin =>
    let pauses : UInt32 := 1 <<< min iter 6
    let hint : Hint := match cpu with
      | .aarch64 => .wfe
      | _ => .spinLoop
    ⟨List.replicate pauses.toNat hint, false⟩
  | .adaptive spinIters yieldIters =>
    if iter < spinIters then ⟨[], false⟩
    else
      let overflow := decide (2 ^ 32 ≤ spinIters.toNat + yieldIters.toNat)
      if iter < spinIters + yieldIters then ⟨[.spinLoop], overflow⟩
      else ⟨List.replicate 8 .spinLoop, overflow⟩
  | .monitorWaitFallback =>
    match cpu with
    | .x86_64 true => ⟨[.tpause], false⟩
    | .x86_64 false => ⟨[.spinLoop], false⟩
    | .aarch64 => ⟨[.sevl, .wfe], false⟩
    | .other => ⟨[.spinLoop], false⟩

/-- No other strategy adds anything. -/
theorem adaptive_of_overflow {cpu : Cpu} {self : WaitStrategy} {iter : UInt32}
    (h : (self.wait cpu iter).overflow = true) : ∃ spinIters yieldIters, self = .adaptive spinIters yieldIters := by
  cases self with
  | adaptive spinIters yieldIters => exact ⟨spinIters, yieldIters, rfl⟩
  | busySpin | yieldSpin | backoffSpin => cases h
  | monitorWaitFallback =>
    cases cpu with
    | x86_64 waitpkg => cases waitpkg <;> cases h
    | aarch64 | other => cases h

/-- `BackoffSpin` doubles its pauses up to 64. -/
theorem backoffSpin_length (cpu : Cpu) (iter : UInt32) :
    (wait cpu .backoffSpin iter).hints.length = 2 ^ min iter.toNat 6 := by
  have hmin : (min iter 6).toNat = min iter.toNat 6 := by
    change (if iter ≤ 6 then iter else 6).toNat = _
    split_ifs with hle
    · exact (Nat.min_eq_left (UInt32.le_iff_toNat_le.mp hle)).symm
    · rw [UInt32.le_iff_toNat_le] at hle
      exact (Nat.min_eq_right (Nat.le_of_not_le hle)).symm
  have hsmall : min iter.toNat 6 % 32 = min iter.toNat 6 := Nat.mod_eq_of_lt (by omega)
  have hfits : 2 ^ min iter.toNat 6 < 2 ^ 32 := Nat.pow_lt_pow_right (by decide) (by omega)
  simp only [wait, List.length_replicate]
  rw [UInt32.toNat_shiftLeft, hmin, hsmall]
  change 1 <<< min iter.toNat 6 % 2 ^ 32 = _
  rw [Nat.one_shiftLeft, Nat.mod_eq_of_lt hfits]

end WaitStrategy

namespace Wait

open World RecvBatch PhotonRing.Topology Unattended

/-! ## What `Adaptive` is meant to do -/

/-- The phases of `Adaptive`. -/
inductive Phase where
  | bareSpin
  | pause
  | deepBackoff

def Phase.hints : Phase → List Hint
  | .bareSpin => []
  | .pause => [.spinLoop]
  | .deepBackoff => List.replicate 8 .spinLoop

/-- The phase of the empty poll number `j` in a row, from zero. -/
def phaseAt (spinIters yieldIters j : Nat) : Phase :=
  if j < spinIters then .bareSpin else if j < spinIters + yieldIters then .pause else .deepBackoff

/-- Waiting with the given arguments overflows nowhere and goes through the phases in order. -/
structure Escalates (cpu : Cpu) (spinIters yieldIters : UInt32) (iters : List Nat) : Prop where
  inRange : ∀ iter ∈ iters, ((WaitStrategy.adaptive spinIters yieldIters).wait cpu (.ofNat iter)).overflow = false
  phases : iters.map (fun iter => ((WaitStrategy.adaptive spinIters yieldIters).wait cpu (.ofNat iter)).hints) =
    (List.range iters.length).map fun j => (phaseAt spinIters.toNat yieldIters.toNat j).hints

/-! ## The counters of the loops -/

/-- How a poll of a loop ends. -/
inductive PollEnd where
  /-- There was nothing: the loop calls `wait` with its counter. -/
  | wait (iter : Nat)
  /-- There was something, and the loop returns or sets its counter to zero. -/
  | restart

/-- The calls of `wait` since the counter was zero. -/
def tally (iters : List Nat) : Option PollEnd → List Nat
  | none => iters
  | some (.wait iter) => iters ++ [iter]
  | some .restart => []

variable {n m : Nat} {cfg : Config} {r : Ring n} {t t' : Trackers} {i k : Nat} {s s' : Subscriber n}
  {iters : List Nat} {spinIters yieldIters : UInt32} {cpu : Cpu}

/-- What a consumer does when `drain_batch` returns. -/
def batchEnd (b : Batch) : PollEnd :=
  if b.final then .restart else if b.done = 0 then .wait b.idle else .restart

/-- An iteration of `drain_batch` is over. -/
def iterationEnd (b : Batch) : Option PollEnd := if b.i + 1 < b.batch then none else some (batchEnd b)

/-- The end of the poll that `recv_with`, `recv_with_slow` or a consumer is in, if the next step
ends it. -/
def pollEnd (cfg : Config) (r : Ring n) (s : Subscriber n) : Option PollEnd :=
  match s.pc with
  | .read (.recvWith iter) pc =>
    match (r.slots (cfg.slot s.cursor)).readStep s.cursor pc with
    | .inr .torn => some (.wait iter)
    | .inr (.other stamp) => some (if done s.cursor ≤ stamp then .restart else .wait iter)
    | _ => none
  | .commit (.recvWith _) _ => some .restart
  | .read (.recvWithSlow iter) _ | .head (.recvWithSlow iter) | .commit (.recvWithSlow iter) _ =>
    (reported cfg r s).map fun
      | .empty => .wait iter
      | _ => .restart
  | .loadPending policy idle final =>
    if pendingOf cfg.capacity r.cursor s.cursor = 0 then some (batchEnd ⟨policy, idle, final, 0, 0, 0, s.cursor⟩)
    else none
  | .read (.drainBatch b) _ | .head (.drainBatch b) | .commit (.drainBatch b) _ =>
    (reported cfg r s).bind fun
      | .ok _ => iterationEnd { b with done := b.done + 1 }
      | .lagged _ => iterationEnd b
      | .empty => some (batchEnd b)
  | _ => none

def pollEndBy (cfg : Config) (i : Nat) (w : World n) : Act n → Option PollEnd
  | .sub j => if j = i then pollEnd cfg w.ring (w.subs i) else none
  | _ => none

/-- The channel while subscriber `i` is inside a call, with the calls of `wait` in a row. -/
def pollStep (cfg : Config) (i : Nat) (x : World n × List Nat) (a : Act n) : Option (World n × List Nat) :=
  if insideCall i a then (World.step cfg x.1 a).map fun w => (w, tally x.2 (pollEndBy cfg i x.1 a)) else none

/-- The end of a poll of a stage, whose input subscriber is `u` after the step. -/
def stagePollEnd (s : Stage n) (u : Subscriber n) : Option PollEnd :=
  match s.pc with
  | .tryRecv => (returned u).map fun
    | .empty => .wait s.iter
    | _ => .restart
  | _ => none

/-- The shutdown flag and the rings as a stage finds them at one of its steps. -/
structure Found (n m : Nat) where
  shutdown : Bool
  inp : World n
  out : World m

/-- A stage between whatever happens to its flag and its rings, with its calls of `wait` in a
row. -/
def stageStep (cfg : Config) (f : Value n → Value m) (i : Nat) (x : Stage n × List Nat) (e : Found n m) :
    Option (Stage n × List Nat) :=
  (x.1.step cfg f e.shutdown i e.inp e.out).map fun (inp, _, s) => (s, tally x.2 (stagePollEnd x.1 (inp.subs i)))

/-- The arguments of the calls of `wait` that a loop has made in a row. -/
inductive Polled : List Nat → Prop where
  | recvWith {n : Nat} {cfg : Config} {i : Nat} {w₀ w₁ : World n} {x : World n × List Nat} (h₀ : Reach cfg w₀)
      (hcall : World.step cfg w₀ (.subCall i .recvWith) = some w₁)
      (hrun : Reachable (pollStep cfg i) (w₁, []) x) : Polled x.2
  | consumer {n : Nat} {cfg : Config} {i : Nat} {policy : DrainPolicy} {panicAt : Option Nat} {w₀ w₁ : World n}
      {x : World n × List Nat} (h₀ : Reach cfg w₀)
      (hcall : World.step cfg w₀ (.subCall i (.consume policy panicAt)) = some w₁)
      (hrun : Reachable (pollStep cfg i) (w₁, []) x) : Polled x.2
  | stage {n m : Nat} {cfg : Config} {f : Value n → Value m} {i : Nat} {x : Stage n × List Nat}
      (hrun : Reachable (stageStep cfg f i) (Stage.spawn n, []) x) : Polled x.2

/-- The counter after `j` empty polls. -/
def saturated (j : Nat) : Nat := min j (2 ^ 32 - 1)

def counters (k : Nat) : List Nat := (List.range k).map saturated

theorem satSucc_saturated (j : Nat) : satSucc (saturated j) = saturated (j + 1) := by
  unfold satSucc saturated
  omega

theorem saturated_lt (j : Nat) : saturated j < 2 ^ 32 := by
  unfold saturated
  omega

theorem counters_succ (k : Nat) : counters (k + 1) = counters k ++ [saturated k] := by
  rw [counters, List.range_succ, List.map_append]
  rfl

/-- The calls are those of a counter from zero on. -/
def Tallied (iters : List Nat) : Prop := iters = counters iters.length

theorem tallied_nil : Tallied [] := rfl

theorem Tallied.wait (h : Tallied iters) : Tallied (iters ++ [saturated iters.length]) := by
  unfold Tallied at h ⊢
  rw [List.length_append, List.length_singleton, counters_succ, ← h]

/-! ## Along the loops -/

/-- Where a call of `recv_with` or a consumer is, with the counter of its loop. -/
inductive Polling (iters : List Nat) (s : Subscriber n) : Prop where
  | fast {pc : ReadPc n} (hpc : s.pc = .read (.recvWith (saturated iters.length)) pc)
  | taken {iter : Nat} {buf : Buf n} (hpc : s.pc = .commit (.recvWith iter) (.ok buf))
  | slow (hpc : AtSlot (.recvWithSlow (saturated iters.length)) s.pc)
  | returned (hpc : s.pc = .idle)
  | round {policy : DrainPolicy} (hpc : s.pc = .checkShutdown policy (saturated iters.length))
  | loading {policy : DrainPolicy} {final : Bool} (hpc : s.pc = .loadPending policy (saturated iters.length) final)
  | batch {b : Batch} (hpc : AtSlot (.drainBatch b) s.pc) (hidle : b.idle = saturated iters.length)
  | exited (hpc : s.pc = .exited)

theorem Polling.created (h : Polling iters s) : s.pc ≠ .absent := by
  intro hp
  cases h with
  | fast hpc | taken hpc | returned hpc | round hpc | loading hpc | exited hpc =>
    rw [hpc] at hp
    cases hp
  | slow hpc | batch hpc _ => obtain ⟨pc, hpc⟩ | hpc | ⟨res, hpc⟩ := hpc <;> rw [hpc] at hp <;> cases hp

/-- The next round of a loop, after an empty poll. -/
theorem saturated_wait (iters : List Nat) :
    satSucc (saturated iters.length) = saturated (iters ++ [saturated iters.length]).length := by
  rw [satSucc_saturated, List.length_append, List.length_singleton]

/-- A step of the fast path. -/
theorem fast_step {pc : ReadPc n} (hpc : s.pc = .read (.recvWith (saturated iters.length)) pc) (ht : Tallied iters)
    (hs : s.step cfg r t i = some (t', s')) :
    Polling (tally iters (pollEnd cfg r s)) s' ∧ Tallied (tally iters (pollEnd cfg r s)) := by
  simp only [Subscriber.step, hpc] at hs
  simp only [pollEnd, hpc]
  cases hread : (r.slots (cfg.slot s.cursor)).readStep s.cursor pc with
  | inl pc' =>
    rw [hread] at hs
    cases hs
    exact ⟨.fast rfl, ht⟩
  | inr res =>
    rw [hread] at hs
    cases hs
    have hempty : Polling (iters ++ [saturated iters.length]) (s.poll (.recvWith (satSucc (saturated iters.length)))) :=
      .fast (by rw [saturated_wait]; rfl)
    cases res with
    | value buf => exact ⟨.taken rfl, ht⟩
    | torn => exact ⟨hempty, ht.wait⟩
    | other stamp =>
      by_cases hpassed : done s.cursor ≤ stamp
      · simp only [Subscriber.onTryRead, hpassed, if_true]
        exact ⟨.slow (Or.inl ⟨_, rfl⟩), tallied_nil⟩
      · simp only [Subscriber.onTryRead, hpassed, if_false]
        exact ⟨hempty, ht.wait⟩

/-- A step of the slow path. -/
theorem slow_step (hpc : AtSlot (.recvWithSlow (saturated iters.length)) s.pc) (ht : Tallied iters)
    (hs : s.step cfg r t i = some (t', s')) :
    Polling (tally iters (pollEnd cfg r s)) s' ∧ Tallied (tally iters (pollEnd cfg r s)) := by
  have hend : pollEnd cfg r s = (reported cfg r s).map fun
      | .empty => .wait (saturated iters.length)
      | _ => .restart := by
    obtain ⟨pc, hpc⟩ | hpc | ⟨res, hpc⟩ := hpc <;> simp only [pollEnd, hpc]
  obtain ⟨hnone, hpc', _⟩ | ⟨res, s₀, hsome, rfl, _⟩ := slot_step (c := .recvWithSlow _) trivial hpc hs
  · rw [hend, hnone]
    exact ⟨.slow hpc', ht⟩
  · rw [hend, hsome]
    cases res with
    | ok buf => exact ⟨.returned rfl, tallied_nil⟩
    | lagged skipped => exact ⟨.slow (Or.inl ⟨_, rfl⟩), tallied_nil⟩
    | empty =>
      refine ⟨.slow (Or.inl ⟨.stamp, ?_⟩), ht.wait⟩
      change SubPc.read (.recvWithSlow (satSucc (saturated iters.length))) .stamp = _
      rw [saturated_wait]
      rfl

/-- `drain_batch` returns to the consumer. -/
theorem endBatch_polling {b : Batch} (s : Subscriber n) (hidle : b.idle = saturated iters.length) (ht : Tallied iters) :
    Polling (tally iters (some (batchEnd b))) (s.endBatch b) ∧ Tallied (tally iters (some (batchEnd b))) := by
  unfold batchEnd Subscriber.endBatch
  by_cases hfinal : b.final = true
  · rw [if_pos hfinal, if_pos hfinal]
    exact ⟨.exited rfl, tallied_nil⟩
  · rw [if_neg hfinal, if_neg hfinal]
    by_cases hdone : b.done = 0
    · rw [if_pos hdone, if_pos hdone, hidle, saturated_wait]
      exact ⟨.round rfl, ht.wait⟩
    · rw [if_neg hdone, if_neg hdone]
      exact ⟨.round rfl, tallied_nil⟩

theorem nextInBatch_polling {b : Batch} (s : Subscriber n) (hidle : b.idle = saturated iters.length)
    (ht : Tallied iters) :
    Polling (tally iters (iterationEnd b)) (s.nextInBatch b) ∧ Tallied (tally iters (iterationEnd b)) := by
  unfold iterationEnd Subscriber.nextInBatch
  split_ifs
  · exact ⟨.batch (b := { b with i := b.i + 1, seq := s.cursor }) (Or.inl ⟨_, rfl⟩) hidle, ht⟩
  · exact endBatch_polling s hidle ht

/-- A step inside a batch. -/
theorem batch_step {b : Batch} (hpc : AtSlot (.drainBatch b) s.pc) (hidle : b.idle = saturated iters.length)
    (ht : Tallied iters) (hs : s.step cfg r t i = some (t', s')) :
    Polling (tally iters (pollEnd cfg r s)) s' ∧ Tallied (tally iters (pollEnd cfg r s)) := by
  have hend : pollEnd cfg r s = (reported cfg r s).bind fun
      | .ok _ => iterationEnd { b with done := b.done + 1 }
      | .lagged _ => iterationEnd b
      | .empty => some (batchEnd b) := by
    obtain ⟨pc, hpc⟩ | hpc | ⟨res, hpc⟩ := hpc <;> simp only [pollEnd, hpc]
  obtain ⟨hnone, hpc', _⟩ | ⟨res, s₀, hsome, rfl, _⟩ := slot_step (c := .drainBatch b) trivial hpc hs
  · rw [hend, hnone]
    exact ⟨.batch hpc' hidle, ht⟩
  · rw [hend, hsome]
    cases res with
    | ok buf =>
      have hnext (s : Subscriber n) := nextInBatch_polling (b := { b with done := b.done + 1 }) s hidle ht
      exact Subscriber.handle_cases
        (P := fun u => Polling (tally iters (iterationEnd { b with done := b.done + 1 })) u ∧ _)
        (fun _ => ⟨.exited rfl, (hnext s).2⟩) fun _ => hnext _
    | lagged skipped => exact nextInBatch_polling _ hidle ht
    | empty => exact endBatch_polling _ hidle ht

/-- A step of a consumer outside its batches. -/
theorem loading_step {policy : DrainPolicy} {final : Bool}
    (hpc : s.pc = .loadPending policy (saturated iters.length) final) (ht : Tallied iters)
    (hs : s.step cfg r t i = some (t', s')) :
    Polling (tally iters (pollEnd cfg r s)) s' ∧ Tallied (tally iters (pollEnd cfg r s)) := by
  simp only [Subscriber.step, hpc, Subscriber.onPending] at hs
  simp only [pollEnd, hpc]
  split_ifs at hs ⊢ with hzero
  · cases hs
    rw [hzero]
    exact endBatch_polling s rfl ht
  · cases hs
    exact ⟨.batch (Or.inl ⟨_, rfl⟩) rfl, ht⟩

theorem pollEndBy_other {w : World n} {a : Act n} (h : a ≠ .sub i) : pollEndBy cfg i w a = none := by
  cases a with
  | sub j =>
    have hj : ¬ j = i := fun he => h (he ▸ rfl)
    exact if_neg hj
  | _ => rfl

theorem Polling.step {x x' : World n × List Nat} {a : Act n} (h : Polling x.2 (x.1.subs i)) (ht : Tallied x.2)
    (hstep : pollStep cfg i x a = some x') : Polling x'.2 (x'.1.subs i) ∧ Tallied x'.2 := by
  obtain ⟨hin, hstep⟩ := Option.ite_none_right_eq_some.mp hstep
  obtain ⟨w', hst, rfl⟩ := Option.map_eq_some_iff.mp hstep
  obtain ⟨rfl, hs⟩ | ⟨ha, shutdown, owed, he⟩ := step_inside hst hin h.created
  · rw [pollEndBy, if_pos rfl]
    cases h with
    | fast hpc => exact fast_step hpc ht hs
    | slow hpc => exact slow_step hpc ht hs
    | @taken iter buf hpc =>
      simp only [Subscriber.step, hpc] at hs
      simp only [pollEnd, hpc]
      have hsub : (x.1.subs i).onCommit (.recvWith iter) (.ok buf) = w'.subs i := congrArg Prod.snd (Option.some.inj hs)
      rw [← hsub]
      exact ⟨.returned rfl, tallied_nil⟩
    | batch hpc hidle => exact batch_step hpc hidle ht hs
    | loading hpc => exact loading_step hpc ht hs
    | round hpc =>
      simp only [Subscriber.step, hpc] at hs
      simp only [pollEnd, hpc]
      refine ⟨?_, ht⟩
      split at hs
      · split at hs
        · have hsub := congrArg Prod.snd (Option.some.inj hs)
          exact .loading (congrArg Subscriber.pc hsub).symm
        · have hsub := congrArg Prod.snd (Option.some.inj hs)
          exact .exited (congrArg Subscriber.pc hsub).symm
      · have hsub := congrArg Prod.snd (Option.some.inj hs)
        exact .loading (congrArg Subscriber.pc hsub).symm
    | returned hpc | exited hpc =>
      simp only [Subscriber.step, hpc] at hs
      cases hs
  · rw [pollEndBy_other ha, he]
    refine ⟨?_, ht⟩
    cases h with
    | fast hpc => exact .fast hpc
    | taken hpc => exact .taken hpc
    | slow hpc => exact .slow hpc
    | returned hpc => exact .returned hpc
    | round hpc => exact .round hpc
    | loading hpc => exact .loading hpc
    | batch hpc hidle => exact .batch hpc hidle
    | exited hpc => exact .exited hpc

theorem run_polling {w : World n} {x : World n × List Nat} (h : Polling [] (w.subs i))
    (hrun : Reachable (pollStep cfg i) (w, []) x) : Polling x.2 (x.1.subs i) ∧ Tallied x.2 :=
  hrun.invariant (P := fun x => Polling x.2 (x.1.subs i) ∧ Tallied x.2) ⟨h, tallied_nil⟩
    fun _ _ _ _ hstep hx => hx.1.step hx.2 hstep

/-- The counter of a stage. While it has a value to pass on there have been no empty polls. -/
def StagePolling (iters : List Nat) (s : Topology.Stage n) : Prop :=
  match s.pc with
  | .loadShutdown | .tryRecv => s.iter = saturated iters.length
  | .apply _ | .publish => iters = []
  | _ => True

theorem StagePolling.step {f : Value n → Value m} {x x' : Topology.Stage n × List Nat} {e : Found n m}
    (h : StagePolling x.2 x.1) (ht : Tallied x.2) (hstep : stageStep cfg f i x e = some x') :
    StagePolling x'.2 x'.1 ∧ Tallied x'.2 := by
  obtain ⟨⟨pc, iter, status⟩, iters⟩ := x
  obtain ⟨⟨inp, out, s⟩, hs, rfl⟩ := Option.map_eq_some_iff.mp hstep
  cases pc with
  | loadShutdown =>
    simp only [Stage.step] at hs
    split at hs
    · cases hs
      exact ⟨trivial, ht⟩
    · obtain ⟨w, _, hw⟩ := Option.map_eq_some_iff.mp hs
      cases hw
      exact ⟨h, ht⟩
  | tryRecv =>
    obtain ⟨w, _, hw⟩ := Option.map_eq_some_iff.mp hs
    cases hret : returned (w.subs i) with
    | none =>
      rw [hret] at hw
      cases hw
      simp only [stagePollEnd, hret]
      exact ⟨h, ht⟩
    | some res =>
      rw [hret] at hw
      cases hw
      simp only [stagePollEnd, hret]
      obtain rfl : iter = saturated iters.length := h
      cases res with
      | ok buf => exact ⟨rfl, tallied_nil⟩
      | lagged skipped => exact ⟨rfl, tallied_nil⟩
      | empty => exact ⟨saturated_wait iters, ht.wait⟩
  | apply value =>
    obtain ⟨w, _, hw⟩ := Option.map_eq_some_iff.mp hs
    cases hw
    exact ⟨h, ht⟩
  | publish =>
    obtain rfl : iters = [] := h
    obtain ⟨w, _, hw⟩ := Option.map_eq_some_iff.mp hs
    split at hw <;> cases hw <;> exact ⟨rfl, ht⟩
  | storeStatus status =>
    cases hs
    exact ⟨trivial, ht⟩
  | ended => cases hs

/-- In every loop the counter is the number of empty polls, up to its saturation. -/
theorem Polled.tallied (h : Polled iters) : Tallied iters := by
  cases h with
  | @recvWith n cfg i w₀ w₁ x h₀ hcall hrun =>
    have hfirst : Polling [] (w₁.subs i) := by
      obtain ⟨s, hs, rfl⟩ := Option.map_eq_some_iff.mp hcall
      have hidle := (call_idle hs).1
      simp only [Subscriber.call, hidle] at hs
      cases hs
      exact .fast (by rw [setSub_self]; rfl)
    exact (run_polling hfirst hrun).2
  | @consumer n cfg i policy panicAt w₀ w₁ x h₀ hcall hrun =>
    have hfirst : Polling [] (w₁.subs i) := by
      obtain ⟨s, hs, rfl⟩ := Option.map_eq_some_iff.mp hcall
      have hidle := (call_idle hs).1
      simp only [Subscriber.call, hidle] at hs
      cases hs
      exact .round (by rw [setSub_self]; rfl)
    exact (run_polling hfirst hrun).2
  | @stage n m cfg f i x hrun =>
    have hfirst : StagePolling [] (Stage.spawn n) := rfl
    have hrest : StagePolling x.2 x.1 ∧ Tallied x.2 :=
      hrun.invariant (P := fun x => StagePolling x.2 x.1 ∧ Tallied x.2) ⟨hfirst, tallied_nil⟩
        fun x e x' _ hstep hx => hx.1.step hx.2 hstep
    exact hrest.2

/-! ## The phases -/

/-- While the sum fits a word, or is not reached, `wait` is in the phase of its counter. -/
theorem wait_adaptive {iter : Nat} (hiter : iter < 2 ^ 32)
    (hfit : spinIters.toNat + yieldIters.toNat < 2 ^ 32 ∨ iter < spinIters.toNat) :
    (WaitStrategy.adaptive spinIters yieldIters).wait cpu (.ofNat iter) =
      ⟨(phaseAt spinIters.toNat yieldIters.toNat iter).hints, false⟩ := by
  have hword : (UInt32.ofNat iter).toNat = iter := UInt32.toNat_ofNat_of_lt' hiter
  simp only [WaitStrategy.wait, phaseAt, UInt32.lt_iff_toNat_lt, hword, UInt32.toNat_add]
  by_cases hspin : iter < spinIters.toNat
  · simp only [hspin, if_true]
    rfl
  · have hsum := hfit.resolve_right hspin
    simp only [hspin, if_false, Nat.mod_eq_of_lt hsum, decide_eq_false (Nat.not_le.mpr hsum)]
    split_ifs <;> rfl

/-- Where the sum does not fit, the first comparison with it overflows, and without overflow
checks the pauses are left out. -/
theorem wait_adaptive_overflow {iter : Nat} (hiter : iter < 2 ^ 32) (hspin : spinIters.toNat ≤ iter)
    (hsum : 2 ^ 32 ≤ spinIters.toNat + yieldIters.toNat) :
    (WaitStrategy.adaptive spinIters yieldIters).wait cpu (.ofNat iter) = ⟨Phase.deepBackoff.hints, true⟩ := by
  have hword : (UInt32.ofNat iter).toNat = iter := UInt32.toNat_ofNat_of_lt' hiter
  have hwrapped : ¬ iter < (spinIters.toNat + yieldIters.toNat) % 2 ^ 32 := by
    have hspin' := spinIters.toNat_lt
    have hyield := yieldIters.toNat_lt
    omega
  simp only [WaitStrategy.wait, UInt32.lt_iff_toNat_lt, hword, UInt32.toNat_add, Nat.not_lt.mpr hspin, if_false,
    hwrapped, decide_eq_true hsum]
  rfl

/-- The phase does not change any more once the counter is saturated. -/
theorem phaseAt_saturated (hspin : spinIters.toNat + yieldIters.toNat < 2 ^ 32 ∨ k < spinIters.toNat) :
    phaseAt spinIters.toNat yieldIters.toNat (saturated k) = phaseAt spinIters.toNat yieldIters.toNat k := by
  have hlt := spinIters.toNat_lt
  unfold phaseAt saturated
  split_ifs <;> first | rfl | omega

theorem Polled.escalates (h : Polled iters) (hcond : spinIters.toNat + yieldIters.toNat < 2 ^ 32 ∨
    iters.length ≤ spinIters.toNat) : Escalates cpu spinIters yieldIters iters := by
  have htally := h.tallied
  have hfit : ∀ j < iters.length, spinIters.toNat + yieldIters.toNat < 2 ^ 32 ∨ j < spinIters.toNat := by
    intro j hj
    exact hcond.imp_right fun hlen => hj.trans_le hlen
  have hwait : ∀ j < iters.length, (WaitStrategy.adaptive spinIters yieldIters).wait cpu (.ofNat (saturated j)) =
      ⟨(phaseAt spinIters.toNat yieldIters.toNat j).hints, false⟩ := by
    intro j hj
    have hsat : saturated j ≤ j := Nat.min_le_left ..
    rw [wait_adaptive (saturated_lt j) ((hfit j hj).imp_right hsat.trans_lt), phaseAt_saturated (hfit j hj)]
  constructor
  · intro iter hiter
    rw [htally] at hiter
    obtain ⟨j, hj, rfl⟩ := List.mem_map.mp hiter
    rw [hwait j (List.mem_range.mp hj)]
  · conv_lhs => rw [htally]
    rw [counters, List.map_map]
    apply List.map_congr_left
    intro j hj
    exact congrArg Waited.hints (hwait j (List.mem_range.mp hj))

/-- The poll after the last bare spin forms the sum. -/
theorem Polled.not_escalates (h : Polled iters) (hsum : 2 ^ 32 ≤ spinIters.toNat + yieldIters.toNat)
    (hlen : spinIters.toNat < iters.length) : ¬ Escalates cpu spinIters yieldIters iters := by
  intro hesc
  have hspin : saturated spinIters.toNat = spinIters.toNat := Nat.min_eq_left (Nat.le_pred_of_lt spinIters.toNat_lt)
  have hmem : spinIters.toNat ∈ iters := by
    rw [h.tallied]
    exact List.mem_map.mpr ⟨spinIters.toNat, List.mem_range.mpr hlen, hspin⟩
  have hsafe := hesc.inRange _ hmem
  rw [wait_adaptive_overflow spinIters.toNat_lt (Nat.le_refl _) hsum] at hsafe
  cases hsafe

/-- The default escalates however long nothing comes. -/
theorem default_escalates (h : Polled iters) : ∃ spinIters yieldIters,
    WaitStrategy.default = .adaptive spinIters yieldIters ∧ Escalates cpu spinIters yieldIters iters :=
  ⟨64, 64, rfl, h.escalates (Or.inl (by decide))⟩

/-- `Adaptive` neither overflows nor leaves its phases, in any number of empty polls in a row,
exactly when the sum of its parameters fits a `u32` or no poll gets past the bare spin. -/
theorem adaptive_escalates_iff (cpu : Cpu) (spinIters yieldIters : UInt32) (h : Polled iters) :
    Escalates cpu spinIters yieldIters iters ↔
      spinIters.toNat + yieldIters.toNat < 2 ^ 32 ∨ iters.length ≤ spinIters.toNat := by
  constructor
  · intro hesc
    by_contra hnot
    obtain ⟨hsum, hlen⟩ := not_or.mp hnot
    exact h.not_escalates (Nat.not_lt.mp hsum) (Nat.not_le.mp hlen) hesc
  · exact h.escalates

/-! ## Any number of polls -/

/-- A subscriber whose slot has never been written to polls on. -/
theorem polled_on {w : World n} (hslot : (w.ring.slots (cfg.slot (w.subs i).cursor)).stamp = 0)
    (hdone : 0 < done (w.subs i).cursor) (k : Nat) : Reachable (pollStep cfg i)
      (moved w i w.trackers ((w.subs i).poll (.recvWith 0)), [])
      (moved w i w.trackers ((w.subs i).poll (.recvWith (saturated k))), counters k) := by
  have hread : (w.ring.slots (cfg.slot (w.subs i).cursor)).readStep (w.subs i).cursor .stamp = .inr (.other 0) := by
    simp only [Slot.readStep, hslot, hdone.ne, if_false, Nat.zero_mod, ne_eq, not_true]
  induction k with
  | zero => exact .start
  | succ k ih =>
    refine ih.next (a := .sub i) ?_
    have hend : pollEndBy cfg i (moved w i w.trackers ((w.subs i).poll (.recvWith (saturated k)))) (.sub i) =
        some (.wait (saturated k)) := by
      rw [pollEndBy, if_pos rfl, moved_self]
      change pollEnd cfg w.ring _ = _
      simp only [pollEnd, Subscriber.poll, hread, Nat.not_le.mpr hdone, if_false]
    have hsub : ((w.subs i).poll (.recvWith (saturated k))).step cfg w.ring w.trackers i =
        some (w.trackers, (w.subs i).poll (.recvWith (saturated (k + 1)))) := by
      simp only [Subscriber.step, Subscriber.poll, hread, Subscriber.onTryRead, Nat.not_le.mpr hdone, if_false,
        satSucc_saturated]
    have hstep : World.step cfg (moved w i w.trackers ((w.subs i).poll (.recvWith (saturated k)))) (.sub i) =
        some (moved w i w.trackers ((w.subs i).poll (.recvWith (saturated (k + 1))))) := by
      refine Option.map_eq_some_iff.mpr
        ⟨(w.trackers, (w.subs i).poll (.recvWith (saturated (k + 1)))), ?_, Blocking.moved_moved w i _ _ _ _⟩
      rw [moved_self]
      exact hsub
    simp only [pollStep, insideCall, if_true, hstep, hend, Option.map_some, tally, counters_succ]

/-- There are runs with any number of empty polls in a row. -/
theorem polled_counters (k : Nat) : Polled (counters k) := by
  obtain ⟨w, hw, hp⟩ := Reachable.of_run_any (World.step Config.smallLossy) (World.new 1)
    (fun w => decide ((w.ring.slots (Config.smallLossy.slot (w.subs 0).cursor)).stamp = 0 ∧
      0 < done (w.subs 0).cursor ∧ isIdle (w.subs 0).pc = true))
    [.subscribe 0 .subscribe, .sub 0] (by decide +kernel)
  obtain ⟨hslot, hdone, hidle⟩ := of_decide_eq_true hp
  have hcall : World.step Config.smallLossy w (.subCall 0 .recvWith) =
      some (moved w 0 w.trackers ((w.subs 0).poll (.recvWith 0))) := by
    have hpoll := (Blocking.call_of_idle (idle_of_isIdle hidle)).2.2.1
    exact Option.map_eq_some_iff.mpr ⟨_, hpoll, rfl⟩
  exact .recvWith hw hcall (polled_on hslot hdone k)

/-- One bare spin, one pause, and the deep backoff from then on. -/
theorem adaptive_escalates_ones : Polled (counters 3) ∧ Escalates (.x86_64 false) 1 1 (counters 3) := by
  refine ⟨polled_counters 3, ?_⟩
  exact (adaptive_escalates_iff (.x86_64 false) 1 1 (polled_counters 3)).mpr (Or.inl (by decide))

/-- `Adaptive` with one bare spin and `u32::MAX` pauses: the second empty poll overflows. -/
theorem adaptive_overflows : Polled (counters 2) ∧
    (WaitStrategy.adaptive 1 4294967295).wait (.x86_64 false) (.ofNat 1) = ⟨Phase.deepBackoff.hints, true⟩ ∧
    ¬ Escalates (.x86_64 false) 1 4294967295 (counters 2) := by
  have hwait : (WaitStrategy.adaptive 1 4294967295).wait (.x86_64 false) (.ofNat 1) =
      ⟨Phase.deepBackoff.hints, true⟩ := wait_adaptive_overflow (by decide) (by decide) (by decide)
  refine ⟨polled_counters 2, hwait, fun hesc => ?_⟩
  have hsafe := hesc.inRange 1 (by decide)
  rw [hwait] at hsafe
  cases hsafe

end Wait

end PhotonRing
