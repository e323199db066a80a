import PhotonRing.Channel.WaitFree
import PhotonRing.Topology.Pipeline

/-!
# Stopping a pipeline

`Pipeline::shutdown`, and `Drop` after it, set a flag that every stage loads once a round.
A round of a stage is a `try_recv` and at most one `publish` to a lossy ring, neither of
which waits, so every stage thread ends soon after the flag is set and `join` returns. What
`try_join`, `panicked_stages` and `is_healthy` then report is read from the status cells,
which the stages store on their way out.
-/
namespace PhotonRing.Topology

open Lib World Reader

variable {size : Nat → Nat} {cfg : Config} {f : (k : Nat) → Value (size k) → Value (size (k + 1))}
  {p p' : Pipeline size}

/-! ## The handle -/

namespace Pipeline

/-- The thread of stage `k` can be joined. -/
def hasEnded (p : Pipeline size) (k : Nat) : Bool :=
  match (p.stages k).pc with
  | .ended => true
  | _ => false

theorem hasEnded_iff {k : Nat} : p.hasEnded k = true ↔ (p.stages k).pc = .ended := by
  unfold hasEnded
  cases (p.stages k).pc <;> simp

end Pipeline

/-! ## Every stage ends -/

/-- Own steps of a stage until it ends, once the flag is set. -/
def Stage.left {n m : Nat} (s : Stage n) (u : Subscriber n) (q : Publisher m) : Nat :=
  match s.pc with
  | .loadShutdown => 2
  | .tryRecv => WaitFree.stepsLeft u.pc + m + 7
  | .apply _ => m + 7
  | .publish => WaitFree.pubLeft q.pc + 2
  | .storeStatus _ => 1
  | .ended => 0

section Stage

variable {n m : Nat} {g : Value n → Value m} {inp inp' : World n} {out out' : World m} {s s' : Stage n} {i : Nat}

theorem aloneAt_tryRecv {pc : SubPc n} (h : InTryRecv pc) : WaitFree.AloneAt pc := by
  unfold InTryRecv at h
  split at h <;> first | exact trivial | exact h.elim

/-- Once the flag is set, each step of a stage brings its thread nearer to the end. -/
theorem Stage.step_left (hk : cfg.kind = .lossy) (h : s.step cfg g true i inp out = some (inp', out', s'))
    (hl : Linked g (inp.subs i) out.publisher out.ring.log s.pc) :
    s'.left (inp'.subs i) out'.publisher < s.left (inp.subs i) out.publisher := by
  obtain ⟨_, _, _, owed, hflow, hj⟩ := hl
  unfold Stage.step at h
  cases hpc : s.pc with
  | loadShutdown =>
    simp only [hpc, ↓reduceIte] at h
    cases h
    simp [Stage.left, hpc]
  | tryRecv =>
    rw [hpc] at hj
    simp only [hpc] at h
    obtain ⟨w, hw, he⟩ := Option.map_eq_some_iff.mp h
    cases hj with
    | tryRecv hu hp =>
      obtain ⟨⟨t, u⟩, hstep, rfl⟩ := Option.map_eq_some_iff.mp hw
      have hself : (({ inp with trackers := t } : World n).setSub i u).subs i = u := setSub_self ..
      simp only [hself] at he
      have hpos := WaitFree.stepsLeft_pos (aloneAt_tryRecv hu)
      rcases (step_tryRecv hu hstep).outcome with ⟨hin, _⟩ | ⟨hidle, res, hlast, _⟩
      · have hnone : returned u = none := by
          revert hin
          unfold returned
          cases u.pc <;> simp [InTryRecv]
        rw [hnone] at he
        cases he
        have hlt := (WaitFree.step_left hstep (aloneAt_tryRecv hu)).resolve_left fun hidle => by
          rw [hidle] at hin
          exact hin
        simp only [Stage.left, hpc, hself]
        omega
      · have hsome : returned u = some res := by simp only [returned, hidle, hlast]
        rw [hsome] at he
        cases he
        cases res <;> simp only [Stage.onRecv, Stage.left, hpc] <;> omega
  | apply v =>
    rw [hpc] at hj
    simp only [hpc] at h
    obtain ⟨w, hw, he⟩ := Option.map_eq_some_iff.mp h
    cases hj with
    | apply hu hp =>
      simp only [World.step, Publisher.call, hp] at hw
      split at hw <;> cases hw
      cases he
      simp only [Stage.left, hpc, WaitFree.pubLeft, WaitFree.pubSteps]
      omega
  | publish =>
    rw [hpc] at hj
    simp only [hpc] at h
    obtain ⟨w, hw, he⟩ := Option.map_eq_some_iff.mp h
    obtain ⟨⟨r, t, q⟩, hstep, rfl⟩ := Option.map_eq_some_iff.mp hw
    have hfree : WaitFree.FreeAt out.publisher.pc := by
      cases hj with
      | room _ hp => rw [hp]; exact Nat.succ_pos _
      | write _ hp => rw [hp]; exact trivial
      | cursor _ hp => rw [hp]; exact trivial
    have hpos := WaitFree.pubLeft_pos hfree
    rcases WaitFree.pub_left hk hstep hfree with hidle | ⟨hfree', hlt⟩
    · dsimp only at he
      rw [hidle] at he
      cases he
      simp only [Stage.left, hpc]
      omega
    · have hbusy : q.pc ≠ .idle := fun hidle => by
        rw [hidle] at hfree'
        exact hfree'
      dsimp only at he
      split at he
      · exact absurd ‹_› hbusy
      · cases he
        simp only [Stage.left, hpc]
        omega
  | storeStatus status =>
    simp only [hpc] at h
    cases h
    simp [Stage.left, hpc]
  | ended =>
    simp only [hpc] at h
    cases h

end Stage

deriving instance DecidableEq for PipelineAct

/-- The status that the thread stores on its way out. -/
def verdict (failed : Bool) : Status := if failed then .panicked else .completed

/-- How a stage stands, and whether its function has panicked. Without a panic it leaves its loop
only because of the flag. -/
inductive Fate {n : Nat} (shutdown : Bool) (s : Stage n) : Bool → Prop where
  | running (hs : s.status = .running) (hpc : ∀ status, s.pc ≠ .storeStatus status) (hend : s.pc ≠ .ended) :
      Fate shutdown s false
  | leaving {failed : Bool} (hs : s.status = .running) (hpc : s.pc = .storeStatus (verdict failed))
      (hflag : failed = false → shutdown = true) : Fate shutdown s failed
  | gone {failed : Bool} (hs : s.status = verdict failed) (hpc : s.pc = .ended)
      (hflag : failed = false → shutdown = true) : Fate shutdown s failed

section Fate

variable {n m : Nat} {g : Value n → Value m} {inp inp' : World n} {out out' : World m} {s s' : Stage n} {i : Nat}
  {shutdown failed : Bool}

theorem Fate.spawn : Fate shutdown (Stage.spawn n) false :=
  .running rfl (by simp [Stage.spawn]) (by simp [Stage.spawn])

theorem Fate.flag (h : Fate shutdown s failed) : Fate true s failed := by
  cases h with
  | running hs hpc hend => exact .running hs hpc hend
  | leaving hs hpc _ => exact .leaving hs hpc fun _ => rfl
  | gone hs hpc _ => exact .gone hs hpc fun _ => rfl

theorem Fate.step (h : Fate shutdown s failed) (hst : s.step cfg g shutdown i inp out = some (inp', out', s')) :
    Fate shutdown s' failed := by
  unfold Stage.step at hst
  cases h with
  | running hs hpc hend =>
    cases hat : s.pc with
    | loadShutdown =>
      simp only [hat] at hst
      split_ifs at hst with hset
      · cases hst
        exact .leaving hs rfl fun _ => hset
      · obtain ⟨w, _, he⟩ := Option.map_eq_some_iff.mp hst
        cases he
        exact .running hs nofun nofun
    | tryRecv =>
      simp only [hat] at hst
      obtain ⟨w, _, he⟩ := Option.map_eq_some_iff.mp hst
      split at he
      · rename_i res _
        cases he
        cases res <;> exact .running hs nofun nofun
      · cases he
        exact .running hs hpc hend
    | apply v =>
      simp only [hat] at hst
      obtain ⟨w, _, he⟩ := Option.map_eq_some_iff.mp hst
      cases he
      exact .running hs nofun nofun
    | publish =>
      simp only [hat] at hst
      obtain ⟨w, _, he⟩ := Option.map_eq_some_iff.mp hst
      split at he <;> cases he
      · exact .running hs nofun nofun
      · exact .running hs hpc hend
    | storeStatus status => exact absurd hat (hpc status)
    | ended => exact absurd hat hend
  | leaving hs hpc hflag =>
    simp only [hpc] at hst
    cases hst
    exact .gone rfl rfl hflag
  | gone hs hpc hflag =>
    simp only [hpc] at hst
    cases hst

theorem Fate.panic (h : Fate shutdown s failed) (hst : s.panic = some s') : Fate shutdown s' true := by
  unfold Stage.panic at hst
  split at hst <;> cases hst
  rename_i hpc
  cases h with
  | running hs _ _ => exact .leaving hs rfl nofun
  | leaving _ hpc' _ => rw [hpc] at hpc'; cases hpc'
  | gone _ hpc' _ => rw [hpc] at hpc'; cases hpc'

end Fate

/-- The stage whose function panics. -/
def panics (k : Nat) : PipelineAct size → Bool
  | .panic j => j == k
  | _ => false

/-- Stages are added, never removed. -/
theorem step_built_le {a : PipelineAct size} (h : p.step cfg f a = some p') : p.built ≤ p'.built := by
  cases a with
  | thenWith =>
    simp only [Pipeline.step] at h
    obtain ⟨_, h⟩ := Option.ite_none_left_eq_some.mp h
    cases h
    exact Nat.le_succ p.built
  | build =>
    simp only [Pipeline.step] at h
    obtain ⟨_, h⟩ := Option.ite_none_left_eq_some.mp h
    cases h
    exact Nat.le_refl _
  | shutdown =>
    simp only [Pipeline.step] at h
    obtain ⟨_, h⟩ := Option.ite_none_right_eq_some.mp h
    cases h
    exact Nat.le_refl _
  | stage j | panic j | outputCall c | output =>
    simp only [Pipeline.step] at h
    obtain ⟨_, h⟩ := Option.ite_none_right_eq_some.mp h
    obtain ⟨x, _, rfl⟩ := Option.map_eq_some_iff.mp h
    exact Nat.le_refl _
  | inputCall c | input =>
    obtain ⟨x, _, rfl⟩ := Option.map_eq_some_iff.mp h
    exact Nat.le_refl _

/-- A thread that has ended does nothing any more. -/
theorem step_ended {a : PipelineAct size} {k : Nat} (h : p.step cfg f a = some p') (hlt : k < p.built)
    (hend : (p.stages k).pc = .ended) : p'.stages k = p.stages k := by
  cases a with
  | thenWith =>
    simp only [Pipeline.step] at h
    obtain ⟨_, h⟩ := Option.ite_none_left_eq_some.mp h
    cases h
    exact Pipeline.setStage_ne _ _ (Nat.ne_of_lt hlt)
  | build =>
    simp only [Pipeline.step] at h
    obtain ⟨_, h⟩ := Option.ite_none_left_eq_some.mp h
    cases h
    rfl
  | shutdown =>
    simp only [Pipeline.step] at h
    obtain ⟨_, h⟩ := Option.ite_none_right_eq_some.mp h
    cases h
    rfl
  | stage j =>
    simp only [Pipeline.step] at h
    obtain ⟨_, h⟩ := Option.ite_none_right_eq_some.mp h
    obtain ⟨⟨inp, out, s⟩, hst, rfl⟩ := Option.map_eq_some_iff.mp h
    by_cases hjk : k = j
    · subst hjk
      simp only [Stage.step, hend] at hst
      cases hst
    · exact Pipeline.setStage_ne _ s hjk
  | panic j =>
    simp only [Pipeline.step] at h
    obtain ⟨_, h⟩ := Option.ite_none_right_eq_some.mp h
    obtain ⟨s, hst, rfl⟩ := Option.map_eq_some_iff.mp h
    by_cases hjk : k = j
    · subst hjk
      simp only [Stage.panic, hend] at hst
      cases hst
    · exact Pipeline.setStage_ne p s hjk
  | outputCall c | output =>
    simp only [Pipeline.step] at h
    obtain ⟨_, h⟩ := Option.ite_none_right_eq_some.mp h
    obtain ⟨x, _, rfl⟩ := Option.map_eq_some_iff.mp h
    rfl
  | inputCall c | input =>
    obtain ⟨x, _, rfl⟩ := Option.map_eq_some_iff.mp h
    rfl

theorem run_ended {as : List (PipelineAct size)} (hrun : run (Pipeline.step cfg f) p as = some p') :
    p.built ≤ p'.built ∧ ∀ k, k < p.built → (p.stages k).pc = .ended → p'.stages k = p.stages k := by
  induction as generalizing p with
  | nil =>
    obtain rfl := Option.some.inj hrun
    exact ⟨Nat.le_refl _, fun _ _ _ => rfl⟩
  | cons a as ih =>
    obtain ⟨q, hq, hrest⟩ := Option.bind_eq_some_iff.mp hrun
    obtain ⟨hle, hstay⟩ := ih hrest
    have hbuilt := step_built_le hq
    refine ⟨hbuilt.trans hle, fun k hlt hend => ?_⟩
    have he := step_ended hq hlt hend
    exact (hstay k (hlt.trans_le hbuilt) (by rw [he]; exact hend)).trans he

/-- What a call of the handle sees at its loads: the pipeline after longer and longer parts of
one run. -/
structure Scanned (cfg : Config) (f : (k : Nat) → Value (size k) → Value (size (k + 1)))
    (labels : Nat → List (PipelineAct size)) (seen : Nat → Pipeline size) : Prop where
  runs : ∀ k, run (Pipeline.step cfg f) (Pipeline.input size) (labels k) = some (seen k)
  grows : ∀ k, labels k <+: labels (k + 1)

section Scanned

variable {labels : Nat → List (PipelineAct size)} {seen : Nat → Pipeline size} {i j k : Nat}

theorem Scanned.labels_le (h : Scanned cfg f labels seen) (hij : i ≤ j) : labels i <+: labels j := by
  induction hij with
  | refl => exact List.prefix_rfl
  | step _ ih => exact ih.trans (h.grows _)

/-- Between two loads a stage whose thread has ended stays as it is. -/
theorem Scanned.ended (h : Scanned cfg f labels seen) (hij : i ≤ j) :
    (seen i).built ≤ (seen j).built ∧
      (k < (seen i).built → (seen i).hasEnded k = true → (seen j).stages k = (seen i).stages k) := by
  obtain ⟨rest, hrest⟩ := h.labels_le hij
  obtain ⟨q, hq, hrun⟩ := run_of_append (hrest ▸ h.runs j)
  obtain rfl := Option.some.inj ((h.runs i).symm.trans hq)
  obtain ⟨hle, hstay⟩ := run_ended hrun
  exact ⟨hle, fun hlt hend => hstay k hlt (Pipeline.hasEnded_iff.mp hend)⟩

end Scanned

end PhotonRing.Topology
