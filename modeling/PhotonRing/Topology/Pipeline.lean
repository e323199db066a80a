import PhotonRing.Channel.Unattended
import PhotonRing.Topology.Stage

/-!
# Linear pipelines

`PipelineBuilder::input` makes the first ring, every `then` or `then_with` spawns one stage
with a ring of its own behind it, and `build` hands the last ring's subscriber out. All
rings are lossy channels of the same capacity. The payload type may change from ring to
ring, so ring `k` carries values of `size k` bytes and stage `k` maps them to those of
ring `k + 1`.

The input publisher and the stages that exist already run while later stages are added.
-/
namespace PhotonRing.Topology

open Lib World Reader Unattended

variable {size : Nat → Nat}

/-- `channel` followed by one `subscribe`, before anybody else has a handle. -/
def opened (n : Nat) : World n :=
  (World.new n).setSub 0 ((Subscriber.absent n).created (startOf (Ring.new n).cursor) false)

/-- A pipeline under construction or in use. `built` counts the stages that were spawned;
stage `k` reads ring `k`, and ring `built` is the last one. -/
structure Pipeline (size : Nat → Nat) where
  rings : (k : Nat) → World (size k)
  stages : (k : Nat) → Stage (size k)
  built : Nat
  finished : Bool
  shutdown : Bool

/-- A label: a call of the builder, of the input publisher or of the output subscriber, a
step of such a call, a step of a stage, or a panic of a stage's function. -/
inductive PipelineAct (size : Nat → Nat) where
  | thenWith
  | build
  | inputCall (c : PubCall (size 0))
  | input
  | stage (k : Nat)
  | panic (k : Nat)
  | outputCall (c : SubCall)
  | output
  | shutdown

namespace Pipeline

/-- `PipelineBuilder::input`. -/
def input (size : Nat → Nat) : Pipeline size where
  rings := fun k => opened (size k)
  stages := fun k => Stage.spawn (size k)
  built := 0
  finished := false
  shutdown := false

def setRing (p : Pipeline size) (k : Nat) (w : World (size k)) : Pipeline size :=
  { p with rings := Function.update p.rings k w }

def setStage (p : Pipeline size) (k : Nat) (s : Stage (size k)) : Pipeline size :=
  { p with stages := Function.update p.stages k s }

/-- `SharedState::add_stage`. -/
def addStage (p : Pipeline size) : Pipeline size :=
  { (p.setRing (p.built + 1) (opened _)).setStage p.built (Stage.spawn _) with built := p.built + 1 }

def step (cfg : Config) (f : (k : Nat) → Value (size k) → Value (size (k + 1))) (p : Pipeline size) :
    PipelineAct size → Option (Pipeline size)
  | .thenWith => if p.finished then none else some p.addStage
  | .build => if p.finished then none else some { p with finished := true }
  | .inputCall c => (World.step cfg (p.rings 0) (.pubCall c)).map (p.setRing 0)
  | .input => (World.step cfg (p.rings 0) .pub).map (p.setRing 0)
  | .stage k =>
    if k < p.built then
      ((p.stages k).step cfg (f k) p.shutdown 0 (p.rings k) (p.rings (k + 1))).map fun (inp, out, s) =>
        ((p.setRing k inp).setRing (k + 1) out).setStage k s
    else none
  | .panic k => if k < p.built then ((p.stages k).panic).map (p.setStage k) else none
  | .outputCall c =>
    if p.finished then (World.step cfg (p.rings p.built) (.subCall 0 c)).map (p.setRing p.built) else none
  | .output =>
    if p.finished then (World.step cfg (p.rings p.built) (.sub 0)).map (p.setRing p.built) else none
  | .shutdown => if p.finished then some { p with shutdown := true } else none

end Pipeline

/-- What the first `k` stages compute. -/
def composed (f : (k : Nat) → Value (size k) → Value (size (k + 1))) : (k : Nat) → Value (size 0) → Value (size k)
  | 0, v => v
  | k + 1, v => f k (composed f k v)

variable {cfg : Config} {f : (k : Nat) → Value (size k) → Value (size (k + 1))} {p p' : Pipeline size}

namespace Pipeline

theorem setRing_self (p : Pipeline size) (k : Nat) (w : World (size k)) : (p.setRing k w).rings k = w :=
  Function.update_self ..

theorem setRing_ne (p : Pipeline size) {j k : Nat} (w : World (size k)) (h : j ≠ k) :
    (p.setRing k w).rings j = p.rings j := Function.update_of_ne h ..

theorem setStage_self (p : Pipeline size) (k : Nat) (s : Stage (size k)) : (p.setStage k s).stages k = s :=
  Function.update_self ..

theorem setStage_ne (p : Pipeline size) {j k : Nat} (s : Stage (size k)) (h : j ≠ k) :
    (p.setStage k s).stages j = p.stages j := Function.update_of_ne h ..

@[simp] theorem setStage_rings (p : Pipeline size) (k : Nat) (s : Stage (size k)) :
    (p.setStage k s).rings = p.rings := rfl

section Sides

variable {j : Nat} {w : World (size j)}

/-- A reader of one ring leaves every ring's publisher side alone. -/
theorem ring_of_reads (h : Reads cfg 0 (p.rings j) w) (k : Nat) :
    ((p.setRing j w).rings k).ring = (p.rings k).ring ∧
      ((p.setRing j w).rings k).publisher = (p.rings k).publisher := by
  by_cases hk : k = j
  · subst hk
    rw [setRing_self]
    exact h.same
  · rw [setRing_ne p w hk]
    exact ⟨rfl, rfl⟩

/-- The writer of one ring leaves every ring's subscribers alone. -/
theorem subs_of_writes (h : Writes cfg (p.rings j) w) (k : Nat) :
    ((p.setRing j w).rings k).subs = (p.rings k).subs := by
  by_cases hk : k = j
  · subst hk
    rw [setRing_self]
    exact h.same
  · rw [setRing_ne p w hk]

theorem reach_setRing (hp : ∀ k ≤ p.built, Reach cfg (p.rings k)) (hw : Reach cfg w) :
    ∀ k ≤ (p.setRing j w).built, Reach cfg ((p.setRing j w).rings k) := by
  intro k hk
  by_cases hj : k = j
  · subst hj
    rw [setRing_self]
    exact hw
  · rw [setRing_ne p w hj]
    exact hp k hk

end Sides

end Pipeline

open Pipeline

/-! ## The flow through a pipeline -/

theorem opened_reach (hk : cfg.kind = .lossy) (n : Nat) : Reach cfg (opened n) := by
  have hrun : run (World.step cfg) (World.new n) [.subscribe 0 .subscribe, .sub 0] = some (opened n) := by
    simp [run, World.step, World.new, Subscriber.subscribe, Subscriber.absent, hk, setSub, Subscriber.step,
      opened, Subscriber.created]
  exact Reachable.start.of_run hrun

/-- The rings and stages that exist, and the subscriber of the last ring, which nobody has
used before `build`. -/
structure Flowing (cfg : Config) (f : (k : Nat) → Value (size k) → Value (size (k + 1))) (p : Pipeline size) :
    Prop where
  reach : ∀ k ≤ p.built, Reach cfg (p.rings k)
  linked : ∀ k < p.built, Linked (f k) ((p.rings k).subs 0) (p.rings (k + 1)).publisher
    (p.rings (k + 1)).ring.log (p.stages k).pc
  start : ((p.rings p.built).subs 0).start = 0
  created : Created (stage ((p.rings p.built).subs 0).pc)
  unused : p.finished = false → (p.rings p.built).subs 0 = (opened (size p.built)).subs 0

theorem flowing_input (hk : cfg.kind = .lossy) : Flowing cfg f (Pipeline.input size) where
  reach := fun k _ => opened_reach hk (size k)
  linked := fun k hlt => absurd hlt (Nat.not_lt_zero k)
  start := rfl
  created := trivial
  unused := fun _ => rfl

/-- A stage that has just been spawned. -/
theorem linked_spawn {n m : Nat} {f : Value n → Value m} {u : Subscriber n} (hu : u = (opened n).subs 0) :
    Linked f u (opened m).publisher (opened m).ring.log (Stage.spawn n).pc := by
  subst hu
  exact ⟨rfl, trivial, rfl, [], rfl, .loadShutdown rfl rfl⟩

theorem Flowing.addStage (hk : cfg.kind = .lossy) (h : Flowing cfg f p) (hopen : p.finished = false) :
    Flowing cfg f p.addStage := by
  have hself : p.addStage.rings (p.built + 1) = opened (size (p.built + 1)) := setRing_self ..
  have hne {k : Nat} (hlt : k ≠ p.built + 1) : p.addStage.rings k = p.rings k := setRing_ne p _ hlt
  refine ⟨fun k hle => ?_, fun k hlt => ?_, ?_, ?_, fun _ => ?_⟩
  · by_cases hk' : k = p.built + 1
    · subst hk'
      rw [hself]
      exact opened_reach hk _
    · have hle' : k ≤ p.built + 1 := hle
      rw [hne hk']
      exact h.reach k (by omega)
  · have hlt' : k < p.built + 1 := hlt
    by_cases hk' : k = p.built
    · subst hk'
      have hstage : p.addStage.stages p.built = Stage.spawn _ := setStage_self ..
      rw [hne (by omega), hself, hstage]
      exact linked_spawn (h.unused hopen)
    · have hstage : p.addStage.stages k = p.stages k := setStage_ne _ _ hk'
      rw [hne (by omega), hne (by omega), hstage]
      exact h.linked k (by omega)
  · change ((p.addStage.rings (p.built + 1)).subs 0).start = 0
    rw [hself]
    rfl
  · change Created (stage ((p.addStage.rings (p.built + 1)).subs 0).pc)
    rw [hself]
    trivial
  · change (p.addStage.rings (p.built + 1)).subs 0 = _
    rw [hself]
    rfl

/-- A step of the input publisher. -/
theorem Flowing.write {w : World (size 0)} (h : Flowing cfg f p) (hw : Writes cfg (p.rings 0) w) :
    Flowing cfg f (p.setRing 0 w) := by
  have hsubs := subs_of_writes hw
  refine ⟨reach_setRing h.reach (hw.reach (h.reach 0 (Nat.zero_le _))), fun k hlt => ?_, ?_, ?_, fun hf => ?_⟩
  · rw [hsubs, setRing_ne p w (Nat.succ_ne_zero k)]
    exact h.linked k hlt
  · rw [hsubs]
    exact h.start
  · rw [hsubs]
    exact h.created
  · rw [hsubs]
    exact h.unused hf

/-- A step of the output subscriber. -/
theorem Flowing.read {w : World (size p.built)} (h : Flowing cfg f p) (hfin : p.finished = true)
    (hw : Reads cfg 0 (p.rings p.built) w) : Flowing cfg f (p.setRing p.built w) := by
  have hring := ring_of_reads hw
  obtain ⟨hcreated, hstart⟩ := hw.created h.created
  have hself : (p.setRing p.built w).rings (p.setRing p.built w).built = w := setRing_self ..
  refine ⟨reach_setRing h.reach (hw.reach (h.reach _ (Nat.le_refl _))), fun k hlt => ?_, ?_, ?_, fun hf => ?_⟩
  · rw [setRing_ne p w (Nat.ne_of_lt hlt), (hring (k + 1)).1, (hring (k + 1)).2]
    exact h.linked k hlt
  · rw [hself]
    exact hstart.trans h.start
  · rw [hself]
    exact hcreated
  · cases hfin.symm.trans hf

/-- A step of stage `k`. -/
theorem Flowing.stage {k : Nat} {inp : World (size k)} {out : World (size (k + 1))} {s : Stage (size k)}
    (hk : cfg.kind = .lossy) (h : Flowing cfg f p) (hlt : k < p.built)
    (hs : (p.stages k).step cfg (f k) p.shutdown 0 (p.rings k) (p.rings (k + 1)) = some (inp, out, s)) :
    Flowing cfg f (((p.setRing k inp).setRing (k + 1) out).setStage k s) := by
  obtain ⟨hreads, hwrites⟩ := Stage.step_sides hs
  have hout : (p.setRing k inp).rings (k + 1) = p.rings (k + 1) := setRing_ne p inp (Nat.succ_ne_self k)
  have hwrites' : Writes cfg ((p.setRing k inp).rings (k + 1)) out := by
    rw [hout]
    exact hwrites
  have hsubs := subs_of_writes hwrites'
  have hring := ring_of_reads hreads
  have hself : ((p.setRing k inp).setRing (k + 1) out).rings k = inp := by
    rw [setRing_ne _ out (Nat.ne_of_lt (Nat.lt_succ_self k)), setRing_self]
  have hlast : ((((p.setRing k inp).setRing (k + 1) out).rings p.built).subs 0) = (p.rings p.built).subs 0 := by
    rw [hsubs, setRing_ne p inp (Nat.ne_of_gt hlt)]
  refine ⟨?_, fun j hj => ?_, ?_, ?_, fun hf => ?_⟩
  · exact reach_setRing (reach_setRing h.reach (hreads.reach (h.reach k hlt.le)))
      (hwrites.reach (h.reach (k + 1) hlt))
  · rw [setStage_rings]
    by_cases hjk : j = k
    · subst hjk
      rw [hself, setRing_self, setStage_self]
      exact Stage.step_linked hk hs (h.linked j hlt)
    · have hrest : ((p.setRing k inp).setRing (k + 1) out).rings (j + 1) = (p.setRing k inp).rings (j + 1) :=
        setRing_ne _ out (by omega)
      rw [hsubs, setRing_ne p inp hjk, hrest, (hring (j + 1)).1, (hring (j + 1)).2, setStage_ne _ s hjk]
      exact h.linked j hj
  · exact (congrArg Subscriber.start hlast).trans h.start
  · change Created (Reader.stage ((((p.setRing k inp).setRing (k + 1) out).rings p.built).subs 0).pc)
    rw [hlast]
    exact h.created
  · exact hlast.trans (h.unused hf)

/-- A stage's function panics. -/
theorem Flowing.panic {k : Nat} {s : Stage (size k)} (h : Flowing cfg f p)
    (hs : (p.stages k).panic = some s) : Flowing cfg f (p.setStage k s) := by
  refine ⟨h.reach, fun j hj => ?_, h.start, h.created, h.unused⟩
  by_cases hjk : j = k
  · subst hjk
    rw [setStage_self]
    exact Stage.panic_linked hs (h.linked j hj)
  · rw [setStage_ne p s hjk]
    exact h.linked j hj

theorem step_flowing (hk : cfg.kind = .lossy) {a : PipelineAct size} (hs : p.step cfg f a = some p')
    (h : Flowing cfg f p) : Flowing cfg f p' := by
  cases a with
  | thenWith =>
    simp only [Pipeline.step] at hs
    obtain ⟨hopen, hs⟩ := Option.ite_none_left_eq_some.mp hs
    cases hs
    exact h.addStage hk (Bool.eq_false_iff.mpr hopen)
  | build =>
    simp only [Pipeline.step] at hs
    split at hs <;> cases hs
    exact ⟨h.reach, h.linked, h.start, h.created, nofun⟩
  | inputCall c =>
    obtain ⟨w, hw, rfl⟩ := Option.map_eq_some_iff.mp hs
    exact h.write (Or.inr (Or.inr ⟨c, hw⟩))
  | input =>
    obtain ⟨w, hw, rfl⟩ := Option.map_eq_some_iff.mp hs
    exact h.write (Or.inr (Or.inl hw))
  | stage k =>
    simp only [Pipeline.step] at hs
    obtain ⟨hlt, hs⟩ := Option.ite_none_right_eq_some.mp hs
    obtain ⟨⟨inp, out, s⟩, hst, rfl⟩ := Option.map_eq_some_iff.mp hs
    exact h.stage hk hlt hst
  | panic k =>
    simp only [Pipeline.step] at hs
    obtain ⟨_, hs⟩ := Option.ite_none_right_eq_some.mp hs
    obtain ⟨s, hst, rfl⟩ := Option.map_eq_some_iff.mp hs
    exact h.panic hst
  | outputCall c =>
    simp only [Pipeline.step] at hs
    obtain ⟨hfin, hs⟩ := Option.ite_none_right_eq_some.mp hs
    obtain ⟨w, hw, rfl⟩ := Option.map_eq_some_iff.mp hs
    exact h.read hfin (Or.inr (Or.inr ⟨c, hw⟩))
  | output =>
    simp only [Pipeline.step] at hs
    obtain ⟨hfin, hs⟩ := Option.ite_none_right_eq_some.mp hs
    obtain ⟨w, hw, rfl⟩ := Option.map_eq_some_iff.mp hs
    exact h.read hfin (Or.inr (Or.inl hw))
  | shutdown =>
    simp only [Pipeline.step] at hs
    split at hs <;> cases hs
    exact ⟨h.reach, h.linked, h.start, h.created, h.unused⟩

theorem reach_flowing (hk : cfg.kind = .lossy) (h : Reachable (Pipeline.step cfg f) (Pipeline.input size) p) :
    Flowing cfg f p :=
  h.invariant (flowing_input hk) (fun _ _ _ _ hs hp => step_flowing hk hs hp)

/-! ## The composed map -/

/-- What a stage has published is a prefix of the image of what it has received. -/
theorem Linked.log_isPrefix {n m : Nat} {f : Value n → Value m} {u : Subscriber n} {q : Publisher m}
    {log : List (Value m)} {pc : StagePc n} (h : Linked f u q log pc) :
    log <+: (receivedBufs u.events).map fun buf => f (valueOf buf) := by
  obtain ⟨owed, hflow, _⟩ := h.flow
  exact ⟨owed, hflow.symm⟩

theorem map_valueOf {n m : Nat} (f : Value n → Value m) (log : List (Value n)) :
    (log.map bytesOf).map (fun buf => f (valueOf buf)) = log.map f := by
  rw [List.map_map]
  rfl

theorem map_composed (f : (k : Nat) → Value (size k) → Value (size (k + 1))) (k : Nat)
    (log : List (Value (size 0))) : (log.map (composed f k)).map (f k) = log.map (composed f (k + 1)) := by
  rw [List.map_map]
  rfl

/-- The history of every ring is a part of the input, mapped through the stages before it. -/
theorem Flowing.log_sublist (h : Flowing cfg f p) (hl : messages (p.rings 0) < seqLimit) {k : Nat}
    (hk : k ≤ p.built) : (p.rings k).ring.log.Sublist ((p.rings 0).ring.log.map (composed f k)) := by
  induction k with
  | zero =>
    have hid : (p.rings 0).ring.log.map (composed f 0) = (p.rings 0).ring.log := List.map_id _
    rw [hid]
  | succ k ih =>
    have hsub := ih (by omega)
    have hlen : messages (p.rings k) < seqLimit := by
      have := hsub.length_le
      rw [List.length_map] at this
      exact this.trans_lt hl
    have hlink := h.linked k hk
    have hrecv := receivedBufs_sublist ((reach_sane (h.reach k (by omega)) hlen).readers 0) hlink.latest
    have himage := hrecv.map fun buf => f k (valueOf buf)
    rw [map_valueOf] at himage
    have hcomp := hsub.map (f k)
    rw [map_composed] at hcomp
    exact hlink.log_isPrefix.sublist.trans (himage.trans hcomp)

theorem Flowing.messages_lt (h : Flowing cfg f p) (hl : messages (p.rings 0) < seqLimit) {k : Nat}
    (hk : k ≤ p.built) : messages (p.rings k) < seqLimit := by
  have hlen := (h.log_sublist hl hk).length_le
  rw [List.length_map] at hlen
  exact hlen.trans_lt hl

/-- Where no stage has counted a loss, it is a first part of the input. -/
theorem Flowing.log_isPrefix (h : Flowing cfg f p) (hl : messages (p.rings 0) < seqLimit) {k : Nat}
    (hk : k ≤ p.built) (hlost : ∀ j < k, ((p.rings j).subs 0).totalLagged = 0) :
    (p.rings k).ring.log <+: (p.rings 0).ring.log.map (composed f k) := by
  induction k with
  | zero =>
    have hid : (p.rings 0).ring.log.map (composed f 0) = (p.rings 0).ring.log := List.map_id _
    rw [hid]
  | succ k ih =>
    have hpre := ih (by omega) (fun j hj => hlost j (by omega))
    have hlink := h.linked k hk
    have hsane := reach_sane (h.reach k (by omega)) (h.messages_lt hl (by omega))
    have hrecv := receivedBufs_prefix (hsane.readers 0) hlink.latest hlink.start (hlost k (by omega))
    have himage := hrecv.map fun buf => f k (valueOf buf)
    rw [map_valueOf] at himage
    have hcomp := hpre.map (f k)
    rw [map_composed] at hcomp
    exact hlink.log_isPrefix.trans (himage.trans hcomp)

/-- In every interleaving of the input publisher, the builder, the stages, the output
subscriber and `shutdown`, with stages that may panic, the output subscriber is given the
images of input values at strictly increasing positions. If no subscriber of the pipeline
has counted a loss, they are the images of the first input values, without a gap. -/
theorem pipeline_composes (hk : cfg.kind = .lossy)
    (h : Reachable (Pipeline.step cfg f) (Pipeline.input size) p) (hl : messages (p.rings 0) < seqLimit)
    (hlat : ((p.rings p.built).subs 0).latestUsed = false) :
    (∃ is : List (Fin (p.rings 0).ring.log.length), is.Pairwise (· < ·) ∧
      receivedBufs ((p.rings p.built).subs 0).events =
        is.map fun i => bytesOf (composed f p.built ((p.rings 0).ring.log.get i))) ∧
    ((∀ k ≤ p.built, ((p.rings k).subs 0).totalLagged = 0) →
      receivedBufs ((p.rings p.built).subs 0).events <+:
        (p.rings 0).ring.log.map fun v => bytesOf (composed f p.built v)) := by
  have hflow := reach_flowing hk h
  have hsane := reach_sane (hflow.reach _ (Nat.le_refl _)) (hflow.messages_lt hl (Nat.le_refl _))
  have himage : ((p.rings 0).ring.log.map (composed f p.built)).map bytesOf
      = (p.rings 0).ring.log.map fun v => bytesOf (composed f p.built v) := List.map_map
  constructor
  · have hrecv := receivedBufs_sublist (hsane.readers 0) hlat
    have hlog := (hflow.log_sublist hl (Nat.le_refl _)).map bytesOf
    rw [himage] at hlog
    obtain ⟨log, hsub, he⟩ := List.sublist_map_iff.mp (hrecv.trans hlog)
    obtain ⟨is, rfl, hpair⟩ := List.sublist_eq_map_getElem hsub
    exact ⟨is, hpair, by rw [he, List.map_map]; rfl⟩
  · intro hlost
    have hrecv := receivedBufs_prefix (hsane.readers 0) hlat hflow.start (hlost _ (Nat.le_refl _))
    have hlog := (hflow.log_isPrefix hl (Nat.le_refl _) (fun j hj => hlost j hj.le)).map bytesOf
    rw [himage] at hlog
    exact hrecv.trans hlog

/-- Stages on single bytes that add one. -/
def oneByte (_ : Nat) : Nat := 1

def increment (k : Nat) (v : Value (oneByte k)) : Value (oneByte (k + 1)) := fun j => v j + 1

/-- One value through two stages, the second of which was added after the first had published. -/
theorem pipeline_composes_twice : ∃ p : Pipeline oneByte,
    Reachable (Pipeline.step Config.smallLossy increment) (Pipeline.input oneByte) p ∧
      p.built = 2 ∧ (receivedBufs ((p.rings p.built).subs 0).events).length = 1 ∧
      receivedBufs ((p.rings p.built).subs 0).events <+:
        (p.rings 0).ring.log.map fun v => bytesOf (composed increment p.built v) := by
  obtain ⟨p, hr, hp⟩ := Reachable.of_run_any (Pipeline.step Config.smallLossy increment) (Pipeline.input oneByte)
    (fun p => decide (messages (p.rings 0) < seqLimit ∧ ((p.rings p.built).subs 0).latestUsed = false ∧
      ((p.rings 0).subs 0).totalLagged = 0 ∧ ((p.rings 1).subs 0).totalLagged = 0 ∧
      ((p.rings 2).subs 0).totalLagged = 0 ∧ p.built = 2 ∧
      (receivedBufs ((p.rings p.built).subs 0).events).length = 1))
    (List.flatten [
      [.thenWith, .inputCall (.publish fun _ => 7)], List.replicate 5 .input, List.replicate 11 (.stage 0),
      [.thenWith], List.replicate 11 (.stage 1), [.build, .shutdown, .outputCall .tryRecv],
      List.replicate 4 .output]) (by decide +kernel)
  obtain ⟨hl, hlat, h0, h1, h2, hbuilt, hlen⟩ := of_decide_eq_true hp
  refine ⟨p, hr, hbuilt, hlen, (pipeline_composes rfl hr hl hlat).2 (fun k hk => ?_)⟩
  obtain rfl | rfl | rfl : k = 0 ∨ k = 1 ∨ k = 2 := by omega
  · exact h0
  · exact h1
  · exact h2

/-! ## A pipeline without stages -/

/-- `build` right after `input`: the output subscriber reads what the input publisher writes. -/
def direct (size : Nat → Nat) : Pipeline size := { Pipeline.input size with finished := true }

/-- The labels of its only ring, as labels of the pipeline. -/
def directAct : Act (size 0) → PipelineAct size
  | .pubCall c => .inputCall c
  | .subCall _ c => .outputCall c
  | .sub _ => .output
  | _ => .input

/-- The labels that somebody holds a handle for. -/
def Handled {n : Nat} : Act n → Prop
  | .pubCall _ => True
  | .pub => True
  | .subCall i _ => i = 0
  | .sub i => i = 0
  | _ => False

theorem direct_step {a : Act (size 0)} (ha : Handled a) {w w' : World (size 0)}
    (h : World.step cfg w a = some w') :
    Pipeline.step cfg f ((direct size).setRing 0 w) (directAct a) = some ((direct size).setRing 0 w') := by
  have hself : ((direct size).setRing 0 w).rings 0 = w := setRing_self ..
  have hset : ((direct size).setRing 0 w).setRing 0 w' = (direct size).setRing 0 w' := by
    unfold Pipeline.setRing
    rw [Function.update_idem]
  cases a with
  | pubCall c => exact Option.map_eq_some_iff.mpr ⟨w', by rw [hself]; exact h, hset⟩
  | pub => exact Option.map_eq_some_iff.mpr ⟨w', by rw [hself]; exact h, hset⟩
  | subCall i c =>
    obtain rfl : i = 0 := ha
    change (World.step cfg (((direct size).setRing 0 w).rings 0) (.subCall 0 c)).map _ = _
    exact Option.map_eq_some_iff.mpr ⟨w', by rw [hself]; exact h, hset⟩
  | sub i =>
    obtain rfl : i = 0 := ha
    change (World.step cfg (((direct size).setRing 0 w).rings 0) (.sub 0)).map _ = _
    exact Option.map_eq_some_iff.mpr ⟨w', by rw [hself]; exact h, hset⟩
  | _ => exact ha.elim

theorem handled_call {n k : Nat} {a b : Act n} (ha : Handled a) (hb : Handled b) :
    ∀ c ∈ a :: List.replicate k b, Handled c := by
  intro c hc
  rcases List.mem_cons.mp hc with rfl | hc
  · exact ha
  · rw [List.eq_of_mem_replicate hc]
    exact hb

/-- A run of the ring is a run of the pipeline. -/
theorem direct_run {init : Pipeline size} {as : List (Act (size 0))} {w w' : World (size 0)}
    (hw : Reachable (Pipeline.step cfg f) init ((direct size).setRing 0 w))
    (h : run (World.step cfg) w as = some w') (has : ∀ a ∈ as, Handled a) :
    Reachable (Pipeline.step cfg f) init ((direct size).setRing 0 w') :=
  hw.of_run (run_map ((direct size).setRing 0) (fun a ha _ _ hs => direct_step (has a ha) hs) h)

/-- A message of the input publisher, on a ring that is on its own. -/
theorem direct_publish {init : Pipeline size} {w : World (size 0)} (ha : Alone cfg w)
    (hw : Reachable (Pipeline.step cfg f) init ((direct size).setRing 0 w)) (v : Value (size 0)) :
    Reachable (Pipeline.step cfg f) init ((direct size).setRing 0 (afterPublish cfg w v)) := by
  obtain ⟨k, hrun⟩ := publish_run (c := .publish v) ha.idle ha.unchecked (Or.inl rfl)
  exact direct_run hw hrun (handled_call trivial trivial)

/-- The bound on the messages is needed. The stamps of a slot start over after `2 ^ 63`
messages: the output subscriber takes a message for the first one and counts no loss. -/
theorem output_not_first : ∃ p : Pipeline oneByte,
    Reachable (Pipeline.step Config.smallLossy increment) (Pipeline.input oneByte) p ∧
      ((p.rings p.built).subs 0).latestUsed = false ∧ (∀ k ≤ p.built, ((p.rings k).subs 0).totalLagged = 0) ∧
      ¬ receivedBufs ((p.rings p.built).subs 0).events <+:
        (p.rings 0).ring.log.map fun v => bytesOf (composed increment p.built v) := by
  have hopen : Reachable (Pipeline.step Config.smallLossy increment) (Pipeline.input oneByte)
      ((direct oneByte).setRing 0 (opened 1)) := by
    refine Reachable.start.next (a := .build) ?_
    rw [show (direct oneByte).setRing 0 (opened 1) = direct oneByte from
      congrArg (fun rings => { direct oneByte with rings := rings }) (Function.update_eq_self 0 _)]
    rfl
  have halone : Alone Config.smallLossy (opened 1) := ⟨rfl, nofun, fun hk => absurd rfl hk⟩
  have hfirst := direct_publish halone hopen fun _ => 1
  obtain ⟨u, hu, ha, hlater⟩ := publish_many (R := fun u => Reachable (Pipeline.step Config.smallLossy increment)
    (Pipeline.input oneByte) ((direct oneByte).setRing 0 u)) (fun _ => 2) (fun u ha hu => direct_publish ha hu _)
    halone.afterPublish (by decide) hfirst (2 ^ 63 - 1)
  have hlast : u.publisher.seq = 2 ^ 63 := hlater.seq.trans (by decide)
  have hw := direct_publish ha hu fun _ => 2
  have hslot : (afterPublish Config.smallLossy u fun _ => 2).ring.slots 0 = ⟨done 0, bytesOf fun _ => 2⟩ := by
    rw [afterPublish_slots, hlast, show Config.smallLossy.slot (2 ^ 63) = 0 by decide +kernel,
      show done (2 ^ 63) = done 0 by decide, Function.update_self]
  have hsub : (afterPublish Config.smallLossy u fun _ => 2).subs 0 = (opened 1).subs 0 := congrFun hlater.subs 0
  have hlog : ∃ l, (afterPublish Config.smallLossy u fun _ => 2).ring.log = (fun _ => 1) :: l := by
    obtain ⟨l, _, hl⟩ := hlater.log
    exact ⟨l ++ [fun _ => 2], by rw [afterPublish_log, hl]; rfl⟩
  generalize afterPublish Config.smallLossy u (fun _ => 2) = x at hw hslot hsub hlog
  have hidx : Config.smallLossy.slot (x.subs 0).cursor = 0 := by
    rw [hsub]
    decide +kernel
  obtain ⟨k, y, hrun, hring, hgain⟩ := receive_run (w := x) (by rw [hsub]; rfl) (by rw [hsub]; decide) (by
    rw [hidx, hslot, hsub]
    rfl)
  have hself : ((direct oneByte).setRing 0 y).rings 0 = y := setRing_self ..
  have hlost : (y.subs 0).totalLagged = 0 := by
    rw [hgain.totalLagged, hsub]
    decide
  refine ⟨_, direct_run hw hrun (handled_call rfl rfl), ?_, fun j hj => ?_, fun hpre => ?_⟩
  · change ((((direct oneByte).setRing 0 y).rings 0).subs 0).latestUsed = false
    rw [hself, hgain.latestUsed, hsub]
    rfl
  · obtain rfl : j = 0 := Nat.le_zero.mp hj
    rw [hself]
    exact hlost
  · change receivedBufs ((((direct oneByte).setRing 0 y).rings 0).subs 0).events <+: _ at hpre
    obtain ⟨l, hl⟩ := hlog
    rw [hself, hgain.received, hidx, hslot, hsub, hring, hl] at hpre
    have hhead := (List.cons_prefix_cons.mp hpre).1
    have hbyte : (some 2 : Option UInt8) = some 1 := congrFun hhead (0 : Fin 1)
    cases hbyte

end PhotonRing.Topology
