import PhotonRing.Topology.Pipeline

/-!
# Fan-out pipelines

`fan_out` makes a second subscriber of the builder's last ring, hands the one that came with
the ring to branch A and the new one to branch B, and spawns a stage for each. The branches read
one stream exactly from where their subscribers start: the first at the first message of the ring,
the second wherever the head is when `fan_out` loads it.
-/
namespace PhotonRing.Topology

open Lib World Reader Pipeline

inductive Branch where
  | a
  | b
  deriving DecidableEq

/-- The subscriber of the source ring that a branch reads. -/
def Branch.reader : Branch → Nat
  | .a => 0
  | .b => 1

/-- How far the builder has got: before `fan_out`, in its `subscribe`, before the spawn of
branch A, before the spawn of branch B, with a `FanOutBuilder`, after its `build`. -/
inductive FanOutPc where
  | linear
  | subscribe
  | spawnA
  | spawnB
  | spawned
  | finished
  deriving DecidableEq

/-- The stage of the branch has been spawned. -/
def FanOutPc.runs : FanOutPc → Branch → Bool
  | .spawnB, .a => true
  | .spawned, _ => true
  | .finished, _ => true
  | _, _ => false

/-- A pipeline whose last ring is the source of two branches. Branch `x` carries values of
`width x` bytes; its stage reads ring `k` when that is the source. -/
structure FanOut (size : Nat → Nat) (width : Branch → Nat) where
  base : Pipeline size
  pc : FanOutPc
  outs : (x : Branch) → World (width x)
  stages : Branch → (k : Nat) → Stage (size k)

/-- A label: what happens in the pipeline up to the source ring, a call of the builder or a
step of it, a step of a branch's stage or a panic of its function, a step of whoever reads a
branch's output, which is a stage of `then_a` or `then_b` or the caller, and `shutdown`. -/
inductive FanOutAct (size : Nat → Nat) where
  | upstream (a : PipelineAct size)
  | fanOut
  | subscribe
  | spawn (x : Branch)
  | stage (x : Branch)
  | panic (x : Branch)
  | outputCall (x : Branch) (c : SubCall)
  | output (x : Branch)
  | build
  | shutdown

variable {size : Nat → Nat} {width : Branch → Nat}

/-- The labels of a pipeline under construction. -/
def Upstream : PipelineAct size → Bool
  | .thenWith => true
  | .inputCall _ => true
  | .input => true
  | .stage _ => true
  | .panic _ => true
  | _ => false

namespace FanOut

/-- `PipelineBuilder::input`. -/
def input (size : Nat → Nat) (width : Branch → Nat) : FanOut size width where
  base := Pipeline.input size
  pc := .linear
  outs := fun x => opened (width x)
  stages := fun _ k => Stage.spawn (size k)

def source (p : FanOut size width) : World (size p.base.built) := p.base.rings p.base.built

def setSource (p : FanOut size width) (w : World (size p.base.built)) : FanOut size width :=
  { p with base := p.base.setRing p.base.built w }

def setOut (p : FanOut size width) (x : Branch) (w : World (width x)) : FanOut size width :=
  { p with outs := Function.update p.outs x w }

def setStage (p : FanOut size width) (x : Branch) (s : Stage (size p.base.built)) : FanOut size width :=
  { p with stages := Function.update p.stages x (Function.update (p.stages x) p.base.built s) }

/-- `SharedState::add_stage` for a branch. -/
def addStage (p : FanOut size width) (x : Branch) (pc : FanOutPc) : FanOut size width :=
  { (p.setOut x (opened _)).setStage x (Stage.spawn _) with pc := pc }

def step (cfg : Config) (f : (k : Nat) → Value (size k) → Value (size (k + 1)))
    (g : (x : Branch) → (k : Nat) → Value (size k) → Value (width x)) (p : FanOut size width) :
    FanOutAct size → Option (FanOut size width)
  | .upstream a => if Upstream a then (p.base.step cfg f a).map fun base => { p with base := base } else none
  | .fanOut =>
    if p.pc = .linear then
      (World.step cfg p.source (.subscribe 1 .subscribe)).map fun w =>
        { p with base := { p.base.setRing p.base.built w with finished := true }, pc := .subscribe }
    else none
  | .subscribe =>
    if p.pc = .subscribe then
      (World.step cfg p.source (.sub 1)).map fun w => { p.setSource w with pc := .spawnA }
    else none
  | .spawn .a => if p.pc = .spawnA then some (p.addStage .a .spawnB) else none
  | .spawn .b => if p.pc = .spawnB then some (p.addStage .b .spawned) else none
  | .stage x =>
    if p.pc.runs x then
      ((p.stages x p.base.built).step cfg (g x p.base.built) p.base.shutdown x.reader p.source (p.outs x)).map
        fun (inp, out, s) => ((p.setSource inp).setOut x out).setStage x s
    else none
  | .panic x => if p.pc.runs x then ((p.stages x p.base.built).panic).map (p.setStage x) else none
  | .outputCall x c =>
    if p.pc.runs x then (World.step cfg (p.outs x) (.subCall 0 c)).map (p.setOut x) else none
  | .output x => if p.pc.runs x then (World.step cfg (p.outs x) (.sub 0)).map (p.setOut x) else none
  | .build => if p.pc = .spawned then some { p with pc := .finished } else none
  | .shutdown =>
    if p.pc = .finished then some { p with base := { p.base with shutdown := true } } else none

/-- What the stage of a branch has received. -/
def consumed (p : FanOut size width) (x : Branch) : List (Buf (size p.base.built)) :=
  receivedBufs (p.source.subs x.reader).events

/-- Nothing has been published on the source ring when branch B's subscriber loads its head. -/
def emptySource (p : FanOut size width) : FanOutAct size → Bool
  | .subscribe => decide (p.source.ring.cursor = u64Max)
  | _ => true

/-- The steps of a pipeline that fans out before anything has been published on the source. -/
def emptyStep (cfg : Config) (f : (k : Nat) → Value (size k) → Value (size (k + 1)))
    (g : (x : Branch) → (k : Nat) → Value (size k) → Value (width x)) (p : FanOut size width)
    (a : FanOutAct size) : Option (FanOut size width) :=
  if p.emptySource a then p.step cfg f g a else none

end FanOut

variable {cfg : Config} {f : (k : Nat) → Value (size k) → Value (size (k + 1))}
  {g : (x : Branch) → (k : Nat) → Value (size k) → Value (width x)} {q q' : Pipeline size} {p p' : FanOut size width}

/-! ## Upstream of the source -/

/-- A reader does not touch the other subscribers. -/
theorem Reads.others {n : Nat} {i j : Nat} {w w' : World n} (h : Reads cfg i w w') (hj : j ≠ i) :
    w'.subs j = w.subs j := by
  rcases h with rfl | h | ⟨c, h⟩
  · rfl
  · obtain ⟨x, _, rfl⟩ := Option.map_eq_some_iff.mp h
    exact setSub_ne _ _ hj
  · obtain ⟨x, _, rfl⟩ := Option.map_eq_some_iff.mp h
    exact setSub_ne _ _ hj

/-- A step upstream adds a stage, or the subscribers of the last ring stay as they are. -/
theorem upstream_step {a : PipelineAct size} (h : q.step cfg f a = some q') (ha : Upstream a = true) :
    q.finished = false ∧ q' = q.addStage ∨ q'.finished = q.finished ∧
      ∀ P : (k : Nat) → (Nat → Subscriber (size k)) → Prop,
        P q.built (q.rings q.built).subs → P q'.built (q'.rings q'.built).subs := by
  cases a with
  | thenWith =>
    obtain ⟨hopen, h⟩ := Option.ite_none_left_eq_some.mp h
    cases h
    exact Or.inl ⟨Bool.eq_false_iff.mpr hopen, rfl⟩
  | inputCall c =>
    obtain ⟨w, hw, rfl⟩ := Option.map_eq_some_iff.mp h
    have hsubs := subs_of_writes (p := q) (Or.inr (Or.inr ⟨c, hw⟩)) q.built
    exact Or.inr ⟨rfl, fun P hP => by rw [← hsubs] at hP; exact hP⟩
  | input =>
    obtain ⟨w, hw, rfl⟩ := Option.map_eq_some_iff.mp h
    have hsubs := subs_of_writes (p := q) (Or.inr (Or.inl hw)) q.built
    exact Or.inr ⟨rfl, fun P hP => by rw [← hsubs] at hP; exact hP⟩
  | stage k =>
    obtain ⟨hlt, h⟩ := Option.ite_none_right_eq_some.mp h
    obtain ⟨⟨inp, out, s⟩, hst, rfl⟩ := Option.map_eq_some_iff.mp h
    obtain ⟨_, hwrites⟩ := Stage.step_sides hst
    have hwrites' : Writes cfg ((q.setRing k inp).rings (k + 1)) out := by
      rw [setRing_ne q inp (Nat.succ_ne_self k)]
      exact hwrites
    have hsubs : (((q.setRing k inp).setRing (k + 1) out).rings q.built).subs = (q.rings q.built).subs := by
      rw [subs_of_writes hwrites', setRing_ne q inp (Nat.ne_of_gt hlt)]
    exact Or.inr ⟨rfl, fun P hP => by rw [← hsubs] at hP; exact hP⟩
  | panic k =>
    obtain ⟨_, h⟩ := Option.ite_none_right_eq_some.mp h
    obtain ⟨s, _, rfl⟩ := Option.map_eq_some_iff.mp h
    exact Or.inr ⟨rfl, fun P hP => hP⟩
  | _ => cases ha

/-- The last ring has been read from by somebody other than its first subscriber. -/
theorem Flowing.beside {w : World (size q.built)} (h : Flowing cfg f q) (hw : Reach cfg w)
    (hring : w.ring = (q.rings q.built).ring) (hpub : w.publisher = (q.rings q.built).publisher)
    (hsub : w.subs 0 = (q.rings q.built).subs 0) : Flowing cfg f (q.setRing q.built w) := by
  have hsame (k : Nat) : ((q.setRing q.built w).rings k).ring = (q.rings k).ring ∧
      ((q.setRing q.built w).rings k).publisher = (q.rings k).publisher ∧
      ((q.setRing q.built w).rings k).subs 0 = (q.rings k).subs 0 := by
    by_cases hk : k = q.built
    · subst hk
      rw [setRing_self]
      exact ⟨hring, hpub, hsub⟩
    · rw [setRing_ne q w hk]
      exact ⟨rfl, rfl, rfl⟩
  refine ⟨reach_setRing h.reach hw, fun k hlt => ?_, ?_, ?_, fun hf => ?_⟩
  · rw [(hsame k).2.2, (hsame (k + 1)).1, (hsame (k + 1)).2.1]
    exact h.linked k hlt
  · exact (congrArg Subscriber.start (hsame q.built).2.2).trans h.start
  · change Created (Reader.stage (((q.setRing q.built w).rings q.built).subs 0).pc)
    rw [(hsame q.built).2.2]
    exact h.created
  · exact (hsame q.built).2.2.trans (h.unused hf)

theorem Flowing.close (h : Flowing cfg f q) (shutdown : Bool) :
    Flowing cfg f { q with finished := true, shutdown := shutdown } :=
  ⟨h.reach, h.linked, h.start, h.created, nofun⟩

/-! ## The subscribers of the source -/

/-- A branch whose stage runs is linked to its output, and one whose stage does not has its
subscriber as it was made. -/
def ReaderOk (g : (x : Branch) → (k : Nat) → Value (size k) → Value (width x)) (p : FanOut size width) (x : Branch)
    (k : Nat) (subs : Nat → Subscriber (size k)) : Prop :=
  if p.pc.runs x then
    Linked (g x k) (subs x.reader) (p.outs x).publisher (p.outs x).ring.log (p.stages x k).pc
  else subs x.reader = (opened (size k)).subs 0

def SourceOk (g : (x : Branch) → (k : Nat) → Value (size k) → Value (width x)) (p : FanOut size width) (k : Nat)
    (subs : Nat → Subscriber (size k)) : Prop :=
  match p.pc with
  | .linear => subs 0 = (opened (size k)).subs 0 ∧ subs 1 = Subscriber.absent (size k)
  | .subscribe => subs 0 = (opened (size k)).subs 0 ∧
      subs 1 = { Subscriber.absent (size k) with pc := .loadHead .subscribe }
  | _ => ∀ x, ReaderOk g p x k subs

structure Fanned (cfg : Config) (f : (k : Nat) → Value (size k) → Value (size (k + 1)))
    (g : (x : Branch) → (k : Nat) → Value (size k) → Value (width x)) (p : FanOut size width) : Prop where
  flowing : Flowing cfg f p.base
  closed : p.base.finished = decide (p.pc ≠ .linear)
  readers : SourceOk g p p.base.built p.source.subs

theorem fanned_input (hk : cfg.kind = .lossy) : Fanned cfg f g (FanOut.input size width) where
  flowing := flowing_input hk
  closed := rfl
  readers := ⟨rfl, rfl⟩

/-- After `fan_out` has subscribed, the two readers are all there is to say. -/
theorem sourceOk_iff {k : Nat} {subs : Nat → Subscriber (size k)} (h1 : p.pc ≠ .linear) (h2 : p.pc ≠ .subscribe) :
    SourceOk g p k subs ↔ ∀ x, ReaderOk g p x k subs := by
  unfold SourceOk
  split
  · exact absurd ‹_› h1
  · exact absurd ‹_› h2
  · exact Iff.rfl

theorem runs_ne {pc : FanOutPc} {x : Branch} (h : pc.runs x = true) : pc ≠ .linear ∧ pc ≠ .subscribe := by
  constructor <;> rintro rfl <;> cases h

/-- The part of the pipeline before the source moves. -/
theorem Fanned.upstream {a : PipelineAct size} (hk : cfg.kind = .lossy) (h : Fanned cfg f g p)
    (ha : Upstream a = true) (hs : p.base.step cfg f a = some q) : Fanned cfg f g { p with base := q } := by
  have hflow := step_flowing hk hs h.flowing
  rcases upstream_step hs ha with ⟨hopen, rfl⟩ | ⟨hfin, hlast⟩
  · have hpc : p.pc = .linear := by
      have hclosed := h.closed
      rw [hopen] at hclosed
      exact not_not.mp (of_decide_eq_false hclosed.symm)
    refine ⟨hflow, h.closed, ?_⟩
    have hself : p.base.addStage.rings (p.base.built + 1) = opened (size (p.base.built + 1)) := setRing_self ..
    unfold SourceOk FanOut.source
    rw [hpc]
    change (p.base.addStage.rings (p.base.built + 1)).subs 0 = _ ∧ (p.base.addStage.rings (p.base.built + 1)).subs 1 = _
    rw [hself]
    exact ⟨rfl, rfl⟩
  · exact ⟨hflow, hfin.trans h.closed, hlast (SourceOk g p) h.readers⟩

theorem Fanned.subs_linear (h : Fanned cfg f g p) (hpc : p.pc = .linear) :
    p.source.subs 0 = (opened (size p.base.built)).subs 0 ∧ p.source.subs 1 = Subscriber.absent _ := by
  have hr := h.readers
  unfold SourceOk at hr
  rw [hpc] at hr
  exact hr

theorem Fanned.subs_subscribe (h : Fanned cfg f g p) (hpc : p.pc = .subscribe) :
    p.source.subs 0 = (opened (size p.base.built)).subs 0 ∧
      p.source.subs 1 = { Subscriber.absent _ with pc := .loadHead .subscribe } := by
  have hr := h.readers
  unfold SourceOk at hr
  rw [hpc] at hr
  exact hr

/-- `fan_out` calls `subscribe`. -/
theorem Fanned.fanOut {w : World (size p.base.built)} (hk : cfg.kind = .lossy) (h : Fanned cfg f g p)
    (hpc : p.pc = .linear) (hw : World.step cfg p.source (.subscribe 1 .subscribe) = some w) :
    Fanned cfg f g { p with base := { p.base.setRing p.base.built w with finished := true }, pc := .subscribe } := by
  obtain ⟨h0, h1⟩ := h.subs_linear hpc
  have hreach : Reach cfg w := (h.flowing.reach _ (Nat.le_refl _)).next hw
  simp only [World.step, h1, Subscriber.subscribe, Subscriber.absent, hk, Option.map_some, Option.some.injEq] at hw
  subst hw
  have hsub : (p.source.setSub 1 { Subscriber.absent (size p.base.built) with pc := .loadHead .subscribe }).subs 0 =
      p.source.subs 0 := setSub_ne _ _ (by decide)
  refine ⟨(h.flowing.beside hreach rfl rfl hsub).close _, rfl, ?_⟩
  unfold SourceOk FanOut.source
  change ((p.base.setRing p.base.built _).rings p.base.built).subs 0 = _ ∧
    ((p.base.setRing p.base.built _).rings p.base.built).subs 1 = _
  rw [setRing_self]
  exact ⟨hsub.trans h0, setSub_self ..⟩

/-- `subscribe` loads the head of a source on which nothing has been published. -/
theorem Fanned.subscribe {w : World (size p.base.built)} (hk : cfg.kind = .lossy) (h : Fanned cfg f g p)
    (hpc : p.pc = .subscribe) (hempty : p.source.ring.cursor = u64Max)
    (hw : World.step cfg p.source (.sub 1) = some w) : Fanned cfg f g { p.setSource w with pc := .spawnA } := by
  obtain ⟨h0, h1⟩ := h.subs_subscribe hpc
  have hreach : Reach cfg w := (h.flowing.reach _ (Nat.le_refl _)).next hw
  have hclosed : p.base.finished = true := by
    rw [h.closed, hpc]
    rfl
  simp only [World.step, h1, Subscriber.step, hk, hempty, Option.map_some, Option.some.injEq] at hw
  subst hw
  have hsub : ({ p.source with trackers := p.source.trackers }.setSub 1 ((opened (size p.base.built)).subs 0)).subs 0 =
      p.source.subs 0 := setSub_ne _ _ (by decide)
  refine ⟨h.flowing.beside hreach rfl rfl hsub, hclosed, ?_⟩
  refine (sourceOk_iff (show FanOutPc.spawnA ≠ .linear by decide) (show FanOutPc.spawnA ≠ .subscribe by decide)).mpr
    fun x => ?_
  change ((p.base.setRing p.base.built _).rings p.base.built).subs x.reader = _
  rw [setRing_self]
  cases x with
  | a => exact hsub.trans h0
  | b => exact setSub_self ..

/-- The stage of a branch is spawned. -/
theorem Fanned.spawn {x : Branch} {old new : FanOutPc} (h : Fanned cfg f g p) (hpc : p.pc = old) (h1 : old ≠ .linear)
    (h2 : old ≠ .subscribe) (h1' : new ≠ .linear) (h2' : new ≠ .subscribe) (hnew : old.runs x = false)
    (hruns : ∀ y, new.runs y = (old.runs y || decide (y = x))) : Fanned cfg f g (p.addStage x new) := by
  subst hpc
  have hreaders := (sourceOk_iff h1 h2).mp h.readers
  refine ⟨h.flowing, ?_, (sourceOk_iff h1' h2').mpr fun y => ?_⟩
  · change p.base.finished = decide (new ≠ .linear)
    rw [h.closed, decide_eq_true h1, decide_eq_true h1']
  · have hy := hreaders y
    unfold ReaderOk at hy ⊢
    change if new.runs y then Linked (g y p.base.built) (p.source.subs y.reader)
      (Function.update p.outs x (opened _) y).publisher (Function.update p.outs x (opened _) y).ring.log
      (Function.update p.stages x (Function.update (p.stages x) p.base.built (Stage.spawn _)) y p.base.built).pc else _
    rw [hruns y]
    by_cases hxy : y = x
    · subst hxy
      rw [hnew] at hy
      rw [hnew, decide_eq_true rfl, Function.update_self, Function.update_self, Function.update_self]
      exact linked_spawn hy
    · rw [decide_eq_false hxy, Bool.or_false, Function.update_of_ne hxy, Function.update_of_ne hxy]
      exact hy

/-- A step of a branch's stage. -/
theorem Fanned.stage {x : Branch} {inp : World (size p.base.built)} {out : World (width x)}
    {s : Stage (size p.base.built)} (hk : cfg.kind = .lossy) (h : Fanned cfg f g p) (hruns : p.pc.runs x = true)
    (hs : (p.stages x p.base.built).step cfg (g x p.base.built) p.base.shutdown x.reader p.source (p.outs x) =
      some (inp, out, s)) : Fanned cfg f g (((p.setSource inp).setOut x out).setStage x s) := by
  obtain ⟨h1, h2⟩ := runs_ne hruns
  have hreaders := (sourceOk_iff h1 h2).mp h.readers
  have hclosed : p.base.finished = true := h.closed.trans (decide_eq_true h1)
  obtain ⟨hreads, _⟩ := Stage.step_sides hs
  have hflow : Flowing cfg f (p.base.setRing p.base.built inp) := by
    cases x with
    | a => exact h.flowing.read hclosed hreads
    | b =>
      exact h.flowing.beside (hreads.reach (h.flowing.reach _ (Nat.le_refl _))) hreads.same.1 hreads.same.2
        (hreads.others (by decide))
  refine ⟨hflow, h.closed, (sourceOk_iff (p := ((p.setSource inp).setOut x out).setStage x s) h1 h2).mpr fun y => ?_⟩
  have hy := hreaders y
  unfold ReaderOk at hy ⊢
  change if p.pc.runs y then Linked (g y p.base.built)
    (((p.base.setRing p.base.built inp).rings p.base.built).subs y.reader)
    (Function.update p.outs x out y).publisher (Function.update p.outs x out y).ring.log
    (Function.update p.stages x (Function.update (p.stages x) p.base.built s) y p.base.built).pc
    else ((p.base.setRing p.base.built inp).rings p.base.built).subs y.reader = _
  rw [setRing_self]
  by_cases hxy : y = x
  · subst hxy
    rw [hruns] at hy ⊢
    rw [Function.update_self, Function.update_self, Function.update_self]
    exact Stage.step_linked hk hs hy
  · have hne : y.reader ≠ x.reader := by
      cases x <;> cases y <;> first | exact absurd rfl hxy | decide
    rw [Function.update_of_ne hxy, Function.update_of_ne hxy, hreads.others hne]
    exact hy

/-- A branch's stage or output has moved, apart from its rings' publishers and readers. -/
theorem Fanned.branch {p' : FanOut size width} {x : Branch} (h : Fanned cfg f g p) (hruns : p.pc.runs x = true)
    (hbase : p'.base = p.base) (hpc : p'.pc = p.pc) (hothers : ∀ y, y ≠ x → p'.outs y = p.outs y ∧
      p'.stages y = p.stages y)
    (hlink : ∀ u, Linked (g x p.base.built) u (p.outs x).publisher (p.outs x).ring.log (p.stages x p.base.built).pc →
      Linked (g x p.base.built) u (p'.outs x).publisher (p'.outs x).ring.log (p'.stages x p.base.built).pc) :
    Fanned cfg f g p' := by
  obtain ⟨base, pc, outs, stages⟩ := p'
  obtain rfl : base = p.base := hbase
  obtain rfl : pc = p.pc := hpc
  obtain ⟨h1, h2⟩ := runs_ne hruns
  have hreaders := (sourceOk_iff h1 h2).mp h.readers
  refine ⟨h.flowing, h.closed, (sourceOk_iff (p := ⟨p.base, p.pc, outs, stages⟩) h1 h2).mpr fun y => ?_⟩
  have hy := hreaders y
  unfold ReaderOk at hy ⊢
  by_cases hxy : y = x
  · subst hxy
    rw [hruns] at hy ⊢
    exact hlink _ hy
  · rw [(hothers y hxy).1, (hothers y hxy).2]
    exact hy

theorem Fanned.panic {x : Branch} {s : Stage (size p.base.built)} (h : Fanned cfg f g p) (hruns : p.pc.runs x = true)
    (hs : (p.stages x p.base.built).panic = some s) : Fanned cfg f g (p.setStage x s) := by
  refine h.branch hruns rfl rfl (fun y hy => ⟨rfl, Function.update_of_ne hy ..⟩) fun u hu => ?_
  change Linked _ u _ _ (Function.update p.stages x (Function.update (p.stages x) p.base.built s) x p.base.built).pc
  rw [Function.update_self, Function.update_self]
  exact Stage.panic_linked hs hu

theorem Fanned.output {x : Branch} {w : World (width x)} (h : Fanned cfg f g p) (hruns : p.pc.runs x = true)
    (hw : Reads cfg 0 (p.outs x) w) : Fanned cfg f g (p.setOut x w) := by
  refine h.branch hruns rfl rfl (fun y hy => ⟨Function.update_of_ne hy .., rfl⟩) fun u hu => ?_
  change Linked _ u (Function.update p.outs x w x).publisher (Function.update p.outs x w x).ring.log _
  rw [Function.update_self, hw.same.1, hw.same.2]
  exact hu

/-- The builder is done. -/
theorem Fanned.built (h : Fanned cfg f g p) (hpc : p.pc = .spawned) : Fanned cfg f g { p with pc := .finished } := by
  have h1 : p.pc ≠ .linear := by
    rw [hpc]
    decide
  have h2 : p.pc ≠ .subscribe := by
    rw [hpc]
    decide
  refine ⟨h.flowing, h.closed.trans (decide_eq_true h1), ?_⟩
  apply (sourceOk_iff (show FanOutPc.finished ≠ .linear by decide) (show FanOutPc.finished ≠ .subscribe by decide)).mpr
  intro x
  have hx := (sourceOk_iff h1 h2).mp h.readers x
  unfold ReaderOk at hx ⊢
  rw [hpc] at hx
  exact hx

theorem emptyStep_fanned (hk : cfg.kind = .lossy) {a : FanOutAct size} (hs : p.emptyStep cfg f g a = some p')
    (h : Fanned cfg f g p) : Fanned cfg f g p' := by
  obtain ⟨hempty, hs⟩ := Option.ite_none_right_eq_some.mp hs
  cases a with
  | upstream a =>
    obtain ⟨ha, hs⟩ := Option.ite_none_right_eq_some.mp hs
    obtain ⟨q, hq, rfl⟩ := Option.map_eq_some_iff.mp hs
    exact h.upstream hk ha hq
  | fanOut =>
    obtain ⟨hpc, hs⟩ := Option.ite_none_right_eq_some.mp hs
    obtain ⟨w, hw, rfl⟩ := Option.map_eq_some_iff.mp hs
    exact h.fanOut hk hpc hw
  | subscribe =>
    obtain ⟨hpc, hs⟩ := Option.ite_none_right_eq_some.mp hs
    obtain ⟨w, hw, rfl⟩ := Option.map_eq_some_iff.mp hs
    exact h.subscribe hk hpc (of_decide_eq_true hempty) hw
  | spawn x =>
    cases x with
    | a =>
      obtain ⟨hpc, hs⟩ := Option.ite_none_right_eq_some.mp hs
      cases hs
      exact h.spawn hpc (by decide) (by decide) (by decide) (by decide) rfl (by rintro ⟨⟩ <;> rfl)
    | b =>
      obtain ⟨hpc, hs⟩ := Option.ite_none_right_eq_some.mp hs
      cases hs
      exact h.spawn hpc (by decide) (by decide) (by decide) (by decide) rfl (by rintro ⟨⟩ <;> rfl)
  | stage x =>
    obtain ⟨hruns, hs⟩ := Option.ite_none_right_eq_some.mp hs
    obtain ⟨⟨inp, out, s⟩, hst, rfl⟩ := Option.map_eq_some_iff.mp hs
    exact h.stage hk hruns hst
  | panic x =>
    obtain ⟨hruns, hs⟩ := Option.ite_none_right_eq_some.mp hs
    obtain ⟨s, hst, rfl⟩ := Option.map_eq_some_iff.mp hs
    exact h.panic hruns hst
  | outputCall x c =>
    obtain ⟨hruns, hs⟩ := Option.ite_none_right_eq_some.mp hs
    obtain ⟨w, hw, rfl⟩ := Option.map_eq_some_iff.mp hs
    exact h.output hruns (Or.inr (Or.inr ⟨c, hw⟩))
  | output x =>
    obtain ⟨hruns, hs⟩ := Option.ite_none_right_eq_some.mp hs
    obtain ⟨w, hw, rfl⟩ := Option.map_eq_some_iff.mp hs
    exact h.output hruns (Or.inr (Or.inl hw))
  | build =>
    obtain ⟨hpc, hs⟩ := Option.ite_none_right_eq_some.mp hs
    cases hs
    exact h.built hpc
  | shutdown =>
    obtain ⟨_, hs⟩ := Option.ite_none_right_eq_some.mp hs
    cases hs
    exact ⟨⟨h.flowing.reach, h.flowing.linked, h.flowing.start, h.flowing.created, h.flowing.unused⟩, h.closed,
      h.readers⟩

theorem reach_fanned (hk : cfg.kind = .lossy)
    (h : Reachable (FanOut.emptyStep cfg f g) (FanOut.input size width) p) : Fanned cfg f g p :=
  h.invariant (fanned_input hk) (fun _ _ _ _ hs hp => emptyStep_fanned hk hs hp)

/-! ## One stream -/

/-- Both readers of the source start at its first message, and nobody calls `latest`. -/
theorem Fanned.reader (h : Fanned cfg f g p) (x : Branch) :
    (p.source.subs x.reader).latestUsed = false ∧ (p.source.subs x.reader).start = 0 := by
  by_cases h1 : p.pc = .linear
  · obtain ⟨ha, hb⟩ := h.subs_linear h1
    cases x with
    | a => rw [Branch.reader, ha]; exact ⟨rfl, rfl⟩
    | b => rw [Branch.reader, hb]; exact ⟨rfl, rfl⟩
  · by_cases h2 : p.pc = .subscribe
    · obtain ⟨ha, hb⟩ := h.subs_subscribe h2
      cases x with
      | a => rw [Branch.reader, ha]; exact ⟨rfl, rfl⟩
      | b => rw [Branch.reader, hb]; exact ⟨rfl, rfl⟩
    · have hx := (sourceOk_iff h1 h2).mp h.readers x
      unfold ReaderOk at hx
      split at hx
      · exact ⟨hx.latest, hx.start⟩
      · rw [hx]
        exact ⟨rfl, rfl⟩

/-- In every interleaving of the input publisher, the builder, the stages and the readers of
the outputs in which `fan_out` finds nothing published on its source ring: as long as neither
branch has counted a loss, both have consumed a first part of the stream of that ring. -/
theorem fan_out_same_stream (hk : cfg.kind = .lossy)
    (h : Reachable (FanOut.emptyStep cfg f g) (FanOut.input size width) p)
    (hl : messages (p.base.rings 0) < seqLimit) (hlost : ∀ x : Branch, (p.source.subs x.reader).totalLagged = 0) :
    (∀ x, p.consumed x <+: p.source.ring.log.map bytesOf) ∧
      (p.consumed .a <+: p.consumed .b ∨ p.consumed .b <+: p.consumed .a) := by
  have hfanned := reach_fanned hk h
  have hsane := reach_sane (hfanned.flowing.reach _ (Nat.le_refl _)) (hfanned.flowing.messages_lt hl (Nat.le_refl _))
  have hpart : ∀ x, p.consumed x <+: p.source.ring.log.map bytesOf := by
    intro x
    obtain ⟨hlat, hstart⟩ := hfanned.reader x
    exact receivedBufs_prefix (hsane.readers x.reader) hlat hstart (hlost x)
  exact ⟨hpart, List.prefix_or_prefix_of_prefix (hpart .a) (hpart .b)⟩

/-- Branches that pass single bytes on. -/
def oneWide (_ : Branch) : Nat := 1

def passOn (x : Branch) (k : Nat) (v : Value (oneByte k)) : Value (oneWide x) := v

/-- The first byte of every message that a branch has consumed. -/
def firstBytes (p : FanOut oneByte oneWide) (x : Branch) : List (Option UInt8) :=
  (p.consumed x).map fun buf => buf ⟨0, Nat.one_pos⟩

/-- Two branches behind a stage that has an input already when they are made. -/
theorem fan_out_same_stream_then : ∃ p : FanOut oneByte oneWide,
    Reachable (FanOut.emptyStep Config.smallLossy increment passOn) (FanOut.input oneByte oneWide) p ∧
      p.base.built = 1 ∧ firstBytes p .a = [some 8, some 9] ∧ firstBytes p .b = [some 8] ∧
      (p.consumed .a <+: p.consumed .b ∨ p.consumed .b <+: p.consumed .a) := by
  obtain ⟨p, hr, hp⟩ := Reachable.of_run_any (FanOut.emptyStep Config.smallLossy increment passOn)
    (FanOut.input oneByte oneWide)
    (fun p => decide (messages (p.base.rings 0) < seqLimit ∧ (p.source.subs 0).totalLagged = 0 ∧
      (p.source.subs 1).totalLagged = 0 ∧ p.base.built = 1 ∧ firstBytes p .a = [some 8, some 9] ∧
      firstBytes p .b = [some 8]))
    (List.flatten [[.upstream (.inputCall (.publish fun _ => 7))], List.replicate 5 (.upstream .input),
      [.upstream .thenWith, .fanOut, .subscribe, .spawn .a, .spawn .b], List.replicate 11 (.upstream (.stage 0)),
      List.replicate 11 (.stage .a), [.upstream (.inputCall (.publish fun _ => 8))],
      List.replicate 5 (.upstream .input), List.replicate 11 (.upstream (.stage 0)), [.build],
      List.replicate 5 (.stage .b), List.replicate 11 (.stage .a), [.outputCall .a .tryRecv],
      List.replicate 4 (.output .a)]) (by decide +kernel)
  obtain ⟨hl, h0, h1, hbuilt, ha, hb⟩ := of_decide_eq_true hp
  refine ⟨p, hr, hbuilt, ha, hb, (fan_out_same_stream rfl hr hl fun x => ?_).2⟩
  cases x with
  | a => exact h0
  | b => exact h1

/-- A message published on the input before `fan_out` is called. Branch A consumes it, and
branch B starts with the next one. -/
theorem fan_out_misses_first : ∃ p : FanOut oneByte oneWide,
    Reachable (FanOut.step Config.smallLossy increment passOn) (FanOut.input oneByte oneWide) p ∧
      (∀ x : Branch, (p.source.subs x.reader).totalLagged = 0 ∧ ((p.outs x).subs 0).totalLagged = 0) ∧
      firstBytes p .a = [some 7] ∧ firstBytes p .b = [some 8] ∧
      ¬ p.consumed .a <+: p.consumed .b ∧ ¬ p.consumed .b <+: p.consumed .a := by
  obtain ⟨p, hr, hp⟩ := Reachable.of_run_any (FanOut.step Config.smallLossy increment passOn)
    (FanOut.input oneByte oneWide)
    (fun p => decide ((p.source.subs 0).totalLagged = 0 ∧ (p.source.subs 1).totalLagged = 0 ∧
      ((p.outs .a).subs 0).totalLagged = 0 ∧ ((p.outs .b).subs 0).totalLagged = 0 ∧
      firstBytes p .a = [some 7] ∧ firstBytes p .b = [some 8]))
    (List.flatten [[.upstream (.inputCall (.publish fun _ => 7))], List.replicate 5 (.upstream .input),
      [.fanOut, .subscribe, .spawn .a, .spawn .b, .build, .upstream (.inputCall (.publish fun _ => 8))],
      List.replicate 5 (.upstream .input), List.replicate 5 (.stage .a), List.replicate 5 (.stage .b)])
    (by decide +kernel)
  obtain ⟨h0, h1, h2, h3, ha, hb⟩ := of_decide_eq_true hp
  refine ⟨p, hr, fun x => ?_, ha, hb, fun hpre => ?_, fun hpre => ?_⟩
  · cases x with
    | a => exact ⟨h0, h2⟩
    | b => exact ⟨h1, h3⟩
  · have hbytes : firstBytes p .a <+: firstBytes p .b := hpre.map _
    rw [ha, hb] at hbytes
    exact absurd hbytes (by decide)
  · have hbytes : firstBytes p .b <+: firstBytes p .a := hpre.map _
    rw [ha, hb] at hbytes
    exact absurd hbytes (by decide)

end PhotonRing.Topology
