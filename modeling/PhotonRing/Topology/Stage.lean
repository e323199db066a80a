import PhotonRing.Channel.Delivery

/-!
# Pipeline stages

The thread of `spawn_stage`. It loads the shutdown flag, receives from the ring before it,
applies its function and publishes the result to the ring after it. Both rings are
channels of their own, so a step of the stage that accesses one of them is a step of that
channel. The function may panic whenever it is called.
-/
namespace PhotonRing.Topology

open Lib World Reader

/-- The constants a stage stores into its status cell. -/
inductive Status where
  | running
  | completed
  | panicked
  deriving DecidableEq, Repr

/-- Where a stage thread stands. -/
inductive StagePc (n : Nat) where
  | loadShutdown
  | tryRecv
  | apply (value : Value n)
  | publish
  | storeStatus (status : Status)
  | ended

/-- A stage thread. `iter` counts the empty polls since the last message for the wait
strategy, which accesses no shared memory. -/
structure Stage (n : Nat) where
  pc : StagePc n
  iter : Nat
  status : Status

variable {n m : Nat} {cfg : Config}

/-- The value in a buffer that a receive returned. -/
def valueOf (buf : Buf n) : Value n := fun j => (buf j).getD 0

/-- The result of a `try_recv` that is over. -/
def returned (s : Subscriber n) : Option (Recv n) :=
  match s.pc, s.last with
  | .idle, some (.recv r) => some r
  | _, _ => none

namespace Stage

/-- `spawn_stage`. -/
def spawn (n : Nat) : Stage n := ⟨.loadShutdown, 0, .running⟩

/-- `input.try_recv()` has returned. -/
def onRecv (s : Stage n) : Recv n → Stage n
  | .ok buf => { s with pc := .apply (valueOf buf) }
  | .empty => { s with pc := .loadShutdown, iter := satSucc s.iter }
  | .lagged _ => { s with pc := .loadShutdown, iter := 0 }

/-- One step of the stage that reads subscriber `i` of `inp` and publishes to `out`. -/
def step (cfg : Config) (f : Value n → Value m) (shutdown : Bool) (i : Nat) (inp : World n) (out : World m)
    (s : Stage n) : Option (World n × World m × Stage n) :=
  match s.pc with
  | .loadShutdown =>
    if shutdown then some (inp, out, { s with pc := .storeStatus .completed })
    else (World.step cfg inp (.subCall i .tryRecv)).map fun inp' => (inp', out, { s with pc := .tryRecv })
  | .tryRecv =>
    (World.step cfg inp (.sub i)).map fun inp' =>
      match returned (inp'.subs i) with
      | some r => (inp', out, s.onRecv r)
      | none => (inp', out, s)
  | .apply v =>
    (World.step cfg out (.pubCall (.publish (f v)))).map fun out' => (inp, out', { s with pc := .publish })
  | .publish =>
    (World.step cfg out .pub).map fun out' =>
      match out'.publisher.pc with
      | .idle => (inp, out', { s with pc := .loadShutdown, iter := 0 })
      | _ => (inp, out', s)
  | .storeStatus status => some (inp, out, { s with pc := .ended, status := status })
  | .ended => none

/-- The function panics, and `catch_unwind` ends the loop. -/
def panic (s : Stage n) : Option (Stage n) :=
  match s.pc with
  | .apply _ => some { s with pc := .storeStatus .panicked }
  | _ => none

end Stage

/-! ## What a stage does to its rings -/

/-- A step of a channel by its subscriber `i`, or none. -/
def Reads (cfg : Config) (i : Nat) (w w' : World n) : Prop :=
  w' = w ∨ World.step cfg w (.sub i) = some w' ∨ ∃ c, World.step cfg w (.subCall i c) = some w'

/-- A step of a channel by its publisher, or none. -/
def Writes (cfg : Config) (w w' : World n) : Prop :=
  w' = w ∨ World.step cfg w .pub = some w' ∨ ∃ c, World.step cfg w (.pubCall c) = some w'

section Sides

variable {w w' : World n} {i : Nat}

theorem Reads.reach (h : Reads cfg i w w') (hw : Reach cfg w) : Reach cfg w' := by
  rcases h with rfl | h | ⟨c, h⟩
  · exact hw
  · exact hw.next h
  · exact hw.next h

theorem Writes.reach (h : Writes cfg w w') (hw : Reach cfg w) : Reach cfg w' := by
  rcases h with rfl | h | ⟨c, h⟩
  · exact hw
  · exact hw.next h
  · exact hw.next h

/-- A subscriber does not touch the publisher's side. -/
theorem Reads.same (h : Reads cfg i w w') : w'.ring = w.ring ∧ w'.publisher = w.publisher := by
  rcases h with rfl | h | ⟨c, h⟩
  · exact ⟨rfl, rfl⟩
  · obtain ⟨x, _, rfl⟩ := Option.map_eq_some_iff.mp h
    exact ⟨rfl, rfl⟩
  · obtain ⟨x, _, rfl⟩ := Option.map_eq_some_iff.mp h
    exact ⟨rfl, rfl⟩

/-- The publisher does not touch any subscriber. -/
theorem Writes.same (h : Writes cfg w w') : w'.subs = w.subs := by
  rcases h with rfl | h | ⟨c, h⟩
  · rfl
  · obtain ⟨x, _, rfl⟩ := Option.map_eq_some_iff.mp h
    rfl
  · simp only [World.step] at h
    obtain ⟨_, h⟩ := Option.ite_none_left_eq_some.mp h
    obtain ⟨x, _, rfl⟩ := Option.map_eq_some_iff.mp h
    rfl

/-- A subscriber keeps its start position. -/
theorem Reads.created (h : Reads cfg i w w') (hc : Created (stage (w.subs i).pc)) :
    Created (stage (w'.subs i).pc) ∧ (w'.subs i).start = (w.subs i).start := by
  have hstep {a : Act n} (ha : World.step cfg w a = some w') :
      Created (stage (w'.subs i).pc) ∧ (w'.subs i).start = (w.subs i).start := by
    rcases step_reader ha i with he | hch
    · rw [he]
      exact ⟨hc, rfl⟩
    · exact hch.created hc
  rcases h with rfl | h | ⟨c, h⟩
  · exact ⟨hc, rfl⟩
  · exact hstep h
  · exact hstep h

end Sides

variable {f : Value n → Value m} {shutdown : Bool} {i : Nat} {inp inp' : World n} {out out' : World m}
  {s s' : Stage n}

/-- A stage is a reader of the ring before it and the writer of the ring after it. -/
theorem Stage.step_sides (h : s.step cfg f shutdown i inp out = some (inp', out', s')) :
    Reads cfg i inp inp' ∧ Writes cfg out out' := by
  unfold Stage.step at h
  split at h
  · split at h
    · cases h
      exact ⟨Or.inl rfl, Or.inl rfl⟩
    · obtain ⟨w, hw, he⟩ := Option.map_eq_some_iff.mp h
      cases he
      exact ⟨Or.inr (Or.inr ⟨_, hw⟩), Or.inl rfl⟩
  · obtain ⟨w, hw, he⟩ := Option.map_eq_some_iff.mp h
    split at he <;> cases he <;> exact ⟨Or.inr (Or.inl hw), Or.inl rfl⟩
  · obtain ⟨w, hw, he⟩ := Option.map_eq_some_iff.mp h
    cases he
    exact ⟨Or.inl rfl, Or.inr (Or.inr ⟨_, hw⟩)⟩
  · obtain ⟨w, hw, he⟩ := Option.map_eq_some_iff.mp h
    split at he <;> cases he <;> exact ⟨Or.inl rfl, Or.inr (Or.inl hw)⟩
  · cases h
    exact ⟨Or.inl rfl, Or.inl rfl⟩
  · cases h

/-! ## The flow through a stage -/

/-- Inside `try_recv`. -/
def InTryRecv : SubPc n → Prop
  | .read .tryRecv _ => True
  | .head .tryRecv => True
  | .commit .tryRecv _ => True
  | _ => False

/-- The payloads in the result of a receive. -/
def payloads : Recv n → List (Buf n)
  | .ok buf => [buf]
  | _ => []

section TryRecv

variable {r : Ring n} {t t' : Trackers} {u u' : Subscriber n}

/-- A `try_recv` goes on, or it is over and what it returns is what the history has gained. -/
structure TryRecvStep (u u' : Subscriber n) : Prop where
  latestUsed : u'.latestUsed = u.latestUsed
  outcome : InTryRecv u'.pc ∧ u'.events = u.events ∨
    u'.pc = .idle ∧ ∃ res, u'.last = some (.recv res) ∧
      receivedBufs u'.events = receivedBufs u.events ++ payloads res

theorem TryRecvStep.goesOn {pc : SubPc n} {cursor : Nat} (hp : InTryRecv pc) :
    TryRecvStep u { u with cursor := cursor, pc := pc } := ⟨rfl, Or.inl ⟨hp, rfl⟩⟩

theorem TryRecvStep.empty : TryRecvStep u (u.resume .empty .tryRecv) :=
  ⟨rfl, Or.inr ⟨rfl, .empty, rfl, (List.append_nil _).symm⟩⟩

theorem onTryRead_tryRecv (res : TryRead n) : TryRecvStep u (u.onTryRead .tryRecv res) := by
  exact onTryRead_cases trivial (fun _ _ => .goesOn trivial) .empty (.goesOn trivial)

theorem onHead_tryRecv (head : Nat) : TryRecvStep u (u.onHead cfg .tryRecv head) := by
  exact Subscriber.onHead_cases .empty (fun _ _ _ => .goesOn trivial)

theorem onCommit_tryRecv (res : Recv n) : TryRecvStep u (u.onCommit .tryRecv res) := by
  cases res with
  | ok buf => exact ⟨rfl, Or.inr ⟨rfl, .ok buf, rfl, receivedBufs_append _ _⟩⟩
  | lagged skipped => exact ⟨rfl, Or.inr ⟨rfl, .lagged skipped, rfl, receivedBufs_append _ _⟩⟩
  | empty => exact .empty

theorem step_tryRecv (hp : InTryRecv u.pc) (h : u.step cfg r t i = some (t', u')) : TryRecvStep u u' := by
  unfold InTryRecv at hp
  split at hp
  · rename_i pc hpc
    simp only [Subscriber.step, hpc] at h
    split at h
    · cases h
      exact .goesOn trivial
    · cases h
      exact onTryRead_tryRecv _
  · rename_i hpc
    simp only [Subscriber.step, hpc] at h
    cases h
    exact onHead_tryRecv _
  · rename_i res hpc
    simp only [Subscriber.step, hpc] at h
    cases h
    exact onCommit_tryRecv res
  · exact hp.elim

end TryRecv

/-- What the stage, its input subscriber and its output publisher are doing, and the results
that are owed: those of received messages that are not in the output yet. -/
inductive Joint (f : Value n → Value m) (u : Subscriber n) (p : Publisher m) :
    StagePc n → List (Value m) → Prop where
  | loadShutdown : u.pc = .idle → p.pc = .idle → Joint f u p .loadShutdown []
  | tryRecv : InTryRecv u.pc → p.pc = .idle → Joint f u p .tryRecv []
  | apply {v : Value n} : u.pc = .idle → p.pc = .idle → Joint f u p (.apply v) [f v]
  | room {v : Value m} : u.pc = .idle → p.pc = .room (.publish v) → Joint f u p .publish [v]
  | write {v : Value m} {pc : WritePc} : u.pc = .idle → p.pc = .write v [] pc → Joint f u p .publish [v]
  | cursor : u.pc = .idle → p.pc = .cursor [] → Joint f u p .publish []
  | storeStatus {status : Status} {owed : List (Value m)} : Joint f u p (.storeStatus status) owed
  | ended {owed : List (Value m)} : Joint f u p .ended owed

/-- The output of a stage is the image of what it has received, up to what is owed. -/
structure Linked (f : Value n → Value m) (u : Subscriber n) (p : Publisher m) (log : List (Value m))
    (pc : StagePc n) : Prop where
  start : u.start = 0
  created : Created (stage u.pc)
  latest : u.latestUsed = false
  flow : ∃ owed, (receivedBufs u.events).map (fun buf => f (valueOf buf)) = log ++ owed ∧ Joint f u p pc owed

/-- The input's `try_recv` begins. -/
theorem Linked.call {log : List (Value m)} {p : Publisher m}
    (hl : Linked f (inp.subs i) p log .loadShutdown)
    (h : World.step cfg inp (.subCall i .tryRecv) = some inp') : Linked f (inp'.subs i) p log .tryRecv := by
  have hsub : Reads cfg i inp inp' := Or.inr (Or.inr ⟨_, h⟩)
  obtain ⟨hcreated, hstart⟩ := hsub.created hl.created
  obtain ⟨owed, hflow, hj⟩ := hl.flow
  cases hj with
  | loadShutdown hu hp =>
    simp only [World.step, Subscriber.call, hu] at h
    cases h
    rw [setSub_self] at hcreated hstart ⊢
    exact ⟨hstart.trans hl.start, hcreated, hl.latest, [], hflow, .tryRecv trivial hp⟩

/-- A step of the input's `try_recv`. -/
theorem Linked.receive {log : List (Value m)} {p : Publisher m}
    (hl : Linked f (inp.subs i) p log .tryRecv) (h : World.step cfg inp (.sub i) = some inp') :
    (returned (inp'.subs i) = none ∧ Linked f (inp'.subs i) p log .tryRecv) ∨
      ∃ res, returned (inp'.subs i) = some res ∧ Linked f (inp'.subs i) p log (s.onRecv res).pc := by
  have hsub : Reads cfg i inp inp' := Or.inr (Or.inl h)
  obtain ⟨hcreated, hstart⟩ := hsub.created hl.created
  obtain ⟨owed, hflow, hj⟩ := hl.flow
  cases hj with
  | tryRecv hu hp =>
    obtain ⟨⟨t, u⟩, hstep, rfl⟩ := Option.map_eq_some_iff.mp h
    rw [setSub_self] at hcreated hstart ⊢
    obtain ⟨hlat, hout⟩ := step_tryRecv hu hstep
    have hlat' := hlat.trans hl.latest
    rcases hout with ⟨hin, hev⟩ | ⟨hidle, res, hlast, hev⟩
    · refine Or.inl ⟨?_, hstart.trans hl.start, hcreated, hlat', [], by rw [hev]; exact hflow, .tryRecv hin hp⟩
      revert hin
      unfold returned
      cases u.pc <;> simp [InTryRecv]
    · refine Or.inr ⟨res, ?_, hstart.trans hl.start, hcreated, hlat', ?_⟩
      · simp only [returned, hidle, hlast]
      · rw [List.append_nil] at hflow
        rw [hev, List.map_append, hflow]
        cases res with
        | ok buf => exact ⟨_, rfl, .apply hidle hp⟩
        | empty => exact ⟨_, rfl, .loadShutdown hidle hp⟩
        | lagged skipped => exact ⟨_, rfl, .loadShutdown hidle hp⟩

/-- The output's `publish` begins. -/
theorem Linked.publish {v : Value n} (hl : Linked f (inp.subs i) out.publisher out.ring.log (.apply v))
    (h : World.step cfg out (.pubCall (.publish (f v))) = some out') :
    Linked f (inp.subs i) out'.publisher out'.ring.log .publish := by
  obtain ⟨owed, hflow, hj⟩ := hl.flow
  cases hj with
  | apply hu hp =>
    simp only [World.step, Publisher.call, hp] at h
    split at h
    · cases h
    · cases h
      exact ⟨hl.start, hl.created, hl.latest, _, hflow, .room hu rfl⟩

/-- A step of the output's `publish`. -/
theorem Linked.write (hk : cfg.kind = .lossy)
    (hl : Linked f (inp.subs i) out.publisher out.ring.log .publish)
    (h : World.step cfg out .pub = some out') :
    (out'.publisher.pc = .idle ∧ Linked f (inp.subs i) out'.publisher out'.ring.log .loadShutdown) ∨
      out'.publisher.pc ≠ .idle ∧ Linked f (inp.subs i) out'.publisher out'.ring.log .publish := by
  obtain ⟨owed, hflow, hj⟩ := hl.flow
  cases hj with
  | room hu hp =>
    simp only [World.step, Publisher.step, hp, hk] at h
    cases h
    exact Or.inr ⟨(fun hidle => by cases hidle), hl.start, hl.created, hl.latest, _, hflow, .write hu rfl⟩
  | @write v pc hu hp =>
    cases hnext : ((out.ring.slots (cfg.slot out.publisher.seq)).writeStep out.publisher.seq v pc).2 with
    | some pc' =>
      simp only [World.step, Publisher.step, hp, hnext] at h
      cases h
      exact Or.inr ⟨(fun hidle => by cases hidle), hl.start, hl.created, hl.latest, _, hflow, .write hu rfl⟩
    | none =>
      simp only [World.step, Publisher.step, hp, hnext] at h
      cases h
      refine Or.inr ⟨(fun hidle => by cases hidle), hl.start, hl.created, hl.latest, [], ?_, .cursor hu rfl⟩
      rw [List.append_nil]
      exact hflow
  | cursor hu hp =>
    simp only [World.step, Publisher.step, hp] at h
    cases h
    exact Or.inl ⟨rfl, hl.start, hl.created, hl.latest, [], hflow, .loadShutdown hu rfl⟩

/-- A stage that ends leaves its rings as they are. -/
theorem Linked.stop {u : Subscriber n} {p : Publisher m} {log : List (Value m)} {pc pc' : StagePc n}
    (hl : Linked f u p log pc) (hstop : ∀ owed, Joint f u p pc' owed) : Linked f u p log pc' := by
  obtain ⟨owed, hflow, _⟩ := hl.flow
  exact ⟨hl.start, hl.created, hl.latest, owed, hflow, hstop owed⟩

theorem Stage.step_linked (hk : cfg.kind = .lossy) (h : s.step cfg f shutdown i inp out = some (inp', out', s'))
    (hl : Linked f (inp.subs i) out.publisher out.ring.log s.pc) :
    Linked f (inp'.subs i) out'.publisher out'.ring.log s'.pc := by
  unfold Stage.step at h
  split at h
  · rename_i hpc
    rw [hpc] at hl
    split at h
    · cases h
      exact hl.stop fun _ => .storeStatus
    · obtain ⟨w, hw, he⟩ := Option.map_eq_some_iff.mp h
      cases he
      exact hl.call hw
  · rename_i hpc
    rw [hpc] at hl
    obtain ⟨w, hw, he⟩ := Option.map_eq_some_iff.mp h
    rcases hl.receive (s := s) hw with ⟨hnone, hl'⟩ | ⟨res, hsome, hl'⟩
    · rw [hnone] at he
      cases he
      rw [hpc]
      exact hl'
    · rw [hsome] at he
      cases he
      exact hl'
  · rename_i v hpc
    rw [hpc] at hl
    obtain ⟨w, hw, he⟩ := Option.map_eq_some_iff.mp h
    cases he
    exact hl.publish hw
  · rename_i hpc
    rw [hpc] at hl
    obtain ⟨w, hw, he⟩ := Option.map_eq_some_iff.mp h
    rcases hl.write hk hw with ⟨hidle, hl'⟩ | ⟨hbusy, hl'⟩
    · rw [hidle] at he
      cases he
      exact hl'
    · split at he
      · rename_i hidle
        exact absurd hidle hbusy
      · cases he
        rw [hpc]
        exact hl'
  · cases h
    exact hl.stop fun _ => .ended
  · cases h

theorem Stage.panic_linked {u : Subscriber n} {p : Publisher m} {log : List (Value m)} (h : s.panic = some s')
    (hl : Linked f u p log s.pc) : Linked f u p log s'.pc := by
  unfold Stage.panic at h
  split at h
  · cases h
    exact hl.stop fun _ => .storeStatus
  · cases h

end PhotonRing.Topology
