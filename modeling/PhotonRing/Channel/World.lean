import PhotonRing.Lib.Run
import PhotonRing.Channel.Publisher
import PhotonRing.Channel.MpPublisher
import PhotonRing.Channel.Subscriber

/-!
# A channel and all its handles

The state of a channel with its single publisher (lossy and bounded channels) or
its producer threads (MPMC), and its subscribers. There is no bound on how many
threads take part. Every label moves one thread by one access to shared memory,
so a list of labels is a sequentially consistent interleaving.
-/
namespace PhotonRing

open Lib

structure World (n : Nat) where
  ring : Ring n
  trackers : Trackers
  publisher : Publisher n
  producers : Nat → MpPc n
  subs : Nat → Subscriber n

/-- A label: a call that begins, a step of the call in progress, or what other
code may do to a subscriber's tracker and to a consumer's shutdown flag. -/
inductive Act (n : Nat) where
  | pubCall (c : PubCall n)
  | pub
  | mpCall (p : Nat) (c : MpCall n)
  | mp (p : Nat)
  | subscribe (i : Nat) (k : SubscribeKind)
  | subCall (i : Nat) (c : SubCall)
  | sub (i : Nat)
  | drop (i : Nat)
  | cloneTracker (i : Nat)
  | dropClone (i : Nat)
  | shutdown (i : Nat)

namespace World

variable {n : Nat}

def new (n : Nat) : World n where
  ring := Ring.new n
  trackers := Trackers.new
  publisher := Publisher.new n
  producers := fun _ => .idle
  subs := fun _ => Subscriber.absent n

def setSub (w : World n) (i : Nat) (s : Subscriber n) : World n :=
  { w with subs := Function.update w.subs i s }

def setProducer (w : World n) (p : Nat) (pc : MpPc n) : World n :=
  { w with producers := Function.update w.producers p pc }

/-- `Consumer::shutdown`. The history remembers what had been accepted by then. -/
def requestShutdown (r : Ring n) (s : Subscriber n) : Subscriber n :=
  { s with shutdown := true, owed := if s.shutdown then s.owed else r.returned }

def step (cfg : Config) (w : World n) : Act n → Option (World n)
  | .pubCall c =>
    if cfg.kind = .mpmc then none
    else (w.publisher.call c).map fun p => { w with publisher := p }
  | .pub =>
    (w.publisher.step cfg w.ring w.trackers).map fun (r, t, p) =>
      { w with ring := r, trackers := t, publisher := p }
  | .mpCall p c =>
    if cfg.kind = .mpmc then ((w.producers p).call c).map (w.setProducer p) else none
  | .mp p =>
    ((w.producers p).step cfg w.ring).map fun (r, pc) => { w with ring := r }.setProducer p pc
  | .subscribe i k => ((w.subs i).subscribe cfg k).map (w.setSub i)
  | .subCall i c => ((w.subs i).call c).map (w.setSub i)
  | .sub i =>
    ((w.subs i).step cfg w.ring w.trackers i).map fun (t, s) => { w with trackers := t }.setSub i s
  | .drop i => ((w.subs i).drop cfg).map (w.setSub i)
  | .cloneTracker i =>
    if (w.subs i).tracker ∧ 0 < w.trackers.strong i then
      some { w with trackers := { w.trackers with
        strong := Function.update w.trackers.strong i (w.trackers.strong i + 1) } }
    else none
  | .dropClone i =>
    if 1 < w.trackers.strong i ∨ ((w.subs i).pc matches .dropped ∧ 0 < w.trackers.strong i) then
      some { w with trackers := { w.trackers with
        strong := Function.update w.trackers.strong i (w.trackers.strong i - 1) } }
    else none
  | .shutdown i => some (w.setSub i (requestShutdown w.ring (w.subs i)))

/-- Asking a consumer to stop a second time changes nothing. -/
theorem shutdown_set {cfg : Config} {w : World n} {i : Nat} (h : (w.subs i).shutdown = true) :
    step cfg w (.shutdown i) = some w := by
  have hsame : requestShutdown w.ring (w.subs i) = w.subs i := by
    unfold requestShutdown
    rw [if_pos h, ← h]
  rw [step, hsame, setSub, Function.update_eq_self]

theorem shutdown_again {cfg : Config} {w w' : World n} {i : Nat} (h : step cfg w (.shutdown i) = some w') :
    step cfg w' (.shutdown i) = some w' := by
  cases h
  exact shutdown_set (by simp [setSub, requestShutdown])

/-- The states of a channel that some interleaving leads to. -/
abbrev Reach (cfg : Config) (w : World n) : Prop := Reachable (step cfg) (new n) w

end World

end PhotonRing
