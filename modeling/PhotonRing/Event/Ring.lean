import PhotonRing.Lib.Run
import PhotonRing.Ring

/-!
# The event ring

A ring whose slots own values of any type, which the publisher's closure mutates
in place and a subscriber's closure borrows. There is no stamp: the shared cursor
and the trackers are all that keeps the two apart. Closures are cut at every
access to the slot, and may end in a panic. A panic of the publisher's closure
leaves the slot as it was altered so far.
-/
namespace PhotonRing.Event

open Lib

/-- What `event_channel` is given and checks. -/
structure Config where
  capacity : Nat
  two_le : 2 ≤ capacity
  usize : capacity < 2 ^ 64

/-- `RingIndex::slot` at the ring's precomputed constants. -/
def Config.slot (cfg : Config) (seq : Nat) : Nat := (RingIndex.new cfg.capacity).slot seq

theorem Config.slot_eq (cfg : Config) {seq : Nat} (h : seq < 2 ^ 64) :
    cfg.slot seq = seq % cfg.capacity := RingIndex.slot_eq_mod cfg.two_le h

theorem Config.capacity_pos (cfg : Config) : 0 < cfg.capacity := by have := cfg.two_le; omega

/-- `EventRing` without its trackers. `log` is history: the value of every
published sequence, as the publisher's closure left it. -/
structure EventRing (τ : Type) where
  slots : Nat → τ
  cursor : Nat
  log : List τ

variable {τ : Type}

/-! ## The publisher -/

/-- A call of `publish` or `try_publish`: whether it waits for room, and the
mutations its closure makes before it returns or panics. -/
structure Call (τ : Type) where
  wait : Bool
  writes : List (τ → τ)
  panics : Bool

inductive PubResult where
  | published
  | full
  | panicked
  deriving DecidableEq, Repr

inductive PubPc (τ : Type) where
  | idle
  | room (c : Call τ)
  | lock (c : Call τ)
  | scan (c : Call τ) (todo kept : List Nat) (min : Nat) (any : Bool)
  | loadTracker (c : Call τ) (i : Nat) (todo kept : List Nat) (min : Nat) (any : Bool)
  | closure (writes : List (τ → τ)) (panics : Bool)
  | cursor

structure EventPublisher (τ : Type) where
  seq : Nat
  cachedSlowest : Nat
  pc : PubPc τ
  last : Option PubResult

namespace EventPublisher

def call (p : EventPublisher τ) (c : Call τ) : Option (EventPublisher τ) :=
  match p.pc with
  | .idle => some { p with pc := .room c }
  | _ => none

/-- `has_room` has returned true: `write` runs the closure. -/
def write (p : EventPublisher τ) (c : Call τ) : EventPublisher τ := { p with pc := .closure c.writes c.panics }

/-- `has_room` has returned false: `publish` spins, `try_publish` gives up. -/
def full (p : EventPublisher τ) (c : Call τ) : EventPublisher τ :=
  if c.wait then { p with pc := .room c } else { p with pc := .idle, last := some .full }

/-- One step of the call in progress. -/
def step (cfg : Config) (r : EventRing τ) (t : Trackers) (p : EventPublisher τ) :
    Option (EventRing τ × Trackers × EventPublisher τ) :=
  match p.pc with
  | .idle => none
  | .room c =>
    if u64 (p.cachedSlowest + cfg.capacity) ≤ p.seq then some (r, t, { p with pc := .lock c })
    else some (r, t, p.write c)
  | .lock c =>
    if t.locked then none
    else some (r, { t with locked := true }, { p with pc := .scan c t.registered [] u64Max false })
  | .scan c (i :: todo) kept min any =>
    if 0 < t.strong i then some (r, t, { p with pc := .loadTracker c i todo kept min any })
    else some (r, t, { p with pc := .scan c todo kept min any })
  | .scan c [] kept min any =>
    let t' := { t with locked := false, registered := kept }
    if any then
      let p' := { p with cachedSlowest := min }
      if u64 (min + cfg.capacity) ≤ p.seq then some (r, t', p'.full c) else some (r, t', p'.write c)
    else some (r, t', p.write c)
  | .loadTracker c i todo kept m _ =>
    some (r, t, { p with pc := .scan c todo (kept ++ [i]) (min m (t.value i)) true })
  | .closure (f :: fs) panics =>
    let idx := cfg.slot p.seq
    some ({ r with slots := Function.update r.slots idx (f (r.slots idx)) }, t,
      { p with pc := .closure fs panics })
  | .closure [] true => some (r, t, { p with pc := .idle, last := some .panicked })
  | .closure [] false => some (r, t, { p with pc := .cursor })
  | .cursor =>
    some ({ r with cursor := p.seq, log := r.log ++ [r.slots (cfg.slot p.seq)] }, t,
      { p with seq := u64 (p.seq + 1), pc := .idle, last := some .published })

end EventPublisher

/-! ## Subscribers -/

inductive SubPc where
  | absent
  | lock
  | loadHead
  | push (start : Nat)
  | idle
  | head (reads : Nat) (panics : Bool)
  | borrow (reads : Nat) (panics : Bool)
  | store
  | pending
  | dropped
  deriving DecidableEq, Repr

/-- What the last operation returned. -/
inductive SubResult where
  | nothing
  | processed
  | panicked
  | pending (count : Nat)
  deriving DecidableEq, Repr

/-- A subscriber and its thread. The last three fields are history: where it
started, every look a closure took at a value, and the sequences whose closure
returned. -/
structure EventSubscriber (τ : Type) where
  cursor : Nat
  pc : SubPc
  last : Option SubResult
  start : Nat
  seen : List (Nat × τ)
  processed : List Nat

/-- The operations on an idle subscriber. The closure of `process` looks at the
value `reads` times and then returns or panics. -/
inductive SubCall where
  | process (reads : Nat) (panics : Bool)
  | pending

/-- `EventSubscriber::pending` on a loaded head. -/
def pendingOf (head cursor : Nat) : Nat := if head = u64Max ∨ head < cursor then 0 else head - cursor + 1

namespace EventSubscriber

def absent (τ : Type) : EventSubscriber τ := ⟨0, .absent, none, 0, [], []⟩

def subscribe (s : EventSubscriber τ) : Option (EventSubscriber τ) :=
  match s.pc with
  | .absent => some { s with pc := .lock }
  | _ => none

def call (s : EventSubscriber τ) (c : SubCall) : Option (EventSubscriber τ) :=
  match s.pc, c with
  | .idle, .process reads panics => some { s with pc := .head reads panics }
  | .idle, .pending => some { s with pc := .pending }
  | _, _ => none

/-- One step of the operation that subscriber `i` is in. -/
def step (cfg : Config) (r : EventRing τ) (t : Trackers) (i : Nat) (s : EventSubscriber τ) :
    Option (Trackers × EventSubscriber τ) :=
  match s.pc with
  | .absent => none
  | .lock => if t.locked then none else some ({ t with locked := true }, { s with pc := .loadHead })
  | .loadHead => some (t, { s with pc := .push (startOf r.cursor) })
  | .push start =>
    some ({ t with
        locked := false
        registered := t.registered ++ [i]
        value := Function.update t.value i start
        strong := Function.update t.strong i 1 },
      { s with pc := .idle, cursor := start, start := start })
  | .idle => none
  | .head reads panics =>
    if r.cursor = u64Max ∨ r.cursor < s.cursor then some (t, { s with pc := .idle, last := some .nothing })
    else some (t, { s with pc := .borrow reads panics })
  | .borrow (reads + 1) panics =>
    some (t, { s with
      pc := .borrow reads panics
      seen := s.seen ++ [(s.cursor, r.slots (cfg.slot s.cursor))] })
  | .borrow 0 true => some (t, { s with pc := .idle, last := some .panicked })
  | .borrow 0 false =>
    some (t, { s with
      pc := .store
      cursor := u64 (s.cursor + 1)
      processed := s.processed ++ [s.cursor] })
  | .store =>
    some ({ t with value := Function.update t.value i s.cursor },
      { s with pc := .idle, last := some .processed })
  | .pending => some (t, { s with pc := .idle, last := some (.pending (pendingOf r.cursor s.cursor)) })
  | .dropped => none

/-- The tracker's only strong reference goes with the subscriber. -/
def drop (t : Trackers) (i : Nat) (s : EventSubscriber τ) : Option (Trackers × EventSubscriber τ) :=
  match s.pc with
  | .idle => some ({ t with strong := Function.update t.strong i 0 }, { s with pc := .dropped })
  | _ => none

end EventSubscriber

/-! ## The ring with all its handles -/

structure World (τ : Type) where
  ring : EventRing τ
  trackers : Trackers
  publisher : EventPublisher τ
  subs : Nat → EventSubscriber τ

inductive Act (τ : Type) where
  | pubCall (c : Call τ)
  | pub
  | subscribe (i : Nat)
  | subCall (i : Nat) (c : SubCall)
  | sub (i : Nat)
  | drop (i : Nat)

namespace World

/-- `event_channel`: `factory` built the value of each slot. -/
def new (factory : Nat → τ) : World τ where
  ring := ⟨factory, u64Max, []⟩
  trackers := Trackers.new
  publisher := ⟨0, 0, .idle, none⟩
  subs := fun _ => EventSubscriber.absent τ

def setSub (w : World τ) (i : Nat) (s : EventSubscriber τ) : World τ :=
  { w with subs := Function.update w.subs i s }

def step (cfg : Config) (w : World τ) : Act τ → Option (World τ)
  | .pubCall c => (w.publisher.call c).map fun p => { w with publisher := p }
  | .pub =>
    (w.publisher.step cfg w.ring w.trackers).map fun (r, t, p) =>
      { w with ring := r, trackers := t, publisher := p }
  | .subscribe i => (w.subs i).subscribe.map (w.setSub i)
  | .subCall i c => ((w.subs i).call c).map (w.setSub i)
  | .sub i =>
    ((w.subs i).step cfg w.ring w.trackers i).map fun (t, s) => { w with trackers := t }.setSub i s
  | .drop i => ((w.subs i).drop w.trackers i).map fun (t, s) => { w with trackers := t }.setSub i s

/-- The states of an event ring that some interleaving leads to. -/
abbrev Reach (cfg : Config) (factory : Nat → τ) (w : World τ) : Prop :=
  Reachable (step cfg) (new factory) w

/-- The number of published messages. -/
def messages (w : World τ) : Nat := w.ring.log.length

end World

end PhotonRing.Event
