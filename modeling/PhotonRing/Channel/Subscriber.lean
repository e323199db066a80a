import PhotonRing.Ring

/-!
# Subscribers and consumers

`Subscriber` as a thread: its fields, the operation it is in and how far it has
got. All receives end in `Slot::try_read` at the local cursor; `Caller` says who
is waiting for the outcome and what it does with it. A managed consumer is the
loop of `Consumer::spawn` around the same receives.

The steps of a subscriber change its own fields and the trackers, never the ring.
-/
namespace PhotonRing

open Lib

/-- The four ways of `Subscribable` to make a subscriber. -/
inductive SubscribeKind where
  | subscribe
  | tracked
  | lossy
  | fromOldest
  deriving DecidableEq, Repr

/-- `DrainPolicy`. -/
inductive DrainPolicy where
  | drain
  | immediate
  deriving DecidableEq, Repr

/-- The result of `try_recv`. -/
inductive Recv (n : Nat) where
  | ok (buf : Buf n)
  | empty
  | lagged (skipped : Nat)

/-- What the last finished operation returned. -/
inductive Ret (n : Nat) where
  | recv (r : Recv n)
  | latest (v : Option (Buf n))
  | batch (filled : List (Buf n))
  | pending (count : Nat)

/-- The locals of a consumer loop inside `drain_batch`: `i` of `batch` iterations
are over, `done` of them delivered, and `seq` is the cursor before this receive.
`final` marks the drain that follows the shutdown flag. -/
structure Batch where
  policy : DrainPolicy
  idle : Nat
  final : Bool
  batch : Nat
  i : Nat
  done : Nat
  seq : Nat

/-- Who waits for the outcome of a read. `recv` and `recvWith` are the fast paths,
which look at the outcome of `try_read` themselves; the others go through `read_slot`. -/
inductive Caller (n : Nat) where
  | tryRecv
  | recv (bare : Nat)
  | recvSlow
  | recvWith (iter : Nat)
  | recvWithSlow (iter : Nat)
  | latest
  | recvBatch (left : Nat) (filled : List (Buf n)) (again : Bool)
  | drain
  | tryRecvGated (upstreams : List Nat)
  | recvGated (upstreams : List Nat)
  | drainBatch (b : Batch)

inductive SubPc (n : Nat) where
  | absent
  | lock (k : SubscribeKind)
  | loadHead (k : SubscribeKind)
  | lockPush (start : Nat)
  | push (start : Nat)
  | idle
  | gate (c : Caller n) (todo : List Nat) (min : Nat)
  | read (c : Caller n) (r : ReadPc n)
  | head (c : Caller n)
  | commit (c : Caller n) (r : Recv n)
  | latestHead
  | pending
  | checkShutdown (policy : DrainPolicy) (idle : Nat)
  | loadPending (policy : DrainPolicy) (idle : Nat) (final : Bool)
  | exited
  | dropLock
  | dropRetain
  | dropArc
  | dropped

/-- History: one entry for every message a subscriber was given or told it lost. -/
inductive Event (n : Nat) where
  | received (seq : Nat) (buf : Buf n)
  | skipped (old new : Nat)

/-- A subscriber and its thread. `shutdown` is the flag of the consumer reading it,
`panicAt` the call of its handler that panics, if one does, and `panicked` says
that its status is `STAGE_PANICKED`.
The fields after `last` are history, which no step reads: how and where it was
created, what it was given, whether `latest` was called, with which policy and
where a consumer took over, what its handler was called with, and the sequences
whose publish call had returned when it was asked to stop. -/
structure Subscriber (n : Nat) where
  cursor : Nat
  tracker : Bool
  totalLagged : Nat
  totalReceived : Nat
  pc : SubPc n
  shutdown : Bool
  panicAt : Option Nat
  panicked : Bool
  last : Option (Ret n)
  kind : SubscribeKind
  start : Nat
  events : List (Event n)
  latestUsed : Bool
  spawned : Option (DrainPolicy × Nat)
  handled : List (Buf n × Nat × Bool)
  owed : List Nat

/-- The operations a client calls on an idle subscriber. -/
inductive SubCall where
  | tryRecv
  | recv
  | recvWith
  | latest
  | pending
  | recvBatch (len : Nat)
  | drain
  | tryRecvGated (upstreams : List Nat)
  | recvGated (upstreams : List Nat)
  | consume (policy : DrainPolicy) (panicAt : Option Nat)

/-- `u32::saturating_add(1)`. -/
def satSucc (iter : Nat) : Nat := min (iter + 1) (2 ^ 32 - 1)

/-- `Subscriber::pending` on a loaded head. -/
def pendingOf (capacity head cursor : Nat) : Nat :=
  if head = u64Max ∨ head < cursor then 0 else min (head - cursor + 1) capacity

namespace Subscriber

variable {n : Nat}

def absent (n : Nat) : Subscriber n where
  cursor := 0
  tracker := false
  totalLagged := 0
  totalReceived := 0
  pc := .absent
  shutdown := false
  panicAt := none
  panicked := false
  last := none
  kind := .subscribe
  start := 0
  events := []
  latestUsed := false
  spawned := none
  handled := []
  owed := []

/-- A `subscribe` call begins. On a bounded channel `register_tracker_at_head`
takes the tracker lock first. -/
def subscribe (cfg : Config) (s : Subscriber n) (k : SubscribeKind) : Option (Subscriber n) :=
  match s.pc with
  | .absent =>
    match cfg.kind, k with
    | .bounded _, .subscribe => some { s with pc := .lock k, kind := k }
    | .bounded _, .tracked => some { s with pc := .lock k, kind := k }
    | _, _ => some { s with pc := .loadHead k, kind := k }
  | _ => none

/-- The finished `Subscriber` value. -/
def created (s : Subscriber n) (start : Nat) (tracker : Bool) : Subscriber n :=
  { s with cursor := start, tracker := tracker, start := start, pc := .idle }

def finish (s : Subscriber n) (r : Ret n) : Subscriber n := { s with pc := .idle, last := some r }

/-- Call `try_read` (again). -/
def poll (s : Subscriber n) (c : Caller n) : Subscriber n := { s with pc := .read c .stamp }

/-- Call `barrier.slowest()` (again). -/
def gate (s : Subscriber n) (c : Caller n) (upstreams : List Nat) : Subscriber n :=
  { s with pc := .gate c upstreams u64Max }

/-- An operation begins. A barrier has at least one upstream. -/
def call (s : Subscriber n) (c : SubCall) : Option (Subscriber n) :=
  match s.pc with
  | .idle =>
    match c with
    | .tryRecv => some (s.poll .tryRecv)
    | .recv => some (s.poll (.recv 64))
    | .recvWith => some (s.poll (.recvWith 0))
    | .latest => some { s with pc := .latestHead, latestUsed := true }
    | .pending => some { s with pc := .pending }
    | .recvBatch 0 => some (s.finish (.batch []))
    | .recvBatch (len + 1) => some (s.poll (.recvBatch (len + 1) [] false))
    | .drain => some (s.poll .drain)
    | .tryRecvGated [] => none
    | .tryRecvGated (u :: us) => some (s.gate (.tryRecvGated (u :: us)) (u :: us))
    | .recvGated [] => none
    | .recvGated (u :: us) => some (s.gate (.recvGated (u :: us)) (u :: us))
    | .consume policy panicAt =>
      some { s with pc := .checkShutdown policy 0, panicAt := panicAt, spawned := some (policy, s.cursor) }
  | _ => none

/-- `drain_batch` returns: the thread ends after the final drain and polls the
shutdown flag again otherwise. -/
def endBatch (s : Subscriber n) (b : Batch) : Subscriber n :=
  if b.final then { s with pc := .exited }
  else { s with pc := .checkShutdown b.policy (if b.done = 0 then satSucc b.idle else 0) }

/-- The next iteration of the batch loop, if there is one. -/
def nextInBatch (s : Subscriber n) (b : Batch) : Subscriber n :=
  if b.i + 1 < b.batch then s.poll (.drainBatch { b with i := b.i + 1, seq := s.cursor })
  else s.endBatch b

/-- The handler is called with what was received. Its panic is caught outside the
loop: the thread stores that and ends. -/
def handle (s : Subscriber n) (b : Batch) (buf : Buf n) : Subscriber n :=
  let s' := { s with handled := s.handled ++ [(buf, b.seq, b.i + 1 == b.batch)] }
  if s.panicAt = some s.handled.length then { s' with pc := .exited, panicked := true }
  else s'.nextInBatch { b with done := b.done + 1 }

/-- `read_slot` returns to its caller. -/
def resume (s : Subscriber n) (r : Recv n) : Caller n → Subscriber n
  | .tryRecv => s.finish (.recv r)
  | .recv _ => s.finish (.recv r)
  | .recvWith _ => s.finish (.recv r)
  | .recvSlow =>
    match r with
    | .ok buf => s.finish (.recv (.ok buf))
    | _ => s.poll .recvSlow
  | .recvWithSlow iter =>
    match r with
    | .ok buf => s.finish (.recv (.ok buf))
    | .empty => s.poll (.recvWithSlow (satSucc iter))
    | .lagged _ => s.poll (.recvWithSlow 0)
  | .latest =>
    match r with
    | .ok buf => s.finish (.latest (some buf))
    | .empty => s.finish (.latest none)
    | .lagged _ => { s with pc := .latestHead }
  | .recvBatch left filled again =>
    match r with
    | .ok buf =>
      if left ≤ 1 then s.finish (.batch (filled ++ [buf]))
      else s.poll (.recvBatch (left - 1) (filled ++ [buf]) false)
    | .empty => s.finish (.batch filled)
    | .lagged _ => if again then s.finish (.batch filled) else s.poll (.recvBatch left filled true)
  | .drain =>
    match r with
    | .lagged _ => s.poll .drain
    | r => s.finish (.recv r)
  | .tryRecvGated _ => s.finish (.recv r)
  | .recvGated us =>
    match r with
    | .ok buf => s.finish (.recv (.ok buf))
    | _ => s.gate (.recvGated us) us
  | .drainBatch b =>
    match r with
    | .ok buf => s.handle b buf
    | .lagged _ => s.nextInBatch b
    | .empty => s.endBatch b

/-- `try_read` has returned. The fast paths of `recv` and `recv_with` poll again
until the slot is ready and fall back on the slow path when it was overwritten;
`read_slot` reports `Empty`, or goes on to compute the lag. -/
def onTryRead (s : Subscriber n) (c : Caller n) : TryRead n → Subscriber n
  | .value buf => { s with cursor := u64 (s.cursor + 1), pc := .commit c (.ok buf) }
  | .torn =>
    match c with
    | .recv bare => s.poll (.recv (bare - 1))
    | .recvWith iter => s.poll (.recvWith (satSucc iter))
    | c => s.resume .empty c
  | .other stamp =>
    match c with
    | .recv bare => if done s.cursor ≤ stamp then s.poll .recvSlow else s.poll (.recv (bare - 1))
    | .recvWith iter =>
      if done s.cursor ≤ stamp then s.poll (.recvWithSlow 0) else s.poll (.recvWith (satSucc iter))
    | c =>
      if stamp % 2 ≠ 0 then s.resume .empty c
      else if stamp < done s.cursor then s.resume .empty c
      else { s with pc := .head c }

/-- The tail of `read_slot`: the slot was overwritten and `head` has been loaded. -/
def onHead (cfg : Config) (s : Subscriber n) (c : Caller n) (head : Nat) : Subscriber n :=
  if head = u64Max ∨ head < s.cursor then s.resume .empty c
  else if cfg.capacity ≤ head ∧ s.cursor < head - cfg.capacity + 1 then
    { s with
      cursor := head - cfg.capacity + 1
      pc := .commit c (.lagged (head - cfg.capacity + 1 - s.cursor)) }
  else s.resume .empty c

/-- After `update_tracker`: count the outcome and return it. -/
def onCommit (s : Subscriber n) (c : Caller n) : Recv n → Subscriber n
  | .ok buf =>
    { s with
      totalReceived := u64 (s.totalReceived + 1)
      events := s.events ++ [Event.received (s.cursor - 1) buf] }.resume (.ok buf) c
  | .lagged skipped =>
    { s with
      totalLagged := u64 (s.totalLagged + skipped)
      events := s.events ++ [Event.skipped (s.cursor - skipped) s.cursor] }.resume (.lagged skipped) c
  | .empty => s.resume .empty c

/-- `drain_batch` has loaded the head for `pending()`. -/
def onPending (cfg : Config) (s : Subscriber n) (policy : DrainPolicy) (idle : Nat) (final : Bool)
    (head : Nat) : Subscriber n :=
  let batch := pendingOf cfg.capacity head s.cursor
  let b : Batch := ⟨policy, idle, final, batch, 0, 0, s.cursor⟩
  if batch = 0 then s.endBatch b else s.poll (.drainBatch b)

/-- One step of the operation that subscriber `i` is in. -/
def step (cfg : Config) (r : Ring n) (t : Trackers) (i : Nat) (s : Subscriber n) :
    Option (Trackers × Subscriber n) :=
  match s.pc with
  | .absent => none
  | .lock k => if t.locked then none else some ({ t with locked := true }, { s with pc := .loadHead k })
  | .loadHead .subscribe =>
    match cfg.kind with
    | .bounded _ => some (t, { s with pc := .push (startOf r.cursor) })
    | _ => some (t, s.created (startOf r.cursor) false)
  | .loadHead .tracked =>
    match cfg.kind with
    | .bounded _ => some (t, { s with pc := .push (startOf r.cursor) })
    | _ =>
      some ({ t with
          value := Function.update t.value i (startOf r.cursor)
          strong := Function.update t.strong i 1 },
        s.created (startOf r.cursor) true)
  | .loadHead .lossy => some (t, s.created (startOf r.cursor) false)
  | .loadHead .fromOldest =>
    match cfg.kind with
    | .bounded _ => some (t, { s with pc := .lockPush (oldestOf cfg.capacity r.cursor) })
    | _ => some (t, s.created (oldestOf cfg.capacity r.cursor) false)
  | .lockPush start =>
    if t.locked then none else some ({ t with locked := true }, { s with pc := .push start })
  | .push start =>
    some ({ t with
        locked := false
        registered := t.registered ++ [i]
        value := Function.update t.value i start
        strong := Function.update t.strong i 1 },
      s.created start true)
  | .idle => none
  | .gate c (u :: us) min =>
    some (t, { s with pc := .gate c us (if t.value u < min then t.value u else min) })
  | .gate c [] min => if min ≤ s.cursor then some (t, s.resume .empty c) else some (t, s.poll c)
  | .read c pc =>
    match (r.slots (cfg.slot s.cursor)).readStep s.cursor pc with
    | .inl pc' => some (t, { s with pc := .read c pc' })
    | .inr res => some (t, s.onTryRead c res)
  | .head c => some (t, s.onHead cfg c r.cursor)
  | .commit c res =>
    some (if s.tracker then { t with value := Function.update t.value i s.cursor } else t,
      s.onCommit c res)
  | .latestHead =>
    if r.cursor = u64Max then some (t, s.finish (.latest none))
    else some (t, { s with cursor := r.cursor, pc := .read .latest .stamp })
  | .pending => some (t, s.finish (.pending (pendingOf cfg.capacity r.cursor s.cursor)))
  | .checkShutdown policy idle =>
    if s.shutdown then
      match policy with
      | .drain => some (t, { s with pc := .loadPending policy idle true })
      | .immediate => some (t, { s with pc := .exited })
    else some (t, { s with pc := .loadPending policy idle false })
  | .loadPending policy idle final => some (t, s.onPending cfg policy idle final r.cursor)
  | .exited => none
  | .dropLock => if t.locked then none else some ({ t with locked := true }, { s with pc := .dropRetain })
  | .dropRetain =>
    some ({ t with locked := false, registered := t.registered.filter (· ≠ i) }, { s with pc := .dropArc })
  | .dropArc =>
    some (if s.tracker then { t with strong := Function.update t.strong i (t.strong i - 1) } else t,
      { s with pc := .dropped })
  | .dropped => none

/-- All that a call can begin with. -/
inductive Begins (s : Subscriber n) : SubCall → Subscriber n → Prop where
  | tryRecv : Begins s .tryRecv (s.poll .tryRecv)
  | recv : Begins s .recv (s.poll (.recv 64))
  | recvWith : Begins s .recvWith (s.poll (.recvWith 0))
  | latest : Begins s .latest { s with pc := .latestHead, latestUsed := true }
  | pending : Begins s .pending { s with pc := .pending }
  | recvNothing : Begins s (.recvBatch 0) (s.finish (.batch []))
  | recvBatch (len : Nat) : Begins s (.recvBatch (len + 1)) (s.poll (.recvBatch (len + 1) [] false))
  | drain : Begins s .drain (s.poll .drain)
  | tryRecvGated (u : Nat) (us : List Nat) :
      Begins s (.tryRecvGated (u :: us)) (s.gate (.tryRecvGated (u :: us)) (u :: us))
  | recvGated (u : Nat) (us : List Nat) : Begins s (.recvGated (u :: us)) (s.gate (.recvGated (u :: us)) (u :: us))
  | consume (policy : DrainPolicy) (panicAt : Option Nat) : Begins s (.consume policy panicAt)
      { s with pc := .checkShutdown policy 0, panicAt := panicAt, spawned := some (policy, s.cursor) }

theorem call_begins {s s' : Subscriber n} {c : SubCall} (h : s.call c = some s') :
    s.pc = .idle ∧ Begins s c s' := by
  unfold call at h
  split at h
  · refine ⟨‹_›, ?_⟩
    cases c with
    | recvBatch len =>
      cases len with
      | zero => cases h; exact .recvNothing
      | succ len => cases h; exact .recvBatch len
    | tryRecvGated us =>
      cases us with
      | nil => cases h
      | cons u us => cases h; exact .tryRecvGated u us
    | recvGated us =>
      cases us with
      | nil => cases h
      | cons u us => cases h; exact .recvGated u us
    | _ => cases h; constructor
  · cases h

/-- What holds after a handler that panics and after one that returns holds after the call. -/
theorem handle_cases {P : Subscriber n → Prop} {s : Subscriber n} {b : Batch} {buf : Buf n}
    (hpanic : s.panicAt = some s.handled.length → P { s with
      handled := s.handled ++ [(buf, b.seq, b.i + 1 == b.batch)]
      pc := .exited
      panicked := true })
    (hreturn : s.panicAt ≠ some s.handled.length →
      P ({ s with handled := s.handled ++ [(buf, b.seq, b.i + 1 == b.batch)] }.nextInBatch
        { b with done := b.done + 1 })) : P (s.handle b buf) := by
  unfold handle
  split_ifs with h
  · exact hpanic h
  · exact hreturn h

/-- What holds of both ends of `read_slot` holds of its tail. -/
theorem onHead_cases {P : Subscriber n → Prop} {cfg : Config} {s : Subscriber n} {c : Caller n} {head : Nat}
    (hempty : P (s.resume .empty c))
    (hlag : head ≠ u64Max → cfg.capacity ≤ head → s.cursor < head - cfg.capacity + 1 → P { s with
      cursor := head - cfg.capacity + 1
      pc := .commit c (.lagged (head - cfg.capacity + 1 - s.cursor)) }) : P (s.onHead cfg c head) := by
  unfold onHead
  split_ifs with hnone hlt
  · exact hempty
  · exact hlag (fun hmax => hnone (Or.inl hmax)) hlt.1 hlt.2
  · exact hempty

/-- `drain_batch` either finds nothing or begins a batch. -/
theorem onPending_cases {P : Subscriber n → Prop} {cfg : Config} {s : Subscriber n} {policy : DrainPolicy}
    {idle : Nat} {final : Bool} {head : Nat}
    (hend : pendingOf cfg.capacity head s.cursor = 0 →
      P (s.endBatch ⟨policy, idle, final, pendingOf cfg.capacity head s.cursor, 0, 0, s.cursor⟩))
    (hpoll : pendingOf cfg.capacity head s.cursor ≠ 0 →
      P (s.poll (.drainBatch ⟨policy, idle, final, pendingOf cfg.capacity head s.cursor, 0, 0, s.cursor⟩))) :
    P (s.onPending cfg policy idle final head) := by
  unfold onPending
  dsimp only
  split
  · exact hend ‹_›
  · exact hpoll ‹_›

/-- All that one step can do, by the program point. -/
inductive Moves (cfg : Config) (r : Ring n) (t : Trackers) (i : Nat) (s : Subscriber n) :
    Trackers → Subscriber n → Prop where
  | takeLock {k : SubscribeKind} (hpc : s.pc = .lock k) (hfree : t.locked = false) :
      Moves cfg r t i s { t with locked := true } { s with pc := .loadHead k }
  | join {k : SubscribeKind} (hpc : s.pc = .loadHead k) (hk : k = .subscribe ∨ k = .tracked)
      (hb : ∃ wm, cfg.kind = .bounded wm) : Moves cfg r t i s t { s with pc := .push (startOf r.cursor) }
  | bare {k : SubscribeKind} (hpc : s.pc = .loadHead k)
      (hk : k = .lossy ∨ k = .subscribe ∧ ∀ wm, cfg.kind ≠ .bounded wm) :
      Moves cfg r t i s t (s.created (startOf r.cursor) false)
  | tracked (hpc : s.pc = .loadHead .tracked) (hb : ∀ wm, cfg.kind ≠ .bounded wm) :
      Moves cfg r t i s { t with
        value := Function.update t.value i (startOf r.cursor)
        strong := Function.update t.strong i 1 } (s.created (startOf r.cursor) true)
  | history (hpc : s.pc = .loadHead .fromOldest) (hb : ∃ wm, cfg.kind = .bounded wm) :
      Moves cfg r t i s t { s with pc := .lockPush (oldestOf cfg.capacity r.cursor) }
  | bareHistory (hpc : s.pc = .loadHead .fromOldest) (hb : ∀ wm, cfg.kind ≠ .bounded wm) :
      Moves cfg r t i s t (s.created (oldestOf cfg.capacity r.cursor) false)
  | lockPush {start : Nat} (hpc : s.pc = .lockPush start) (hfree : t.locked = false) :
      Moves cfg r t i s { t with locked := true } { s with pc := .push start }
  | push {start : Nat} (hpc : s.pc = .push start) :
      Moves cfg r t i s { t with
        locked := false
        registered := t.registered ++ [i]
        value := Function.update t.value i start
        strong := Function.update t.strong i 1 } (s.created start true)
  | gateNext {c : Caller n} {u : Nat} {us : List Nat} {min : Nat} (hpc : s.pc = .gate c (u :: us) min) :
      Moves cfg r t i s t { s with pc := .gate c us (if t.value u < min then t.value u else min) }
  | gateClosed {c : Caller n} {min : Nat} (hpc : s.pc = .gate c [] min) (hle : min ≤ s.cursor) :
      Moves cfg r t i s t (s.resume .empty c)
  | gateOpen {c : Caller n} {min : Nat} (hpc : s.pc = .gate c [] min) (hlt : s.cursor < min) :
      Moves cfg r t i s t (s.poll c)
  | reading {c : Caller n} {pc pc' : ReadPc n} (hpc : s.pc = .read c pc)
      (hread : (r.slots (cfg.slot s.cursor)).readStep s.cursor pc = .inl pc') :
      Moves cfg r t i s t { s with pc := .read c pc' }
  | read {c : Caller n} {pc : ReadPc n} {res : TryRead n} (hpc : s.pc = .read c pc)
      (hread : (r.slots (cfg.slot s.cursor)).readStep s.cursor pc = .inr res) : Moves cfg r t i s t (s.onTryRead c res)
  | head {c : Caller n} (hpc : s.pc = .head c) : Moves cfg r t i s t (s.onHead cfg c r.cursor)
  | commit {c : Caller n} {res : Recv n} (hpc : s.pc = .commit c res) :
      Moves cfg r t i s (if s.tracker then { t with value := Function.update t.value i s.cursor } else t)
        (s.onCommit c res)
  | latestNone (hpc : s.pc = .latestHead) (hempty : r.cursor = u64Max) :
      Moves cfg r t i s t (s.finish (.latest none))
  | latestHead (hpc : s.pc = .latestHead) (hsome : r.cursor ≠ u64Max) :
      Moves cfg r t i s t { s with cursor := r.cursor, pc := .read .latest .stamp }
  | pending (hpc : s.pc = .pending) :
      Moves cfg r t i s t (s.finish (.pending (pendingOf cfg.capacity r.cursor s.cursor)))
  | checkDrain {idle : Nat} (hpc : s.pc = .checkShutdown .drain idle) (hset : s.shutdown = true) :
      Moves cfg r t i s t { s with pc := .loadPending .drain idle true }
  | checkStop {idle : Nat} (hpc : s.pc = .checkShutdown .immediate idle) (hset : s.shutdown = true) :
      Moves cfg r t i s t { s with pc := .exited }
  | checkGo {policy : DrainPolicy} {idle : Nat} (hpc : s.pc = .checkShutdown policy idle) (hset : s.shutdown = false) :
      Moves cfg r t i s t { s with pc := .loadPending policy idle false }
  | loadPending {policy : DrainPolicy} {idle : Nat} {final : Bool} (hpc : s.pc = .loadPending policy idle final) :
      Moves cfg r t i s t (s.onPending cfg policy idle final r.cursor)
  | dropLock (hpc : s.pc = .dropLock) (hfree : t.locked = false) :
      Moves cfg r t i s { t with locked := true } { s with pc := .dropRetain }
  | dropRetain (hpc : s.pc = .dropRetain) :
      Moves cfg r t i s { t with locked := false, registered := t.registered.filter (· ≠ i) } { s with pc := .dropArc }
  | dropArc (hpc : s.pc = .dropArc) :
      Moves cfg r t i s
        (if s.tracker then { t with strong := Function.update t.strong i (t.strong i - 1) } else t)
        { s with pc := .dropped }

theorem step_moves {cfg : Config} {r : Ring n} {t t' : Trackers} {i : Nat} {s s' : Subscriber n}
    (h : s.step cfg r t i = some (t', s')) : Moves cfg r t i s t' s' := by
  unfold step at h
  split at h
  case h_1 => cases h
  case h_2 hpc =>
    split at h <;> cases h
    exact .takeLock hpc (Bool.eq_false_of_not_eq_true ‹_›)
  case h_3 hpc =>
    split at h <;> cases h
    · exact .join hpc (Or.inl rfl) ⟨_, ‹_›⟩
    · exact .bare hpc (Or.inr ⟨rfl, ‹_›⟩)
  case h_4 hpc =>
    split at h <;> cases h
    · exact .join hpc (Or.inr rfl) ⟨_, ‹_›⟩
    · exact .tracked hpc ‹_›
  case h_5 hpc =>
    cases h
    exact .bare hpc (Or.inl rfl)
  case h_6 hpc =>
    split at h <;> cases h
    · exact .history hpc ⟨_, ‹_›⟩
    · exact .bareHistory hpc ‹_›
  case h_7 hpc =>
    split at h <;> cases h
    exact .lockPush hpc (Bool.eq_false_of_not_eq_true ‹_›)
  case h_8 hpc =>
    cases h
    exact .push hpc
  case h_9 => cases h
  case h_10 hpc =>
    cases h
    exact .gateNext hpc
  case h_11 hpc =>
    split at h <;> cases h
    · exact .gateClosed hpc ‹_›
    · exact .gateOpen hpc (Nat.lt_of_not_le ‹_›)
  case h_12 hpc =>
    split at h <;> cases h
    · exact .reading hpc ‹_›
    · exact .read hpc ‹_›
  case h_13 hpc =>
    cases h
    exact .head hpc
  case h_14 hpc =>
    cases h
    exact .commit hpc
  case h_15 hpc =>
    split at h <;> cases h
    · exact .latestNone hpc ‹_›
    · exact .latestHead hpc ‹_›
  case h_16 hpc =>
    cases h
    exact .pending hpc
  case h_17 hpc =>
    split at h
    · split at h <;> cases h
      · exact .checkDrain hpc ‹_›
      · exact .checkStop hpc ‹_›
    · cases h
      exact .checkGo hpc (Bool.eq_false_of_not_eq_true ‹_›)
  case h_18 hpc =>
    cases h
    exact .loadPending hpc
  case h_19 => cases h
  case h_20 hpc =>
    split at h <;> cases h
    exact .dropLock hpc (Bool.eq_false_of_not_eq_true ‹_›)
  case h_21 hpc =>
    cases h
    exact .dropRetain hpc
  case h_22 hpc =>
    cases h
    exact .dropArc hpc
  case h_23 => cases h

/-- Dropping begins, once no operation borrows the subscriber. -/
def drop (cfg : Config) (s : Subscriber n) : Option (Subscriber n) :=
  let next : Subscriber n :=
    match cfg.kind, s.tracker with
    | .bounded _, true => { s with pc := .dropLock }
    | _, _ => { s with pc := .dropArc }
  match s.pc with
  | .idle => some next
  | .exited => some next
  | _ => none

end Subscriber

end PhotonRing
