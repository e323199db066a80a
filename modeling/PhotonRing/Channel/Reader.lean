import PhotonRing.Lib.Tiles
import PhotonRing.Channel.Subscriber

/-!
# One subscriber against a growing ring

`Change` lists everything a subscriber's step can do to its cursor, its counters
and its history. The invariant `Ok` ties them to the ring: a load in progress
holds a valid snapshot, what was delivered is what was published, what was
reported lost was overwritten, and without `latest` the history tiles the
sequences from the start to the cursor.
-/
namespace PhotonRing.Reader

open Lib Lib.Seqlock

variable {n : Nat} {cfg : Config} {r r' : Ring n} {t t' : Trackers} {i : Nat} {s s' : Subscriber n}

/-! ## Stages -/

/-- How far a subscriber has got with its creation or its current read. `ahead`
means that the cursor has moved and the outcome is not counted yet. -/
inductive Stage (n : Nat) where
  | fresh
  | joining (start : Nat)
  | ready
  | loading (off : Nat) (buf : Buf n)
  | ahead (res : Recv n)

def stage : SubPc n → Stage n
  | .absent => .fresh
  | .lock _ => .fresh
  | .loadHead _ => .fresh
  | .lockPush start => .joining start
  | .push start => .joining start
  | .read _ (.load off buf) => .loading off buf
  | .commit _ res => .ahead res
  | _ => .ready

/-- The program points inside `latest`. -/
def InLatest : SubPc n → Prop
  | .latestHead => True
  | .gate .latest _ _ => True
  | .read .latest _ => True
  | .head .latest => True
  | .commit .latest _ => True
  | _ => False

/-- The counters and the history of a subscriber. -/
structure Book (n : Nat) where
  start : Nat
  received : Nat
  lagged : Nat
  events : List (Event n)

def book (s : Subscriber n) : Book n := ⟨s.start, s.totalReceived, s.totalLagged, s.events⟩

/-! ## Returning to the caller -/

/-- What the local work after a read or a batch leaves alone. -/
structure Local (s s' : Subscriber n) : Prop where
  stage : stage s'.pc = .ready
  book : book s' = book s
  cursor : s'.cursor = s.cursor
  latestUsed : s'.latestUsed = s.latestUsed
  tracker : s'.tracker = s.tracker
  kind : s'.kind = s.kind

theorem endBatch_local (s : Subscriber n) (b : Batch) :
    Local s (s.endBatch b) ∧ ¬ InLatest (s.endBatch b).pc := by
  unfold Subscriber.endBatch
  split <;> exact ⟨⟨rfl, rfl, rfl, rfl, rfl, rfl⟩, fun h => h⟩

theorem nextInBatch_local (s : Subscriber n) (b : Batch) :
    Local s (s.nextInBatch b) ∧ ¬ InLatest (s.nextInBatch b).pc := by
  unfold Subscriber.nextInBatch
  split
  · exact ⟨⟨rfl, rfl, rfl, rfl, rfl, rfl⟩, fun h => h⟩
  · exact endBatch_local s b

theorem handle_local (s : Subscriber n) (b : Batch) (buf : Buf n) :
    Local s (s.handle b buf) ∧ ¬ InLatest (s.handle b buf).pc := by
  refine Subscriber.handle_cases (P := fun s' => Local s s' ∧ ¬ InLatest s'.pc) ?_ ?_
  · intro _
    exact ⟨⟨rfl, rfl, rfl, rfl, rfl, rfl⟩, fun h => h⟩
  · intro _
    obtain ⟨hl, hn⟩ := nextInBatch_local
      { s with handled := s.handled ++ [(buf, b.seq, b.i + 1 == b.batch)] }
      { b with done := b.done + 1 }
    exact ⟨⟨hl.stage, hl.book, hl.cursor, hl.latestUsed, hl.tracker, hl.kind⟩, hn⟩

/-- Whoever called, the outcome of a read is passed on without a change to the
counters, and only `latest` goes on inside `latest`. -/
theorem resume_local (s : Subscriber n) (res : Recv n) (c : Caller n) :
    Local s (s.resume res c) ∧ (InLatest (s.resume res c).pc → c = .latest) := by
  have hf (x : Ret n) : Local s (s.finish x) := ⟨rfl, rfl, rfl, rfl, rfl, rfl⟩
  have hp (c : Caller n) : Local s (s.poll c) := ⟨rfl, rfl, rfl, rfl, rfl, rfl⟩
  cases c with
  | tryRecv => exact ⟨hf _, fun h => h.elim⟩
  | recv bare => exact ⟨hf _, fun h => h.elim⟩
  | recvWith iter => exact ⟨hf _, fun h => h.elim⟩
  | recvSlow => cases res <;> exact ⟨⟨rfl, rfl, rfl, rfl, rfl, rfl⟩, fun h => h.elim⟩
  | recvWithSlow iter => cases res <;> exact ⟨⟨rfl, rfl, rfl, rfl, rfl, rfl⟩, fun h => h.elim⟩
  | latest => cases res <;> exact ⟨⟨rfl, rfl, rfl, rfl, rfl, rfl⟩, fun _ => rfl⟩
  | recvBatch left filled again =>
    cases res with
    | ok buf =>
      simp only [Subscriber.resume]
      split
      · exact ⟨hf _, fun h => h.elim⟩
      · exact ⟨hp _, fun h => h.elim⟩
    | empty => exact ⟨hf _, fun h => h.elim⟩
    | lagged k =>
      simp only [Subscriber.resume]
      split
      · exact ⟨hf _, fun h => h.elim⟩
      · exact ⟨hp _, fun h => h.elim⟩
  | drain => cases res <;> exact ⟨⟨rfl, rfl, rfl, rfl, rfl, rfl⟩, fun h => h.elim⟩
  | tryRecvGated us => exact ⟨hf _, fun h => h.elim⟩
  | recvGated us => cases res <;> exact ⟨⟨rfl, rfl, rfl, rfl, rfl, rfl⟩, fun h => h.elim⟩
  | drainBatch b =>
    cases res with
    | ok buf =>
      obtain ⟨hl, hn⟩ := handle_local s b buf
      exact ⟨hl, fun h => absurd h hn⟩
    | empty =>
      obtain ⟨hl, hn⟩ := endBatch_local s b
      exact ⟨hl, fun h => absurd h hn⟩
    | lagged k =>
      obtain ⟨hl, hn⟩ := nextInBatch_local s b
      exact ⟨hl, fun h => absurd h hn⟩

/-- Where the thread was does not matter to its caller. -/
theorem resume_pc (s : Subscriber n) (pc : SubPc n) (res : Recv n) (c : Caller n) :
    { s with pc := pc }.resume res c = s.resume res c := by
  have hnext (s : Subscriber n) (b : Batch) : { s with pc := pc }.nextInBatch b = s.nextInBatch b := by
    unfold Subscriber.nextInBatch Subscriber.endBatch
    split_ifs <;> rfl
  have hend (b : Batch) : { s with pc := pc }.endBatch b = s.endBatch b := by
    unfold Subscriber.endBatch
    split_ifs <;> rfl
  cases c with
  | recvBatch left filled again =>
    cases res with
    | empty => rfl
    | _ =>
      simp only [Subscriber.resume]
      split_ifs <;> rfl
  | drainBatch b =>
    cases res with
    | ok buf =>
      simp only [Subscriber.resume, Subscriber.handle]
      split_ifs
      · rfl
      · exact hnext { s with handled := s.handled ++ [(buf, b.seq, b.i + 1 == b.batch)] } _
    | empty => exact hend b
    | lagged k => exact hnext s b
  | _ => cases res <;> rfl

/-- What counting an outcome leaves alone. -/
structure Counted (s s' : Subscriber n) : Prop where
  stage : stage s'.pc = .ready
  cursor : s'.cursor = s.cursor
  latestUsed : s'.latestUsed = s.latestUsed
  tracker : s'.tracker = s.tracker
  kind : s'.kind = s.kind

theorem onCommit_counted (s : Subscriber n) (c : Caller n) (res : Recv n) :
    Counted s (s.onCommit c res) := by
  cases res <;> exact ⟨(resume_local _ _ c).1.stage, (resume_local _ _ c).1.cursor,
    (resume_local _ _ c).1.latestUsed, (resume_local _ _ c).1.tracker, (resume_local _ _ c).1.kind⟩

/-! ## All that a step can do -/

/-- Where a subscriber may be created. -/
def StartAt (cfg : Config) (r : Ring n) (start : Nat) : Prop :=
  start = startOf r.cursor ∨ start = oldestOf cfg.capacity r.cursor

inductive Change (cfg : Config) (r : Ring n) (s : Subscriber n) : Subscriber n → Prop where
  | wait {s' : Subscriber n} (hst : stage s'.pc = stage s.pc ∨ (∃ off buf, stage s.pc = .loading off buf) ∧
        stage s'.pc = .ready)
      (hb : book s' = book s) (hc : s'.cursor = s.cursor)
      (hu : s.latestUsed = true → s'.latestUsed = true)
      (hl : InLatest s'.pc → InLatest s.pc ∨ s'.latestUsed = true) : Change cfg r s s'
  | join {s' : Subscriber n} {start : Nat} (hs : stage s.pc = .fresh) (hst : StartAt cfg r start)
      (hs' : stage s'.pc = .joining start) (hb : book s' = book s) (hc : s'.cursor = s.cursor)
      (hu : s'.latestUsed = s.latestUsed) (hl : ¬ InLatest s'.pc) : Change cfg r s s'
  | create {start : Nat} {tracker : Bool}
      (hs : stage s.pc = .joining start ∨ stage s.pc = .fresh ∧ StartAt cfg r start) :
      Change cfg r s (s.created start tracker)
  | load {c : Caller n} {pc pc' : ReadPc n} (hs : s.pc = .read c pc)
      (hr : (r.slots (cfg.slot s.cursor)).readStep s.cursor pc = .inl pc') :
      Change cfg r s { s with pc := .read c pc' }
  | value {c : Caller n} {pc : ReadPc n} {buf : Buf n} (hs : s.pc = .read c pc)
      (hr : (r.slots (cfg.slot s.cursor)).readStep s.cursor pc = .inr (.value buf)) :
      Change cfg r s { s with cursor := u64 (s.cursor + 1), pc := .commit c (.ok buf) }
  | lag {c : Caller n} (hs : s.pc = .head c) (hmax : r.cursor ≠ u64Max)
      (hcap : cfg.capacity ≤ r.cursor) (hlt : s.cursor < r.cursor - cfg.capacity + 1) :
      Change cfg r s { s with
        cursor := r.cursor - cfg.capacity + 1
        pc := .commit c (.lagged (r.cursor - cfg.capacity + 1 - s.cursor)) }
  | commit {c : Caller n} {res : Recv n} (hs : s.pc = .commit c res) :
      Change cfg r s (s.onCommit c res)
  | jump (hs : s.pc = .latestHead) (hmax : r.cursor ≠ u64Max) :
      Change cfg r s { s with cursor := r.cursor, pc := .read .latest .stamp }

/-- Local work between two program points that hold no data. -/
theorem Change.ofLocal (hs : stage s.pc = .ready ∨ ∃ off buf, stage s.pc = .loading off buf)
    (h : Local s s') (hl : InLatest s'.pc → InLatest s.pc) : Change cfg r s s' := by
  refine .wait ?_ h.book h.cursor (by rw [h.latestUsed]; exact fun hu => hu) (fun hi => Or.inl (hl hi))
  rcases hs with hs | hs
  · exact Or.inl (h.stage.trans hs.symm)
  · exact Or.inr ⟨hs, h.stage⟩

/-- The callers that look at a slot through `read_slot`. -/
def ThroughReadSlot : Caller n → Prop
  | .recv _ => False
  | .recvWith _ => False
  | _ => True

theorem onTryRead_torn {c : Caller n} (hc : ThroughReadSlot c) : s.onTryRead c .torn = s.resume .empty c := by
  cases c <;> first | rfl | exact hc.elim

theorem onTryRead_other {c : Caller n} (hc : ThroughReadSlot c) (stamp : Nat) : s.onTryRead c (.other stamp) =
    if stamp % 2 ≠ 0 then s.resume .empty c
    else if stamp < done s.cursor then s.resume .empty c else { s with pc := .head c } := by
  cases c <;> first | rfl | exact hc.elim

/-- What `read_slot` does with the outcome of `try_read`. -/
theorem onTryRead_cases {P : Subscriber n → Prop} {c : Caller n} {res : TryRead n} (hc : ThroughReadSlot c)
    (hvalue : ∀ buf, res = .value buf → P { s with cursor := u64 (s.cursor + 1), pc := .commit c (.ok buf) })
    (hempty : P (s.resume .empty c)) (hpassed : P { s with pc := .head c }) : P (s.onTryRead c res) := by
  cases res with
  | value buf => exact hvalue buf rfl
  | torn =>
    rw [onTryRead_torn hc]
    exact hempty
  | other stamp =>
    rw [onTryRead_other hc]
    split_ifs
    · exact hempty
    · exact hempty
    · exact hpassed

/-- All that can follow `try_read`: the value is taken, the fast paths of `recv` and
`recv_with` try again, `read_slot` reports `Empty`, or it goes on to the lag. -/
inductive AfterRead (s : Subscriber n) (c : Caller n) (res : TryRead n) : Subscriber n → Prop where
  | value {buf : Buf n} (hr : res = .value buf) :
      AfterRead s c res { s with cursor := u64 (s.cursor + 1), pc := .commit c (.ok buf) }
  | again {c' : Caller n} (hlat : c' ≠ .latest) (hdrain : ∀ b, c' ≠ .drainBatch b) :
      AfterRead s c res (s.poll c')
  | empty : AfterRead s c res (s.resume .empty c)
  | passed : AfterRead s c res { s with pc := .head c }

theorem onTryRead_after (s : Subscriber n) (c : Caller n) (res : TryRead n) :
    AfterRead s c res (s.onTryRead c res) := by
  have hagain {c' : Caller n} (hlat : c' ≠ .latest := by simp) (hdrain : ∀ b, c' ≠ .drainBatch b := by simp) :
      AfterRead s c res (s.poll c') := .again hlat hdrain
  by_cases hc : ThroughReadSlot c
  · exact onTryRead_cases hc (fun buf hr => .value hr) .empty .passed
  · cases res with
    | value buf => exact .value rfl
    | torn =>
      cases c with
      | recv bare => exact hagain
      | recvWith iter => exact hagain
      | _ => exact absurd trivial hc
    | other st =>
      cases c with
      | recv bare => simp only [Subscriber.onTryRead]; split_ifs <;> exact hagain
      | recvWith iter => simp only [Subscriber.onTryRead]; split_ifs <;> exact hagain
      | _ => exact absurd trivial hc

theorem AfterRead.change {c : Caller n} {pc : ReadPc n} {res : TryRead n} (h : AfterRead s c res s')
    (hs : s.pc = .read c pc) (hr : (r.slots (cfg.slot s.cursor)).readStep s.cursor pc = .inr res) :
    Change cfg r s s' := by
  have hst : stage s.pc = .ready ∨ ∃ off buf, stage s.pc = .loading off buf := by
    rw [hs]
    cases pc with
    | stamp => exact Or.inl rfl
    | load off buf => exact Or.inr ⟨off, buf, rfl⟩
  cases h with
  | value hres =>
    subst hres
    exact .value hs hr
  | @again c' hlat _ =>
    refine .ofLocal hst ⟨rfl, rfl, rfl, rfl, rfl, rfl⟩ (fun h => ?_)
    cases c' <;> first | exact absurd rfl hlat | exact h.elim
  | empty =>
    obtain ⟨hl, hi⟩ := resume_local s .empty c
    refine .ofLocal hst hl (fun h => ?_)
    rw [hs, hi h]
    trivial
  | passed =>
    refine .ofLocal hst ⟨rfl, rfl, rfl, rfl, rfl, rfl⟩ (fun h => ?_)
    rw [hs]
    cases c <;> exact h

theorem onHead_change {c : Caller n} (hs : s.pc = .head c) :
    Change cfg r s (s.onHead cfg c r.cursor) := by
  have hempty : Change cfg r s (s.resume .empty c) := by
    obtain ⟨hl, hi⟩ := resume_local s .empty c
    refine .ofLocal (Or.inl (by rw [hs]; rfl)) hl (fun h => ?_)
    rw [hs, hi h]
    trivial
  exact Subscriber.onHead_cases hempty (fun hmax hcap hlt => .lag hs hmax hcap hlt)

theorem onPending_local (cfg : Config) (policy : DrainPolicy) (idle : Nat) (final : Bool)
    (head : Nat) (s : Subscriber n) : Local s (s.onPending cfg policy idle final head) ∧
      ¬ InLatest (s.onPending cfg policy idle final head).pc := by
  exact Subscriber.onPending_cases (P := fun u => Local s u ∧ ¬ InLatest u.pc) (fun _ => endBatch_local s _)
    (fun _ => ⟨⟨rfl, rfl, rfl, rfl, rfl, rfl⟩, fun h => h⟩)

theorem step_change (h : s.step cfg r t i = some (t', s')) : Change cfg r s s' := by
  have hloc (s' : Subscriber n) (hs : stage s.pc = .ready) (hl : Local s s')
      (hi : InLatest s'.pc → InLatest s.pc) : Change cfg r s s' := .ofLocal (Or.inl hs) hl hi
  cases Subscriber.step_moves h with
  | takeLock hp _ => exact .wait (Or.inl (by rw [hp]; rfl)) rfl rfl (fun h => h) (fun h => h.elim)
  | join hp hk _ => rcases hk with rfl | rfl <;> exact .join (by rw [hp]; rfl) (Or.inl rfl) rfl rfl rfl rfl (fun h => h)
  | bare hp hk => rcases hk with rfl | ⟨rfl, _⟩ <;> exact .create (Or.inr ⟨by rw [hp]; rfl, Or.inl rfl⟩)
  | tracked hp _ => exact .create (Or.inr ⟨by rw [hp]; rfl, Or.inl rfl⟩)
  | history hp _ => exact .join (by rw [hp]; rfl) (Or.inr rfl) rfl rfl rfl rfl (fun h => h)
  | bareHistory hp _ => exact .create (Or.inr ⟨by rw [hp]; rfl, Or.inr rfl⟩)
  | lockPush hp _ => exact .wait (Or.inl (by rw [hp]; rfl)) rfl rfl (fun h => h) (fun h => h.elim)
  | push hp => exact .create (Or.inl (by rw [hp]; rfl))
  | @gateNext c u us m hp =>
    refine hloc _ (by rw [hp]; rfl) ⟨rfl, rfl, rfl, rfl, rfl, rfl⟩ (fun h => ?_)
    rw [hp]
    cases c <;> exact h
  | @gateClosed c m hp _ =>
    obtain ⟨hl, hi⟩ := resume_local s .empty c
    refine hloc _ (by rw [hp]; rfl) hl (fun h => ?_)
    rw [hp, hi h]
    trivial
  | @gateOpen c m hp _ =>
    refine hloc _ (by rw [hp]; rfl) ⟨rfl, rfl, rfl, rfl, rfl, rfl⟩ (fun h => ?_)
    rw [hp]
    cases c <;> exact h
  | reading hp hread => exact .load hp hread
  | @read c pc res hp hread => exact (onTryRead_after s c res).change hp hread
  | head hp => exact onHead_change hp
  | commit hp => exact .commit hp
  | latestHead hp hsome => exact .jump hp hsome
  | @loadPending policy idle final hp =>
    obtain ⟨hl, hi⟩ := onPending_local cfg policy idle final r.cursor s
    exact hloc _ (by rw [hp]; rfl) hl (fun h => absurd h hi)
  | latestNone hp _ | pending hp | checkDrain hp _ | checkStop hp _ | checkGo hp _ | dropLock hp _
  | dropRetain hp | dropArc hp =>
    exact hloc _ (by rw [hp]; rfl) ⟨rfl, rfl, rfl, rfl, rfl, rfl⟩ (fun h => h.elim)

/-! ## The invariant -/

/-- The positions an entry of the history covers. -/
def Event.lo : Event n → Nat
  | .received seq _ => seq
  | .skipped old _ => old

def Event.hi : Event n → Nat
  | .received seq _ => seq + 1
  | .skipped _ new => new

/-- How many messages an entry counts as received. -/
def Event.count : Event n → Nat
  | .received _ _ => 1
  | .skipped _ _ => 0

/-- How many messages an entry counts as lost. -/
def Event.lost : Event n → Nat
  | .received _ _ => 0
  | .skipped old new => new - old

/-- `buf` is the payload published with sequence `seq`. -/
def Published (r : Ring n) (seq : Nat) (buf : Buf n) : Prop :=
  ∃ v, r.log[seq]? = some v ∧ buf = bytesOf v

/-- A later message than `seq` has been written completely to the slot of `seq`. -/
def Overwritten (cfg : Config) (r : Ring n) (seq : Nat) : Prop :=
  2 * (seq + cfg.capacity) + 2 ≤ r.stampAt cfg seq

def EventOk (cfg : Config) (r : Ring n) : Event n → Prop
  | .received seq buf => Published r seq buf
  | .skipped old new => ∀ q, old ≤ q → q < new → Overwritten cfg r q

def StageOk (cfg : Config) (r : Ring n) (cursor : Nat) : Stage n → Prop
  | .fresh => True
  | .joining start => start ≤ r.log.length
  | .ready => True
  | .loading off buf => ReadOk (r.slots (cursor % cfg.capacity)) cursor (.load off buf)
  | .ahead (.ok buf) => 0 < cursor ∧ Published r (cursor - 1) buf
  | .ahead (.lagged k) => 0 < k ∧ k ≤ cursor ∧ ∀ q, cursor - k ≤ q → q < cursor → Overwritten cfg r q
  | .ahead .empty => False

/-- The position up to which the outcome of every read has been counted. -/
def settled (cursor : Nat) : Stage n → Nat
  | .ahead (.ok _) => cursor - 1
  | .ahead (.lagged k) => cursor - k
  | _ => cursor

def Created : Stage n → Prop
  | .fresh => False
  | .joining _ => False
  | _ => True

structure Ok (cfg : Config) (r : Ring n) (s : Subscriber n) : Prop where
  cursor_le : s.cursor ≤ r.log.length
  stage : StageOk cfg r s.cursor (stage s.pc)
  events : ∀ e ∈ s.events, EventOk cfg r e
  latest : InLatest s.pc → s.latestUsed = true
  blank : ¬ Created (Reader.stage s.pc) → s.events = [] ∧ s.totalReceived = 0 ∧ s.totalLagged = 0
  tiles : s.latestUsed = false →
    Tiles Event.lo Event.hi s.start s.events (settled s.cursor (Reader.stage s.pc))
  received : s.latestUsed = false → s.totalReceived = (s.events.map Event.count).sum
  lagged : s.latestUsed = false → s.totalLagged = (s.events.map Event.lost).sum

theorem ok_absent (cfg : Config) (r : Ring n) : Ok cfg r (Subscriber.absent n) where
  cursor_le := Nat.zero_le _
  stage := trivial
  events := fun _ he => by cases he
  latest := fun h => h.elim
  blank := fun _ => ⟨rfl, rfl, rfl⟩
  tiles := fun _ => Tiles.nil
  received := fun _ => rfl
  lagged := fun _ => rfl

theorem Published.mono {seq : Nat} {buf : Buf n} (h : Published r seq buf) (hg : r.Grows r') :
    Published r' seq buf := by
  obtain ⟨v, hv, hb⟩ := h
  exact ⟨v, hg.log_eq hv, hb⟩

theorem Overwritten.mono {seq : Nat} (h : Overwritten cfg r seq) (hg : r.Grows r') :
    Overwritten cfg r' seq := le_trans h (hg.stampAt_le cfg seq)

/-- The write side may go on without disturbing a reader. -/
theorem Ok.mono (h : Ok cfg r s) (hg : r.Grows r') : Ok cfg r' s := by
  refine ⟨h.cursor_le.trans hg.log_le, ?_, fun e he => ?_, h.latest, h.blank, h.tiles,
    h.received, h.lagged⟩
  · have hs := h.stage
    revert hs
    cases Reader.stage s.pc with
    | fresh => exact fun _ => trivial
    | joining start => exact fun hs => le_trans hs hg.log_le
    | ready => exact fun _ => trivial
    | loading off buf =>
      intro (hs : ReadOk (r.slots (s.cursor % cfg.capacity)) s.cursor (.load off buf))
      exact hs.evolve (hg.slots _)
    | ahead res =>
      cases res with
      | ok buf => exact fun hs => ⟨hs.1, hs.2.mono hg⟩
      | empty => exact fun hs => hs
      | lagged k => exact fun hs => ⟨hs.1, hs.2.1, fun q h1 h2 => (hs.2.2 q h1 h2).mono hg⟩
  · have := h.events e he
    cases e with
    | received seq buf => exact Published.mono this hg
    | skipped old new => exact fun q h1 h2 => (this q h1 h2).mono hg

/-- Everything below the head minus the capacity has been overwritten. -/
theorem overwritten_of_head (hr : r.Ok cfg) (hmax : r.cursor ≠ u64Max) {q : Nat}
    (hq : q + cfg.capacity ≤ r.cursor) : Overwritten cfg r q := by
  have hc := hr.committed hmax _ hq
  unfold Ring.stampAt at hc
  rw [Nat.add_mod_right] at hc
  exact hc

/-- A start position taken from the head is not beyond the next message. -/
theorem StartAt.le {start : Nat} (h : StartAt cfg r start) (hr : r.Ok cfg)
    (hl : r.log.length < seqLimit) : start ≤ r.log.length := by
  rcases h with rfl | rfl
  · exact Ring.startOf_le hr hl
  · exact Ring.oldestOf_le hr

theorem Ok.cursor_lt (h : Ok cfg r s) (hl : r.log.length < seqLimit) : s.cursor < seqLimit :=
  h.cursor_le.trans_lt hl

/-- A validated read found the message at the cursor in its slot. -/
theorem Ok.value_stamp {c : Caller n} {pc : ReadPc n} {buf : Buf n} (h : Ok cfg r s)
    (hl : r.log.length < seqLimit) (hs : s.pc = .read c pc)
    (hv : (r.slots (cfg.slot s.cursor)).readStep s.cursor pc = .inr (.value buf)) :
    r.stampAt cfg s.cursor = 2 * s.cursor + 2 ∧ buf = (r.slots (s.cursor % cfg.capacity)).value := by
  have hlt := h.cursor_lt hl
  rw [cfg.slot_eq_of_lt hlt] at hv
  have hread : ReadOk (r.slots (s.cursor % cfg.capacity)) s.cursor pc := by
    have hst := h.stage
    rw [hs] at hst
    cases pc with
    | stamp => trivial
    | load off b => exact hst
  exact readStep_value hlt hread hv

/-- A validated read delivers the message published with the sequence read. -/
theorem Ok.value {c : Caller n} {pc : ReadPc n} {buf : Buf n} (h : Ok cfg r s) (hr : r.Ok cfg)
    (hl : r.log.length < seqLimit) (hs : s.pc = .read c pc)
    (hv : (r.slots (cfg.slot s.cursor)).readStep s.cursor pc = .inr (.value buf)) :
    Published r s.cursor buf := by
  obtain ⟨hstamp, hbuf⟩ := h.value_stamp hl hs hv
  obtain ⟨v, hlog, hval⟩ := hr.content s.cursor hstamp
  exact ⟨v, hlog, hbuf.trans hval⟩

theorem Published.lt {seq : Nat} {buf : Buf n} (h : Published r seq buf) : seq < r.log.length := by
  obtain ⟨v, hv, _⟩ := h
  exact (List.getElem?_eq_some_iff.mp hv).1

/-- An entry counts every position it covers as received or as lost. -/
theorem count_add_lost (e : Event n) : Event.count e + Event.lost e = Event.hi e - Event.lo e := by
  cases e with
  | received seq buf => simp [Event.count, Event.lost, Event.lo, Event.hi]
  | skipped old new => simp [Event.count, Event.lost, Event.lo, Event.hi]

/-- The counters add up to the distance from the start. -/
theorem Ok.total (h : Ok cfg r s) (hlat : s.latestUsed = false) :
    s.start + s.totalReceived + s.totalLagged = settled s.cursor (Reader.stage s.pc) := by
  rw [h.received hlat, h.lagged hlat]
  exact (h.tiles hlat).sum_split (fun e _ => count_add_lost e)

/-- The outcome of a read is counted and entered into the history. -/
theorem Ok.count {e : Event n} (h : Ok cfg r s) (hl : r.log.length < seqLimit)
    (he : EventOk cfg r e) (hlo : Event.lo e = settled s.cursor (Reader.stage s.pc))
    (hlt : Event.lo e < Event.hi e) (hhi : Event.hi e = s.cursor)
    (hst : Reader.stage s'.pc = .ready) (hin : InLatest s'.pc → InLatest s.pc)
    (hc : s'.cursor = s.cursor) (hu : s'.latestUsed = s.latestUsed) (hstart : s'.start = s.start)
    (hev : s'.events = s.events ++ [e])
    (hrec : s.totalReceived + Event.count e < 2 ^ 64 → s'.totalReceived = s.totalReceived + Event.count e)
    (hlag : s.totalLagged + Event.lost e < 2 ^ 64 → s'.totalLagged = s.totalLagged + Event.lost e) :
    Ok cfg r s' := by
  have hbound : s.latestUsed = false →
      s.totalReceived + Event.count e < 2 ^ 64 ∧ s.totalLagged + Event.lost e < 2 ^ 64 := by
    intro hlat
    have htotal := h.total hlat
    have hw := count_add_lost e
    have hcur := h.cursor_lt hl
    unfold seqLimit at hcur
    omega
  refine ⟨hc ▸ h.cursor_le, by rw [hst]; trivial, fun f hf => ?_, fun hi => ?_, fun hcr => ?_,
    fun hlat => ?_, fun hlat => ?_, fun hlat => ?_⟩
  · rw [hev] at hf
    rcases List.mem_append.mp hf with hm | hm
    · exact h.events f hm
    · obtain rfl := List.mem_singleton.mp hm
      exact he
  · rw [hu]
    exact h.latest (hin hi)
  · rw [hst] at hcr
    exact absurd trivial hcr
  · rw [hu] at hlat
    rw [hst, hstart, hev, hc]
    change Tiles Event.lo Event.hi s.start (s.events ++ [e]) s.cursor
    rw [← hhi]
    exact (h.tiles hlat).snoc hlo (by omega)
  · rw [hu] at hlat
    rw [hrec (hbound hlat).1, hev, List.map_append, List.sum_append, h.received hlat]
    rfl
  · rw [hu] at hlat
    rw [hlag (hbound hlat).2, hev, List.map_append, List.sum_append, h.lagged hlat]
    rfl

/-- A move of the cursor whose outcome is still to be counted. -/
theorem Ok.moveAhead {c : Caller n} {res : Recv n} {cursor : Nat} (h : Ok cfg r s)
    (hset : settled s.cursor (Reader.stage s.pc) = s.cursor) (hle : cursor ≤ r.log.length)
    (hst : StageOk cfg r cursor (.ahead res)) (hback : settled cursor (.ahead res) = s.cursor)
    (hin : c = .latest → InLatest s.pc) :
    Ok cfg r { s with cursor := cursor, pc := .commit c res } := by
  refine ⟨hle, hst, h.events, fun hi => h.latest (hin ?_), fun hn => absurd trivial hn, fun hlat => ?_,
    h.received, h.lagged⟩
  · cases c <;> first | rfl | exact hi.elim
  · have ht := h.tiles hlat
    rw [hset] at ht
    change Tiles Event.lo Event.hi s.start s.events (settled cursor (.ahead res))
    rw [hback]
    exact ht

/-- Every step of a subscriber keeps its invariant. -/
theorem Change.ok (hc : Change cfg r s s') (h : Ok cfg r s) (hr : r.Ok cfg)
    (hl : r.log.length < seqLimit) : Ok cfg r s' := by
  cases hc with
  | wait hst hb hc hu hin =>
    obtain ⟨hb1, hb2, hb3, hb4⟩ := Book.mk.inj hb
    have hset : settled s'.cursor (Reader.stage s'.pc) = settled s.cursor (Reader.stage s.pc) := by
      rw [hc]
      rcases hst with hst | ⟨⟨off, buf, h1⟩, h2⟩
      · rw [hst]
      · rw [h1, h2]; rfl
    have hlat : s'.latestUsed = false → s.latestUsed = false := by
      cases hs : s.latestUsed with
      | false => exact fun _ => rfl
      | true => rw [hu hs]; exact fun h => h
    refine ⟨hc ▸ h.cursor_le, ?_, hb4 ▸ h.events, fun hi => ?_, fun hn => ?_, fun h' => ?_,
      fun h' => ?_, fun h' => ?_⟩
    · have hs := h.stage
      rcases hst with hst | ⟨_, h2⟩
      · rw [hst, hc]; exact hs
      · rw [h2]; trivial
    · rcases hin hi with hin | hu'
      · exact hu (h.latest hin)
      · exact hu'
    · rw [hb4, hb2, hb3]
      refine h.blank (fun hcr => hn ?_)
      rcases hst with hst | ⟨_, h2⟩
      · rw [hst]; exact hcr
      · rw [h2]; trivial
    · rw [hset, hb1, hb4]
      exact h.tiles (hlat h')
    · rw [hb2, hb4]; exact h.received (hlat h')
    · rw [hb3, hb4]; exact h.lagged (hlat h')
  | @join _ start hs hst hs' hb hc hu hin =>
    obtain ⟨hb1, hb2, hb3, hb4⟩ := Book.mk.inj hb
    refine ⟨hc ▸ h.cursor_le, ?_, hb4 ▸ h.events, fun hi => absurd hi hin, fun _ => ?_, fun h' => ?_,
      fun h' => ?_, fun h' => ?_⟩
    · rw [hs']
      exact hst.le hr hl
    · rw [hb4, hb2, hb3]
      exact h.blank (by rw [hs]; exact fun hf => hf)
    · have ht := h.tiles (hu ▸ h')
      rw [hs] at ht
      rw [hs', hb1, hb4, hc]
      exact ht
    · rw [hb2, hb4]; exact h.received (hu ▸ h')
    · rw [hb3, hb4]; exact h.lagged (hu ▸ h')
  | @create start tracker hs =>
    have hle : start ≤ r.log.length := by
      rcases hs with hs | ⟨_, hst⟩
      · have hst := h.stage
        rw [hs] at hst
        exact hst
      · exact hst.le hr hl
    obtain ⟨he, hrec, hlag⟩ := h.blank (by
      rcases hs with hs | ⟨hs, _⟩ <;> rw [hs] <;> exact fun hf => hf)
    refine ⟨hle, trivial, h.events, fun hi => hi.elim, fun hn => absurd trivial hn, fun _ => ?_,
      h.received, h.lagged⟩
    change Tiles Event.lo Event.hi start s.events start
    rw [he]
    exact .nil
  | @load c pc pc' hs hstep =>
    have hlt := h.cursor_lt hl
    rw [cfg.slot_eq_of_lt hlt] at hstep
    have hread : ReadOk (r.slots (s.cursor % cfg.capacity)) s.cursor pc := by
      have hst := h.stage
      rw [hs] at hst
      cases pc with
      | stamp => trivial
      | load off b => exact hst
    have hread' := readStep_ok hlt hread hstep
    have hset : ∀ pc : ReadPc n, settled s.cursor (Reader.stage (.read c pc)) = s.cursor := by
      intro pc; cases pc <;> rfl
    refine ⟨h.cursor_le, ?_, h.events, fun hi => h.latest ?_, fun hn => ?_, fun hlat => ?_,
      h.received, h.lagged⟩
    · cases pc' with
      | stamp => trivial
      | load off b => exact hread'
    · rw [hs]
      cases c <;> exact hi
    · cases pc' <;> exact absurd trivial hn
    · have ht := h.tiles hlat
      rw [hs, hset] at ht
      change Tiles Event.lo Event.hi s.start s.events (settled s.cursor (Reader.stage (.read c pc')))
      rw [hset]
      exact ht
  | @value c pc buf hs hv =>
    have hpub := h.value hr hl hs hv
    have hlt := hpub.lt
    have hword : u64 (s.cursor + 1) = s.cursor + 1 := u64_of_lt (by unfold seqLimit at hl; omega)
    rw [hword]
    refine h.moveAhead ?_ (by omega) ⟨by omega, hpub⟩ rfl (fun hc => ?_)
    · rw [hs]; cases pc <;> rfl
    · rw [hs, hc]; trivial
  | @lag c hs hmax hcap hlt =>
    have hcur := hr.cursor_lt hmax
    refine h.moveAhead (by rw [hs]; rfl) (by have := cfg.two_le; omega) ?_ ?_
      (fun hc => by rw [hs, hc]; trivial)
    · refine ⟨by omega, by omega, fun q h1 h2 => overwritten_of_head hr hmax (by omega)⟩
    · simp only [settled]
      omega
  | @commit c res hs =>
    have hst := h.stage
    rw [hs] at hst
    cases res with
    | ok buf =>
      obtain ⟨hpos, hpub⟩ : 0 < s.cursor ∧ Published r (s.cursor - 1) buf := hst
      obtain ⟨hloc, hin⟩ := resume_local { s with
        totalReceived := u64 (s.totalReceived + 1)
        events := s.events ++ [Event.received (s.cursor - 1) buf] } (.ok buf) c
      obtain ⟨hb1, hb2, hb3, hb4⟩ := Book.mk.inj hloc.book
      refine h.count (e := .received (s.cursor - 1) buf) hl hpub (by rw [hs]; rfl) (Nat.lt_succ_self _)
        (by simp only [Event.hi]; omega) hloc.stage (fun hi => ?_) hloc.cursor hloc.latestUsed hb1 hb4
        (fun hlt => hb2.trans (u64_of_lt hlt)) (fun _ => hb3)
      rw [hs, hin hi]
      trivial
    | empty => exact hst.elim
    | lagged k =>
      obtain ⟨hk, hkc, hover⟩ : 0 < k ∧ k ≤ s.cursor ∧
        ∀ q, s.cursor - k ≤ q → q < s.cursor → Overwritten cfg r q := hst
      obtain ⟨hloc, hin⟩ := resume_local { s with
        totalLagged := u64 (s.totalLagged + k)
        events := s.events ++ [Event.skipped (s.cursor - k) s.cursor] } (.lagged k) c
      obtain ⟨hb1, hb2, hb3, hb4⟩ := Book.mk.inj hloc.book
      have hlost : Event.lost (n := n) (.skipped (s.cursor - k) s.cursor) = k := by
        simp only [Event.lost]; omega
      refine h.count (e := .skipped (s.cursor - k) s.cursor) hl hover (by rw [hs]; rfl)
        (by simp only [Event.lo, Event.hi]; omega) rfl hloc.stage (fun hi => ?_) hloc.cursor
        hloc.latestUsed hb1 hb4 (fun _ => hb2) (fun hlt => ?_)
      · rw [hs, hin hi]
        trivial
      · rw [hlost] at hlt ⊢
        exact hb3.trans (u64_of_lt hlt)
  | jump hs hmax =>
    have hused := h.latest (by rw [hs]; trivial)
    have hno : s.latestUsed = false → False := fun hf => by rw [hused] at hf; cases hf
    exact ⟨(hr.cursor_lt hmax).le, trivial, h.events, fun _ => hused, fun hn => absurd trivial hn,
      fun hf => (hno hf).elim, fun hf => (hno hf).elim, fun hf => (hno hf).elim⟩

/-! ## What every step of a subscriber leaves alone -/

/-- Once called, `latest` stays called. -/
theorem Change.used (h : Change cfg r s s') (hu : s'.latestUsed = false) : s.latestUsed = false := by
  cases h with
  | wait _ _ _ hmono _ =>
    cases hs : s.latestUsed with
    | false => rfl
    | true => rw [hmono hs] at hu; cases hu
  | join _ _ _ _ _ he _ => exact he ▸ hu
  | commit _ => exact (onCommit_counted ..).latestUsed ▸ hu
  | _ => exact hu

/-- A subscriber is created once. -/
theorem Change.created (h : Change cfg r s s') (hs : Created (Reader.stage s.pc)) :
    Created (Reader.stage s'.pc) ∧ s'.start = s.start := by
  cases h with
  | wait hst hb _ _ _ =>
    refine ⟨?_, (Book.mk.inj hb).1⟩
    rcases hst with hst | ⟨_, hst⟩
    · rw [hst]; exact hs
    · rw [hst]; trivial
  | join hfresh _ _ _ _ _ _ => rw [hfresh] at hs; exact hs.elim
  | create hst =>
    rcases hst with hst | ⟨hst, _⟩ <;> rw [hst] at hs <;> exact hs.elim
  | @load c pc pc' _ _ => exact ⟨by cases pc' <;> trivial, rfl⟩
  | value _ _ => exact ⟨trivial, rfl⟩
  | lag _ _ _ _ => exact ⟨trivial, rfl⟩
  | @commit c res hp =>
    refine ⟨by rw [(onCommit_counted s c res).stage]; trivial, ?_⟩
    cases res <;> exact (Book.mk.inj (resume_local _ _ c).1.book).1
  | jump _ _ => exact ⟨trivial, rfl⟩

/-- The history is only added to. -/
theorem Change.events (h : Change cfg r s s') {e : Event n} (he : e ∈ s.events) : e ∈ s'.events := by
  cases h with
  | wait _ hb _ _ _ => rw [(Book.mk.inj hb).2.2.2]; exact he
  | join _ _ _ hb _ _ _ => rw [(Book.mk.inj hb).2.2.2]; exact he
  | @commit c res hp =>
    cases res with
    | empty => rw [Subscriber.onCommit, (Book.mk.inj (resume_local s .empty c).1.book).2.2.2]; exact he
    | _ =>
      rw [Subscriber.onCommit, (Book.mk.inj (resume_local _ _ c).1.book).2.2.2]
      exact List.mem_append_left _ he
  | _ => exact he

/-- Outside the count of an outcome, everything below the cursor is counted. -/
theorem settled_eq (h : ∀ c res, s.pc ≠ .commit c res) : settled s.cursor (Reader.stage s.pc) = s.cursor := by
  revert h
  cases s.pc with
  | commit c res => exact fun h => absurd rfl (h c res)
  | read c pc => cases pc <;> exact fun _ => rfl
  | _ => exact fun _ => rfl

end PhotonRing.Reader
