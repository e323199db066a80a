import PhotonRing.Channel.Replay
import PhotonRing.Channel.Drain

/-!
# The stream of a managed consumer on a bounded channel

A consumer samples `pending` once for each batch and reads its sequence argument off
the cursor before every receive. On a bounded channel both are right: the messages of
a batch are published when it begins, and the publisher cannot overwrite one of them
before its subscriber has received it, so that no receive of a batch is `Empty` or
`Lagged`.
-/
namespace PhotonRing.Stream

open Lib Reader World Unattended Bounded

variable {n : Nat} {cfg : Config} {r r' : Ring n} {t t' : Trackers} {i seq seq' wm : Nat}
  {s s' : Subscriber n} {w w' : World n} {a : Act n}

/-! ## Outside the consumer loop -/

/-- The program points that belong to no consumer. -/
def Outside : SubPc n → Prop
  | .gate (.drainBatch _) _ _ => False
  | .read (.drainBatch _) _ => False
  | .head (.drainBatch _) => False
  | .commit (.drainBatch _) _ => False
  | .checkShutdown _ _ => False
  | .loadPending _ _ _ => False
  | .exited => False
  | _ => True

/-- What a step outside the loop leaves alone. -/
structure Apart (s s' : Subscriber n) : Prop where
  outside : Outside s'.pc
  handled : s'.handled = s.handled
  spawned : s'.spawned = s.spawned

theorem resume_apart {c : Caller n} (hc : ∀ b, c ≠ .drainBatch b) (res : Recv n) : Apart s (s.resume res c) := by
  cases c with
  | drainBatch b => exact absurd rfl (hc b)
  | recvBatch left filled again =>
    cases res <;> simp only [Subscriber.resume] <;>
      first | exact ⟨trivial, rfl, rfl⟩ | (split <;> exact ⟨trivial, rfl, rfl⟩)
  | _ => cases res <;> exact ⟨trivial, rfl, rfl⟩

theorem outside_of_ne {c : Caller n} (hc : ∀ b, c ≠ .drainBatch b) :
    (∀ us m, Outside (.gate c us m)) ∧ (∀ pc, Outside (.read c pc)) ∧ Outside (n := n) (.head c) ∧
      ∀ res, Outside (.commit c res) := by
  cases c with
  | drainBatch b => exact absurd rfl (hc b)
  | _ => exact ⟨fun _ _ => trivial, fun _ => trivial, trivial, fun _ => trivial⟩

theorem afterRead_apart {c : Caller n} {res : TryRead n} (h : AfterRead s c res s')
    (hc : ∀ b, c ≠ .drainBatch b) : Apart s s' := by
  cases h with
  | value _ => exact ⟨(outside_of_ne hc).2.2.2 _, rfl, rfl⟩
  | again _ hdrain => exact ⟨(outside_of_ne hdrain).2.1 _, rfl, rfl⟩
  | empty => exact resume_apart hc .empty
  | passed => exact ⟨(outside_of_ne hc).2.2.1, rfl, rfl⟩

theorem onCommit_apart {c : Caller n} (hc : ∀ b, c ≠ .drainBatch b) (res : Recv n) :
    Apart s (s.onCommit c res) := by
  cases res <;> exact ⟨(resume_apart hc _).outside, (resume_apart hc _).handled, (resume_apart hc _).spawned⟩

/-- A step outside the loop stays outside. -/
theorem step_apart (h : Outside s.pc) (hs : s.step cfg r t i = some (t', s')) : Apart s s' := by
  have hne {c : Caller n} (hout : (∃ us m, Outside (.gate c us m)) ∨ (∃ pc, Outside (.read c pc)) ∨
      Outside (n := n) (.head c) ∨ ∃ res, Outside (.commit c res)) : ∀ b, c ≠ .drainBatch b := by
    rintro b rfl
    rcases hout with ⟨_, _, hf⟩ | ⟨_, hf⟩ | hf | ⟨_, hf⟩ <;> exact hf
  cases Subscriber.step_moves hs with
  | @gateNext c u us m hp =>
    rw [hp] at h
    exact ⟨(outside_of_ne (hne (Or.inl ⟨_, _, h⟩))).1 _ _, rfl, rfl⟩
  | @gateClosed c m hp _ =>
    rw [hp] at h
    exact resume_apart (hne (Or.inl ⟨_, _, h⟩)) .empty
  | @gateOpen c m hp _ =>
    rw [hp] at h
    exact ⟨(outside_of_ne (hne (Or.inl ⟨_, _, h⟩))).2.1 _, rfl, rfl⟩
  | @reading c pc pc' hp _ =>
    rw [hp] at h
    exact ⟨(outside_of_ne (hne (Or.inr (Or.inl ⟨_, h⟩)))).2.1 _, rfl, rfl⟩
  | @read c pc res hp _ =>
    rw [hp] at h
    exact afterRead_apart (onTryRead_after s c res) (hne (Or.inr (Or.inl ⟨_, h⟩)))
  | @head c hp =>
    rw [hp] at h
    have hc := hne (Or.inr (Or.inr (Or.inl h)))
    exact Subscriber.onHead_cases (resume_apart hc .empty) (fun _ _ _ => ⟨(outside_of_ne hc).2.2.2 _, rfl, rfl⟩)
  | @commit c res hp =>
    rw [hp] at h
    exact onCommit_apart (hne (Or.inr (Or.inr (Or.inr ⟨_, h⟩)))) res
  | checkDrain hp _ | checkStop hp _ | checkGo hp _ | loadPending hp =>
    rw [hp] at h
    exact h.elim
  | _ => exact ⟨trivial, rfl, rfl⟩

/-! ## The invariant -/

/-- Where a consumer stands: in a batch, all messages that are still to be received in
it are published, and every iteration so far has delivered one. -/
def Loop (seq cursor : Nat) : SubPc n → Prop
  | .checkShutdown _ _ => True
  | .loadPending _ _ _ => True
  | .read (.drainBatch b) _ => b.seq = cursor ∧ b.done = b.i ∧ b.i < b.batch ∧ cursor + (b.batch - b.i) ≤ seq
  | .commit (.drainBatch b) (.ok _) =>
    b.seq + 1 = cursor ∧ b.done = b.i ∧ b.i < b.batch ∧ b.seq + (b.batch - b.i) ≤ seq
  | .exited => True
  | .dropLock => True
  | .dropRetain => True
  | .dropArc => True
  | .dropped => True
  | _ => False

/-- The handler's calls from `a` on: each with the next sequence and its message. -/
def Delivered (r : Ring n) (a : Nat) (handled : List (Buf n × Nat × Bool)) : Prop :=
  ∀ k x, handled[k]? = some x → ∃ v, r.log[a + k]? = some v ∧ x.1 = bytesOf v ∧ x.2.1 = a + k

/-- A consumer that took over at `a`: everything counted since then went to the handler. -/
structure Handed (r : Ring n) (seq a : Nat) (s : Subscriber n) : Prop where
  length : a + s.handled.length = settled s.cursor (stage s.pc)
  delivered : Delivered r a s.handled
  loop : Loop seq s.cursor s.pc

structure Ok (r : Ring n) (seq : Nat) (s : Subscriber n) : Prop where
  fresh : ¬ Created (stage s.pc) → s.spawned = none
  before : s.spawned = none → s.handled = [] ∧ Outside s.pc
  after : ∀ policy a, s.spawned = some (policy, a) → NoLoss s → Handed r seq a s

theorem ok_absent (r : Ring n) (seq : Nat) : Ok r seq (Subscriber.absent n) where
  fresh := fun _ => rfl
  before := fun _ => ⟨rfl, trivial⟩
  after := fun _ _ h => by cases h

theorem Loop.mono {cursor : Nat} {pc : SubPc n} (h : Loop seq cursor pc) (hle : seq ≤ seq') :
    Loop seq' cursor pc := by
  revert h
  cases pc with
  | read c pc =>
    cases c with
    | drainBatch b => exact fun h => ⟨h.1, h.2.1, h.2.2.1, h.2.2.2.trans hle⟩
    | _ => exact fun h => h
  | commit c res =>
    cases c with
    | drainBatch b =>
      cases res with
      | ok buf => exact fun h => ⟨h.1, h.2.1, h.2.2.1, h.2.2.2.trans hle⟩
      | _ => exact fun h => h
    | _ => exact fun h => h
  | _ => exact fun h => h

theorem Delivered.mono {a : Nat} {hs : List (Buf n × Nat × Bool)} (h : Delivered r a hs) (hg : r.Grows r') :
    Delivered r' a hs := by
  intro k x hx
  obtain ⟨v, hv, h1, h2⟩ := h k x hx
  exact ⟨v, hg.log_eq hv, h1, h2⟩

theorem Ok.mono (h : Ok r seq s) (hg : r.Grows r') (hle : seq ≤ seq') : Ok r' seq' s := by
  refine ⟨h.fresh, h.before, fun policy a hsp hn => ?_⟩
  obtain ⟨h1, h2, h3⟩ := h.after policy a hsp hn
  exact ⟨h1, h2.mono hg, h3.mono hle⟩

/-- The handler is called with the next message. -/
theorem Delivered.snoc {a q : Nat} {hs : List (Buf n × Nat × Bool)} {buf : Buf n} {last : Bool}
    (h : Delivered r a hs) (hq : a + hs.length = q) (hp : Published r q buf) :
    Delivered r a (hs ++ [(buf, q, last)]) := by
  intro k x hx
  rcases Nat.lt_trichotomy k hs.length with hlt | rfl | hgt
  · rw [List.getElem?_append_left hlt] at hx
    exact h k x hx
  · rw [List.getElem?_concat_length] at hx
    obtain rfl := Option.some.inj hx
    obtain ⟨v, hv, hb⟩ := hp
    exact ⟨v, by rw [hq]; exact hv, hb, hq.symm⟩
  · rw [List.getElem?_eq_none (by simp; omega)] at hx
    cases hx

/-! ## One step of the consumer -/

theorem endBatch_handed {a : Nat} (b : Batch) (hlen : a + s.handled.length = s.cursor)
    (hd : Delivered r a s.handled) : Handed r seq a (s.endBatch b) := by
  unfold Subscriber.endBatch
  split
  · exact ⟨hlen, hd, trivial⟩
  · exact ⟨hlen, hd, trivial⟩

theorem nextInBatch_handed {a : Nat} {b : Batch} (hlen : a + s.handled.length = s.cursor)
    (hd : Delivered r a s.handled) (hdone : b.done = b.i + 1) (hseq : s.cursor + (b.batch - (b.i + 1)) ≤ seq) :
    Handed r seq a (s.nextInBatch b) := by
  unfold Subscriber.nextInBatch
  split
  · exact ⟨hlen, hd, rfl, hdone, ‹_›, hseq⟩
  · exact endBatch_handed b hlen hd

/-- The messages that `pending` counts are published. -/
theorem pendingOf_le {cap cursor : Nat} : pendingOf cap (expectedCursor seq) cursor = 0 ∨
    cursor + pendingOf cap (expectedCursor seq) cursor ≤ seq := by
  unfold pendingOf expectedCursor
  split_ifs <;> omega

theorem onPending_handed {a : Nat} (hcur : r.cursor = expectedCursor seq)
    (hlen : a + s.handled.length = s.cursor) (hd : Delivered r a s.handled)
    (policy : DrainPolicy) (idle : Nat) (final : Bool) :
    Handed r seq a (s.onPending cfg policy idle final r.cursor) := by
  refine Subscriber.onPending_cases (fun _ => endBatch_handed _ hlen hd) (fun hne => ?_)
  rw [hcur] at hne ⊢
  have hle := @pendingOf_le seq cfg.capacity s.cursor
  refine ⟨hlen, hd, rfl, rfl, ?_, ?_⟩
  · exact Nat.pos_of_ne_zero hne
  · dsimp only [Subscriber.poll]
    omega

/-- A read inside a batch finds its message and goes on or takes it. -/
theorem read_in_batch {b : Batch} {pc : ReadPc n} (hpc : s.pc = .read (.drainBatch b) pc)
    (hheld : (r.slots (cfg.slot s.cursor)).stamp = done s.cursor)
    (hs : s.step cfg r t i = some (t', s')) :
    (∃ pc', (r.slots (cfg.slot s.cursor)).readStep s.cursor pc = .inl pc' ∧
        s' = { s with pc := .read (.drainBatch b) pc' }) ∨
      ∃ buf, (r.slots (cfg.slot s.cursor)).readStep s.cursor pc = .inr (.value buf) ∧
        s' = { s with cursor := u64 (s.cursor + 1), pc := .commit (.drainBatch b) (.ok buf) } := by
  simp only [Subscriber.step, hpc] at hs
  cases hrs : (r.slots (cfg.slot s.cursor)).readStep s.cursor pc with
  | inl pc' =>
    rw [hrs] at hs
    cases hs
    exact Or.inl ⟨pc', rfl, rfl⟩
  | inr res =>
    obtain ⟨buf, rfl⟩ := Drain.readStep_of_done hheld hrs
    rw [hrs] at hs
    cases hs
    exact Or.inr ⟨buf, rfl, rfl⟩

/-- A step of a consumer whose next message, if it is published, is held in its slot. -/
theorem Handed.step {a : Nat} (h : Handed r seq a s) (hcur : r.cursor = expectedCursor seq)
    (hlim : s.cursor < seqLimit)
    (hheld : ∀ c pc, s.pc = .read c pc → s.cursor < seq →
      (r.slots (cfg.slot s.cursor)).stamp = done s.cursor)
    (hahead : ∀ c buf, s.pc = .commit c (.ok buf) → 0 < s.cursor ∧ Published r (s.cursor - 1) buf)
    (hs : s.step cfg r t i = some (t', s')) : Handed r seq a s' := by
  obtain ⟨hlen, hd, hloop⟩ := h
  have hin {c : Caller n} {pc : ReadPc n} (hpc : s.pc = .read c pc) : ∃ b, c = .drainBatch b := by
    rw [hpc] at hloop
    cases c with
    | drainBatch b => exact ⟨b, rfl⟩
    | _ => exact hloop.elim
  cases Subscriber.step_moves hs with
  | checkDrain hpc _ | checkStop hpc _ | checkGo hpc _ | dropLock hpc _ | dropRetain hpc | dropArc hpc =>
    rw [hpc] at hlen
    exact ⟨hlen, hd, trivial⟩
  | @loadPending policy idle final hpc =>
    rw [hpc] at hlen
    exact onPending_handed hcur hlen hd policy idle final
  | @reading c pc pc' hpc _ =>
    obtain ⟨b, rfl⟩ := hin hpc
    rw [hpc] at hlen hloop
    have hlen' : a + s.handled.length = s.cursor := by cases pc <;> exact hlen
    exact ⟨by cases pc' <;> exact hlen', hd, hloop⟩
  | @read c pc res hpc hread =>
    obtain ⟨b, rfl⟩ := hin hpc
    rw [hpc] at hlen hloop
    have hlen' : a + s.handled.length = s.cursor := by cases pc <;> exact hlen
    obtain ⟨hseq, hdone, hi, hpub⟩ := hloop
    have hword : u64 (s.cursor + 1) = s.cursor + 1 := u64_of_lt (by unfold seqLimit at hlim; omega)
    -- the message is in its slot, so the read takes it
    obtain ⟨buf, rfl⟩ := Drain.readStep_of_done (hheld _ pc hpc (by omega)) hread
    unfold Subscriber.onTryRead
    rw [hword]
    exact ⟨hlen', hd, by rw [hseq], hdone, hi, by rw [hseq]; exact hpub⟩
  | @commit c res hpc =>
    rw [hpc] at hlen hloop
    cases c with
    | drainBatch b =>
      cases res with
      | ok buf =>
        obtain ⟨hseq, hdone, hi, hpub⟩ := hloop
        obtain ⟨hpos, hbuf⟩ := hahead _ buf hpc
        have hlen' : a + s.handled.length = b.seq := hlen.trans (by change s.cursor - 1 = b.seq; omega)
        have hgrown : a + (s.handled ++ [(buf, b.seq, b.i + 1 == b.batch)]).length = s.cursor := by
          rw [List.length_append, List.length_singleton]
          omega
        rw [show s.cursor - 1 = b.seq by omega] at hbuf
        have hd' : Delivered r a (s.handled ++ [(buf, b.seq, b.i + 1 == b.batch)]) := hd.snoc hlen' hbuf
        refine Subscriber.handle_cases (P := Handed r seq a) (fun _ => ⟨hgrown, hd', trivial⟩) (fun _ => ?_)
        refine nextInBatch_handed (b := { b with done := b.done + 1 }) hgrown hd' (congrArg (· + 1) hdone) ?_
        dsimp only
        omega
      | _ => exact hloop.elim
    | _ => exact hloop.elim
  | takeLock hpc _ | join hpc _ _ | bare hpc _ | tracked hpc _ | history hpc _ | bareHistory hpc _ | lockPush hpc _
  | push hpc | gateNext hpc | gateClosed hpc _ | gateOpen hpc _ | head hpc | latestNone hpc _ | latestHead hpc _
  | pending hpc =>
    rw [hpc] at hloop
    exact hloop.elim

/-! ## Along a run -/

theorem created_of_spawned (h : Ok r seq s) {policy : DrainPolicy} {b : Nat} (hsp : s.spawned = some (policy, b)) :
    Created (stage s.pc) := by
  by_contra hn
  rw [h.fresh hn] at hsp
  cases hsp

/-- A call outside the loop, or the call that starts it. -/
theorem Ok.call {c : SubCall} (h : Ok r seq s) (hc : s.call c = some s') : Ok r seq s' := by
  obtain ⟨hidle, hbegins⟩ := Subscriber.call_begins hc
  have hnone (hn : NoLoss s) : s.spawned = none := by
    cases hsp : s.spawned with
    | none => rfl
    | some x =>
      have hloop := (h.after x.1 x.2 hsp hn).loop
      rw [hidle] at hloop
      exact hloop.elim
  have hout {x : Subscriber n} (hcr : Created (stage x.pc)) (hpc : Outside x.pc) (hhan : x.handled = s.handled)
      (hsp : x.spawned = s.spawned) (hn : NoLoss x → NoLoss s) : Ok r seq x := by
    refine ⟨fun hf => absurd hcr hf, fun hx => ⟨?_, hpc⟩, fun policy b hx hnl => ?_⟩
    · rw [hhan]
      exact (h.before (hsp ▸ hx)).1
    · rw [hsp, hnone (hn hnl)] at hx
      cases hx
  cases hbegins with
  | consume policy panicAt =>
    refine ⟨fun hf => absurd trivial hf, fun hx => (by cases hx), fun policy' b hx hnl => ?_⟩
    obtain rfl : s.cursor = b := by
      have hx' : some (policy, s.cursor) = some (policy', b) := hx
      cases hx'
      rfl
    have hempty : s.handled = [] := (h.before (hnone hnl)).1
    refine ⟨?_, fun k x hk => ?_, trivial⟩
    · change s.cursor + s.handled.length = s.cursor
      rw [hempty]
      rfl
    · change s.handled[k]? = some x at hk
      rw [hempty] at hk
      cases hk
  | latest => exact hout trivial trivial rfl rfl (fun hn => by cases hn.2)
  | _ => exact hout trivial trivial rfl rfl (fun hn => hn)

variable {j : Nat}

/-- The message that a covered subscriber is at is still in its slot. -/
theorem held_of_noLoss (hk : cfg.kind = .bounded wm) (hl : messages w < seqLimit) (hs : Sane cfg w)
    (hb : Bounded.Ok cfg w) (hn : NoLoss (w.subs j)) {c : Caller n} {pc : ReadPc n}
    (hpc : (w.subs j).pc = .read c pc) (hlt : (w.subs j).cursor < w.publisher.seq) :
    (w.ring.slots (cfg.slot (w.subs j).cursor)).stamp = done (w.subs j).cursor := by
  have hseat := hb.seats j
  rw [hpc] at hseat
  obtain ⟨htr, hval, hreg⟩ := hseat hn
  have hcur := (hs.readers j).cursor_lt hl
  rw [cfg.slot_eq_of_lt hcur, done_eq hcur]
  have hguest : Guest cfg 0 w.trackers w.publisher j (w.subs j) :=
    ⟨htr, hval, hreg.listed, hreg.alive, by rw [Nat.max_eq_left (Nat.zero_le _)]; exact hreg.covers⟩
  exact hguest.held (hs.written.single (kind_ne_mpmc hk)).1
    (settled_eq (fun c' res h => by rw [hpc] at h; cases h)) (Nat.zero_le _) hlt

/-- The publisher's position never goes back. -/
theorem step_seq_le (hk : cfg.kind = .bounded wm) (hst : step cfg w a = some w')
    (hl : messages w' < seqLimit) (hs : Sane cfg w) : w.publisher.seq ≤ w'.publisher.seq := by
  cases step_moved hk hst hl hs with
  | same => exact Nat.le_refl _
  | pub hm _ => exact hm.gate.move.pos_le
  | sub _ _ => exact Nat.le_refl _
  | clone _ => exact Nat.le_refl _

theorem step_handed (hk : cfg.kind = .bounded wm) (hl : messages w < seqLimit) (hs : Sane cfg w)
    (hb : Bounded.Ok cfg w) (hn : NoLoss (w.subs j)) {b : Nat}
    (h : Handed w.ring w.publisher.seq b (w.subs j))
    (hst : (w.subs j).step cfg w.ring w.trackers j = some (t', s')) :
    Handed w.ring w.publisher.seq b s' := by
  have hreader := hs.readers j
  refine h.step (hs.written.single (kind_ne_mpmc hk)).1.cursor (hreader.cursor_lt hl)
    (fun c pc hpc hlt => held_of_noLoss hk hl hs hb hn hpc hlt) (fun c buf hpc => ?_) hst
  have hstage := hreader.stage
  rw [hpc] at hstage
  exact hstage

theorem endBatch_spawned (s : Subscriber n) (b : Batch) : (s.endBatch b).spawned = s.spawned := by
  unfold Subscriber.endBatch
  split <;> rfl

theorem nextInBatch_spawned (s : Subscriber n) (b : Batch) : (s.nextInBatch b).spawned = s.spawned := by
  unfold Subscriber.nextInBatch
  split
  · rfl
  · exact endBatch_spawned s b

theorem resume_spawned (s : Subscriber n) (res : Recv n) (c : Caller n) :
    (s.resume res c).spawned = s.spawned := by
  by_cases hc : ∃ b, c = .drainBatch b
  · obtain ⟨b, rfl⟩ := hc
    cases res with
    | ok buf =>
      exact Subscriber.handle_cases (P := fun u => u.spawned = s.spawned) (fun _ => rfl)
        fun _ => nextInBatch_spawned _ _
    | empty => exact endBatch_spawned s b
    | lagged k => exact nextInBatch_spawned s b
  · exact (resume_apart (fun b hb => hc ⟨b, hb⟩) res).spawned

theorem afterRead_spawned {c : Caller n} {res : TryRead n} (h : AfterRead s c res s') :
    s'.spawned = s.spawned := by
  cases h with
  | empty => exact resume_spawned s .empty c
  | _ => rfl

/-- Who reads a subscriber is settled by the call alone. -/
theorem step_spawned (hs : s.step cfg r t i = some (t', s')) : s'.spawned = s.spawned := by
  cases Subscriber.step_moves hs with
  | @gateClosed c m _ _ => exact resume_spawned s .empty c
  | @read c pc res _ _ => exact afterRead_spawned (onTryRead_after s c res)
  | @head c _ =>
    exact Subscriber.onHead_cases (P := fun u => u.spawned = s.spawned) (resume_spawned s .empty c) (fun _ _ _ => rfl)
  | @commit c res _ => cases res <;> exact resume_spawned _ _ c
  | loadPending _ =>
    exact Subscriber.onPending_cases (P := fun u => u.spawned = s.spawned) (fun _ => endBatch_spawned s _)
      (fun _ => rfl)
  | _ => rfl

/-- A step of a subscriber that a consumer may be reading. -/
theorem step_sub_ok (hk : cfg.kind = .bounded wm) (hl : messages w < seqLimit) (hs : Sane cfg w)
    (hb : Bounded.Ok cfg w) (h : Ok w.ring w.publisher.seq (w.subs j))
    (hst : (w.subs j).step cfg w.ring w.trackers j = some (t', s')) : Ok w.ring w.publisher.seq s' := by
  cases hsp : (w.subs j).spawned with
  | none =>
    obtain ⟨hhan, hout⟩ := h.before hsp
    have hap := step_apart hout hst
    refine ⟨fun _ => hap.spawned.trans hsp, fun _ => ⟨hap.handled.trans hhan, hap.outside⟩, fun policy b hx _ => ?_⟩
    rw [hap.spawned, hsp] at hx
    cases hx
  | some x =>
    have hcr := @created_of_spawned _ _ _ _ h x.1 x.2 hsp
    obtain ⟨hcr', _⟩ := (step_change hst).created hcr
    have hm := step_seat hk ((hs.readers j).cursor_lt hl) hst
    have hsp' := step_spawned hst
    refine ⟨fun hf => absurd hcr' hf, fun hx => ?_, fun policy b hx hnl => ?_⟩
    · rw [hsp', hsp] at hx
      cases hx
    · rcases hm.kind with ⟨_, hfresh⟩ | ⟨hkd, hused⟩
      · rw [hfresh] at hcr'
        exact hcr'.elim
      · have hn := hnl.of_kind hkd hused
        exact step_handed hk hl hs hb hn (h.after policy b (hsp' ▸ hx) hn) hst

theorem step_ok (hk : cfg.kind = .bounded wm) (hst : step cfg w a = some w') (hl : messages w' < seqLimit)
    (hs : Sane cfg w) (hb : Bounded.Ok cfg w) (h : ∀ j, Ok w.ring w.publisher.seq (w.subs j)) (j : Nat) :
    Ok w'.ring w'.publisher.seq (w'.subs j) := by
  obtain ⟨_, hgrows⟩ := step_written hst hl hs.written
  have hl0 : messages w < seqLimit := (step_log_le hst).trans_lt hl
  refine Ok.mono ?_ hgrows (step_seq_le hk hst hl hs)
  have hj := h j
  cases step_subs hst j with
  | other he => rw [he]; exact hj
  | subscribe he _ =>
    obtain ⟨hpc, pc, hnew, he⟩ := subscribe_pc he
    have hnone : (w.subs j).spawned = none := hj.fresh (by rw [hpc]; exact fun hf => hf)
    obtain ⟨hhan, _⟩ := hj.before hnone
    rw [he]
    refine ⟨fun _ => hnone, fun _ => ⟨hhan, ?_⟩, fun policy b hx _ => ?_⟩
    · rcases hnew with rfl | rfl <;> trivial
    · rw [show (w.subs j).spawned = some (policy, b) from hx] at hnone
      cases hnone
  | call he _ => exact hj.call he
  | step he => exact step_sub_ok hk hl0 hs hb hj he
  | drop he _ =>
    obtain ⟨hpc, he⟩ := drop_pc he
    have hready : stage (w.subs j).pc = .ready := by rcases hpc with hpc | hpc <;> rw [hpc] <;> rfl
    have hgone (pc : SubPc n) (hst : stage pc = .ready) (hout : Outside pc)
        (hloop : ∀ seq cursor, Loop seq cursor pc) : Ok w.ring w.publisher.seq { w.subs j with pc := pc } := by
      refine ⟨fun hf => absurd (by rw [hst]; trivial) hf, fun hx => ⟨(hj.before hx).1, hout⟩,
        fun policy b hx hn => ?_⟩
      obtain ⟨hlen, hd, _⟩ := hj.after policy b hx hn
      rw [hready] at hlen
      exact ⟨by rw [hst]; exact hlen, hd, hloop _ _⟩
    rcases he with he | he <;> rw [he]
    · exact hgone .dropLock rfl trivial (fun _ _ => trivial)
    · exact hgone .dropArc rfl trivial (fun _ _ => trivial)
  | shutdown he _ =>
    rw [he]
    exact ⟨hj.fresh, hj.before, fun policy b hx hn => by
      obtain ⟨hlen, hd, hloop⟩ := hj.after policy b hx hn
      exact ⟨hlen, hd, hloop⟩⟩

/-- What holds of a bounded channel and its consumers. -/
structure Sound (cfg : Config) (w : World n) : Prop where
  sane : Sane cfg w
  bounded : Bounded.Ok cfg w
  streams : ∀ j, Ok w.ring w.publisher.seq (w.subs j)

theorem reach_sound (hk : cfg.kind = .bounded wm) (h : Reach cfg w) (hl : messages w < seqLimit) :
    Sound cfg w := by
  refine Reachable.invariant_below messages seqLimit (fun _ _ _ hs => step_log_le hs)
    ⟨⟨written_new cfg, fun _ => Reader.ok_absent cfg _⟩, ok_new cfg, fun _ => ok_absent _ _⟩
    (fun _ _ _ hs hlt hw => ?_) h hl
  exact ⟨step_sane hs hlt hw.sane, Bounded.step_ok hk hs hlt hw.sane hw.bounded,
    fun j => step_ok hk hs hlt hw.sane hw.bounded hw.streams j⟩

/-! ## Batches -/

/-- The program points of a batch after its length has been sampled. -/
def inBatch : SubPc n → Bool
  | .gate (.drainBatch _) _ _ => true
  | .read (.drainBatch _) _ => true
  | .head (.drainBatch _) => true
  | .commit (.drainBatch _) _ => true
  | _ => false

/-- The steps of a channel up to the end of the batch that the consumer of `j` is in. -/
def batchStep (cfg : Config) (j : Nat) (w : World n) (a : Act n) : Option (World n) :=
  if inBatch (w.subs j).pc then step cfg w a else none

/-- A bound on the steps that the consumer still has to take in its batch. -/
def batchLeft : SubPc n → Nat
  | .read (.drainBatch b) .stamp => (b.batch - b.i) * (n + 3)
  | .read (.drainBatch b) (.load off _) => (b.batch - b.i) * (n + 3) - 1 - off
  | .commit (.drainBatch b) _ => (b.batch - b.i) * (n + 3) - n - 2
  | _ => 0

/-- How far a batch of `count` messages has got that began after `before` handler calls. One
whose handler panics is over before its end. -/
structure Progress (before count : Nat) (s : Subscriber n) : Prop where
  running : inBatch s.pc = true → ∃ b, b.batch = count ∧ b.done < count ∧ s.handled.length = before + b.done ∧
    ((∃ pc, s.pc = .read (.drainBatch b) pc) ∨ ∃ buf, s.pc = .commit (.drainBatch b) (.ok buf))
  finished : inBatch s.pc = false → s.panicked = false → s.handled.length = before + count

theorem endBatch_over (s : Subscriber n) (b : Batch) :
    inBatch (s.endBatch b).pc = false ∧ (s.endBatch b).handled = s.handled := by
  unfold Subscriber.endBatch
  split <;> exact ⟨rfl, rfl⟩

theorem endBatch_left (s : Subscriber n) (b : Batch) : batchLeft (s.endBatch b).pc = 0 := by
  unfold Subscriber.endBatch
  split <;> rfl

theorem onPending_left (policy : DrainPolicy) (idle : Nat) (final : Bool) (head : Nat) :
    batchLeft (s.onPending cfg policy idle final head).pc ≤ pendingOf cfg.capacity head s.cursor * (n + 3) := by
  refine Subscriber.onPending_cases (P := fun u => batchLeft u.pc ≤ pendingOf cfg.capacity head s.cursor * (n + 3))
    (fun _ => ?_) (fun _ => Nat.le_refl _)
  rw [endBatch_left]
  exact Nat.zero_le _

/-- The sample of `pending` begins a batch of that many messages. -/
theorem Progress.begin (policy : DrainPolicy) (idle : Nat) (final : Bool) (head : Nat) :
    Progress s.handled.length (pendingOf cfg.capacity head s.cursor) (s.onPending cfg policy idle final head) := by
  refine Subscriber.onPending_cases (fun h0 => ?_) (fun h0 => ?_)
  · obtain ⟨hout, hhan⟩ := endBatch_over s
      ⟨policy, idle, final, pendingOf cfg.capacity head s.cursor, 0, 0, s.cursor⟩
    refine ⟨fun hin => ?_, fun _ _ => ?_⟩
    · rw [hout] at hin
      cases hin
    · rw [hhan, h0]
      rfl
  · exact ⟨fun _ => ⟨_, rfl, Nat.pos_of_ne_zero h0, rfl, Or.inl ⟨_, rfl⟩⟩, fun hout => by cases hout⟩

theorem readStep_left {b : Batch} {sl : Slot n} {q : Nat} {pc pc' : ReadPc n} (hi : b.i < b.batch)
    (hoff : ∀ off buf, pc = .load off buf → off ≤ n) (h : sl.readStep q pc = .inl pc') :
    batchLeft (.read (.drainBatch b) pc') < batchLeft (.read (.drainBatch b) pc) := by
  have hone : n + 3 ≤ (b.batch - b.i) * (n + 3) := Nat.le_mul_of_pos_left _ (by omega)
  cases pc with
  | stamp =>
    simp only [Slot.readStep] at h
    split_ifs at h
    cases h
    simp only [batchLeft]
    omega
  | load off buf =>
    simp only [Slot.readStep] at h
    split_ifs at h
    cases h
    have hw := stripeWidth_pos (n - off)
    simp only [batchLeft]
    omega

/-- A step of the consumer inside its batch brings it nearer to the end. -/
theorem Progress.step {before count b : Nat} (hp : Progress before count s) (h : Handed r seq b s)
    (hin : inBatch s.pc = true)
    (hheld : ∀ c pc, s.pc = .read c pc → s.cursor < seq →
      (r.slots (cfg.slot s.cursor)).stamp = done s.cursor)
    (hoff : ∀ c off buf, s.pc = .read c (.load off buf) → off ≤ n)
    (hs : s.step cfg r t i = some (t', s')) :
    Progress before count s' ∧ (NoLoss s → NoLoss s') ∧ batchLeft s'.pc < batchLeft s.pc := by
  have hloop := h.loop
  obtain ⟨x, hcount, hdone, hlen, ⟨pc, hpc⟩ | ⟨buf, hpc⟩⟩ := hp.running hin
  · rw [hpc] at hloop
    obtain ⟨-, -, hi, hpub⟩ := hloop
    have hone : n + 3 ≤ (x.batch - x.i) * (n + 3) := Nat.le_mul_of_pos_left _ (by omega)
    rcases read_in_batch hpc (hheld _ pc hpc (by omega)) hs with ⟨pc', hrs, rfl⟩ | ⟨buf, hrs, rfl⟩
    · refine ⟨⟨fun _ => ⟨x, hcount, hdone, hlen, Or.inl ⟨pc', rfl⟩⟩, fun hout => (by cases hout)⟩, fun hn => hn, ?_⟩
      rw [hpc]
      exact readStep_left hi (fun off buf he => hoff _ off buf (he ▸ hpc)) hrs
    · refine ⟨⟨fun _ => ⟨x, hcount, hdone, hlen, Or.inr ⟨buf, rfl⟩⟩, fun hout => (by cases hout)⟩, fun hn => hn, ?_⟩
      rw [hpc]
      cases pc with
      | stamp =>
        simp only [batchLeft]
        omega
      | load off b =>
        have := hoff _ off b hpc
        simp only [batchLeft]
        omega
  · rw [hpc] at hloop
    obtain ⟨-, hxi, hi, -⟩ := hloop
    have hone : n + 3 ≤ (x.batch - x.i) * (n + 3) := Nat.le_mul_of_pos_left _ (by omega)
    simp only [Subscriber.step, hpc] at hs
    cases hs
    have hcounted := onCommit_counted s (.drainBatch x) (.ok buf)
    refine ⟨?_, fun hn => ⟨hcounted.kind ▸ hn.1, hcounted.latestUsed ▸ hn.2⟩, ?_⟩
    · have hgrown : (s.handled ++ [(buf, x.seq, x.i + 1 == x.batch)]).length = before + (x.done + 1) := by
        rw [List.length_append, List.length_singleton]
        omega
      refine Subscriber.handle_cases (P := Progress before count) (fun _ => ?_) (fun _ => ?_)
      · exact ⟨fun hin => (by cases hin), fun _ hreturned => (by cases hreturned)⟩
      · unfold Subscriber.nextInBatch
        split
        · rename_i hnext
          refine ⟨fun _ => ⟨{ x with done := x.done + 1, i := x.i + 1, seq := s.cursor }, hcount, ?_, hgrown,
            Or.inl ⟨_, rfl⟩⟩, fun hout => by cases hout⟩
          dsimp only at hnext ⊢
          omega
        · rename_i hnext
          dsimp only at hnext
          obtain ⟨hout, hhan⟩ := endBatch_over (n := n) _ { x with done := x.done + 1 }
          refine ⟨fun hin => ?_, fun _ _ => ?_⟩
          · rw [hout] at hin
            cases hin
          · rw [hhan]
            exact hgrown.trans (by omega)
    · have hleft : 0 < batchLeft (n := n) (.commit (.drainBatch x) (.ok buf)) := by
        simp only [batchLeft]
        omega
      rw [hpc]
      refine Subscriber.handle_cases (P := fun u => batchLeft u.pc < _) (fun _ => hleft) (fun _ => ?_)
      unfold Subscriber.nextInBatch
      split
      · change (x.batch - (x.i + 1)) * (n + 3) < (x.batch - x.i) * (n + 3) - n - 2
        have hsplit : (x.batch - x.i) * (n + 3) = (x.batch - (x.i + 1)) * (n + 3) + (n + 3) := by
          rw [← Nat.succ_mul]
          congr 1
          omega
        omega
      · rw [endBatch_left]
        exact hleft

theorem batch_step (h : batchStep cfg j w a = some w') :
    inBatch (w.subs j).pc = true ∧ step cfg w a = some w' := by
  unfold batchStep at h
  split at h
  · exact ⟨‹_›, h⟩
  · cases h

theorem batch_messages {as : List (Act n)} (h : run (batchStep cfg j) w as = some w') :
    messages w ≤ messages w' := by
  induction as generalizing w with
  | nil => rw [Option.some.inj h]
  | cons a as ih =>
    obtain ⟨u, hu, hrest⟩ := Option.bind_eq_some_iff.mp h
    exact (step_log_le (batch_step hu).2).trans (ih hrest)

/-- A batch that is under way, and whose it is. -/
structure Running (before count : Nat) (policy : DrainPolicy) (b : Nat) (s : Subscriber n) : Prop where
  progress : Progress before count s
  noLoss : NoLoss s
  spawned : s.spawned = some (policy, b)

/-- A label of subscriber `j`'s own thread. -/
def own (j : Nat) : Act n → Bool
  | .sub i => i == j
  | _ => false

/-- Whatever the publisher and other subscribers do meanwhile, a batch goes on as it began. -/
theorem step_running {before count b : Nat} {policy : DrainPolicy} (hk : cfg.kind = .bounded wm)
    (h : Reach cfg w) (hl : messages w < seqLimit) (hp : Running before count policy b (w.subs j))
    (hst : batchStep cfg j w a = some w') :
    Running before count policy b (w'.subs j) ∧
      batchLeft (w'.subs j).pc + (if own j a then 1 else 0) ≤ batchLeft (w.subs j).pc := by
  obtain ⟨hin, hst⟩ := batch_step hst
  obtain ⟨hprog, hn, hsp⟩ := hp
  have hidle {s' : Subscriber n} (hs : s' = w.subs j) (hown : own j a = false) :
      batchLeft s'.pc + (if own j a then 1 else 0) ≤ batchLeft (w.subs j).pc := by
    rw [hs, hown]
    exact Nat.le_refl _
  by_cases hown : own j a = true
  · obtain rfl : a = .sub j := by
      cases a with
      | sub i => rw [show i = j by simpa [own] using hown]
      | _ => cases hown
    obtain ⟨⟨t', s'⟩, he, rfl⟩ := Option.map_eq_some_iff.mp hst
    obtain ⟨hs, hb, hstreams⟩ := reach_sound hk h hl
    obtain ⟨hprog', hn', hleft⟩ := hprog.step ((hstreams j).after policy b hsp hn) hin
      (fun c pc hpc hlt => held_of_noLoss hk hl hs hb hn hpc hlt)
      (fun c off buf hpc => by
        have hstage := (hs.readers j).stage
        rw [hpc] at hstage
        exact hstage.1) he
    rw [setSub_self, hown]
    exact ⟨⟨hprog', hn' hn, (step_spawned he).trans hsp⟩, hleft⟩
  · have hown' : own j a = false := by simpa using hown
    cases step_subs hst j with
    | other he => rw [he]; exact ⟨⟨hprog, hn, hsp⟩, hidle rfl hown'⟩
    | subscribe he _ => rw [(subscribe_pc he).1] at hin; cases hin
    | call he _ =>
      rw [(call_idle he).1] at hin
      cases hin
    | step he => simp [own] at hown
    | drop he _ => obtain ⟨hpc | hpc, _⟩ := drop_pc he <;> rw [hpc] at hin <;> cases hin
    | shutdown he _ => rw [he]; exact ⟨⟨⟨hprog.running, hprog.finished⟩, hn, hsp⟩, Nat.le_refl _⟩

theorem run_running {before count b : Nat} {policy : DrainPolicy} {as : List (Act n)}
    (hk : cfg.kind = .bounded wm) (h : Reach cfg w) (hp : Running before count policy b (w.subs j))
    (hrun : run (batchStep cfg j) w as = some w') (hl : messages w' < seqLimit) :
    Running before count policy b (w'.subs j) ∧
      batchLeft (w'.subs j).pc + as.countP (own j) ≤ batchLeft (w.subs j).pc := by
  induction as generalizing w with
  | nil =>
    obtain rfl := Option.some.inj hrun
    exact ⟨hp, Nat.le_refl _⟩
  | cons a as ih =>
    obtain ⟨u, hu, hrest⟩ := Option.bind_eq_some_iff.mp hrun
    have hl0 : messages w < seqLimit := (batch_messages hrun).trans_lt hl
    obtain ⟨hp', hleft⟩ := step_running hk h hl0 hp hu
    obtain ⟨hend, hcount⟩ := ih (h.next (batch_step hu).2) hp' hrest
    refine ⟨hend, ?_⟩
    rw [List.countP_cons]
    omega

/-- A consumer on a subscriber of a bounded channel made by `subscribe` (or
`subscribe_tracked`) that never called `latest`: the `k`-th call of its handler is made
with the message and the number of the `k`-th sequence from where the consumer took over.
A batch whose handler does not panic hands over exactly as many messages as `pending`
counted when it began: while it runs no receive of it is `Empty` or `Lagged`, the consumer is
never blocked, and it is over after at most `n + 3` steps of the consumer for each message. -/
theorem consumer_stream (hk : cfg.kind = .bounded wm) (h : Reach cfg w) (hl : messages w < seqLimit)
    (hkind : (w.subs j).kind = .subscribe ∨ (w.subs j).kind = .tracked)
    (hlat : (w.subs j).latestUsed = false) {policy : DrainPolicy} {b : Nat}
    (hsp : (w.subs j).spawned = some (policy, b)) :
    (∀ k x, (w.subs j).handled[k]? = some x →
      ∃ v, w.ring.log[b + k]? = some v ∧ x.1 = bytesOf v ∧ x.2.1 = b + k) ∧
    ((∀ c res, (w.subs j).pc ≠ .commit c res) → b + (w.subs j).handled.length = (w.subs j).cursor) ∧
    ∀ p idle final w1 as w2, (w.subs j).pc = .loadPending p idle final → step cfg w (.sub j) = some w1 →
      run (batchStep cfg j) w1 as = some w2 → messages w2 < seqLimit →
      (inBatch (w2.subs j).pc = false → (w2.subs j).panicked = false →
        (w2.subs j).handled.length = (w.subs j).handled.length +
          pendingOf cfg.capacity w.ring.cursor (w.subs j).cursor) ∧
      (inBatch (w2.subs j).pc = true → (step cfg w2 (.sub j)).isSome ∧
        ∃ x, (∃ pc, (w2.subs j).pc = .read (.drainBatch x) pc) ∨
          ∃ buf, (w2.subs j).pc = .commit (.drainBatch x) (.ok buf)) ∧
      as.countP (own j) ≤ pendingOf cfg.capacity w.ring.cursor (w.subs j).cursor * (n + 3) := by
  have hn : NoLoss (w.subs j) := ⟨hkind, hlat⟩
  obtain ⟨hlen, hd, _⟩ := ((reach_sound hk h hl).streams j).after policy b hsp hn
  refine ⟨hd, fun hnc => hlen.trans (settled_eq hnc), fun p idle final w1 as w2 hpc h1 h2 hl2 => ?_⟩
  have hbegin : Running (w.subs j).handled.length (pendingOf cfg.capacity w.ring.cursor (w.subs j).cursor)
      policy b (w1.subs j) ∧
      batchLeft (w1.subs j).pc ≤ pendingOf cfg.capacity w.ring.cursor (w.subs j).cursor * (n + 3) := by
    obtain ⟨⟨t', s'⟩, hst, rfl⟩ := Option.map_eq_some_iff.mp h1
    rw [setSub_self]
    have hsp' := (step_spawned hst).trans hsp
    simp only [Subscriber.step, hpc] at hst
    cases hst
    obtain ⟨hloc, _⟩ := onPending_local cfg p idle final w.ring.cursor (w.subs j)
    exact ⟨⟨.begin p idle final w.ring.cursor, ⟨hloc.kind ▸ hkind, hloc.latestUsed ▸ hlat⟩, hsp'⟩,
      onPending_left ..⟩
  obtain ⟨⟨⟨hrun, hover⟩, _, _⟩, hleft⟩ := run_running hk (h.next h1) hbegin.1 h2 hl2
  refine ⟨hover, fun hin => ?_, by omega⟩
  obtain ⟨x, _, _, _, hx⟩ := hrun hin
  refine ⟨?_, x, hx⟩
  rcases hx with ⟨pc, hx⟩ | ⟨buf, hx⟩
  · simp only [step, Subscriber.step, hx]
    split <;> rfl
  · simp only [step, Subscriber.step, hx]
    rfl

/-- A consumer after a batch of two messages, during which a third one was published. -/
theorem consumer_stream_refilled :
    ∃ w : World 1, Reach Config.smallBounded w ∧ (w.subs 0).spawned = some (.drain, 0) ∧
      (w.subs 0).handled.length = 2 ∧ messages w = 3 ∧
      ∃ v x, w.ring.log[1]? = some v ∧ (w.subs 0).handled[1]? = some x ∧ x.1 = bytesOf v ∧ x.2.1 = 1 := by
  obtain ⟨w, hr, hp⟩ := Reachable.of_run_any (step Config.smallBounded) (World.new 1)
    (fun w => decide (messages w = 3 ∧ (w.subs 0).kind = .subscribe ∧ (w.subs 0).latestUsed = false ∧
      (w.subs 0).spawned = some (.drain, 0) ∧ (w.subs 0).handled.length = 2))
    (List.flatten [.subscribe 0 .subscribe :: List.replicate 3 (.sub 0),
      .pubCall (.publish fun _ => 7) :: List.replicate 5 .pub,
      .pubCall (.publish fun _ => 8) :: List.replicate 5 .pub,
      .subCall 0 (.consume .drain none) :: List.replicate 6 (.sub 0),
      .pubCall (.publish fun _ => 9) :: List.replicate 9 .pub, List.replicate 4 (.sub 0)]) (by decide +kernel)
  obtain ⟨hm, hkind, hlat, hsp, hlen⟩ := of_decide_eq_true hp
  obtain ⟨hall, _⟩ := consumer_stream rfl hr (by rw [hm]; decide) (Or.inl hkind) hlat hsp
  have hget : (w.subs 0).handled[1]? = some (w.subs 0).handled[1] := List.getElem?_eq_getElem (by omega)
  obtain ⟨v, hv, hb, hq⟩ := hall 1 _ hget
  exact ⟨w, hr, hsp, hlen, hm, v, _, hv, hget, hb, hq⟩

/-- A consumer that begins a batch of two messages in a ring of two slots. -/
theorem begin_batch {w : World 1} (hpc : (w.subs 1).pc = .idle) (hcur : (w.subs 1).cursor = 0)
    (hshut : (w.subs 1).shutdown = false) (hhead : w.ring.cursor = 1) :
    ∃ w' b, Reachable (step Config.smallBounded) w w' ∧ w'.publisher = w.publisher ∧
      w'.subs 1 = { w.subs 1 with panicAt := none, spawned := some (.drain, 0) }.poll (.drainBatch b) := by
  have hpend : pendingOf Config.smallBounded.capacity 1 0 = 2 := by decide
  have hbatch : run (step Config.smallBounded) w (.subCall 1 (.consume .drain none) :: List.replicate 2 (.sub 1)) =
      some (w.setSub 1 ({ w.subs 1 with panicAt := none, spawned := some (.drain, 0) }.poll
        (.drainBatch ⟨.drain, 0, false, 2, 0, 0, 0⟩))) := by
    simp [run, step, Subscriber.call, hpc, Subscriber.step, hcur, hshut, hhead, Subscriber.onPending, hpend, setSub,
      Subscriber.poll]
  exact ⟨_, _, Reachable.start.of_run hbatch, rfl, setSub_self ..⟩

/-- The first message of the batch has been overwritten by the third one. -/
theorem lag_in_batch {w : World 1} {b : Batch} (hpc : (w.subs 1).pc = .read (.drainBatch b) .stamp)
    (hcur : (w.subs 1).cursor = 0) (hhead : w.ring.cursor = 2) (hst : (w.ring.slots 0).stamp = 6) :
    ∃ w', Reachable (step Config.smallBounded) w w' ∧
      w'.subs 1 = { w.subs 1 with cursor := 1, pc := .commit (.drainBatch b) (.lagged 1) } := by
  have hslot : Config.smallBounded.slot 0 = 0 := by decide +kernel
  have hdone : done 0 = 2 := by decide
  have hmax : ¬ 2 = u64Max := by decide
  have hcap : Config.smallBounded.capacity = 2 := rfl
  have hrun : run (step Config.smallBounded) w [.sub 1, .sub 1] = some (w.setSub 1
      { w.subs 1 with cursor := 1, pc := .commit (.drainBatch b) (.lagged 1) }) := by
    simp [run, step, hpc, Subscriber.step, setSub, hcur, Slot.readStep, hslot, hst, hdone, Subscriber.onTryRead,
      Subscriber.onHead, hhead, hmax, hcap]
  exact ⟨_, Reachable.start.of_run hrun, setSub_self ..⟩

/-- After `2 ^ 64` messages the publisher takes the
position of a subscriber that is gone for that of a new one, and overwrites the first
message of the batch that the new one is in. -/
theorem batch_lags : ∃ w : World 1, Reach Config.smallBounded w ∧ (w.subs 1).kind = .subscribe ∧
    (w.subs 1).latestUsed = false ∧ ∃ b, (w.subs 1).pc = .commit (.drainBatch b) (.lagged 1) := by
  obtain ⟨u, hu, htrust, hfree, hcur, hun⟩ := reach_wrapped
  have hk : Config.smallBounded.kind = .bounded 0 := rfl
  have hjoin := subscribe_run hk hun.pc hfree
  rw [hcur, show startOf u64Max = 0 from rfl] at hjoin
  have htrust1 : Trusting 0 (joined u 1 .subscribe 0) := ⟨htrust.idle, htrust.cached, htrust.seq⟩
  obtain ⟨w2, h2, htrust2, hsubs2, _⟩ := htrust1.publish (by decide) (hu.of_run hjoin) fun _ => 1
  obtain ⟨w3, h3, htrust3, hsubs3, hhead3, _⟩ := htrust2.publish (by decide) h2 fun _ => 2
  have hsub : w3.subs 1 = { u.subs 1 with kind := .subscribe }.created 0 true := by
    rw [hsubs3, hsubs2]
    exact joined_self ..
  have hshut : (w3.subs 1).shutdown = false := by
    rw [hsub]
    exact hun.shutdown
  obtain ⟨w4, b, h4, hpub, hsub4⟩ := begin_batch (by rw [hsub]; rfl) (by rw [hsub]; rfl) hshut hhead3
  have htrust4 : Trusting 2 w4 := by
    refine ⟨?_, ?_, ?_⟩ <;> rw [hpub]
    · exact htrust3.idle
    · exact htrust3.cached
    · exact htrust3.seq
  obtain ⟨w5, h5, _, hsubs5, hhead5, _, hslots5⟩ := htrust4.publish (by decide) (h3.trans h4) fun _ => 3
  have hsub5 : w5.subs 1 = { w3.subs 1 with panicAt := none, spawned := some (.drain, 0) }.poll (.drainBatch b) := by
    rw [hsubs5, hsub4]
  obtain ⟨w6, h6, hsub6⟩ := lag_in_batch (by rw [hsub5]; rfl) (by rw [hsub5, hsub]; rfl) hhead5
    (by rw [hslots5]; rfl)
  refine ⟨w6, h5.trans h6, ?_, ?_, b, by rw [hsub6]⟩
  · rw [hsub6, hsub5, hsub]
    rfl
  · rw [hsub6, hsub5, hsub]
    exact hun.latestUsed

def samplesPending : SubPc n → Bool
  | .loadPending _ _ _ => true
  | _ => false

/-- A batch of two whose handler panics in its first call. -/
theorem batch_panics : ∃ w0 w1 w : World 1, Reach Config.smallBounded w0 ∧ (w0.subs 0).kind = .subscribe ∧
    (w0.subs 0).latestUsed = false ∧ samplesPending (w0.subs 0).pc = true ∧ (w0.subs 0).handled = [] ∧
    pendingOf Config.smallBounded.capacity w0.ring.cursor (w0.subs 0).cursor = 2 ∧
    step Config.smallBounded w0 (.sub 0) = some w1 ∧ Reachable (batchStep Config.smallBounded 0) w1 w ∧
    inBatch (w.subs 0).pc = false ∧ (w.subs 0).handled.length = 1 := by
  obtain ⟨w0, w1, w, h0, h1, h, hp⟩ := Reachable.of_run_step_run (step Config.smallBounded)
    (batchStep Config.smallBounded 0) (World.new 1)
    (fun w0 _ w => decide ((w0.subs 0).kind = .subscribe ∧ (w0.subs 0).latestUsed = false ∧
      samplesPending (w0.subs 0).pc = true ∧ (w0.subs 0).handled = [] ∧
      pendingOf Config.smallBounded.capacity w0.ring.cursor (w0.subs 0).cursor = 2 ∧
      inBatch (w.subs 0).pc = false ∧ (w.subs 0).handled.length = 1))
    (List.flatten [.subscribe 0 .subscribe :: List.replicate 3 (.sub 0),
      .pubCall (.publish fun _ => 7) :: List.replicate 5 .pub,
      .pubCall (.publish fun _ => 8) :: List.replicate 5 .pub,
      [.subCall 0 (.consume .drain (some 0)), .sub 0]]) (.sub 0) (List.replicate 4 (.sub 0)) (by decide +kernel)
  obtain ⟨hkind, hlat, hsample, hnone, hpending, hover, hone⟩ := of_decide_eq_true hp
  exact ⟨w0, w1, w, h0, hkind, hlat, hsample, hnone, hpending, h1, h, hover, hone⟩

/-- Both conditions of `consumer_stream` on a batch are needed: fewer than `2 ^ 63 - 1`
messages, and a handler that does not panic. -/
theorem batch_lags_or_panics :
    (∃ w : World 1, Reach Config.smallBounded w ∧ (w.subs 1).kind = .subscribe ∧
      (w.subs 1).latestUsed = false ∧ ∃ b, (w.subs 1).pc = .commit (.drainBatch b) (.lagged 1)) ∧
    ∃ w0 w1 w : World 1, Reach Config.smallBounded w0 ∧ (w0.subs 0).kind = .subscribe ∧
      (w0.subs 0).latestUsed = false ∧ samplesPending (w0.subs 0).pc = true ∧ (w0.subs 0).handled = [] ∧
      pendingOf Config.smallBounded.capacity w0.ring.cursor (w0.subs 0).cursor = 2 ∧
      step Config.smallBounded w0 (.sub 0) = some w1 ∧ Reachable (batchStep Config.smallBounded 0) w1 w ∧
      inBatch (w.subs 0).pc = false ∧ (w.subs 0).handled.length = 1 := ⟨batch_lags, batch_panics⟩

end PhotonRing.Stream
