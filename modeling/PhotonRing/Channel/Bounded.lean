import PhotonRing.Channel.Backpressure

/-!
# No loss on a bounded channel

Subscribers made by `subscribe` and `subscribe_tracked` that never call `latest` are
covered from the moment they load the head, so the head never gets a whole ring
beyond their cursor and nothing is reported lost.
-/
namespace PhotonRing.Bounded

open Lib Reader World

variable {n : Nat} {cfg : Config} {r r' : Ring n} {t t' : Trackers} {p p' : Publisher n} {i : Nat}
  {s s' : Subscriber n} {wm : Nat}

/-! ## The invariant -/

/-- A subscriber that the publisher has to respect. -/
structure Member (cfg : Config) (t : Trackers) (p : Publisher n) (i : Nat) (s : Subscriber n) : Prop where
  tracker : s.tracker = true
  value : t.value i = settled s.cursor (stage s.pc)
  registered : Trackers.Registered cfg.effective t (listed t p.pc) (gateOf p) i

def SeatOk (cfg : Config) (t : Trackers) (p : Publisher n) (i : Nat) (s : Subscriber n) : Seat → Prop
  | .away => True
  | .asking k => s.kind = k
  | .history => s.kind = .fromOldest
  | .joining start => NoLoss s → (gateOf p).Covers cfg.effective i start
  | .seated => NoLoss s → Member cfg t p i s

/-- Nothing was lost, or is about to be reported lost. -/
def Lossless (s : Subscriber n) : Prop :=
  (∀ e ∈ s.events, ∃ seq buf, e = .received seq buf) ∧ ∀ c k, s.pc ≠ .commit c (.lagged k)

structure Ok (cfg : Config) (w : World n) : Prop where
  mutex : Mutex w.trackers.locked ((gateOf w.publisher).inside fun i => holdsLock (w.subs i).pc)
  values : ∀ i, w.trackers.value i ≤ w.ring.log.length
  behind : (gateOf w.publisher).Behind
  seats : ∀ i, SeatOk cfg w.trackers w.publisher i (w.subs i) (seat (w.subs i).pc)
  lossless : ∀ i, NoLoss (w.subs i) → Lossless (w.subs i)

theorem ok_new (cfg : Config) : Ok cfg (World.new n) where
  mutex := Mutex.of_empty (fun i h => by cases i <;> cases h) _
  values := fun _ => Nat.zero_le _
  behind := ⟨Nat.le_refl _, fun _ _ h => by cases h⟩
  seats := fun _ => trivial
  lossless := fun _ _ => ⟨fun _ he => (by cases he), fun _ _ h => (by cases h)⟩

theorem settled_le (cursor : Nat) (st : Stage n) : settled cursor st ≤ cursor := by
  cases st with
  | ahead res => cases res <;> simp [settled]
  | _ => exact Nat.le_refl _

/-- A step of the publisher respects every registered subscriber, and one that is
about to register, because the lock keeps the publisher from scanning meanwhile. -/
theorem SeatOk.pub {holds : Nat → Prop} (h : SeatOk cfg t p i s (seat s.pc))
    (hm : PubMove cfg t p t' p') (hmutex : Mutex t.locked ((gateOf p).inside holds))
    (hi : holdsLock s.pc → holds i) : SeatOk cfg t' p' i s (seat s.pc) := by
  revert h hi
  cases hpc : s.pc with
  | push start => exact fun h hi hn => hm.gate.joining hmutex (hi trivial) (h hn)
  | absent => exact fun h _ => h
  | lock k => exact fun h _ => h
  | loadHead k => exact fun h _ => h
  | lockPush start => exact fun h _ => h
  | dropLock => exact fun h _ => h
  | dropRetain => exact fun h _ => h
  | dropArc => exact fun h _ => h
  | dropped => exact fun h _ => h
  | _ =>
    intro h _ hn
    obtain ⟨htr, hval, hreg⟩ := h hn
    exact ⟨htr, by rw [hm.value]; exact hval, hreg.turn hm⟩

/-- Steps of other subscribers, and clones of trackers, leave a seat alone. -/
theorem SeatOk.other (h : SeatOk cfg t p i s (seat s.pc)) (hval : t'.value i = t.value i)
    (hstr : 0 < t.strong i → seat s.pc = .seated → 0 < t'.strong i)
    (hreg : i ∈ t.registered → i ∈ t'.registered) : SeatOk cfg t' p i s (seat s.pc) := by
  revert h hstr
  cases seat s.pc with
  | seated =>
    intro h hstr hn
    obtain ⟨htr, hv, hr⟩ := h hn
    refine ⟨htr, hval.trans hv, hr.other hval (fun ha => hstr ha rfl) ?_⟩
    cases p.pc <;> first | exact hreg | exact fun h => h
  | _ => exact fun h _ => h

theorem NoLoss.of_kind (h : NoLoss s') (hk : s'.kind = s.kind)
    (hu : s'.latestUsed = false → s.latestUsed = false) : NoLoss s := ⟨hk ▸ h.1, hu h.2⟩

/-- A subscriber's own step keeps its seat. It registers at the publisher's
position, outside any scan. -/
theorem SeatOk.own (hm : SeatMove r t i s t' s') (h : SeatOk cfg t p i s (seat s.pc))
    (hlatest : InLatest s.pc → s.latestUsed = true) (hbehind : (gateOf p).Behind)
    (hstart : startOf r.cursor = p.seq) (hscan : holdsLock s.pc → (gateOf p).scan = none) :
    SeatOk cfg t' p i s' (seat s'.pc) := by
  cases hm with
  | stay hseat _ hset hkind hused htr =>
    rw [hseat]
    revert h
    cases seat s.pc with
    | away => exact fun h => h
    | asking k => exact fun h => hkind.trans h
    | history => exact fun h => hkind.trans h
    | joining start => exact fun h hn => h (hn.of_kind hkind hused)
    | seated =>
      intro h hn
      have hn' := hn.of_kind hkind hused
      obtain ⟨h1, hval, hreg⟩ := h hn'
      refine ⟨htr.trans h1, ?_, hreg⟩
      rcases hset with hset | hin
      · exact hval.trans hset.symm
      · have hu := hn'.2
        rw [hlatest hin] at hu
        cases hu
  | ask _ hseat _ =>
    rw [hseat]
    rfl
  | leave hseat _ =>
    rw [hseat]
    trivial
  | lock hfree hne hseat =>
    rcases hseat with hseat | ⟨hhist, start, hjoin⟩
    · rw [hseat]
      revert h hne
      cases seat s.pc with
      | seated => exact fun _ hne => absurd rfl hne
      | _ => exact fun h _ => h
    · rw [hhist] at h
      rw [hjoin]
      have hkind : s.kind = .fromOldest := h
      intro hn
      rcases hn.1 with hk | hk <;> rw [hkind] at hk <;> cases hk
  | @join k hs hk =>
    intro _
    have hl : holdsLock s.pc := by rw [hs]; rcases hk with rfl | rfl <;> trivial
    rw [hstart]
    exact .join cfg.effective_pos hbehind (hscan hl)
  | lossy hs =>
    rw [hs] at h
    have hkind : s.kind = .lossy := h
    intro hn
    rcases hn.1 with hk | hk <;> rw [show s.kind = _ from hk] at hkind <;> cases hkind
  | history hs =>
    rw [hs] at h
    exact h
  | @push start hs =>
    rw [hs] at h
    intro hn
    have hpush : Trackers.Registered cfg.effective _ (t.registered ++ [i]) (gateOf p) i :=
      .push (t := t) (h hn)
    refine ⟨rfl, Function.update_self .., hpush.other rfl (fun ha => ha) (fun hm => ?_)⟩
    have hout : scanOf p.pc = none := hscan (by rw [hs]; trivial)
    revert hout
    cases p.pc <;> first | exact fun _ => hm | exact fun hout => by cases hout
  | @commit c res hs =>
    rw [hs] at h
    have hcount := onCommit_counted s c res
    have hseat : seat (s.onCommit c res).pc = .seated := by cases res <;> exact resume_seated _ _ _
    rw [hseat]
    intro hn
    obtain ⟨h1, hval, hreg⟩ := h (hn.of_kind hcount.kind (by rw [hcount.latestUsed]; exact fun hu => hu))
    rw [if_pos h1]
    refine ⟨hcount.tracker.trans h1, ?_, (hreg.store (v := s.cursor) ?_).other rfl (fun ha => ha) ?_⟩
    · rw [hcount.stage, hcount.cursor]
      exact Function.update_self ..
    · exact hval.trans_le (settled_le _ _)
    · cases p.pc <;> exact fun hm => hm
  | unlist hs => trivial
  | release hs => trivial

/-! ## Along a run -/

theorem kind_ne_mpmc (hk : cfg.kind = .bounded wm) : cfg.kind ≠ .mpmc := by
  rw [hk]
  intro h
  cases h

theorem lossless_of_fresh (h : Reader.Ok cfg r s) (hs : stage s.pc = .fresh) : Lossless s := by
  constructor
  · intro e he
    rw [(h.blank (by rw [hs]; exact fun hf => hf)).1] at he
    cases he
  · intro c k hpc
    rw [hpc] at hs
    cases hs

/-- With the head less than a ring beyond the cursor, nothing is reported lost. -/
theorem Lossless.change (h : Lossless s) (hc : Change cfg r s s') (hr : Reader.Ok cfg r s)
    (hhead : ∀ c, s.pc = .head c → r.cursor ≠ u64Max → r.cursor < s.cursor + cfg.capacity) :
    Lossless s' := by
  cases hc with
  | wait hst hb _ _ _ =>
    refine ⟨(Book.mk.inj hb).2.2.2 ▸ h.1, fun c k hpc => ?_⟩
    rw [hpc] at hst
    rcases hst with hst | ⟨_, hst⟩
    · have hs := h.2
      revert hs hst
      cases s.pc with
      | commit c' res => exact fun hst hs => hs c' k (by rw [← Stage.ahead.inj hst])
      | read c' pc => cases pc <;> exact fun hst => by cases hst
      | _ => exact fun hst => by cases hst
    · cases hst
  | join _ _ hs' hb _ _ _ =>
    refine ⟨(Book.mk.inj hb).2.2.2 ▸ h.1, fun c k hpc => ?_⟩
    rw [hpc] at hs'
    cases hs'
  | create _ => exact ⟨h.1, fun c k hpc => by cases hpc⟩
  | load _ _ => exact ⟨h.1, fun c k hpc => by cases hpc⟩
  | value _ _ => exact ⟨h.1, fun c k hpc => by cases hpc⟩
  | lag hs hmax hcap hlt =>
    have := hhead _ hs hmax
    omega
  | @commit c res hs =>
    have hpc (c' : Caller n) (k : Nat) : (s.onCommit c res).pc ≠ .commit c' (.lagged k) := by
      intro hpc
      have hready := (onCommit_counted s c res).stage
      rw [hpc] at hready
      cases hready
    cases res with
    | ok buf =>
      refine ⟨fun e he => ?_, hpc⟩
      obtain ⟨hloc, _⟩ := resume_local { s with
        totalReceived := u64 (s.totalReceived + 1)
        events := s.events ++ [Event.received (s.cursor - 1) buf] } (.ok buf) c
      have hev : (s.onCommit c (.ok buf)).events = s.events ++ [Event.received (s.cursor - 1) buf] :=
        (Book.mk.inj hloc.book).2.2.2
      rw [hev] at he
      rcases List.mem_append.mp he with hm | hm
      · exact h.1 e hm
      · exact ⟨_, _, List.mem_singleton.mp hm⟩
    | empty =>
      have hst := hr.stage
      rw [hs] at hst
      exact hst.elim
    | lagged k => exact absurd hs (h.2 c k)
  | jump _ _ => exact ⟨h.1, fun c k hpc => by cases hpc⟩

variable {w w' : World n} {a : Act n}

/-- A covered subscriber's cursor is less than a ring behind the head. -/
theorem Ok.head_lt (hb : Ok cfg w) (hn : NoLoss (w.subs i)) {c : Caller n}
    (hpc : (w.subs i).pc = .head c) (hcur : w.ring.cursor = expectedCursor w.publisher.seq)
    (hmax : w.ring.cursor ≠ u64Max) : w.ring.cursor < (w.subs i).cursor + cfg.capacity := by
  have hseat := hb.seats i
  rw [hpc] at hseat
  obtain ⟨_, hval, hreg⟩ := hseat hn
  rw [hpc] at hval
  have hval' : w.trackers.value i = (w.subs i).cursor := hval
  have hpos : w.publisher.seq ≤ w.trackers.value i + cfg.effective := hreg.covers.pos_le
  have heff := cfg.effective_le
  have hcap := cfg.two_le
  unfold expectedCursor at hcur
  split_ifs at hcur with h0
  · exact absurd hcur hmax
  · omega

/-- A step of one subscriber, with everything it does to the trackers. -/
theorem Ok.subMove (hb : Ok cfg w) (hs : Sane cfg w) (hk : cfg.kind = .bounded wm)
    (hl : messages w < seqLimit)
    (hm : SeatMove w.ring w.trackers i (w.subs i) t' s') (hc : Change cfg w.ring (w.subs i) s') :
    Ok cfg ({ w with trackers := t' }.setSub i s') := by
  have hkind := kind_ne_mpmc hk
  have hsp := (hs.written.single hkind).1
  have hreader := hs.readers i
  have hlen := hsp.length
  have hseq : w.publisher.seq < seqLimit := by unfold messages at hl; omega
  have hself := setSub_self { w with trackers := t' } i s'
  have hne {j : Nat} (hj : j ≠ i) := setSub_ne { w with trackers := t' } s' hj
  refine ⟨?_, ?_, hb.behind, ?_, ?_⟩
  · refine Gate.reader_mutex hb.mutex (i := i) (fun j hj => by rw [hne hj]) ?_
    rw [hself]
    exact hm.lock_cases
  · intro j
    change t'.value j ≤ w.ring.log.length
    rcases hm.value j with hv | hv | ⟨start, hpc, hv⟩
    · rw [hv]; exact hb.values j
    · rw [hv]; exact hreader.cursor_le
    · rw [hv]
      have hst := hreader.stage
      rw [hpc] at hst
      exact hst
  · intro j
    by_cases hj : j = i
    · subst hj
      rw [hself]
      change SeatOk cfg t' w.publisher j s' (seat s'.pc)
      refine SeatOk.own hm (hb.seats j) hreader.latest hb.behind ?_ (fun hh => Gate.scan_none hb.mutex hh)
      rw [hsp.cursor, startOf_expectedCursor (by unfold seqLimit at hseq; omega)]
    · rw [hne hj]
      obtain ⟨h1, h2, h3⟩ := hm.others hj
      exact (hb.seats j).other h1 (fun h _ => h2.symm ▸ h) h3
  · intro j hn
    by_cases hj : j = i
    · subst hj
      rw [hself] at hn ⊢
      rcases hm.kind with ⟨_, hfresh⟩ | ⟨hkd, hused⟩
      · exact lossless_of_fresh (hc.ok hreader hs.written.ring hl) hfresh
      · have hn' := hn.of_kind hkd hused
        exact (hb.lossless j hn').change hc hreader
          (fun c hpc hmax => hb.head_lt hn' hpc hsp.cursor hmax)
    · rw [hne hj] at hn ⊢
      exact hb.lossless j hn

/-- A step of the publisher. -/
theorem Ok.pubMove (hb : Ok cfg w) (hs : Sane cfg w) (hk : cfg.kind = .bounded wm)
    (hm : PubMove cfg w.trackers w.publisher t' p') (hg : w.ring.Grows r') :
    Ok cfg { w with ring := r', trackers := t', publisher := p' } := by
  have hkind := kind_ne_mpmc hk
  have hlen := (hs.written.single hkind).1.length
  refine ⟨hm.gate.mutex hb.mutex, ?_, ?_, ?_, hb.lossless⟩
  · intro j
    rw [show t'.value = w.trackers.value from hm.value]
    exact (hb.values j).trans hg.log_le
  · refine hb.behind.move hm.gate.move (fun todo m hscan j => (hb.values j).trans ?_)
    change w.ring.log.length ≤ w.publisher.seq
    have hscan' : scanOf w.publisher.pc = some (todo, m) := hscan
    revert hscan' hlen
    cases w.publisher.pc <;> first
      | exact fun hlen _ => hlen.le
      | exact fun _ hscan => by cases hscan
  · intro j
    exact (hb.seats j).pub hm hb.mutex (fun hh => hh)

/-- Cloning a tracker, or dropping a clone, leaves the subscriber's own reference. -/
theorem Ok.clone (hb : Ok cfg w) {strong : Nat → Nat}
    (hstr : ∀ j, 0 < w.trackers.strong j → seat (w.subs j).pc = .seated → 0 < strong j) :
    Ok cfg { w with trackers := { w.trackers with strong := strong } } :=
  ⟨hb.mutex, hb.values, hb.behind, fun j => (hb.seats j).other rfl (hstr j) (fun h => h), hb.lossless⟩

/-- All that a label can do on a bounded channel: move the publisher, move one subscriber,
clone a tracker or drop a clone. -/
inductive Moved (cfg : Config) (w : World n) : World n → Prop where
  | same : Moved cfg w w
  | pub {r' : Ring n} {t' : Trackers} {p' : Publisher n} (hm : PubMove cfg w.trackers w.publisher t' p')
      (hg : w.ring.Grows r') : Moved cfg w { w with ring := r', trackers := t', publisher := p' }
  | sub {i : Nat} {t' : Trackers} {s' : Subscriber n} (hm : SeatMove w.ring w.trackers i (w.subs i) t' s')
      (hc : Change cfg w.ring (w.subs i) s') : Moved cfg w ({ w with trackers := t' }.setSub i s')
  | clone {strong : Nat → Nat}
      (hstr : ∀ j, 0 < w.trackers.strong j → seat (w.subs j).pc = .seated → 0 < strong j) :
      Moved cfg w { w with trackers := { w.trackers with strong := strong } }

theorem step_moved (hk : cfg.kind = .bounded wm) (h : step cfg w a = some w')
    (hl : messages w' < seqLimit) (hs : Sane cfg w) : Moved cfg w w' := by
  obtain ⟨_, hgrows⟩ := step_written h hl hs.written
  have hl0 : messages w < seqLimit := (step_log_le h).trans_lt hl
  have hkind := kind_ne_mpmc hk
  obtain ⟨hsp, hidle⟩ := hs.written.single hkind
  have hlen := hsp.length
  have hseq : w.publisher.seq < seqLimit := by unfold messages at hl0; omega
  have hsub {i : Nat} {s' : Subscriber n} (h : step cfg w a = some (w.setSub i s'))
      (hm : SeatMove w.ring w.trackers i (w.subs i) w.trackers s') : Moved cfg w (w.setSub i s') := by
    rcases step_reader h i with he | hc
    · rw [setSub_self] at he
      have hw : w.setSub i s' = w := by unfold setSub; rw [he]; simp
      rw [hw]
      exact .same
    · rw [setSub_self] at hc
      exact .sub hm hc
  cases a with
  | pubCall c =>
    simp only [step] at h
    split_ifs at h
    obtain ⟨p, hp, rfl⟩ := Option.map_eq_some_iff.mp h
    exact .pub (call_move hp) (Ring.Grows.refl _)
  | pub =>
    obtain ⟨⟨r, t, p⟩, hp, rfl⟩ := Option.map_eq_some_iff.mp h
    exact .pub (pub_move hk hseq hp) hgrows
  | mpCall p c =>
    simp only [step, if_neg hkind] at h
    cases h
  | mp p =>
    simp only [step, hidle p, MpPc.step, Option.map_none] at h
    cases h
  | subscribe i k =>
    obtain ⟨s, hi, rfl⟩ := Option.map_eq_some_iff.mp h
    exact hsub h (subscribe_seat hk hi)
  | subCall i c =>
    obtain ⟨s, hi, rfl⟩ := Option.map_eq_some_iff.mp h
    exact hsub h (call_seat hi)
  | sub i =>
    obtain ⟨⟨t, s⟩, hi, rfl⟩ := Option.map_eq_some_iff.mp h
    exact .sub (step_seat hk ((hs.readers i).cursor_lt hl0) hi) (step_change hi)
  | drop i =>
    obtain ⟨s, hi, rfl⟩ := Option.map_eq_some_iff.mp h
    exact hsub h (drop_seat hi)
  | cloneTracker i =>
    simp only [step] at h
    split_ifs at h
    cases h
    refine .clone (fun j hj _ => ?_)
    by_cases hji : j = i
    · subst hji; simp
    · rwa [Function.update_of_ne hji]
  | dropClone i =>
    simp only [step] at h
    split_ifs at h with hcond
    cases h
    refine .clone (fun j hj hseat => ?_)
    by_cases hji : j = i
    · subst hji
      rw [Function.update_self]
      rcases hcond with hc | ⟨hc, _⟩
      · omega
      · split at hc
        · rename_i hd
          rw [hd] at hseat
          cases hseat
        · cases hc
    · rwa [Function.update_of_ne hji]
  | shutdown i =>
    cases h
    exact hsub rfl (.stay rfl Iff.rfl (Or.inl rfl) rfl (fun hu => hu) rfl)

theorem step_ok (hk : cfg.kind = .bounded wm) (h : step cfg w a = some w')
    (hl : messages w' < seqLimit) (hs : Sane cfg w) (hb : Ok cfg w) : Ok cfg w' := by
  have hl0 : messages w < seqLimit := (step_log_le h).trans_lt hl
  cases step_moved hk h hl hs with
  | same => exact hb
  | pub hm hg => exact hb.pubMove hs hk hm hg
  | sub hm hc => exact hb.subMove hs hk hl0 hm hc
  | clone hstr => exact hb.clone hstr

theorem reach_ok (hk : cfg.kind = .bounded wm) (h : Reach cfg w) (hl : messages w < seqLimit) :
    Sane cfg w ∧ Ok cfg w :=
  Reachable.invariant_below (P := fun w => Sane cfg w ∧ Ok cfg w) messages seqLimit
    (fun _ _ _ hs => step_log_le hs) ⟨⟨written_new cfg, fun _ => ok_absent cfg _⟩, ok_new cfg⟩
    (fun _ _ _ hs hlt hw => ⟨step_sane hs hlt hw.1, step_ok hk hs hlt hw.1 hw.2⟩) h hl

theorem sum_lost_eq_zero {es : List (Event n)} (h : ∀ e ∈ es, ∃ seq buf, e = .received seq buf) :
    (es.map Event.lost).sum = 0 := by
  induction es with
  | nil => rfl
  | cons e es ih =>
    obtain ⟨seq, buf, rfl⟩ := h e (by simp)
    rw [List.map_cons, List.sum_cons, ih (fun f hf => h f (by simp [hf]))]
    rfl

/-- On a bounded channel, a subscriber made by `subscribe` or `subscribe_tracked`
that never calls `latest` is never told of a loss, and its `k`-th message is the one
published with its start sequence plus `k`. -/
theorem bounded_no_loss (hk : cfg.kind = .bounded wm) (h : Reach cfg w) (hl : messages w < seqLimit)
    (i : Nat) (hkind : (w.subs i).kind = .subscribe ∨ (w.subs i).kind = .tracked)
    (hlat : (w.subs i).latestUsed = false) :
    (∀ c skipped, (w.subs i).pc ≠ .commit c (.lagged skipped)) ∧ (w.subs i).totalLagged = 0 ∧
    (w.subs i).totalReceived = (w.subs i).events.length ∧
    ∀ k e, (w.subs i).events[k]? = some e → ∃ v, w.ring.log[(w.subs i).start + k]? = some v ∧
      e = .received ((w.subs i).start + k) (bytesOf v) := by
  obtain ⟨hs, hb⟩ := reach_ok hk h hl
  have hi := hs.readers i
  obtain ⟨hev, hpc⟩ := hb.lossless i ⟨hkind, hlat⟩
  have htiles := hi.tiles hlat
  obtain ⟨hend, hlo⟩ := htiles.lo_eq_of_unit (fun e he => by
    obtain ⟨seq, buf, rfl⟩ := hev e he
    rfl)
  have htotal := hi.total hlat
  have hlost : (w.subs i).totalLagged = 0 := by rw [hi.lagged hlat, sum_lost_eq_zero hev]
  refine ⟨hpc, hlost, by omega, fun k e he => ?_⟩
  have hmem := List.mem_of_getElem? he
  obtain ⟨seq, buf, rfl⟩ := hev e hmem
  have hseq : seq = (w.subs i).start + k := hlo k _ he
  obtain ⟨v, hv, hbuf⟩ : Published w.ring seq buf := hi.events _ hmem
  exact ⟨v, hseq ▸ hv, by rw [hseq, hbuf]⟩

/-- A subscriber that registered while the first publish was in flight, after one receive. -/
theorem bounded_no_loss_joining :
    ∃ w : World 1, Reach Config.smallBounded w ∧ (w.subs 0).totalLagged = 0 ∧
      ∃ v, w.ring.log[0]? = some v ∧ (w.subs 0).events[0]? = some (.received 0 (bytesOf v)) := by
  obtain ⟨w, hr, hp⟩ := Reachable.of_run_any
    (step Config.smallBounded) (World.new 1)
    (fun w => decide (messages w < seqLimit ∧ (w.subs 0).start = 0 ∧
      (w.subs 0).kind = .subscribe ∧ (w.subs 0).latestUsed = false ∧ (w.subs 0).events.length = 1))
    (List.flatten [
      [.pubCall (.publish fun _ => 7), .pub, .subscribe 0 .subscribe, .sub 0, .sub 0, .pub, .sub 0],
      List.replicate 3 .pub, .pubCall (.publish fun _ => 8) :: List.replicate 5 .pub,
      .subCall 0 .tryRecv :: List.replicate 4 (.sub 0)]) (by decide +kernel)
  obtain ⟨hl, hstart, hkind, hlat, hlen⟩ := of_decide_eq_true hp
  obtain ⟨_, hlost, _, hall⟩ := bounded_no_loss rfl hr hl 0 (Or.inl hkind) hlat
  obtain ⟨v, hv, he⟩ := hall 0 _ (List.getElem?_eq_getElem (by omega))
  rw [hstart] at hv he
  exact ⟨w, hr, hlost, v, hv, by rw [List.getElem?_eq_getElem (by omega), he]⟩

end PhotonRing.Bounded
