import PhotonRing.Event.Backpressure

/-!
# Exclusivity and exactly-once delivery on the event ring

There is no stamp to fall back on: a subscriber's closure borrows a slot because the
publisher has been held back from it. Along every run that publishes fewer than
`2^64` messages the publisher's closure only touches slots that no live subscriber
needs, and every subscriber sees each message from its start on as it was published.
The bound is sharp: the sequence `u64::MAX` is the sentinel of the cursor, and the
publisher's counter wraps after it.
-/
namespace PhotonRing.Event.Exclusive

open Lib Event.World Backpressure

variable {τ : Type} {cfg : Config} {r r' : EventRing τ} {t t' : Trackers} {p p' : EventPublisher τ}
  {i : Nat} {s s' : EventSubscriber τ}

/-! ## The invariant -/

/-- How the publisher respects a subscriber. -/
structure Seat (cfg : Config) (t : Trackers) (p : EventPublisher τ) (i : Nat) (s : EventSubscriber τ) :
    Prop where
  joining : ∀ start, s.pc = .push start → (gateOf p).Covers cfg.capacity i start
  registered : live s.pc = true →
    t.value i = settled s ∧ Trackers.Registered cfg.capacity t (listed t p.pc) (gateOf p) i

/-- What a subscriber has done and may still ask for. -/
structure Journal (cfg : Config) (r : EventRing τ) (s : EventSubscriber τ) : Prop where
  joining : ∀ start, s.pc = .push start → start ≤ r.log.length ∧ Retained cfg r start
  retained : live s.pc = true → Retained cfg r (settled s)
  start_le : s.start ≤ s.cursor
  cursor_le : s.cursor ≤ r.log.length
  processed : s.processed = List.range' s.start (s.cursor - s.start)
  blank : live s.pc = false → s.pc ≠ .dropped → s.processed = []
  seen : ∀ x ∈ s.seen, r.log[x.1]? = some x.2
  borrow : ∀ reads b, s.pc = .borrow reads b → s.cursor < r.log.length
  pending : ∀ k, s.last = some (.pending k) → k ≤ cfg.capacity

structure Ok (cfg : Config) (w : World τ) : Prop where
  seq : w.publisher.seq = w.ring.log.length
  cursor : w.ring.cursor = expectedCursor w.ring.log.length
  mutex : Mutex w.trackers.locked
    ((gateOf w.publisher).inside fun i => holdsLock (w.subs i).pc = true)
  values : ∀ i, w.trackers.value i ≤ w.ring.log.length
  behind : (gateOf w.publisher).Behind
  seats : ∀ i, Seat cfg w.trackers w.publisher i (w.subs i)
  journals : ∀ i, Journal cfg w.ring (w.subs i)

theorem ok_new (cfg : Config) (factory : Nat → τ) : Ok cfg (World.new factory) where
  seq := rfl
  cursor := rfl
  mutex := Mutex.of_empty (fun i h => by cases i <;> cases h) _
  values := fun _ => Nat.zero_le _
  behind := ⟨Nat.le_refl _, fun _ _ h => by cases h⟩
  seats := fun _ => ⟨fun _ h => (by cases h), fun h => (by cases h)⟩
  journals := fun _ =>
    { joining := fun _ h => by cases h
      retained := fun h => by cases h
      start_le := Nat.le_refl _
      cursor_le := Nat.le_refl _
      processed := rfl
      blank := fun _ _ => rfl
      seen := fun _ h => by cases h
      borrow := fun _ _ h => by cases h
      pending := fun _ h => by cases h }

/-! ## Steps of the publisher -/

theorem Seat.pub {holds : Nat → Prop} (h : Seat cfg t p i s) (hm : PubMove cfg t p t' p')
    (hmutex : Mutex t.locked ((gateOf p).inside holds)) (hi : ∀ start, s.pc = .push start → holds i) :
    Seat cfg t' p' i s := by
  refine ⟨fun start hs => hm.gate.joining hmutex (hi start hs) (h.joining start hs), fun hl => ?_⟩
  obtain ⟨hv, hreg⟩ := h.registered hl
  exact ⟨by rw [hm.value]; exact hv, hreg.turn hm⟩

theorem Journal.pub (h : Journal cfg r s) (hseat : Seat cfg t p i s) (hm : RingMove cfg r p r' p')
    (hseq : p.seq = r.log.length) (hword : p.seq < 2 ^ 64) : Journal cfg r' s := by
  have hpre := hm.log_grows
  have hle := hpre.length_le
  refine ⟨fun start hs => ?_, fun hl => ?_, h.start_le, h.cursor_le.trans hle, h.processed, h.blank,
    fun x hx => ?_, fun reads b hs => (h.borrow reads b hs).trans_le hle, h.pending⟩
  · obtain ⟨hstart, hret⟩ := h.joining start hs
    exact ⟨hstart.trans hle, hret.move hm hseq hword (hseat.joining start hs).pos_lt⟩
  · obtain ⟨hv, hreg⟩ := hseat.registered hl
    have hcov := hreg.covers
    rw [hv] at hcov
    exact (h.retained hl).move hm hseq hword hcov.pos_lt
  · obtain ⟨l, hl⟩ := hpre
    obtain ⟨hlt, _⟩ := List.getElem?_eq_some_iff.mp (h.seen x hx)
    rw [← hl, List.getElem?_append_left hlt]
    exact h.seen x hx

/-! ## Steps of a subscriber -/

/-- Steps of other subscribers leave a seat alone. -/
theorem Seat.other (h : Seat cfg t p i s) (hval : t'.value i = t.value i)
    (hstr : t'.strong i = t.strong i) (hreg : i ∈ t.registered → i ∈ t'.registered) :
    Seat cfg t' p i s := by
  refine ⟨h.joining, fun hl => ?_⟩
  obtain ⟨hv, hr⟩ := h.registered hl
  refine ⟨hval.trans hv, hr.other hval (fun ha => by rw [hstr]; exact ha) ?_⟩
  cases p.pc <;> first | exact hreg | exact fun h => h

/-- A live subscriber that keeps its reservation. -/
theorem Seat.stay (h : Seat cfg t p i s) (hl : live s.pc = true) (hl' : live s'.pc = true)
    (hset : settled s' = settled s) : Seat cfg t p i s' := by
  constructor
  · intro start hs
    rw [hs] at hl'
    cases hl'
  · intro _
    rw [hset]
    exact h.registered hl

/-- One that is not there has no seat to keep. -/
theorem Seat.of_not_live (hl : live s.pc = false) (hp : ∀ start, s.pc ≠ .push start) :
    Seat cfg t p i s :=
  ⟨fun start hs => absurd hs (hp start), fun h => by rw [hl] at h; cases h⟩

/-- A subscriber's own step keeps its seat. It registers at the publisher's
position, outside any scan. -/
theorem Seat.own (h : Seat cfg t p i s) (hstep : s.step cfg r t i = some (t', s'))
    (hbehind : (gateOf p).Behind) (hstart : startOf r.cursor = p.seq)
    (hscan : holdsLock s.pc = true → (gateOf p).scan = none)
    (hword : ∀ reads b, s.pc = .borrow reads b → s.cursor + 1 < 2 ^ 64) : Seat cfg t' p i s' := by
  unfold EventSubscriber.step at hstep
  split at hstep
  case h_1 => cases hstep
  case h_2 =>
    split at hstep <;> cases hstep
    exact .of_not_live rfl (fun _ h => by cases h)
  case h_3 hp =>
    cases hstep
    refine ⟨fun start hs => ?_, fun hl => by cases hl⟩
    cases hs
    rw [hstart]
    exact .join cfg.capacity_pos hbehind (hscan (by rw [hp]; rfl))
  case h_4 start hp =>
    cases hstep
    refine ⟨fun _ hs => (by cases hs), fun _ => ⟨Function.update_self .., ?_⟩⟩
    have hpush : Trackers.Registered cfg.capacity _ (t.registered ++ [i]) (gateOf p) i :=
      .push (t := t) (h.joining start hp)
    refine hpush.other rfl (fun ha => ha) (fun hm => ?_)
    have hs : scanOf p.pc = none := hscan (by rw [hp]; rfl)
    revert hs
    cases p.pc <;> first | exact fun _ => hm | exact fun hs => by cases hs
  case h_5 => cases hstep
  case h_6 hp => split at hstep <;> cases hstep <;> exact h.stay (by rw [hp]; rfl) rfl (by simp [settled, hp])
  case h_7 hp => cases hstep; exact h.stay (by rw [hp]; rfl) rfl (by simp [settled, hp])
  case h_8 hp => cases hstep; exact h.stay (by rw [hp]; rfl) rfl (by simp [settled, hp])
  case h_9 hp =>
    cases hstep
    refine h.stay (by rw [hp]; rfl) rfl ?_
    simp [settled, hp, u64_of_lt (hword _ _ hp)]
  case h_10 hp =>
    cases hstep
    obtain ⟨hv, hreg⟩ := h.registered (by rw [hp]; rfl)
    refine ⟨fun _ hs => (by cases hs), fun _ => ⟨?_, (hreg.store (v := s.cursor) ?_).other rfl (fun ha => ha) ?_⟩⟩
    · simp [settled]
    · rw [hv]
      unfold settled
      split <;> omega
    · cases p.pc <;> exact fun hm => hm
  case h_11 hp => cases hstep; exact h.stay (by rw [hp]; rfl) rfl (by simp [settled, hp])
  case h_12 => cases hstep

/-- A step that changes nothing but the program point and the result. -/
theorem Journal.goto (h : Journal cfg r s) {pc : SubPc} {last : Option SubResult}
    (hjoin : ∀ start, pc = .push start → start ≤ r.log.length ∧ Retained cfg r start)
    (hlive : live pc = true → live s.pc = true ∧ settled s ≤ settled { s with pc := pc, last := last })
    (hblank : live pc = false → pc ≠ .dropped → live s.pc = false ∧ s.pc ≠ .dropped)
    (hborrow : ∀ reads b, pc = .borrow reads b → s.cursor < r.log.length)
    (hpend : ∀ k, last = some (.pending k) → k ≤ cfg.capacity) :
    Journal cfg r { s with pc := pc, last := last } where
  joining := hjoin
  retained := fun hl => (h.retained (hlive hl).1).mono (hlive hl).2
  start_le := h.start_le
  cursor_le := h.cursor_le
  processed := h.processed
  blank := fun hl hd => h.blank (hblank hl hd).1 (hblank hl hd).2
  seen := h.seen
  borrow := hborrow
  pending := hpend

/-- A step of a live subscriber that only moves its program point. -/
theorem Journal.goto_live (h : Journal cfg r s) {pc : SubPc} {last : Option SubResult}
    (hl : live s.pc = true) (hpc : live pc = true)
    (hset : settled s ≤ settled { s with pc := pc, last := last })
    (hborrow : ∀ reads b, pc = .borrow reads b → s.cursor < r.log.length)
    (hpend : ∀ k, last = some (.pending k) → k ≤ cfg.capacity) :
    Journal cfg r { s with pc := pc, last := last } := by
  refine h.goto (fun start hs => ?_) (fun _ => ⟨hl, hset⟩) (fun hf => ?_) hborrow hpend
  · rw [hs] at hpc
    cases hpc
  · rw [hpc] at hf
    cases hf

theorem head_eq {len : Nat} (hlen : len < 2 ^ 64) :
    (expectedCursor len = u64Max ↔ len = 0) ∧ (expectedCursor len ≠ u64Max → expectedCursor len + 1 = len) := by
  unfold expectedCursor u64Max
  split_ifs with h0
  · exact ⟨iff_of_true rfl h0, fun h => absurd rfl h⟩
  · exact ⟨by omega, fun _ => by omega⟩

/-- `pending` counts what is published and not processed. -/
theorem pendingOf_eq {len cursor : Nat} (hlen : len < 2 ^ 64) (hc : cursor ≤ len) :
    pendingOf (expectedCursor len) cursor = len - cursor := by
  obtain ⟨hmax, hhead⟩ := head_eq hlen
  unfold pendingOf
  split_ifs with h
  · rcases h with h | h
    · have := hmax.mp h
      omega
    · by_cases hm : expectedCursor len = u64Max
      · have := hmax.mp hm
        omega
      · have := hhead hm
        omega
  · have := hhead (fun hm => h (Or.inl hm))
    omega

theorem Journal.own (h : Journal cfg r s) (hseat : Seat cfg t p i s)
    (hstep : s.step cfg r t i = some (t', s')) (hseq : p.seq = r.log.length)
    (hcursor : r.cursor = expectedCursor r.log.length) (hlen : r.log.length < 2 ^ 64) :
    Journal cfg r s' := by
  unfold EventSubscriber.step at hstep
  split at hstep
  case h_1 => cases hstep
  case h_2 hp =>
    split at hstep <;> cases hstep
    exact h.goto (fun _ hs => by cases hs) (fun hl => by cases hl)
      (fun _ _ => by rw [hp]; exact ⟨rfl, fun hd => by cases hd⟩) (fun _ _ hs => by cases hs) h.pending
  case h_3 hp =>
    cases hstep
    refine h.goto (fun start hs => ?_) (fun hl => by cases hl)
      (fun _ _ => by rw [hp]; exact ⟨rfl, fun hd => by cases hd⟩) (fun _ _ hs => by cases hs) h.pending
    cases hs
    rw [hcursor, startOf_expectedCursor hlen]
    exact ⟨Nat.le_refl _, fun q hq hlt => absurd hlt (by omega)⟩
  case h_4 start hp =>
    cases hstep
    obtain ⟨hle, hret⟩ := h.joining start hp
    exact
      { joining := fun _ hs => by cases hs
        retained := fun _ => hret
        start_le := Nat.le_refl _
        cursor_le := hle
        processed := by
          rw [Nat.sub_self]
          exact h.blank (by rw [hp]; rfl) (fun hd => by rw [hp] at hd; cases hd)
        blank := fun hl => by cases hl
        seen := h.seen
        borrow := fun _ _ hs => by cases hs
        pending := h.pending }
  case h_5 => cases hstep
  case h_6 reads b hp =>
    have hl : live s.pc = true := by rw [hp]; rfl
    split at hstep <;> cases hstep
    · exact h.goto_live hl rfl (by simp [settled, hp]) (fun _ _ hs => by cases hs) (fun _ hk => by cases hk)
    · rename_i hhead
      refine h.goto_live hl rfl (by simp [settled, hp]) (fun _ _ _ => ?_) h.pending
      have := (head_eq hlen).2 (fun hm => hhead (Or.inl (hcursor.trans hm)))
      rw [← hcursor] at this
      omega
  case h_7 reads b hp =>
    cases hstep
    have hlt := h.borrow _ _ hp
    have hret := h.retained (by rw [hp]; rfl) s.cursor (by simp [settled, hp]) hlt
    exact
      { joining := fun _ hs => by cases hs
        retained := fun _ => (h.retained (by rw [hp]; rfl)).mono (by simp [settled, hp])
        start_le := h.start_le
        cursor_le := h.cursor_le
        processed := h.processed
        blank := fun hl => by cases hl
        seen := fun x hx => by
          rcases List.mem_append.mp hx with hx | hx
          · exact h.seen x hx
          · obtain rfl := List.mem_singleton.mp hx
            rw [cfg.slot_eq (hlt.trans hlen)]
            exact hret
        borrow := fun _ _ _ => hlt
        pending := h.pending }
  case h_8 hp =>
    cases hstep
    exact h.goto_live (by rw [hp]; rfl) rfl (by simp [settled, hp]) (fun _ _ hs => by cases hs)
      (fun _ hk => by cases hk)
  case h_9 hp =>
    cases hstep
    have hlt := h.borrow _ _ hp
    have hstart := h.start_le
    have hword : u64 (s.cursor + 1) = s.cursor + 1 := u64_of_lt (by omega)
    rw [hword]
    exact
      { joining := fun _ hs => by cases hs
        retained := fun _ => (h.retained (by rw [hp]; rfl)).mono (by simp [settled, hp])
        start_le := by dsimp only; omega
        cursor_le := hlt
        processed := by
          dsimp only
          rw [h.processed, show s.cursor + 1 - s.start = s.cursor - s.start + 1 by omega,
            List.range'_concat, show s.start + 1 * (s.cursor - s.start) = s.cursor by omega]
        blank := fun hl => by cases hl
        seen := h.seen
        borrow := fun _ _ hs => by cases hs
        pending := h.pending }
  case h_10 hp =>
    cases hstep
    exact h.goto_live (by rw [hp]; rfl) rfl (by simp [settled, hp]) (fun _ _ hs => by cases hs)
      (fun _ hk => by cases hk)
  case h_11 hp =>
    cases hstep
    refine h.goto_live (by rw [hp]; rfl) rfl (by simp [settled, hp]) (fun _ _ hs => by cases hs)
      (fun k hk => ?_)
    cases hk
    obtain ⟨hv, hreg⟩ := hseat.registered (by rw [hp]; rfl)
    have hpos : p.seq ≤ t.value i + cfg.capacity := hreg.covers.pos_le
    have hset : settled s = s.cursor := by simp [settled, hp]
    rw [hcursor, pendingOf_eq hlen h.cursor_le]
    omega
  case h_12 => cases hstep

/-! ## Along a run -/

variable {w w' : World τ} {a : Act τ} {factory : Nat → τ}

theorem setSub_self (w : World τ) (i : Nat) (s : EventSubscriber τ) : (w.setSub i s).subs i = s :=
  Function.update_self ..

theorem setSub_ne (w : World τ) {i j : Nat} (s : EventSubscriber τ) (h : j ≠ i) :
    (w.setSub i s).subs j = w.subs j := Function.update_of_ne h ..

theorem Ok.pubStep (h : Ok cfg w) (hlen : r'.log.length < 2 ^ 64) (hm : PubMove cfg w.trackers w.publisher t' p')
    (hr : RingMove cfg w.ring w.publisher r' p') :
    Ok cfg { w with ring := r', trackers := t', publisher := p' } := by
  have hle := hr.log_grows.length_le
  have hword : w.publisher.seq < 2 ^ 64 := by rw [h.seq]; omega
  have hseq : p'.seq = r'.log.length ∧ r'.cursor = expectedCursor r'.log.length := by
    cases hr with
    | stay hseq => exact ⟨hseq.trans h.seq, h.cursor⟩
    | write hp => exact ⟨h.seq, h.cursor⟩
    | publish hp =>
      have hlen' : w.ring.log.length + 1 < 2 ^ 64 := by simpa using hlen
      constructor
      · simp [h.seq, u64_of_lt hlen']
      · simp [h.seq, expectedCursor]
  refine ⟨hseq.1, hseq.2, hm.gate.mutex h.mutex, ?_, ?_, ?_, ?_⟩
  · intro j
    rw [show t'.value = w.trackers.value from hm.value]
    exact (h.values j).trans hle
  · refine h.behind.move hm.gate.move (fun _ _ _ j => (h.values j).trans ?_)
    exact h.seq.ge
  · intro j
    exact (h.seats j).pub hm h.mutex (fun start hs => by rw [hs]; rfl)
  · intro j
    exact (h.journals j).pub (h.seats j) hr h.seq hword

/-- A step of one subscriber, given what it does to the trackers, its seat and its journal. -/
theorem Ok.subStep (h : Ok cfg w) (hm : TrackerMove w.trackers i (w.subs i) s' t')
    (hseat : Seat cfg t' w.publisher i s') (hj : Journal cfg w.ring s') :
    Ok cfg ({ w with trackers := t' }.setSub i s') := by
  have hself := setSub_self { w with trackers := t' } i s'
  have hne {j : Nat} (hj : j ≠ i) := setSub_ne { w with trackers := t' } s' hj
  refine ⟨h.seq, h.cursor, ?_, ?_, h.behind, ?_, ?_⟩
  · refine Gate.reader_mutex h.mutex (i := i) (fun j hj => by rw [hne hj]) ?_
    rw [hself]
    exact hm.lock_cases
  · intro j
    change t'.value j ≤ w.ring.log.length
    rcases hm.value j with hv | hv | ⟨start, hpc, hv⟩
    · rw [hv]; exact h.values j
    · rw [hv]; exact (h.journals i).cursor_le
    · rw [hv]; exact ((h.journals i).joining start hpc).1
  · intro j
    by_cases hji : j = i
    · subst hji
      rw [hself]
      exact hseat
    · rw [hne hji]
      obtain ⟨h1, h2, h3⟩ := hm.others hji
      exact (h.seats j).other h1 h2 h3
  · intro j
    by_cases hji : j = i
    · subst hji
      rw [hself]
      exact hj
    · rw [hne hji]
      exact h.journals j

theorem step_log_le (h : step cfg w a = some w') : messages w ≤ messages w' := by
  cases a with
  | pub =>
    obtain ⟨⟨r, t, p⟩, hp, rfl⟩ := Option.map_eq_some_iff.mp h
    exact (pub_ring hp).log_grows.length_le
  | sub i =>
    obtain ⟨⟨t, s⟩, _, rfl⟩ := Option.map_eq_some_iff.mp h
    exact Nat.le_refl _
  | drop i =>
    obtain ⟨⟨t, s⟩, _, rfl⟩ := Option.map_eq_some_iff.mp h
    exact Nat.le_refl _
  | _ =>
    obtain ⟨_, _, rfl⟩ := Option.map_eq_some_iff.mp h
    exact Nat.le_refl _

theorem step_ok (h : step cfg w a = some w') (hl : messages w' < 2 ^ 64) (hw : Ok cfg w) : Ok cfg w' := by
  have hlen : w.ring.log.length < 2 ^ 64 := (step_log_le h).trans_lt hl
  cases a with
  | pubCall c =>
    obtain ⟨p, hp, rfl⟩ := Option.map_eq_some_iff.mp h
    refine hw.pubStep hlen (call_move hp) (.stay ?_)
    unfold EventPublisher.call at hp
    split at hp <;> cases hp
    rfl
  | pub =>
    obtain ⟨⟨r, t, p⟩, hp, rfl⟩ := Option.map_eq_some_iff.mp h
    refine hw.pubStep hl (pub_move (fun hpc => ?_) hp) (pub_ring hp)
    unfold EventPublisher.step at hp
    rw [hpc] at hp
    cases hp
    have hl' : w.ring.log.length + 1 < 2 ^ 64 := by simpa [messages] using hl
    exact u64_of_lt (by rw [hw.seq]; exact hl')
  | subscribe i =>
    obtain ⟨s, hs, rfl⟩ := Option.map_eq_some_iff.mp h
    unfold EventSubscriber.subscribe at hs
    split at hs <;> cases hs
    rename_i hp
    refine hw.subStep (.stay (by rw [hp]; rfl)) (.of_not_live rfl (fun _ h => by cases h)) ?_
    exact (hw.journals i).goto (fun _ hs => by cases hs) (fun hl => by cases hl)
      (fun _ _ => by rw [hp]; exact ⟨rfl, fun hd => by cases hd⟩) (fun _ _ hs => by cases hs)
      (hw.journals i).pending
  | subCall i c =>
    obtain ⟨s, hs, rfl⟩ := Option.map_eq_some_iff.mp h
    unfold EventSubscriber.call at hs
    split at hs <;> cases hs <;> rename_i hp <;>
      refine hw.subStep (.stay (by rw [hp]; rfl))
        ((hw.seats i).stay (by rw [hp]; rfl) rfl (by simp [settled, hp]))
        ((hw.journals i).goto_live (by rw [hp]; rfl) rfl (by simp [settled, hp])
          (fun _ _ hs => by cases hs) (hw.journals i).pending)
  | sub i =>
    obtain ⟨⟨t, s⟩, hs, rfl⟩ := Option.map_eq_some_iff.mp h
    refine hw.subStep (step_trackers hs) ?_ ((hw.journals i).own (hw.seats i) hs hw.seq hw.cursor hlen)
    refine (hw.seats i).own hs hw.behind ?_ (fun hh => Gate.scan_none hw.mutex hh) (fun reads b hp => ?_)
    · rw [hw.cursor, startOf_expectedCursor hlen, hw.seq]
    · have := (hw.journals i).borrow reads b hp
      omega
  | drop i =>
    obtain ⟨⟨t, s⟩, hs, rfl⟩ := Option.map_eq_some_iff.mp h
    unfold EventSubscriber.drop at hs
    split at hs <;> cases hs
    refine hw.subStep (.drop rfl) (.of_not_live rfl (fun _ h => by cases h)) ?_
    exact (hw.journals i).goto (fun _ hs => by cases hs) (fun hl => by cases hl)
      (fun _ hd => absurd rfl hd) (fun _ _ hs => by cases hs) (hw.journals i).pending

theorem reach_ok (h : Reach cfg factory w) (hl : messages w < 2 ^ 64) : Ok cfg w :=
  Reachable.invariant_below (P := Ok cfg) messages (2 ^ 64) (fun _ _ _ hs => step_log_le hs)
    (ok_new cfg factory) (fun _ _ _ hs hlt hw => step_ok hs hlt hw) h hl

/-! ## What every run guarantees -/

/-- The slot that the publisher's closure works on holds nothing that a live
subscriber still needs. -/
theorem Ok.slot_ne (h : Ok cfg w) (hl : messages w < 2 ^ 64) {ws : List (τ → τ)} {b : Bool}
    (hpc : w.publisher.pc = .closure ws b) (hi : live (w.subs i).pc = true) {q : Nat}
    (hq : (w.subs i).cursor ≤ q) (hlt : q < messages w) : cfg.slot q ≠ cfg.slot w.publisher.seq := by
  obtain ⟨hv, hreg⟩ := (h.seats i).registered hi
  have hpos : w.publisher.seq < w.trackers.value i + cfg.capacity :=
    hreg.covers.pos_lt (by unfold gateOf; rw [hpc]; rfl)
  have hset : settled (w.subs i) ≤ (w.subs i).cursor := by unfold settled; split <;> omega
  have hseq : w.publisher.seq = messages w := h.seq
  rw [cfg.slot_eq (hlt.trans hl), cfg.slot_eq (hseq.trans_lt hl)]
  exact (lap_ne (by omega) (by omega)).symm

/-- `process` finds a message exactly when one is published and not processed. -/
theorem Ok.head_step (h : Ok cfg w) (hl : messages w < 2 ^ 64) {reads : Nat} {b : Bool}
    (hpc : (w.subs i).pc = .head reads b) (hstep : step cfg w (.sub i) = some w') :
    (w'.subs i).pc = if (w.subs i).cursor < messages w then .borrow reads b else .idle := by
  have hlen : w.ring.log.length < 2 ^ 64 := hl
  obtain ⟨hmax, hhead⟩ := head_eq hlen
  obtain ⟨⟨t, s⟩, hs, rfl⟩ := Option.map_eq_some_iff.mp hstep
  rw [setSub_self]
  unfold EventSubscriber.step at hs
  rw [hpc, h.cursor] at hs
  dsimp only at hs
  split at hs <;> cases hs
  · rename_i hnone
    rw [if_neg]
    unfold messages
    rcases hnone with hnone | hnone
    · have := hmax.mp hnone
      omega
    · by_cases hm : expectedCursor w.ring.log.length = u64Max
      · have := hmax.mp hm
        omega
      · have := hhead hm
        omega
  · rename_i hsome
    rw [if_pos]
    unfold messages
    have := hhead (fun hm => hsome (Or.inl hm))
    omega

/-- A step of a panicking closure of the publisher only touches the slot. -/
theorem panic_publish {ws : List (τ → τ)} (hpc : w.publisher.pc = .closure ws true)
    (hstep : step cfg w .pub = some w') :
    w'.publisher.seq = w.publisher.seq ∧ w'.ring.cursor = w.ring.cursor ∧ w'.ring.log = w.ring.log ∧
    w'.trackers = w.trackers ∧
    ((∃ ws', w'.publisher.pc = .closure ws' true) ∨
      w'.publisher.pc = .idle ∧ w'.publisher.last = some .panicked) := by
  obtain ⟨⟨r, t, p⟩, hp, rfl⟩ := Option.map_eq_some_iff.mp hstep
  unfold EventPublisher.step at hp
  rw [hpc] at hp
  cases ws with
  | nil => cases hp; exact ⟨rfl, rfl, rfl, rfl, Or.inr ⟨rfl, rfl⟩⟩
  | cons f fs => cases hp; exact ⟨rfl, rfl, rfl, rfl, Or.inl ⟨fs, rfl⟩⟩

/-- A step of a panicking closure of a subscriber consumes nothing. -/
theorem panic_process {reads : Nat} (hpc : (w.subs i).pc = .borrow reads true)
    (hstep : step cfg w (.sub i) = some w') :
    (w'.subs i).cursor = (w.subs i).cursor ∧ (w'.subs i).processed = (w.subs i).processed ∧
    w'.trackers = w.trackers ∧ w'.ring = w.ring ∧
    ((∃ reads', (w'.subs i).pc = .borrow reads' true) ∨
      (w'.subs i).pc = .idle ∧ (w'.subs i).last = some .panicked) := by
  obtain ⟨⟨t, s⟩, hs, rfl⟩ := Option.map_eq_some_iff.mp hstep
  rw [setSub_self]
  unfold EventSubscriber.step at hs
  rw [hpc] at hs
  cases reads with
  | zero => cases hs; exact ⟨rfl, rfl, rfl, rfl, Or.inr ⟨rfl, rfl⟩⟩
  | succ reads => cases hs; exact ⟨rfl, rfl, rfl, rfl, Or.inl ⟨reads, rfl⟩⟩

/-- With fewer than `2^64` messages published, in every state of every run:
the publisher's closure works on no slot that a live subscriber borrows or has in its
queue; every subscriber has processed the sequences from its start up to its cursor in
order, each once, has found every value as it was published, and finds the next message
whenever there is one; a panicking closure publishes or consumes nothing; and `pending`
has never returned more than the capacity. -/
theorem event_ring_exact (h : Reach cfg factory w) (hl : messages w < 2 ^ 64) :
    (∀ ws b, w.publisher.pc = .closure ws b → ∀ i, live (w.subs i).pc = true →
      (∀ reads b', (w.subs i).pc = .borrow reads b' →
        cfg.slot (w.subs i).cursor ≠ cfg.slot w.publisher.seq) ∧
      ∀ q, (w.subs i).cursor ≤ q → q < messages w → cfg.slot q ≠ cfg.slot w.publisher.seq) ∧
    (∀ i, (w.subs i).processed = List.range' (w.subs i).start ((w.subs i).cursor - (w.subs i).start) ∧
      ∀ q v, (q, v) ∈ (w.subs i).seen → w.ring.log[q]? = some v) ∧
    (∀ i reads b w', (w.subs i).pc = .head reads b → step cfg w (.sub i) = some w' →
      (w'.subs i).pc = if (w.subs i).cursor < messages w then .borrow reads b else .idle) ∧
    (∀ ws w', w.publisher.pc = .closure ws true → step cfg w .pub = some w' →
      w'.publisher.seq = w.publisher.seq ∧ w'.ring.cursor = w.ring.cursor ∧ w'.ring.log = w.ring.log ∧
      w'.trackers = w.trackers ∧
      ((∃ ws', w'.publisher.pc = .closure ws' true) ∨
        w'.publisher.pc = .idle ∧ w'.publisher.last = some .panicked)) ∧
    (∀ i reads w', (w.subs i).pc = .borrow reads true → step cfg w (.sub i) = some w' →
      (w'.subs i).cursor < messages w' ∧
      (w'.subs i).cursor = (w.subs i).cursor ∧ (w'.subs i).processed = (w.subs i).processed ∧
      w'.trackers = w.trackers ∧
      ((∃ reads', (w'.subs i).pc = .borrow reads' true) ∨
        (w'.subs i).pc = .idle ∧ (w'.subs i).last = some .panicked)) ∧
    ∀ i k, (w.subs i).last = some (.pending k) → k ≤ cfg.capacity := by
  have hw := reach_ok h hl
  refine ⟨fun ws b hpc i hi => ⟨fun reads b' hb => ?_, fun q hq hlt => hw.slot_ne hl hpc hi hq hlt⟩,
    fun i => ⟨(hw.journals i).processed, fun q v hx => (hw.journals i).seen _ hx⟩,
    fun i reads b w' hpc hstep => hw.head_step hl hpc hstep,
    fun ws w' hpc hstep => panic_publish hpc hstep, fun i reads w' hpc hstep => ?_,
    fun i => (hw.journals i).pending⟩
  · exact hw.slot_ne hl hpc hi (Nat.le_refl _) ((hw.journals i).borrow reads b' hb)
  · obtain ⟨hc, hp, ht, hr, hlast⟩ := panic_process hpc hstep
    refine ⟨?_, hc, hp, ht, hlast⟩
    rw [hc]
    unfold messages
    rw [hr]
    exact (hw.journals i).borrow reads true hpc

/-- Two slots: a subscriber borrows the first message, after one closure that panicked
on it, while the publisher's closure works on the second. -/
theorem event_ring_exact_borrowed :
    ∃ w : World Nat, Reach ⟨2, by decide, by decide⟩ (fun _ => 0) w ∧ messages w = 1 ∧
      (∃ ws b, w.publisher.pc = .closure ws b) ∧ (w.subs 0).pc = .borrow 0 false ∧
      (w.subs 0).seen = [(0, 5), (0, 5)] ∧ w.ring.log[0]? = some 5 ∧
      (Config.mk 2 (by decide) (by decide)).slot 0 ≠
        (Config.mk 2 (by decide) (by decide)).slot w.publisher.seq := by
  obtain ⟨w, hr, hp⟩ := Reachable.of_run_any
    (step (τ := Nat) ⟨2, by decide, by decide⟩) (World.new fun _ => 0)
    (fun w => decide (messages w = 1 ∧ (w.subs 0).pc = .borrow 0 false ∧ (w.subs 0).cursor = 0 ∧
      (w.subs 0).seen = [(0, 5), (0, 5)]) && match w.publisher.pc with
        | .closure _ _ => true
        | _ => false)
    (List.flatten [
      [.subscribe 0, .sub 0, .sub 0, .sub 0, .pubCall ⟨true, [fun _ => 5], false⟩, .pub, .pub, .pub, .pub],
      .subCall 0 (.process 1 true) :: List.replicate 3 (.sub 0),
      .subCall 0 (.process 1 false) :: List.replicate 2 (.sub 0),
      [.pubCall ⟨false, [fun v => v + 1], true⟩, .pub]]) (by decide +kernel)
  obtain ⟨hfields, hclosure⟩ := (Bool.and_eq_true _ _).mp hp
  obtain ⟨hm, hpc, hcur, hseen⟩ := of_decide_eq_true hfields
  have hpub : ∃ ws b, w.publisher.pc = .closure ws b := by
    split at hclosure
    · rename_i ws b hpub
      exact ⟨ws, b, hpub⟩
    · cases hclosure
  obtain ⟨hexcl, hjournal, _⟩ := event_ring_exact hr (by rw [hm]; decide)
  obtain ⟨ws, b, hclos⟩ := hpub
  have hne := (hexcl ws b hclos 0 (by rw [hpc]; rfl)).1 0 false hpc
  rw [hcur] at hne
  exact ⟨w, hr, hm, ⟨ws, b, hclos⟩, hpc, hseen, (hjournal 0).2 0 5 (by rw [hseen]; simp), hne⟩

/-! ## The last sequence number -/

/-- The smallest ring on which the last sequence shares its slot with the first. -/
def three : Config := ⟨3, by decide, by decide⟩

/-- A ring without subscribers after `k` publishes. -/
def afterPublishes (k : Nat) : World Unit where
  ring := ⟨fun _ => (), expectedCursor k, List.replicate k ()⟩
  trackers := Trackers.new
  publisher := ⟨k, 0, .idle, if k = 0 then none else some .published⟩
  subs := fun _ => EventSubscriber.absent Unit

/-- A publish whose closure leaves the value alone. -/
def touch : Call Unit := ⟨true, [], false⟩

/-- The next publish has found room: at once while the cached bound allows it, and by
an empty scan afterwards. -/
theorem run_has_room (k : Nat) :
    ∃ as, run (step three) (afterPublishes k) as = some { afterPublishes k with
      publisher := { (afterPublishes k).publisher with pc := .closure [] false } } := by
  by_cases h : u64 3 ≤ k
  · have hroom : step three { afterPublishes k with
        publisher := { (afterPublishes k).publisher with pc := .room touch } } .pub =
        some { afterPublishes k with
          publisher := { (afterPublishes k).publisher with pc := .lock touch } } :=
      congrArg (Option.map _) (if_pos h)
    exact ⟨[.pubCall touch, .pub, .pub, .pub],
      run_cons rfl (run_cons hroom (run_cons rfl (run_cons rfl rfl)))⟩
  · have hroom : step three { afterPublishes k with
        publisher := { (afterPublishes k).publisher with pc := .room touch } } .pub =
        some { afterPublishes k with
          publisher := { (afterPublishes k).publisher with pc := .closure [] false } } :=
      congrArg (Option.map _) (if_neg h)
    exact ⟨[.pubCall touch, .pub], run_cons rfl (run_cons hroom rfl)⟩

/-- A publish of any sequence but the last. -/
theorem run_publish {k : Nat} (hk : k + 1 < 2 ^ 64) :
    ∃ as, run (step three) (afterPublishes k) as = some (afterPublishes (k + 1)) := by
  obtain ⟨as, has⟩ := run_has_room k
  refine ⟨List.append as [.pub, .pub], run_append has ?_⟩
  simp [run, step, afterPublishes, EventPublisher.step, u64_of_lt hk, expectedCursor,
    List.replicate_succ']

theorem reach_afterPublishes {k : Nat} (hk : k < 2 ^ 64) :
    Reach three (fun _ => ()) (afterPublishes k) := by
  induction k with
  | zero => exact .start
  | succ k ih =>
    obtain ⟨as, has⟩ := run_publish hk
    exact (ih (by omega)).of_run has

/-- A subscriber registers while sequence `k` is in flight, and the next publish finds
room for the sequence that the counter wrapped to. -/
theorem run_wrap {k : Nat} (hk : u64 (k + 1) = 0) (hstart : startOf (expectedCursor k) = k) :
    ∃ as w, run (step three) (afterPublishes k) as = some w ∧ w.publisher.pc = .closure [] false ∧
      w.publisher.seq = 0 ∧ (w.subs 0).pc = .idle ∧ (w.subs 0).cursor = k ∧ messages w = k + 1 := by
  obtain ⟨as, has⟩ := run_has_room k
  have hroom : ¬ u64 3 ≤ u64 (k + 1) := by
    rw [hk]
    decide
  refine ⟨List.append as [.subscribe 0, .sub 0, .sub 0, .sub 0, .pub, .pub, .pubCall touch, .pub], _,
    run_append has (run_cons rfl (run_cons rfl (run_cons rfl (run_cons rfl (run_cons rfl (run_cons rfl
      (run_cons rfl (run_cons (congrArg (Option.map _) (if_neg hroom)) rfl)))))))), rfl, hk, rfl, hstart, ?_⟩
  show (List.replicate k () ++ [()]).length = k + 1
  simp

/-- Once the sequence `u64::MAX` is published, the publisher's counter is back at zero and
the bound it trusts is an old one: its next closure works on the slot of the last message,
which a live subscriber, registered while that message was in flight, has not processed. -/
theorem last_sequence_overwritten :
    ∃ w : World Unit, Reach three (fun _ => ()) w ∧ (∃ ws b, w.publisher.pc = .closure ws b) ∧
      live (w.subs 0).pc = true ∧ ∃ q, (w.subs 0).cursor ≤ q ∧ q < messages w ∧
        three.slot q = three.slot w.publisher.seq := by
  have hlt : u64Max < 2 ^ 64 := by decide
  obtain ⟨as, w, has, hpc, hseq, hidle, hcur, hmessages⟩ :=
    run_wrap (k := u64Max) (by decide) (startOf_expectedCursor hlt)
  refine ⟨w, (reach_afterPublishes hlt).of_run has, ⟨[], false, hpc⟩, by rw [hidle]; rfl, u64Max,
    hcur.le, hmessages.ge, ?_⟩
  rw [hseq, three.slot_eq hlt]
  decide

end PhotonRing.Event.Exclusive
