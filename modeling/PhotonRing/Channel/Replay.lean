import PhotonRing.Channel.Bounded
import PhotonRing.Channel.Delivery
import PhotonRing.Channel.Unattended

/-!
# Replay on a bounded channel

`subscribe_from_oldest` loads the head and registers in two separate steps, and its
tracker starts below the bound that the publisher may have cached. What it starts from
is not reserved. From the publisher's position at the registration on it is: the
publisher respects the larger of that position and the tracker, so that a lag only ever
skips messages published before the registration.
-/
namespace PhotonRing.Bounded

open Lib Reader World Solo Unattended

variable {n : Nat} {cfg : Config} {r : Ring n} {t t' : Trackers} {p : Publisher n} {i floor wm : Nat}
  {s s' : Subscriber n} {w w' : World n} {a : Act n}

/-! ## Skipping below a position only -/

/-- Everything that was lost, or is about to be reported lost, lies below `floor`. -/
structure SkipsBelow (floor : Nat) (s : Subscriber n) : Prop where
  events : ∀ old new, Event.skipped old new ∈ s.events → new ≤ floor
  ahead : ∀ c k, s.pc = .commit c (.lagged k) → s.cursor ≤ floor

theorem SkipsBelow.change (h : SkipsBelow floor s) (hc : Change cfg r s s') (hr : Reader.Ok cfg r s)
    (hhead : ∀ c, s.pc = .head c → r.cursor ≠ u64Max → r.cursor < max s.cursor floor + cfg.capacity) :
    SkipsBelow floor s' := by
  have hready {x : Subscriber n} (hx : stage x.pc = .ready) (c : Caller n) (k : Nat) :
      x.pc ≠ .commit c (.lagged k) := by
    intro hpc
    rw [hpc] at hx
    cases hx
  cases hc with
  | wait hst hb hcur _ _ =>
    refine ⟨(Book.mk.inj hb).2.2.2 ▸ h.events, fun c k hpc => ?_⟩
    rw [hpc] at hst
    rw [hcur]
    rcases hst with hst | ⟨_, hst⟩
    · have hs := h.ahead
      revert hs hst
      cases s.pc with
      | commit c' res => exact fun hst hs => hs c' k (by rw [← Stage.ahead.inj hst])
      | read c' pc => cases pc <;> exact fun hst => by cases hst
      | _ => exact fun hst => by cases hst
    · cases hst
  | join _ _ hs' hb _ _ _ =>
    refine ⟨(Book.mk.inj hb).2.2.2 ▸ h.events, fun c k hpc => ?_⟩
    rw [hpc] at hs'
    cases hs'
  | create _ => exact ⟨h.events, fun c k hpc => by cases hpc⟩
  | load _ _ => exact ⟨h.events, fun c k hpc => by cases hpc⟩
  | value _ _ => exact ⟨h.events, fun c k hpc => by cases hpc⟩
  | lag hs hmax hcap hlt =>
    refine ⟨h.events, fun c k _ => ?_⟩
    have := hhead _ hs hmax
    change r.cursor - cfg.capacity + 1 ≤ floor
    omega
  | @commit c res hs =>
    refine ⟨fun old new hm => ?_, fun c' k hpc => absurd hpc (hready (onCommit_counted s c res).stage c' k)⟩
    cases res with
    | ok buf =>
      have hev : (s.onCommit c (.ok buf)).events = s.events ++ [Event.received (s.cursor - 1) buf] :=
        (Book.mk.inj (resume_local _ _ c).1.book).2.2.2
      rw [hev] at hm
      rcases List.mem_append.mp hm with hm | hm
      · exact h.events old new hm
      · cases List.mem_singleton.mp hm
    | empty =>
      have hst := hr.stage
      rw [hs] at hst
      exact hst.elim
    | lagged k =>
      have hev : (s.onCommit c (.lagged k)).events = s.events ++ [Event.skipped (s.cursor - k) s.cursor] :=
        (Book.mk.inj (resume_local _ _ c).1.book).2.2.2
      rw [hev] at hm
      rcases List.mem_append.mp hm with hm | hm
      · exact h.events old new hm
      · cases List.mem_singleton.mp hm
        exact h.ahead c k hs
  | jump _ _ => exact ⟨h.events, fun c k hpc => by cases hpc⟩

/-! ## The invariant from the registration on -/

/-- A subscriber that the publisher respects from `floor` on. -/
structure Guest (cfg : Config) (floor : Nat) (t : Trackers) (p : Publisher n) (i : Nat)
    (s : Subscriber n) : Prop where
  tracker : s.tracker = true
  value : t.value i = settled s.cursor (stage s.pc)
  registered : Trackers.RegisteredFrom floor cfg.effective t (listed t p.pc) (gateOf p) i

structure Since (cfg : Config) (floor i : Nat) (w : World n) : Prop where
  created : Created (stage (w.subs i).pc)
  start_le : (w.subs i).start ≤ floor
  guest : seat (w.subs i).pc = .seated → (w.subs i).latestUsed = false →
    Guest cfg floor w.trackers w.publisher i (w.subs i)
  skips : (w.subs i).latestUsed = false → SkipsBelow floor (w.subs i)

theorem not_created_of_push {start : Nat} (h : s.pc = .push start) : ¬ Created (stage s.pc) := by
  rw [h]
  exact fun hf => hf

/-- A subscriber's own step keeps it respected. -/
theorem Guest.own (hm : SeatMove r t i s t' s') (hcr : Created (stage s.pc))
    (h : seat s.pc = .seated → s.latestUsed = false → Guest cfg floor t p i s)
    (hlatest : InLatest s.pc → s.latestUsed = true) (hseat' : seat s'.pc = .seated)
    (hused' : s'.latestUsed = false) : Guest cfg floor t' p i s' := by
  cases hm with
  | stay hseat _ hset _ hused htr =>
    obtain ⟨h1, hval, hreg⟩ := h (hseat ▸ hseat') (hused hused')
    refine ⟨htr.trans h1, ?_, hreg⟩
    rcases hset with hset | hin
    · exact hval.trans hset.symm
    · have hu := hused hused'
      rw [hlatest hin] at hu
      cases hu
  | ask hs _ _ => rw [hs] at hcr; exact hcr.elim
  | leave hseat _ => rw [hseat] at hseat'; cases hseat'
  | lock _ hne hseat =>
    rcases hseat with hseat | ⟨_, start, hjoin⟩
    · exact absurd (hseat ▸ hseat') hne
    · rw [hjoin] at hseat'; cases hseat'
  | join hs _ => cases hseat'
  | lossy hs => rw [hs] at hcr; exact hcr.elim
  | history hs => cases hseat'
  | push hs => exact absurd hcr (not_created_of_push hs)
  | @commit c res hs =>
    have hcount := onCommit_counted s c res
    obtain ⟨h1, hval, hreg⟩ := h (by rw [hs]; rfl) (hcount.latestUsed ▸ hused')
    rw [if_pos h1]
    refine ⟨hcount.tracker.trans h1, ?_, (hreg.store (v := s.cursor) ?_).other rfl (fun ha => ha) ?_⟩
    · rw [hcount.stage, hcount.cursor]
      exact Function.update_self ..
    · exact hval.trans_le (settled_le _ _)
    · cases p.pc <;> exact fun hm => hm
  | unlist hs => cases hseat'
  | release hs => cases hseat'

/-- What others do to the trackers. -/
theorem Guest.other (h : Guest cfg floor t p i s) (hval : t'.value i = t.value i)
    (hstr : 0 < t.strong i → 0 < t'.strong i) (hreg : i ∈ t.registered → i ∈ t'.registered) :
    Guest cfg floor t' p i s := by
  obtain ⟨h1, h2, h3⟩ := h
  refine ⟨h1, hval.trans h2, h3.other hval hstr ?_⟩
  cases p.pc <;> first | exact hreg | exact fun hi => hi

/-- The head is less than a ring beyond the reservation. -/
theorem Guest.head_lt (h : Guest cfg floor t p i s) {c : Caller n} (hpc : s.pc = .head c)
    (hcur : r.cursor = expectedCursor p.seq) (hmax : r.cursor ≠ u64Max) :
    r.cursor < max s.cursor floor + cfg.capacity := by
  have hval := h.value
  rw [hpc] at hval
  have hval' : t.value i = s.cursor := hval
  have hpos : p.seq ≤ max (t.value i) floor + cfg.effective := h.registered.covers.pos_le
  have heff := cfg.effective_le
  have hcap := cfg.two_le
  rw [hval'] at hpos
  unfold expectedCursor at hcur
  split_ifs at hcur with h0
  · exact absurd hcur hmax
  · omega

theorem step_since (hk : cfg.kind = .bounded wm) (hst : step cfg w a = some w')
    (hl : messages w' < seqLimit) (hs : Sane cfg w) (h : Since cfg floor i w) : Since cfg floor i w' := by
  have hsp := (hs.written.single (kind_ne_mpmc hk)).1
  cases step_moved hk hst hl hs with
  | same => exact h
  | pub hm hg =>
    refine ⟨h.created, h.start_le, fun hseat hu => ?_, h.skips⟩
    obtain ⟨h1, hval, hreg⟩ := h.guest hseat hu
    exact ⟨h1, by rw [hm.value]; exact hval, hreg.turn hm⟩
  | @sub j t' s' hm hc =>
    have hself := setSub_self { w with trackers := t' } j s'
    by_cases hj : i = j
    · subst hj
      obtain ⟨hcr, hstart⟩ := hc.created h.created
      have hused := hc.used
      constructor
      · rw [hself]
        exact hcr
      · rw [hself, hstart]
        exact h.start_le
      · rw [hself]
        exact fun hseat hu => Guest.own hm h.created h.guest (hs.readers i).latest hseat hu
      · rw [hself]
        intro hu
        refine (h.skips (hused hu)).change hc (hs.readers i) (fun c hpc hmax => ?_)
        exact (h.guest (by rw [hpc]; rfl) (hused hu)).head_lt hpc hsp.cursor hmax
    · have hne := setSub_ne { w with trackers := t' } s' hj
      obtain ⟨hval, hstr, hreg⟩ := hm.others hj
      constructor
      · rw [hne]
        exact h.created
      · rw [hne]
        exact h.start_le
      · rw [hne]
        exact fun hseat hu => (h.guest hseat hu).other hval hstr.ge.trans_lt' hreg
      · rw [hne]
        exact h.skips
  | clone hstr =>
    exact ⟨h.created, h.start_le, fun hseat hu =>
      (h.guest hseat hu).other rfl (fun ha => hstr i ha hseat) (fun hi => hi), h.skips⟩

/-! ## The registration -/

/-- A subscriber that has picked its start has picked it at or below the publisher's
position. -/
def PickedBelow (w : World n) : Prop :=
  ∀ i start, stage (w.subs i).pc = .joining start → start ≤ w.publisher.seq

theorem StartAt.le_seq {start : Nat} (h : StartAt cfg r start) (hcur : r.cursor = expectedCursor p.seq)
    (hseq : p.seq < seqLimit) : start ≤ p.seq := by
  rcases h with rfl | rfl
  · rw [hcur, startOf_expectedCursor (by unfold seqLimit at hseq; omega)]
  · rw [hcur, oldestOf_expectedCursor cfg.capacity_pos hseq]
    omega

theorem change_joining {start : Nat} (hc : Change cfg r s s') (hs' : stage s'.pc = .joining start) :
    stage s.pc = .joining start ∨ StartAt cfg r start := by
  cases hc with
  | wait hst _ _ _ _ =>
    rcases hst with hst | ⟨_, hst⟩
    · exact Or.inl (hst.symm.trans hs')
    · rw [hst] at hs'; cases hs'
  | join _ hst hj _ _ _ _ =>
    rw [hj] at hs'
    cases hs'
    exact Or.inr hst
  | create _ => cases hs'
  | @load c pc pc' _ _ => cases pc' <;> cases hs'
  | value _ _ => cases hs'
  | lag _ _ _ _ => cases hs'
  | @commit c res _ => rw [(onCommit_counted s c res).stage] at hs'; cases hs'
  | jump _ _ => cases hs'

theorem step_picked (hk : cfg.kind = .bounded wm) (hst : step cfg w a = some w')
    (hl : messages w' < seqLimit) (hs : Sane cfg w) (h : PickedBelow w) : PickedBelow w' := by
  have hl0 : messages w < seqLimit := (step_log_le hst).trans_lt hl
  have hsp := (hs.written.single (kind_ne_mpmc hk)).1
  have hlen := hsp.length
  have hseq : w.publisher.seq < seqLimit := by unfold messages at hl0; omega
  intro i start hi
  cases step_moved hk hst hl hs with
  | same => exact h i start hi
  | pub hm hg => exact (h i start hi).trans hm.gate.move.pos_le
  | @sub j t' s' hm hc =>
    by_cases hj : i = j
    · subst hj
      rw [setSub_self] at hi
      rcases change_joining hc hi with hi | hat
      · exact h i start hi
      · exact StartAt.le_seq hat hsp.cursor hseq
    · rw [setSub_ne _ _ hj] at hi
      exact h i start hi
  | clone _ => exact h i start hi

theorem reach_picked (hk : cfg.kind = .bounded wm) (h : Reach cfg w) (hl : messages w < seqLimit) :
    PickedBelow w :=
  (Reachable.invariant_below (P := fun w => Sane cfg w ∧ PickedBelow w) messages seqLimit
    (fun _ _ _ hs => step_log_le hs)
    ⟨⟨written_new cfg, fun _ => ok_absent cfg _⟩, fun _ _ hi => by cases hi⟩
    (fun _ _ _ hs hlt hw => ⟨step_sane hs hlt hw.1, step_picked hk hs hlt hw.1 hw.2⟩) h hl).2

/-- The registration itself, and with it the return of `subscribe_from_oldest`. -/
theorem push_since {start : Nat} {w1 : World n} (hs : Sane cfg w) (hb : Ok cfg w) (hp : PickedBelow w)
    (hpc : (w.subs i).pc = .push start) (h1 : step cfg w (.sub i) = some w1) :
    Since cfg w1.publisher.seq i w1 := by
  obtain ⟨⟨t, s⟩, hi, rfl⟩ := Option.map_eq_some_iff.mp h1
  have hstep : (w.subs i).step cfg w.ring w.trackers i = some ({ w.trackers with
      locked := false
      registered := w.trackers.registered ++ [i]
      value := Function.update w.trackers.value i start
      strong := Function.update w.trackers.strong i 1 }, (w.subs i).created start true) := by
    rw [Subscriber.step, hpc]
  obtain ⟨rfl, rfl⟩ := Prod.mk.inj (Option.some.inj (hstep.symm.trans hi))
  have hle : start ≤ w.publisher.seq := hp i start (by rw [hpc]; rfl)
  have hscan : (gateOf w.publisher).scan = none := Gate.scan_none hb.mutex (i := i) (by rw [hpc]; trivial)
  have hblank := (hs.readers i).blank (not_created_of_push hpc)
  constructor
  · rw [setSub_self]
    trivial
  · rw [setSub_self]
    exact hle
  · rw [setSub_self]
    intro _ _
    have hreg : Trackers.RegisteredFrom w.publisher.seq cfg.effective _ (w.trackers.registered ++ [i])
        (gateOf w.publisher) i := .push (t := w.trackers) cfg.effective_pos hb.behind hscan hle
    refine ⟨rfl, Function.update_self .., hreg.other rfl (fun ha => ha) (fun hm => ?_)⟩
    have hout : scanOf w.publisher.pc = none := hscan
    change i ∈ listed _ w.publisher.pc
    revert hout
    cases w.publisher.pc <;> first | exact fun _ => hm | exact fun hout => by cases hout
  · rw [setSub_self]
    intro _
    refine ⟨fun old new hm => ?_, fun c k hc => by cases hc⟩
    change Event.skipped old new ∈ (w.subs i).events at hm
    rw [hblank.1] at hm
    cases hm

theorem reach_since {w1 : World n} (hk : cfg.kind = .bounded wm) (h1 : Reach cfg w1)
    (hi : messages w1 < seqLimit → Since cfg floor i w1) (h : Reachable (step cfg) w1 w)
    (hl : messages w < seqLimit) : Since cfg floor i w := by
  induction h with
  | start => exact hi hl
  | next hs ha ih =>
    have hl0 := (step_log_le ha).trans_lt hl
    exact step_since hk ha hl (reach_sane (h1.trans hs) hl0) (ih hl0)

/-! ## What the subscriber receives -/

theorem receivedSeqs_append (es : List (Event n)) (e : Event n) :
    receivedSeqs (es ++ [e]) = receivedSeqs es ++ receivedSeqs [e] := List.filterMap_append

/-- A journal that skips below `floor` only has received every position from `floor` on,
once and in order. -/
theorem receivedSeqs_from {a b : Nat} {es : List (Event n)} (h : Tiles Event.lo Event.hi a es b)
    (ha : a ≤ floor) (hskip : ∀ old new, Event.skipped old new ∈ es → new ≤ floor) :
    (receivedSeqs es).filter (fun q => decide (floor ≤ q)) = List.range' floor (b - floor) := by
  induction h with
  | nil =>
    rw [show a - floor = 0 by omega]
    rfl
  | @snoc es e b ht hlo hlt ih =>
    rw [receivedSeqs_append, List.filter_append, ih (fun old new hm => hskip old new (List.mem_append_left _ hm))]
    cases e with
    | received seq buf =>
      obtain rfl : seq = b := hlo
      change _ ++ List.filter _ [seq] = List.range' floor (seq + 1 - floor)
      by_cases hf : floor ≤ seq
      · have hsub : seq + 1 - floor = seq - floor + 1 := by omega
        rw [hsub, List.range'_concat, List.filter_cons_of_pos (by simpa using hf), List.filter_nil]
        congr 2
        omega
      · rw [List.filter_cons_of_neg (by simpa using hf), List.filter_nil,
          show seq - floor = 0 by omega, show seq + 1 - floor = 0 by omega]
        rfl
    | skipped old new =>
      have hnew := hskip old new (by simp)
      have hlt' : b < new := hlt
      change _ ++ [] = List.range' floor (new - floor)
      rw [show b - floor = 0 by omega, show new - floor = 0 by omega]
      rfl

/-- A publisher at a slot access or a cursor store has been granted the move. -/
theorem granted_of_phase {pc : PubPc n} (h : SpWriter.phase pc ≠ .quiet) : granted pc = true := by
  revert h
  cases pc with
  | write v rest wpc => exact fun _ => rfl
  | cursor rest => exact fun _ => rfl
  | _ => exact fun h => absurd rfl h

/-- The message that a respected subscriber is at is still in its slot. -/
theorem Guest.held (h : Guest cfg floor t p i s) (hsp : SpWriter.Ok cfg r p.seq (SpWriter.phase p.pc))
    (hset : settled s.cursor (stage s.pc) = s.cursor) (hf : floor ≤ s.cursor) (hlt : s.cursor < p.seq) :
    r.stampAt cfg s.cursor = 2 * s.cursor + 2 := by
  have hval : t.value i = s.cursor := h.value.trans hset
  have hcov := h.registered.covers
  rw [hval, Nat.max_eq_left hf] at hcov
  have heff := cfg.effective_le
  have hle : p.seq ≤ s.cursor + cfg.effective := hcov.pos_le
  refine hsp.retained hlt (by omega) (fun hph => ?_)
  have : p.seq < s.cursor + cfg.effective := hcov.pos_lt (granted_of_phase hph)
  omega

/-- On a bounded channel, whatever happens between its head load and its registration: once
`subscribe_from_oldest` has returned, a subscriber that never calls `latest` skips only
messages published by then, receives every later one once and in order, and finds each of
them still in its slot when it gets there. The subscribers made by `subscribe` and
`subscribe_tracked` lose nothing meanwhile. -/
theorem from_oldest_no_loss {start : Nat} {w0 w1 : World n} (hk : cfg.kind = .bounded wm)
    (h0 : Reach cfg w0) (hkind : (w0.subs i).kind = .fromOldest) (hpc : (w0.subs i).pc = .push start)
    (h1 : step cfg w0 (.sub i) = some w1) (h : Reachable (step cfg) w1 w)
    (hl : messages w < seqLimit) (hlat : (w.subs i).latestUsed = false) :
    (w1.subs i).kind = .fromOldest ∧ (w1.subs i).pc = .idle ∧
    (∀ old new, Event.skipped old new ∈ (w.subs i).events → new ≤ w1.publisher.seq) ∧
    ((∀ c res, (w.subs i).pc ≠ .commit c res) →
      (receivedSeqs (w.subs i).events).filter (fun q => decide (w1.publisher.seq ≤ q)) =
        List.range' w1.publisher.seq ((w.subs i).cursor - w1.publisher.seq) ∧
      (seat (w.subs i).pc = .seated → w1.publisher.seq ≤ (w.subs i).cursor →
        (w.subs i).cursor < w.publisher.seq →
        (w.ring.slots (cfg.slot (w.subs i).cursor)).stamp = done (w.subs i).cursor)) ∧
    (∀ q buf, Event.received q buf ∈ (w.subs i).events → ∃ v, w.ring.log[q]? = some v ∧ buf = bytesOf v) ∧
    ∀ j, (w.subs j).kind = .subscribe ∨ (w.subs j).kind = .tracked → (w.subs j).latestUsed = false →
      (w.subs j).totalLagged = 0 ∧ ∀ e ∈ (w.subs j).events, ∃ q buf, e = .received q buf := by
  have hreach : Reach cfg w := (h0.next h1).trans h
  obtain ⟨hs, hb⟩ := reach_ok hk hreach hl
  have hi := hs.readers i
  have hsince : Since cfg w1.publisher.seq i w := by
    refine reach_since hk (h0.next h1) (fun hl1 => ?_) h hl
    have hl0 := (step_log_le h1).trans_lt hl1
    obtain ⟨hs0, hb0⟩ := reach_ok hk h0 hl0
    exact push_since hs0 hb0 (reach_picked hk h0 hl0) hpc h1
  have hskips := hsince.skips hlat
  have hback : (w1.subs i).kind = .fromOldest ∧ (w1.subs i).pc = .idle := by
    obtain ⟨⟨t, s⟩, hst, rfl⟩ := Option.map_eq_some_iff.mp h1
    rw [Subscriber.step, hpc] at hst
    cases hst
    rw [setSub_self]
    exact ⟨hkind, rfl⟩
  refine ⟨hback.1, hback.2, hskips.events, fun hnc => ⟨?_, fun hseat hf hlt => ?_⟩,
    fun q buf hm => hi.events _ hm, fun j hj hu => ?_⟩
  · have htiles := hi.tiles hlat
    rw [settled_eq hnc] at htiles
    exact receivedSeqs_from htiles hsince.start_le hskips.events
  · have hcur := hi.cursor_lt hl
    have hsp := (hs.written.single (kind_ne_mpmc hk)).1
    rw [cfg.slot_eq_of_lt hcur, done_eq hcur]
    exact (hsince.guest hseat hlat).held hsp (settled_eq hnc) hf hlt
  · obtain ⟨hev, _⟩ := hb.lossless j ⟨hj, hu⟩
    exact ⟨by rw [(hs.readers j).lagged hu, sum_lost_eq_zero hev], hev⟩

/-- A subscriber made while the first of three messages was being overwritten: it is told of
that loss, which lies below the registration, and receives the fourth message. -/
theorem from_oldest_no_loss_overtaken :
    ∃ w0 w1 w : World 1, Reach Config.smallBounded w0 ∧ step Config.smallBounded w0 (.sub 0) = some w1 ∧
      Reachable (step Config.smallBounded) w1 w ∧ w1.publisher.seq = 3 ∧ (w.subs 0).totalLagged = 1 ∧
      (∀ old new, Event.skipped old new ∈ (w.subs 0).events → new ≤ 3) ∧
      (receivedSeqs (w.subs 0).events).filter (fun q => decide (3 ≤ q)) = [3] := by
  obtain ⟨w0, w1, w, h0, h1, h, hp⟩ := Reachable.of_run_step_any (step Config.smallBounded) (World.new 1)
    (fun w0 w1 w => decide ((w0.subs 0).kind = .fromOldest ∧ w1.publisher.seq = 3 ∧ messages w < seqLimit ∧
        (w.subs 0).latestUsed = false ∧ (w.subs 0).totalLagged = 1 ∧ (w.subs 0).cursor = 4 ∧
        isPush 0 (w0.subs 0).pc = true ∧ isIdle (w.subs 0).pc = true))
    (List.flatten [.pubCall (.publish fun _ => 7) :: List.replicate 5 .pub,
      .pubCall (.publish fun _ => 8) :: List.replicate 5 .pub, [.subscribe 0 .fromOldest, .sub 0],
      .pubCall (.publish fun _ => 9) :: List.replicate 7 .pub, [.sub 0]])
    (.sub 0)
    (List.flatten [.subCall 0 .tryRecv :: List.replicate 3 (.sub 0), .subCall 0 .tryRecv :: List.replicate 4 (.sub 0),
      .subCall 0 .tryRecv :: List.replicate 4 (.sub 0), .pubCall (.publish fun _ => 10) :: List.replicate 9 .pub,
      .subCall 0 .tryRecv :: List.replicate 4 (.sub 0)]) (by decide +kernel)
  obtain ⟨hkind, hseq, hl, hlat, hlag, hcur, hpush, hidle⟩ := of_decide_eq_true hp
  obtain ⟨_, _, hskip, hrecv, _⟩ := from_oldest_no_loss rfl h0 hkind (push_of_isPush hpush) h1 h hl hlat
  have hall := (hrecv (fun c res hc => by rw [hc] at hidle; cases hidle)).1
  rw [hseq] at hskip hall
  rw [hcur] at hall
  exact ⟨w0, w1, w, h0, h1, h, hseq, hlag, hskip, hall⟩

/-- The bound on the messages is needed. After `2 ^ 64` messages the publisher takes the
position of a subscriber that is gone for that of a new one. Three messages are published
after `subscribe_from_oldest` has returned, and the first one that it is given is the
second one. -/
theorem from_oldest_misses_first : ∃ w0 w1 w : World 1, Reach Config.smallBounded w0 ∧
    (w0.subs 1).kind = .fromOldest ∧ (w0.subs 1).pc = .push 0 ∧ step Config.smallBounded w0 (.sub 1) = some w1 ∧
    Reachable (step Config.smallBounded) w1 w ∧ (w.subs 1).latestUsed = false ∧
    w.ring.log = w1.ring.log ++ [fun _ => 1, fun _ => 2, fun _ => 3] ∧
    receivedBufs (w.subs 1).events = [bytesOf fun _ => 2] := by
  obtain ⟨u, hu, htrust, hfree, hcur, hun⟩ := reach_wrapped
  have hk : Config.smallBounded.kind = .bounded 0 := rfl
  obtain ⟨w0, h0, hkind, hpush, hjoin⟩ := subscribeFromOldest_run hk hun.pc hfree
  have hstart : oldestOf Config.smallBounded.capacity u.ring.cursor = 0 := by
    rw [hcur]
    decide
  rw [hstart] at hpush hjoin
  have htrust1 : Trusting 0 (joined u 1 .fromOldest 0) := ⟨htrust.idle, htrust.cached, htrust.seq⟩
  obtain ⟨w2, h2, htrust2, hsubs2, _, hlog2, hslots2⟩ := htrust1.publish (by decide) .start fun _ => 1
  obtain ⟨w3, h3, htrust3, hsubs3, _, hlog3, hslots3⟩ := htrust2.publish (by decide) h2 fun _ => 2
  obtain ⟨w4, h4, _, hsubs4, hhead, hlog4, hslots4⟩ := htrust3.publish (by decide) h3 fun _ => 3
  have hsub : w4.subs 1 = { u.subs 1 with kind := .fromOldest }.created 0 true := by
    rw [hsubs4, hsubs3, hsubs2]
    exact joined_self ..
  have hlog : w4.ring.log = u.ring.log ++ [fun _ => 1, fun _ => 2, fun _ => 3] := by
    rw [hlog4, hlog3, hlog2, List.append_assoc, List.append_assoc]
    rfl
  have hst0 : (w4.ring.slots 0).stamp = 6 := by
    rw [hslots4]
    rfl
  have hst1 : w4.ring.slots 1 = ⟨4, bytesOf fun _ => 2⟩ := by
    rw [hslots4, hslots3]
    rfl
  have hcur0 : (w4.subs 1).cursor = 0 := by rw [hsub]; rfl
  have hread : (w4.ring.slots (Config.smallBounded.slot (w4.subs 1).cursor)).readStep (w4.subs 1).cursor .stamp =
      .inr (.other 6) := by
    have hslot : Config.smallBounded.slot 0 = 0 := by decide +kernel
    have hdone : done 0 = 2 := by decide
    simp [Slot.readStep, hcur0, hslot, hst0, hdone]
  obtain ⟨_, w5, h5, hring5, hgain5⟩ := lag_run (by rw [hsub]; rfl) hread (by decide) (by rw [hcur0]; decide) hhead
    (by decide) (by decide) (by rw [hcur0]; decide)
  have hcur1 : (w5.subs 1).cursor = 1 := hgain5.cursor
  have hslot : Config.smallBounded.slot (w5.subs 1).cursor = 1 := by
    rw [hcur1]
    decide +kernel
  have hlost : (w5.subs 1).totalLagged < 2 ^ 64 := by
    rw [hgain5.totalLagged]
    exact Nat.mod_lt _ (by decide)
  obtain ⟨_, w6, h6, hring6, hgain6⟩ := receive_run (w := w5) hgain5.pc hlost (by
    rw [hslot, hcur1, hring5, hst1]
    decide)
  refine ⟨w0, _, w6, hu.of_run h0, hkind, hpush, hjoin, (h4.of_run h5).of_run h6, ?_, ?_, ?_⟩
  · rw [hgain6.latestUsed, hgain5.latestUsed, hsub]
    exact hun.latestUsed
  · rw [hring6, hring5]
    exact hlog
  · rw [hgain6.received, hgain5.received, hslot, hring5, hst1, hsub]
    change receivedBufs (u.subs 1).events ++ [] ++ _ = _
    rw [hun.events]
    rfl

end PhotonRing.Bounded
