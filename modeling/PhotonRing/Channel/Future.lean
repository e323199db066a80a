import PhotonRing.Channel.Unattended

/-!
# Subscribing to future messages

A subscriber starts behind the shared cursor, so it is a matter of the cursor which
messages it is spared. The cursor of a single publisher covers every message whose publish
has returned. An MPMC producer may return with the cursor still behind its sequence, but
only while a producer with a lower sequence is at work.
-/
namespace PhotonRing.Future

open Lib Reader World MpWriter MpCursor Unattended

variable {n : Nat} {cfg : Config} {r r' : Ring n} {t t' : Trackers} {i q : Nat} {s s' : Subscriber n}
  {w w' : World n} {a : Act n}

/-! ## What has returned -/

/-- A catch-up scan is not behind the sequence its producer has claimed. -/
def CatchOk : MpPc n → Prop
  | .catchNext own seq => own ≤ seq
  | .catchStamp own seq => own ≤ seq
  | .catchCas own seq => own ≤ seq
  | _ => True

/-- A sequence whose publish has returned was claimed, and nobody is at work on it. -/
structure Returned (r : Ring n) (ps : Nat → MpPc n) : Prop where
  claimed : ∀ q ∈ r.returned, q < r.nextSeq
  finished : ∀ q ∈ r.returned, ∀ p, (task (ps p)).own? ≠ some q
  scans : ∀ p, CatchOk (ps p)

theorem returned_new (n : Nat) : Returned (Ring.new n) (fun _ => .idle) where
  claimed := fun _ hq => by cases hq
  finished := fun _ hq => by cases hq
  scans := fun _ => trivial

/-- A step that returns nothing and keeps the claims. -/
theorem Returned.stay {ps : Nat → MpPc n} {p own : Nat} {pc : MpPc n} (h : Returned r ps)
    (hp : (task (ps p)).own? = some own) (hret : r'.returned = r.returned) (hnext : r'.nextSeq = r.nextSeq)
    (hown : (task pc).own? = some own) (hpc : CatchOk pc) : Returned r' (Function.update ps p pc) := by
  refine ⟨fun q hq => ?_, fun q hq p' => ?_, fun p' => ?_⟩
  · rw [hnext]
    exact h.claimed q (hret ▸ hq)
  · rw [hret] at hq
    by_cases hpp : p' = p
    · rw [hpp, Function.update_self, hown, ← hp]
      exact h.finished q hq p
    · rw [Function.update_of_ne hpp]
      exact h.finished q hq p'
  · by_cases hpp : p' = p
    · rw [hpp, Function.update_self]
      exact hpc
    · rw [Function.update_of_ne hpp]
      exact h.scans p'

/-- A call returns. -/
theorem Returned.ret {ps : Nat → MpPc n} {p own : Nat} (h : Returned r ps) (hs : Sound cfg r ps)
    (hp : (task (ps p)).own? = some own) :
    Returned (MpPc.ret r own).1 (Function.update ps p (MpPc.ret r own).2) := by
  refine ⟨fun q hq => ?_, fun q hq p' => ?_, fun p' => ?_⟩
  · rcases List.mem_append.mp hq with hq | hq
    · exact h.claimed q hq
    · obtain rfl := List.mem_singleton.mp hq
      change q < r.nextSeq
      rw [hs.writers.next]
      exact hs.writers.own_lt p q hp
  · by_cases hpp : p' = p
    · rw [hpp, Function.update_self]
      intro hf
      cases hf
    · rw [Function.update_of_ne hpp]
      rcases List.mem_append.mp hq with hq | hq
      · exact h.finished q hq p'
      · obtain rfl := List.mem_singleton.mp hq
        exact fun hf => hpp (hs.writers.unique p' p q hf hp)
  · by_cases hpp : p' = p
    · rw [hpp, Function.update_self]
      trivial
    · rw [Function.update_of_ne hpp]
      exact h.scans p'

theorem written_own (own : Nat) (c : MpCall n) :
    (task (MpPc.written own c)).own? = some own ∧ CatchOk (MpPc.written own c) := by
  unfold MpPc.written
  split <;> exact ⟨rfl, trivial⟩

/-- A step of a producer. -/
theorem Returned.step {ps : Nat → MpPc n} {p : Nat} {pc : MpPc n} (h : Returned r ps) (hs : Sound cfg r ps)
    (hl : r'.log.length < seqLimit) (hstep : (ps p).step cfg r = some (r', pc)) :
    Returned r' (Function.update ps p pc) := by
  have hscan := h.scans p
  have hpcs := hs.cursor.pcs p
  have hnext := hs.writers.next
  have hl0 : r.log.length < seqLimit := (MpCursor.step_log_le hstep).trans_lt hl
  unfold seqLimit at hl0
  cases hpc : ps p with
  | idle => rw [hpc] at hstep; cases hstep
  | claim c =>
    rw [hpc] at hstep
    cases hstep
    have hword : u64 (r.nextSeq + 1) = r.nextSeq + 1 := u64_of_lt (by omega)
    refine ⟨fun q hq => ?_, fun q hq p' => ?_, fun p' => ?_⟩
    · have := h.claimed q hq
      change q < u64 (r.nextSeq + 1)
      omega
    · by_cases hpp : p' = p
      · rw [hpp, Function.update_self]
        intro hf
        have hlt := h.claimed q hq
        have : r.nextSeq = q := Option.some.inj hf
        omega
      · rw [Function.update_of_ne hpp]
        exact h.finished q hq p'
    · by_cases hpp : p' = p
      · rw [hpp, Function.update_self]
        trivial
      · rw [Function.update_of_ne hpp]
        exact h.scans p'
  | waitSlot own c =>
    have hown : (task (ps p)).own? = some own := by rw [hpc]; rfl
    rw [hpc] at hstep
    obtain ⟨hw, hcatch⟩ := written_own own c
    simp only [MpPc.step] at hstep
    split at hstep
    · cases hstep
      exact h.stay hown rfl rfl hw hcatch
    · split at hstep <;> cases hstep
      · exact h.stay hown rfl rfl rfl trivial
      · exact h.stay hown rfl rfl hw hcatch
  | closure own v =>
    have hown : (task (ps p)).own? = some own := by rw [hpc]; rfl
    rw [hpc] at hstep
    cases hstep
    exact h.stay hown rfl rfl rfl trivial
  | write own v wr =>
    have hown : (task (ps p)).own? = some own := by rw [hpc]; cases wr <;> rfl
    rw [hpc] at hstep
    simp only [MpPc.step] at hstep
    split at hstep <;> cases hstep
    · rename_i wr' _
      exact h.stay hown rfl rfl (by cases wr' <;> rfl) trivial
    · exact h.stay hown rfl rfl rfl trivial
  | cas own =>
    have hown : (task (ps p)).own? = some own := by rw [hpc]; rfl
    rw [hpc] at hstep
    simp only [MpPc.step] at hstep
    split at hstep
    · cases hstep
      exact h.stay hown rfl rfl rfl (Nat.le_refl own)
    · split at hstep <;> cases hstep <;> exact h.stay hown rfl rfl rfl trivial
  | waitPred own =>
    have hown : (task (ps p)).own? = some own := by rw [hpc]; rfl
    rw [hpc] at hstep
    simp only [MpPc.step] at hstep
    split at hstep <;> cases hstep <;> exact h.stay hown rfl rfl rfl trivial
  | recas own =>
    have hown : (task (ps p)).own? = some own := by rw [hpc]; rfl
    rw [hpc] at hstep
    simp only [MpPc.step] at hstep
    split at hstep <;> cases hstep <;> exact h.stay hown rfl rfl rfl trivial
  | reload own =>
    have hown : (task (ps p)).own? = some own := by rw [hpc]; rfl
    rw [hpc] at hstep
    simp only [MpPc.step] at hstep
    split at hstep <;> cases hstep
    · exact h.stay hown rfl rfl rfl (Nat.le_refl own)
    · exact h.ret hs hown
  | catchNext own seq =>
    have hown : (task (ps p)).own? = some own := by rw [hpc]; rfl
    rw [hpc] at hstep hscan
    simp only [MpPc.step] at hstep
    split at hstep <;> cases hstep
    · exact h.ret hs hown
    · exact h.stay hown rfl rfl rfl hscan
  | catchStamp own seq =>
    have hown : (task (ps p)).own? = some own := by rw [hpc]; rfl
    rw [hpc] at hstep hscan
    simp only [MpPc.step] at hstep
    split at hstep <;> cases hstep
    · exact h.ret hs hown
    · exact h.stay hown rfl rfl rfl hscan
  | catchCas own seq =>
    have hown : (task (ps p)).own? = some own := by rw [hpc]; rfl
    rw [hpc] at hstep hscan hpcs
    obtain ⟨_, hlt, _⟩ := hpcs
    have hle : own ≤ seq := hscan
    simp only [MpPc.step] at hstep
    split at hstep <;> cases hstep
    · refine h.stay hown rfl rfl rfl ?_
      change own ≤ u64 (seq + 1)
      rw [u64_of_lt (by omega)]
      omega
    · exact h.ret hs hown

/-- Whoever answers for a position has claimed none beyond it. -/
theorem own_of_responsible {pc : MpPc n} {m : Nat} (h : Responsible m pc) (hc : CatchOk pc) :
    ∃ own ≤ m, (task pc).own? = some own := by
  cases pc with
  | idle => exact h.elim
  | claim c => exact h.elim
  | waitSlot own c => exact ⟨own, le_of_eq h, rfl⟩
  | closure own v => exact ⟨own, le_of_eq h, rfl⟩
  | write own v wr => exact ⟨own, le_of_eq h, by cases wr <;> rfl⟩
  | cas own => exact ⟨own, le_of_eq h, rfl⟩
  | waitPred own => exact ⟨own, le_of_eq h, rfl⟩
  | recas own => exact ⟨own, le_of_eq h, rfl⟩
  | reload own => exact ⟨own, (Nat.le_succ own).trans (le_of_eq h), rfl⟩
  | catchNext own seq => exact ⟨own, (Nat.le_succ_of_le hc).trans (le_of_eq h), rfl⟩
  | catchStamp own seq => exact ⟨own, (Nat.le_succ_of_le hc).trans (le_of_eq h), rfl⟩
  | catchCas own seq => exact ⟨own, (Nat.le_succ_of_le hc).trans (le_of_eq h), rfl⟩

/-- Once it and all lower sequences have returned, the cursor has reached a sequence. -/
theorem Returned.reached {ps : Nat → MpPc n} (h : Returned r ps) (hs : Sound cfg r ps)
    (hq : ∀ s ≤ q, s ∈ r.returned) : Reached r q := by
  have hcount : q < count r := by
    by_contra hn
    have hle : count r ≤ q := Nat.le_of_not_lt hn
    obtain ⟨p, hp⟩ := hs.cursor.responsible (h.claimed _ (hq _ hle))
    obtain ⟨own, hown, hp⟩ := own_of_responsible hp (h.scans p)
    exact h.finished own (hq own (hown.trans hle)) p hp
  unfold count at hcount
  split_ifs at hcount with hmax
  · exact absurd hcount (Nat.not_lt_zero q)
  · exact ⟨hmax, by omega⟩

/-- The single publisher has counted every message whose publish has returned. -/
theorem publisher_returned {p p' : Publisher n} (hseq : p.seq < seqLimit) (hr : ∀ q ∈ r.returned, q < p.seq)
    (h : p.step cfg r t = some (r', t', p')) : ∀ q ∈ r'.returned, q < p'.seq := by
  by_cases hpc : ∃ rest, p.pc = .cursor rest
  · obtain ⟨rest, hpc⟩ := hpc
    have hword : u64 (p.seq + 1) = p.seq + 1 := u64_of_lt (by unfold seqLimit at hseq; omega)
    simp only [Publisher.step, hpc, hword] at h
    split at h <;> cases h
    · exact fun q hq => List.mem_range.mp hq
    · exact fun q hq => (hr q hq).trans (Nat.lt_succ_self _)
  · cases SpWriter.step_effect h with
    | quiet hseq _ _ => rw [hseq]; exact hr
    | write hseq _ _ _ => rw [hseq]; exact hr
    | finish hseq _ _ _ => rw [hseq]; exact hr
    | announce hp _ _ => exact absurd ⟨_, hp⟩ hpc

/-- What has returned, by kind of channel. -/
structure Accepted (cfg : Config) (w : World n) : Prop where
  mpmc : cfg.kind = .mpmc → Returned w.ring w.producers
  single : cfg.kind ≠ .mpmc → ∀ q ∈ w.ring.returned, q < w.publisher.seq

theorem accepted_new (cfg : Config) : Accepted cfg (World.new n) where
  mpmc := fun _ => returned_new n
  single := fun _ _ hq => by cases hq

theorem step_accepted (h : step cfg w a = some w') (hl : messages w' < seqLimit) (hw : Written cfg w)
    (ha : Accepted cfg w) : Accepted cfg w' := by
  have hl0 : messages w < seqLimit := (step_log_le h).trans_lt hl
  rcases step_writers h with ⟨hr, hp, hps⟩ | ⟨c, p, _, hk, hp, rfl⟩ | ⟨r, t, p, _, hp, rfl⟩ |
    ⟨p, c, pc, _, hk, hp, rfl⟩ | ⟨p, r, pc, _, hp, rfl⟩
  · exact ⟨fun hk => by rw [hr, hps]; exact ha.mpmc hk, fun hk => by rw [hr, hp]; exact ha.single hk⟩
  · refine ⟨fun hm => absurd hm hk, fun _ => ?_⟩
    rw [(pubCall_quiet hp).1]
    exact ha.single hk
  · refine ⟨fun hk => ?_, fun hk => ?_⟩
    · rw [Publisher.step, (hw.mpmc hk).2] at hp
      cases hp
    · have hlen := (hw.single hk).1.length
      exact publisher_returned (by unfold messages at hl0; omega) (ha.single hk) hp
  · refine ⟨fun hk => ?_, fun hm => absurd hk hm⟩
    have hown : w.producers p = .idle ∧ pc = .claim c := by
      cases hpc : w.producers p <;> rw [hpc] at hp <;> cases hp
      exact ⟨rfl, rfl⟩
    obtain ⟨hidle, rfl⟩ := hown
    have hret := ha.mpmc hk
    refine ⟨hret.claimed, fun q hq p' => ?_, fun p' => ?_⟩
    · change (task (Function.update w.producers p (.claim c) p')).own? ≠ some q
      by_cases hpp : p' = p
      · rw [hpp, Function.update_self]
        intro hf
        cases hf
      · rw [Function.update_of_ne hpp]
        exact hret.finished q hq p'
    · change CatchOk (Function.update w.producers p (.claim c) p')
      by_cases hpp : p' = p
      · rw [hpp, Function.update_self]
        trivial
      · rw [Function.update_of_ne hpp]
        exact hret.scans p'
  · refine ⟨fun hk => (ha.mpmc hk).step (hw.mpmc hk).1 hl hp, fun hk => ?_⟩
    rw [(hw.single hk).2 p] at hp
    cases hp

theorem reach_accepted (h : Reach cfg w) (hl : messages w < seqLimit) : Sane cfg w ∧ Accepted cfg w :=
  Reachable.invariant_below (P := fun w => Sane cfg w ∧ Accepted cfg w) messages seqLimit
    (fun _ _ _ hs => step_log_le hs) ⟨⟨written_new cfg, fun _ => ok_absent cfg _⟩, accepted_new cfg⟩
    (fun _ _ _ hs hlt hw => ⟨step_sane hs hlt hw.1, step_accepted hs hlt hw.1.written hw.2⟩) h hl

/-- The cursor has reached a sequence once its publish has returned and, on an MPMC
channel, those of all lower sequences. -/
theorem reached_of_returned (h : Reach cfg w) (hl : messages w < seqLimit) (hq : q ∈ w.ring.returned)
    (hbelow : cfg.kind = .mpmc → ∀ s < q, s ∈ w.ring.returned) : Reached w.ring q := by
  obtain ⟨hs, ha⟩ := reach_accepted h hl
  by_cases hk : cfg.kind = .mpmc
  · refine (ha.mpmc hk).reached (hs.written.mpmc hk).1 (fun s hsq => ?_)
    rcases Nat.lt_or_eq_of_le hsq with hlt | rfl
    · exact hbelow hk s hlt
    · exact hq
  · have hsp := (hs.written.single hk).1
    have hlt := ha.single hk q hq
    have hcur := hsp.cursor
    have hlen := hsp.length
    unfold messages seqLimit at hl
    unfold expectedCursor at hcur
    rw [if_neg (by omega)] at hcur
    exact ⟨by unfold u64Max; omega, by omega⟩

/-! ## Where a subscriber starts -/

/-- A subscriber that starts beyond `q`, if it has got as far as having a start. -/
def Asked (q : Nat) (s : Subscriber n) : Prop :=
  match s.pc with
  | .absent => False
  | .lock k => k ≠ .fromOldest
  | .loadHead k => k ≠ .fromOldest
  | .lockPush _ => False
  | .push start => q < start
  | _ => q < s.start

theorem asked_iff (h : Created (stage s.pc)) : Asked q s ↔ q < s.start := by
  unfold Asked
  revert h
  cases s.pc <;> first | exact fun h => h.elim | exact fun _ => Iff.rfl

theorem startOf_gt (h : Reached r q) (hr : r.Ok cfg) (hl : r.log.length < seqLimit) : q < startOf r.cursor := by
  have hlt := hr.cursor_lt h.1
  have hle := h.2
  unfold seqLimit at hl
  rw [startOf, if_neg h.1, u64_of_lt (by omega)]
  omega

theorem own_asked (hasked : Asked q s) (hgt : q < startOf r.cursor) (h : s.step cfg r t i = some (t', s')) :
    Asked q s' := by
  by_cases hcr : Created (stage s.pc)
  · obtain ⟨hcr', hstart⟩ := (step_change h).created hcr
    rw [asked_iff hcr', hstart]
    exact (asked_iff hcr).mp hasked
  · unfold Asked at hasked
    cases Subscriber.step_moves h with
    | takeLock hpc _ | push hpc =>
      rw [hpc] at hasked
      exact hasked
    | join _ _ _ | bare _ _ | tracked _ _ => exact hgt
    | history hpc _ | bareHistory hpc _ =>
      rw [hpc] at hasked
      exact absurd rfl hasked
    | lockPush hpc _ =>
      rw [hpc] at hasked
      exact hasked.elim
    | @reading c pc pc' hpc _ =>
      rw [hpc] at hcr
      cases pc <;> exact absurd trivial hcr
    | @read c pc res hpc _ =>
      rw [hpc] at hcr
      cases pc <;> exact absurd trivial hcr
    | gateNext hpc | gateClosed hpc _ | gateOpen hpc _ | head hpc | commit hpc | latestNone hpc _ | latestHead hpc _
    | pending hpc | checkDrain hpc _ | checkStop hpc _ | checkGo hpc _ | loadPending hpc | dropLock hpc _
    | dropRetain hpc | dropArc hpc =>
      rw [hpc] at hcr
      exact absurd trivial hcr

theorem step_asked (h : step cfg w a = some w') (hl : messages w < seqLimit) (hs : Sane cfg w)
    (hreached : Reached w.ring q) (hasked : Asked q (w.subs i)) : Asked q (w'.subs i) := by
  cases step_subs h i with
  | other he => rw [he]; exact hasked
  | subscribe he _ =>
    unfold Asked at hasked
    rw [(subscribe_pc he).1] at hasked
    exact hasked.elim
  | step he => exact own_asked hasked (startOf_gt hreached hs.written.ring hl) he
  | call he _ =>
    have hcr : Created (stage (w.subs i).pc) := by rw [(call_idle he).1]; trivial
    have hch : Change cfg w.ring (w.subs i) (w'.subs i) := call_change he
    obtain ⟨hcr', hstart⟩ := hch.created hcr
    rw [asked_iff hcr', hstart]
    exact (asked_iff hcr).mp hasked
  | drop he _ =>
    obtain ⟨hpc, he⟩ := drop_pc he
    have hcr : Created (stage (w.subs i).pc) := by rcases hpc with hpc | hpc <;> rw [hpc] <;> trivial
    rcases he with he | he <;> rw [he] <;> exact (asked_iff hcr).mp hasked
  | shutdown he _ => rw [he]; exact hasked

/-- On every kind of channel, a subscriber made by `subscribe`, `subscribe_tracked` or
`subscribe_lossy` that never calls `latest` never receives a message whose publish, and on
an MPMC channel those of all lower sequences, had returned when the call began. -/
theorem subscribe_future_only {k : SubscribeKind} {w0 w1 : World n} (h0 : Reach cfg w0)
    (hk : k ≠ .fromOldest) (h1 : step cfg w0 (.subscribe i k) = some w1) (h : Reachable (step cfg) w1 w)
    (hl : messages w < seqLimit) (hlat : (w.subs i).latestUsed = false) (hq : q ∈ w0.ring.returned)
    (hbelow : cfg.kind = .mpmc → ∀ s < q, s ∈ w0.ring.returned) (buf : Buf n) :
    Event.received q buf ∉ (w.subs i).events := by
  have hl1 : messages w1 < seqLimit := (h.le_of_mono (f := messages) fun _ _ _ ha => step_log_le ha).trans_lt hl
  have hreached0 := reached_of_returned h0 ((step_log_le h1).trans_lt hl1) hq hbelow
  have hfar : ∀ w', Reachable (step cfg) w1 w' → messages w' < seqLimit →
      Reached w'.ring q ∧ Asked q (w'.subs i) := by
    intro w' h' hl'
    induction h' with
    | start =>
      obtain ⟨s, hs, rfl⟩ := Option.map_eq_some_iff.mp h1
      obtain ⟨_, pc, hpc, rfl⟩ := subscribe_pc hs
      refine ⟨hreached0, ?_⟩
      rw [setSub_self]
      rcases hpc with rfl | rfl <;> exact hk
    | @next u v a hu ha ih =>
      have hlu : messages u < seqLimit := (step_log_le ha).trans_lt hl'
      obtain ⟨hreached, hasked⟩ := ih hlu
      have hs := reach_sane ((h0.next h1).trans hu) hlu
      obtain ⟨_, hgrows⟩ := step_written ha hl' hs.written
      obtain ⟨hne, hle⟩ := hgrows.cursor hreached.1
      exact ⟨⟨hne, hreached.2.trans hle⟩, step_asked ha hlu hs hreached hasked⟩
  obtain ⟨_, hasked⟩ := hfar w h hl
  have hs := reach_sane ((h0.next h1).trans h) hl
  intro hmem
  by_cases hcr : Created (stage (w.subs i).pc)
  · have hbounds := ((hs.readers i).tiles hlat).bounds _ hmem
    have hstart := (asked_iff hcr).mp hasked
    have : (w.subs i).start ≤ q := hbounds.1
    omega
  · rw [((hs.readers i).blank hcr).1] at hmem
    cases hmem

/-- A subscriber made after the first of two publishes on an MPMC channel, which has
received the second message. -/
theorem subscribe_future_only_second :
    ∃ w0 w1 w : World 1, Reach Config.smallMpmc w0 ∧ 0 ∈ w0.ring.returned ∧
      step Config.smallMpmc w0 (.subscribe 0 .subscribe) = some w1 ∧ Reachable (step Config.smallMpmc) w1 w ∧
      receivedSeqs (w.subs 0).events = [1] ∧ ∀ buf, Event.received 0 buf ∉ (w.subs 0).events := by
  obtain ⟨w0, w1, w, h0, h1, h, hp⟩ := Reachable.of_run_step_any (step Config.smallMpmc) (World.new 1)
    (fun w0 _ w => decide (messages w < seqLimit ∧ 0 ∈ w0.ring.returned ∧ (w.subs 0).latestUsed = false ∧
      receivedSeqs (w.subs 0).events = [1]))
    (.mpCall 0 ⟨fun _ => 7, false⟩ :: List.replicate 7 (.mp 0)) (.subscribe 0 .subscribe)
    (List.flatten [[.sub 0], .mpCall 0 ⟨fun _ => 8, false⟩ :: List.replicate 7 (.mp 0),
      .subCall 0 .tryRecv :: List.replicate 4 (.sub 0)]) (by decide +kernel)
  obtain ⟨hl, hret, hlat, hrecv⟩ := of_decide_eq_true hp
  exact ⟨w0, w1, w, h0, hret, h1, h, hrecv, subscribe_future_only h0 (by decide) h1 h hl hlat hret
    (fun _ s hs => absurd hs (Nat.not_lt_zero s))⟩

/-- All `2 ^ 64` publishes have returned, the cursor stands one before the last of them, and
a new subscriber receives it although nothing has been published since. -/
theorem last_seen_late : ∃ w0 w1 w : World 1, Reach Config.smallMpmc w0 ∧ (∀ q < 2 ^ 64, q ∈ w0.ring.returned) ∧
    step Config.smallMpmc w0 (.subscribe 0 .subscribe) = some w1 ∧ Reachable (step Config.smallMpmc) w1 w ∧
    w.ring = w0.ring ∧ (w.subs 0).latestUsed = false ∧
    receivedBufs (w.subs 0).events = [bytesOf fun _ => 7] := by
  obtain ⟨slots, log, returned, hlapped, hall⟩ := reach_lapped (2 ^ 64 - 4) (by decide)
  have hboth : Reach Config.smallMpmc (both (lapped (2 ^ 64 - 2) slots log returned).ring .idle .idle) := by
    rw [both_idle]
    exact hlapped
  obtain ⟨r, hr, hret, hcur, hlast⟩ := overtaken hboth rfl rfl rfl rfl
  have hslot : Config.smallMpmc.slot (2 ^ 64 - 1) = 1 := by decide +kernel
  have hstart : startOf r.cursor = 2 ^ 64 - 1 := by
    rw [hcur]
    decide
  let s : Subscriber 1 := { Subscriber.absent 1 with kind := .subscribe }.created (2 ^ 64 - 1) false
  have hjoin : step Config.smallMpmc
      ((both r .idle .idle).setSub 0 { Subscriber.absent 1 with kind := .subscribe, pc := .loadHead .subscribe })
      (.sub 0) = some ((both r .idle .idle).setSub 0 s) := by
    change some (({ both r .idle .idle with trackers := _ }.setSub 0 _).setSub 0
      ({ Subscriber.absent 1 with kind := .subscribe, pc := .loadHead .subscribe }.created
        (startOf r.cursor) false)) = _
    rw [hstart]
    simp only [setSub, Function.update_idem]
    rfl
  have hheld : (r.slots (Config.smallMpmc.slot s.cursor)).stamp = done (2 ^ 64 - 1) := by
    change (r.slots (Config.smallMpmc.slot (2 ^ 64 - 1))).stamp = _
    rw [hslot, hlast]
  obtain ⟨k, w, hrun, hring, hgained⟩ := receive_run (w := (both r .idle .idle).setSub 0 s) (i := 0) rfl
    (Nat.two_pow_pos 64) hheld
  refine ⟨both r .idle .idle, _, w, hr, fun q hq => ?_, rfl, (Reachable.start.next hjoin).of_run hrun, hring,
    hgained.latestUsed, ?_⟩
  · change q ∈ r.returned
    rw [hret, List.mem_append, List.mem_append, List.mem_singleton, List.mem_singleton]
    by_cases hlt : q < 2 ^ 64 - 2
    · exact Or.inl (Or.inl (hall q hlt))
    · omega
  · rw [hgained.received]
    change [(r.slots (Config.smallMpmc.slot (2 ^ 64 - 1))).value] = _
    rw [hslot, hlast]

/-- Three ways to receive a message that had been published before: `latest` reads the head
whatever the subscriber's start; on an MPMC channel the publish of sequence 1 returns while
the producer of sequence 0 has written its slot and not yet moved the cursor, so that a
subscriber starts at 0; and the last of `2 ^ 64` messages stays beyond the cursor. -/
theorem subscribe_sees_past :
    (∃ w0 w1 w : World 1, Reach Config.smallLossy w0 ∧ 0 ∈ w0.ring.returned ∧
      step Config.smallLossy w0 (.subscribe 0 .subscribe) = some w1 ∧
      Reachable (step Config.smallLossy) w1 w ∧ 0 ∈ receivedSeqs (w.subs 0).events) ∧
    (∃ w0 w1 w : World 1, Reach Config.smallMpmc w0 ∧ 1 ∈ w0.ring.returned ∧
      step Config.smallMpmc w0 (.subscribe 0 .subscribe) = some w1 ∧ Reachable (step Config.smallMpmc) w1 w ∧
      (w.subs 0).latestUsed = false ∧ 1 ∈ receivedSeqs (w.subs 0).events) ∧
    ∃ w0 w1 w : World 1, Reach Config.smallMpmc w0 ∧ (∀ q < 2 ^ 64, q ∈ w0.ring.returned) ∧
      step Config.smallMpmc w0 (.subscribe 0 .subscribe) = some w1 ∧ Reachable (step Config.smallMpmc) w1 w ∧
      w.ring = w0.ring ∧ (w.subs 0).latestUsed = false ∧
      receivedBufs (w.subs 0).events = [bytesOf fun _ => 7] := by
  refine ⟨?_, ?_, last_seen_late⟩
  · obtain ⟨w0, w1, w, h0, h1, h, hp⟩ := Reachable.of_run_step_any (step Config.smallLossy) (World.new 1)
      (fun w0 _ w => decide (0 ∈ w0.ring.returned ∧ 0 ∈ receivedSeqs (w.subs 0).events))
      (.pubCall (.publish fun _ => 7) :: List.replicate 5 .pub) (.subscribe 0 .subscribe)
      (List.flatten [[.sub 0], .subCall 0 .latest :: List.replicate 5 (.sub 0)]) (by decide +kernel)
    obtain ⟨hret, hrecv⟩ := of_decide_eq_true hp
    exact ⟨w0, w1, w, h0, hret, h1, h, hrecv⟩
  · obtain ⟨w0, w1, w, h0, h1, h, hp⟩ := Reachable.of_run_step_any (step Config.smallMpmc) (World.new 1)
      (fun w0 _ w => decide (1 ∈ w0.ring.returned ∧ (w.subs 0).latestUsed = false ∧
        1 ∈ receivedSeqs (w.subs 0).events))
      (List.flatten [[.mpCall 0 ⟨fun _ => 7, false⟩, .mpCall 1 ⟨fun _ => 8, false⟩, .mp 0, .mp 1],
        List.replicate 4 (.mp 0), List.replicate 8 (.mp 1)])
      (.subscribe 0 .subscribe)
      (List.flatten [[.sub 0], .subCall 0 .tryRecv :: List.replicate 4 (.sub 0),
        .subCall 0 .tryRecv :: List.replicate 4 (.sub 0)]) (by decide +kernel)
    obtain ⟨hret, hlat, hrecv⟩ := of_decide_eq_true hp
    exact ⟨w0, w1, w, h0, hret, h1, h, hlat, hrecv⟩

end PhotonRing.Future
