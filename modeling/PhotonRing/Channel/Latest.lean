import PhotonRing.Channel.ReadSide

/-!
# What `latest` returns

`latest` loads the head, moves the cursor to it and reads that slot once. It loads the head
again only when the read reports a lag; when the slot is being written, or is overwritten
while it is copied, the read reports `Empty` and `latest` returns `None`. A call none of
whose slot accesses meets that returns `None` only for an empty channel, and otherwise a
message at or after the head at its call.
-/
namespace PhotonRing.Latest

open Lib Lib.Seqlock Reader World

variable {n : Nat} {cfg : Config} {w w' w1 : World n} {a : Act n} {i q : Nat}

/-- The condition on a step of `latest`: the first look at the slot finds the message at the
cursor or a later one, written completely; the last one finds the message still there; and
a lag is computed from a head that has passed the cursor by the capacity. -/
def readsMessage (cfg : Config) (r : Ring n) (s : Subscriber n) : Bool :=
  match s.pc with
  | .read .latest .stamp =>
    let stamp := (r.slots (cfg.slot s.cursor)).stamp
    decide (stamp % 2 = 0 ∧ done s.cursor ≤ stamp)
  | .read .latest (.load off _) => decide (off < n ∨ (r.slots (cfg.slot s.cursor)).stamp = done s.cursor)
  | .head .latest =>
    decide (r.cursor ≠ u64Max ∧ cfg.capacity ≤ r.cursor ∧ s.cursor < r.cursor - cfg.capacity + 1)
  | _ => true

/-- The steps of the channel while subscriber `i` is inside its call, as far as they meet
the condition. -/
def latestStep (cfg : Config) (i : Nat) (w : World n) (a : Act n) : Option (World n) :=
  if insideCall i a then
    match a with
    | .sub j => if j = i ∧ readsMessage cfg w.ring (w.subs i) = false then none else step cfg w (.sub j)
    | a => step cfg w a
  else none

theorem latestStep_step (h : latestStep cfg i w a = some w') :
    step cfg w a = some w' ∧ insideCall i a = true ∧ (a = .sub i → readsMessage cfg w.ring (w.subs i) = true) := by
  unfold latestStep at h
  obtain ⟨hinside, h⟩ := Option.ite_none_right_eq_some.mp h
  cases a with
  | sub j =>
    dsimp only at h
    obtain ⟨hok, h⟩ := Option.ite_none_left_eq_some.mp h
    refine ⟨h, hinside, fun ha => ?_⟩
    by_contra hread
    exact hok ⟨Act.sub.inj ha, Bool.not_eq_true _ ▸ hread⟩
  | _ => exact ⟨h, hinside, fun ha => by cases ha⟩

/-- `q` is at or after the head when the call began. -/
def NotBefore (w1 : World n) (q : Nat) : Prop := w1.ring.cursor = u64Max ∨ w1.ring.cursor ≤ q

/-- The call's load of the head found the sentinel. -/
def LoadedSentinel (cfg : Config) (i : Nat) (w1 w : World n) : Prop :=
  ∃ w' w'', Reachable (latestStep cfg i) w1 w' ∧ latestStep cfg i w' (.sub i) = some w'' ∧
    Reachable (latestStep cfg i) w'' w ∧ (w'.subs i).pc = .latestHead ∧ w'.ring.cursor = u64Max

/-- How far a call that began in `w1` has come. -/
inductive Progress (cfg : Config) (i : Nat) (w1 w : World n) : Prop where
  | load (hpc : (w.subs i).pc = .latestHead)
  | read {pc : ReadPc n} (hpc : (w.subs i).pc = .read .latest pc) (hfrom : NotBefore w1 (w.subs i).cursor)
  | passed (hpc : (w.subs i).pc = .head .latest)
  | value {buf : Buf n} (hpc : (w.subs i).pc = .commit .latest (.ok buf)) (hfrom : NotBefore w1 ((w.subs i).cursor - 1))
  | lagged {k : Nat} (hpc : (w.subs i).pc = .commit .latest (.lagged k))
  | nothing (hpc : (w.subs i).pc = .idle) (hlast : (w.subs i).last = some (.latest none))
      (hload : LoadedSentinel cfg i w1 w)
  | found {buf : Buf n} {q : Nat} (hpc : (w.subs i).pc = .idle) (hlast : (w.subs i).last = some (.latest (some buf)))
      (hpub : Published w.ring q buf) (hfrom : NotBefore w1 q) (hcur : (w.subs i).cursor = q + 1)

/-- A step of another thread. -/
theorem Progress.other (h : Progress cfg i w1 w) (hstep : latestStep cfg i w a = some w') (hg : w.ring.Grows w'.ring)
    (hpc : (w'.subs i).pc = (w.subs i).pc) (hcur : (w'.subs i).cursor = (w.subs i).cursor)
    (hlast : (w'.subs i).last = (w.subs i).last) : Progress cfg i w1 w' := by
  cases h with
  | load h => exact .load (hpc.trans h)
  | read h hfrom => exact .read (hpc.trans h) (hcur ▸ hfrom)
  | passed h => exact .passed (hpc.trans h)
  | value h hfrom => exact .value (hpc.trans h) (hcur ▸ hfrom)
  | lagged h => exact .lagged (hpc.trans h)
  | nothing h hl hload =>
    obtain ⟨u, v, hu, huv, hv, hload⟩ := hload
    exact .nothing (hpc.trans h) (hlast.trans hl) ⟨u, v, hu, huv, hv.next hstep, hload⟩
  | found h hl hpub hfrom hc => exact .found (hpc.trans h) (hlast.trans hl) (hpub.mono hg) hfrom (hcur.trans hc)

theorem setSub_trackers (t : Trackers) (s : Subscriber n) : ({ w with trackers := t }.setSub i s).subs i = s :=
  setSub_self _ i s

/-- A step of the call itself. -/
theorem Progress.own (h : Progress cfg i w1 w) (hs : Sane cfg w) (hl : messages w < seqLimit)
    (hrun : Reachable (latestStep cfg i) w1 w) (hstep : latestStep cfg i w (.sub i) = some w')
    (hhead : w1.ring.cursor ≠ u64Max → w1.ring.cursor ≤ w.ring.cursor) : Progress cfg i w1 w' := by
  obtain ⟨hst, _, hok⟩ := latestStep_step hstep
  have hok := hok rfl
  obtain ⟨⟨t, s'⟩, hsub, hw'⟩ := Option.map_eq_some_iff.mp hst
  have hring : w'.ring = w.ring := by rw [← hw']; rfl
  have hsub' : w'.subs i = s' := by rw [← hw']; exact setSub_trackers t s'
  have hcl := (hs.readers i).cursor_lt hl
  unfold seqLimit at hcl
  have hword : u64 ((w.subs i).cursor + 1) = (w.subs i).cursor + 1 := u64_of_lt (by omega)
  cases h with
  | load hpc =>
    simp only [Subscriber.step, hpc] at hsub
    split at hsub
    · rename_i hmax
      cases hsub
      exact .nothing (by rw [hsub']; rfl) (by rw [hsub']; rfl) ⟨w, w', hrun, hstep, .start, hpc, hmax⟩
    · cases hsub
      have hpc' : (w'.subs i).pc = .read .latest .stamp := by rw [hsub']
      refine .read hpc' ?_
      rw [hsub']
      by_cases hmax : w1.ring.cursor = u64Max
      · exact Or.inl hmax
      · exact Or.inr (hhead hmax)
  | read hpc hfrom =>
    rename_i pc
    simp only [Subscriber.step, hpc] at hsub
    cases pc with
    | stamp =>
      simp only [readsMessage, hpc, decide_eq_true_eq] at hok
      by_cases hd : (w.ring.slots (cfg.slot (w.subs i).cursor)).stamp = done (w.subs i).cursor
      · simp only [Slot.readStep, hd, ↓reduceIte] at hsub
        cases hsub
        exact .read (by rw [hsub']) (by rw [hsub']; exact hfrom)
      · simp only [Slot.readStep, hd, hok.1, ne_eq, not_true_eq_false, ↓reduceIte, Subscriber.onTryRead] at hsub
        rw [if_neg (by omega)] at hsub
        cases hsub
        exact .passed (by rw [hsub'])
    | load off buf =>
      simp only [readsMessage, hpc, decide_eq_true_eq] at hok
      by_cases hoff : off < n
      · simp only [Slot.readStep, hoff, ↓reduceIte] at hsub
        cases hsub
        exact .read (by rw [hsub']) (by rw [hsub']; exact hfrom)
      · have hd := hok.resolve_left hoff
        simp only [Slot.readStep, hoff, hd, ↓reduceIte, Subscriber.onTryRead, hword] at hsub
        cases hsub
        exact .value (by rw [hsub']) (by rw [hsub']; exact hfrom)
  | passed hpc =>
    simp only [readsMessage, hpc, decide_eq_true_eq] at hok
    simp only [Subscriber.step, hpc, Subscriber.onHead] at hsub
    obtain ⟨hmax, hcap, hlt⟩ := hok
    rw [if_neg (by omega), if_pos ⟨hcap, hlt⟩] at hsub
    cases hsub
    exact .lagged (by rw [hsub'])
  | value hpc hfrom =>
    obtain ⟨hpos, hpub⟩ : 0 < (w.subs i).cursor ∧ Published w.ring ((w.subs i).cursor - 1) _ := by
      have hstage := (hs.readers i).stage
      rw [hpc] at hstage
      exact hstage
    simp only [Subscriber.step, hpc] at hsub
    cases hsub
    refine .found (by rw [hsub']; rfl) (by rw [hsub']; rfl) (hring ▸ hpub) hfrom ?_
    rw [hsub']
    change (w.subs i).cursor = (w.subs i).cursor - 1 + 1
    omega
  | lagged hpc =>
    simp only [Subscriber.step, hpc] at hsub
    cases hsub
    exact .load (by rw [hsub']; rfl)
  | nothing hpc _ _ =>
    simp only [Subscriber.step, hpc] at hsub
    cases hsub
  | found hpc _ _ _ _ =>
    simp only [Subscriber.step, hpc] at hsub
    cases hsub

theorem Progress.created (h : Progress cfg i w1 w) : (w.subs i).pc ≠ .absent := by
  intro hp
  cases h with
  | load hpc | read hpc _ | passed hpc | value hpc _ | lagged hpc | nothing hpc _ _ | found hpc _ _ _ _ =>
    rw [hpc] at hp
    cases hp

theorem Progress.step (h : Progress cfg i w1 w) (hs : Sane cfg w) (hl : messages w' < seqLimit)
    (hrun : Reachable (latestStep cfg i) w1 w) (hstep : latestStep cfg i w a = some w')
    (hhead : w1.ring.cursor ≠ u64Max → w1.ring.cursor ≤ w.ring.cursor) : Progress cfg i w1 w' := by
  obtain ⟨hst, hinside, _⟩ := latestStep_step hstep
  have hg := (step_written hst hl hs.written).2
  obtain ⟨rfl, _⟩ | ⟨_, shutdown, owed, he⟩ := step_inside hst hinside h.created
  · exact h.own hs (hg.log_le.trans_lt hl) hrun hstep hhead
  · exact h.other hstep hg (by rw [he]) (by rw [he]) (by rw [he])

/-- Along the call the channel stays sound and its head does not fall. -/
theorem progress_along (hs1 : Sane cfg w1) (hpc : (w1.subs i).pc = .latestHead)
    (hrun : Reachable (latestStep cfg i) w1 w) (hl : messages w < seqLimit) :
    Sane cfg w ∧ Progress cfg i w1 w ∧
      (w1.ring.cursor ≠ u64Max → w.ring.cursor ≠ u64Max ∧ w1.ring.cursor ≤ w.ring.cursor) := by
  induction hrun with
  | start => exact ⟨hs1, .load hpc, fun hmax => ⟨hmax, Nat.le_refl _⟩⟩
  | next hw ha ih =>
    obtain ⟨hstep, _⟩ := latestStep_step ha
    obtain ⟨hs, hp, hhead⟩ := ih ((step_log_le hstep).trans_lt hl)
    have hg := (step_written hstep hl hs.written).2
    refine ⟨step_sane hstep hl hs, hp.step hs hl hw ha fun hmax => (hhead hmax).2, fun hmax => ?_⟩
    obtain ⟨hmax', hle⟩ := hhead hmax
    obtain ⟨hmax'', hle'⟩ := hg.cursor hmax'
    exact ⟨hmax'', hle.trans hle'⟩

/-- On every kind of channel, when `latest` has returned and each of its slot accesses met
the condition: it returned `None` because its load of the head found nothing published, or a
message that was published with a sequence at or after the head at the call, and the cursor
is the one after it. -/
theorem latest_returns {w0 : World n} (h0 : Reach cfg w0) (hcall : step cfg w0 (.subCall i .latest) = some w1)
    (hrun : Reachable (latestStep cfg i) w1 w) (hl : messages w < seqLimit) (hidle : (w.subs i).pc = .idle) :
    (w.subs i).last = some (.latest none) ∧ LoadedSentinel cfg i w1 w ∨
      ∃ buf q, (w.subs i).last = some (.latest (some buf)) ∧ Published w.ring q buf ∧ NotBefore w0 q ∧
        (w.subs i).cursor = q + 1 := by
  have hl1 : messages w1 < seqLimit :=
    (hrun.le_of_mono fun _ _ _ ha => step_log_le (latestStep_step ha).1).trans_lt hl
  have hs1 : Sane cfg w1 := reach_sane (h0.next hcall) hl1
  obtain ⟨s1, hs1', hw1⟩ := Option.map_eq_some_iff.mp hcall
  have hring : w1.ring = w0.ring := by rw [← hw1]; rfl
  have hpc : (w1.subs i).pc = .latestHead := by
    rw [← hw1, setSub_self]
    unfold Subscriber.call at hs1'
    split at hs1' <;> cases hs1'
    rfl
  obtain ⟨_, hp, _⟩ := progress_along hs1 hpc hrun hl
  cases hp with
  | nothing _ hlast hload => exact Or.inl ⟨hlast, hload⟩
  | @found buf q _ hlast hpub hfrom hcur =>
    unfold NotBefore at hfrom
    rw [hring] at hfrom
    exact Or.inr ⟨buf, q, hlast, hpub, hfrom, hcur⟩
  | load hpc | read hpc _ | passed hpc | value hpc _ | lagged hpc =>
    rw [hpc] at hidle
    cases hidle

/-- A test for a finished `latest`: whether it returned a value. -/
def outcome (s : Subscriber n) : Option Bool :=
  match s.pc, s.last with
  | .idle, some (.latest v) => some v.isSome
  | _, _ => none

theorem outcome_idle {s : Subscriber n} {b : Bool} (h : outcome s = some b) :
    s.pc = .idle ∧ ∃ v, s.last = some (.latest v) ∧ v.isSome = b := by
  unfold outcome at h
  split at h
  · rename_i hpc hlast
    exact ⟨hpc, _, hlast, Option.some.inj h⟩
  · cases h

def isLatestHead : SubPc n → Bool
  | .latestHead => true
  | _ => false

theorem latestHead_of_test {pc : SubPc n} (h : isLatestHead pc = true) : pc = .latestHead := by
  cases pc <;> first | rfl | cases h

/-- A call that is lapped between its load of the head and its read, and returns the fourth
message on its second attempt. -/
theorem latest_returns_lapped :
    ∃ w0 w1 w : World 1, Reach Config.smallLossy w0 ∧ step Config.smallLossy w0 (.subCall 0 .latest) = some w1 ∧
      Reachable (latestStep Config.smallLossy 0) w1 w ∧ w0.ring.cursor = 1 ∧ (w.subs 0).cursor = 4 ∧
      ((w.subs 0).last = some (.latest none) ∧ LoadedSentinel Config.smallLossy 0 w1 w ∨
        ∃ buf q, (w.subs 0).last = some (.latest (some buf)) ∧ Published w.ring q buf ∧ NotBefore w0 q ∧
          (w.subs 0).cursor = q + 1) := by
  obtain ⟨w0, w1, w, h0, h1, h, hp⟩ := Reachable.of_run_step_run (step Config.smallLossy)
    (latestStep Config.smallLossy 0) (World.new 1)
    (fun w0 _ w => decide (messages w < seqLimit ∧ w0.ring.cursor = 1 ∧ (w.subs 0).cursor = 4 ∧
      outcome (w.subs 0) = some true))
    (List.flatten [[.subscribe 0 .subscribe, .sub 0], .pubCall (.publish fun _ => 5) :: List.replicate 5 .pub,
      .pubCall (.publish fun _ => 6) :: List.replicate 5 .pub]) (.subCall 0 .latest)
    (List.flatten [[.sub 0], .pubCall (.publish fun _ => 7) :: List.replicate 5 .pub,
      .pubCall (.publish fun _ => 8) :: List.replicate 5 .pub, List.replicate 8 (.sub 0)]) (by decide +kernel)
  obtain ⟨hl, hhead, hcur, hout⟩ := of_decide_eq_true hp
  exact ⟨w0, w1, w, h0, h1, h, hhead, hcur, latest_returns h0 h1 h hl (outcome_idle hout).1⟩

/-- The publisher goes round the ring after the load of the head and begins to overwrite the
slot: `latest` returns `None` although its load found a published message. -/
theorem latest_none_mid_write :
    ∃ w1 w2 w : World 1, Reach Config.smallLossy w1 ∧ (w1.subs 0).pc = .latestHead ∧ w1.ring.cursor = 0 ∧
      step Config.smallLossy w1 (.sub 0) = some w2 ∧ Reachable (step Config.smallLossy) w2 w ∧
      messages w = 2 ∧ (w.subs 0).pc = .idle ∧ (w.subs 0).last = some (.latest none) ∧ (w.subs 0).cursor = 0 := by
  obtain ⟨w1, w2, w, h1, h2, h, hp⟩ := Reachable.of_run_step_any (step Config.smallLossy) (World.new 1)
    (fun w1 _ w => decide (isLatestHead (w1.subs 0).pc = true ∧ w1.ring.cursor = 0 ∧ messages w = 2 ∧
      outcome (w.subs 0) = some false ∧ (w.subs 0).cursor = 0))
    (List.flatten [[.subscribe 0 .subscribe, .sub 0], .pubCall (.publish fun _ => 5) :: List.replicate 5 .pub,
      [.subCall 0 .latest]]) (.sub 0)
    (List.flatten [.pubCall (.publish fun _ => 6) :: List.replicate 5 .pub,
      .pubCall (.publish fun _ => 7) :: List.replicate 2 .pub, [.sub 0]]) (by decide +kernel)
  obtain ⟨hpc, hhead, hm, hout, hcur⟩ := of_decide_eq_true hp
  obtain ⟨hidle, v, hlast, hv⟩ := outcome_idle hout
  rw [Option.isSome_eq_false_iff, Option.isNone_iff_eq_none] at hv
  rw [hv] at hlast
  exact ⟨w1, w2, w, h1, latestHead_of_test hpc, hhead, h2, h, hm, hidle, hlast, hcur⟩

end PhotonRing.Latest
