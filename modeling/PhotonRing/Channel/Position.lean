import PhotonRing.Channel.Tracked

/-!
# The position of a subscriber

Every receive moves the cursor forward and stores it in the tracker. `latest` overwrites
the cursor with the shared head before it reads, and when the read then fails, it returns
without a store. So a position can move backward in two ways: the subscriber had already
read beyond the head, by the stamps, or the slot at the head is being overwritten. In every
run in which neither happens to a `latest`, no position ever moves backward.
-/
namespace PhotonRing.Position

open Lib Lib.Seqlock Reader World Tracked

variable {n : Nat} {cfg : Config} {r : Ring n} {t t' : Trackers} {i base : Nat} {s s' : Subscriber n}
  {w w' : World n} {a : Act n}

/-- The condition on a step of `latest`: when it loads the head, the subscriber has not read
beyond it; at each slot access the slot holds the message at the cursor, or at the first
one a later message, written completely; and the head is then beyond that message. -/
def latestOk (cfg : Config) (r : Ring n) (s : Subscriber n) : Bool :=
  match s.pc with
  | .latestHead => decide (r.cursor = u64Max ∨ s.cursor ≤ r.cursor + 1)
  | .read .latest .stamp =>
    let stamp := (r.slots (cfg.slot s.cursor)).stamp
    decide (stamp = done s.cursor ∨ stamp % 2 = 0 ∧ done s.cursor < stamp)
  | .read .latest (.load _ _) => decide ((r.slots (cfg.slot s.cursor)).stamp = done s.cursor)
  | .head .latest =>
    decide (r.cursor ≠ u64Max ∧ cfg.capacity ≤ r.cursor ∧ s.cursor < r.cursor - cfg.capacity + 1)
  | _ => true

/-- The steps that meet the condition. -/
def carefulStep (cfg : Config) (w : World n) (a : Act n) : Option (World n) :=
  match a with
  | .sub i => if latestOk cfg w.ring (w.subs i) then step cfg w a else none
  | _ => step cfg w a

/-- `latest` has overwritten the cursor and not stored it yet. -/
def Jumped : SubPc n → Prop
  | .read .latest _ => True
  | .head .latest => True
  | .commit .latest _ => True
  | _ => False

/-- How far the cursor may be below the position before the operation. -/
def slack : SubPc n → Nat
  | .read .latest _ => 1
  | .head .latest => 1
  | _ => 0

/-- A subscriber that was at `base` once has not fallen behind it. -/
structure Kept (base : Nat) (t : Trackers) (i : Nat) (s : Subscriber n) : Prop where
  created : Created (stage s.pc)
  floor : base ≤ s.cursor + slack s.pc
  tracker : s.tracker = true → ¬ Jumped s.pc → t.value i = settled s.cursor (stage s.pc)

/-- Local work outside the jump. -/
theorem Kept.local (h : Kept base t i s) (hs : slack s.pc = 0) (hj : ¬ Jumped s.pc)
    (hset : settled s.cursor (stage s.pc) = s.cursor) (hl : Local s s') (hval : t'.value = t.value) :
    Kept base t' i s' := by
  refine ⟨by rw [hl.stage]; trivial, ?_, fun htr _ => ?_⟩
  · have := h.floor
    rw [hs] at this
    rw [hl.cursor]
    omega
  · rw [hval, hl.stage, hl.cursor]
    exact (h.tracker (hl.tracker ▸ htr) hj).trans hset

/-- A read that its caller was not `latest` for. -/
theorem Kept.afterRead {c : Caller n} {pc : ReadPc n} {res : TryRead n} (h : Kept base t i s)
    (hs : s.pc = .read c pc) (hlat : c ≠ .latest) (hc : s.cursor < seqLimit) (ha : AfterRead s c res s') :
    Kept base t i s' := by
  obtain ⟨hset, _⟩ := settled_read s.cursor c pc
  rw [← hs] at hset
  have hslack : slack s.pc = 0 := by rw [hs]; cases c <;> first | rfl | exact absurd rfl hlat
  have hj : ¬ Jumped s.pc := by rw [hs]; cases c <;> first | exact fun hf => hf | exact absurd rfl hlat
  cases ha with
  | @value buf _ =>
    unfold seqLimit at hc
    have hword : u64 (s.cursor + 1) = s.cursor + 1 := u64_of_lt (by omega)
    refine ⟨trivial, ?_, fun htr _ => ?_⟩
    · have := h.floor
      rw [hslack] at this
      dsimp only
      omega
    · refine (h.tracker htr hj).trans (hset.trans ?_)
      change s.cursor = u64 (s.cursor + 1) - 1
      omega
  | again _ _ => exact h.local hslack hj hset ⟨rfl, rfl, rfl, rfl, rfl, rfl⟩ rfl
  | empty => exact h.local hslack hj hset (resume_local s .empty c).1 rfl
  | passed => exact h.local hslack hj hset ⟨rfl, rfl, rfl, rfl, rfl, rfl⟩ rfl

/-- A read of `latest` whose slot is not being overwritten. -/
theorem Kept.readLatest {pc : ReadPc n} (h : Kept base t i s) (hs : s.pc = .read .latest pc)
    (hc : s.cursor < seqLimit) (hok : latestOk cfg r s = true) (hstep : s.step cfg r t i = some (t', s')) :
    Kept base t' i s' := by
  have hfloor : base ≤ s.cursor + 1 := by have := h.floor; rw [hs] at this; exact this
  unfold seqLimit at hc
  have hword : u64 (s.cursor + 1) = s.cursor + 1 := u64_of_lt (by omega)
  have hread (pc' : ReadPc n) : Kept base t i { s with pc := .read .latest pc' } :=
    ⟨(settled_read s.cursor .latest pc').2, hfloor, fun _ hj => absurd trivial hj⟩
  simp only [Subscriber.step, hs] at hstep
  cases pc with
  | stamp =>
    simp only [latestOk, hs, decide_eq_true_eq] at hok
    rcases hok with hst | ⟨hev, hlt⟩
    · simp only [Slot.readStep, hst, ↓reduceIte] at hstep
      cases hstep
      exact hread _
    · have hne : (r.slots (cfg.slot s.cursor)).stamp ≠ done s.cursor := by omega
      simp only [Slot.readStep, hne, hev, ne_eq, not_true_eq_false, ↓reduceIte, Subscriber.onTryRead] at hstep
      rw [if_neg (by omega)] at hstep
      cases hstep
      exact ⟨trivial, hfloor, fun _ hj => absurd trivial hj⟩
  | load off buf =>
    simp only [latestOk, hs, decide_eq_true_eq] at hok
    by_cases hoff : off < n
    · simp only [Slot.readStep, hoff, ↓reduceIte] at hstep
      cases hstep
      exact hread _
    · simp only [Slot.readStep, hoff, hok, ↓reduceIte, Subscriber.onTryRead, hword] at hstep
      cases hstep
      exact ⟨trivial, hfloor, fun _ hj => absurd trivial hj⟩

theorem Kept.onHead {c : Caller n} (h : Kept base t i s) (hs : s.pc = .head c)
    (hok : latestOk cfg r s = true) : Kept base t i (s.onHead cfg c r.cursor) := by
  have hfloor := h.floor
  rw [hs] at hfloor
  have hlag (hlt : s.cursor < r.cursor - cfg.capacity + 1) : Kept base t i { s with
      cursor := r.cursor - cfg.capacity + 1
      pc := .commit c (.lagged (r.cursor - cfg.capacity + 1 - s.cursor)) } := by
    refine ⟨trivial, ?_, fun htr hj => ?_⟩
    · have : slack (n := n) (.head c) ≤ 1 := by cases c <;> simp [slack]
      dsimp only
      omega
    · have hj' : ¬ Jumped s.pc := by rw [hs]; cases c <;> exact hj
      refine (h.tracker htr hj').trans ?_
      rw [hs]
      change s.cursor = r.cursor - cfg.capacity + 1 - (r.cursor - cfg.capacity + 1 - s.cursor)
      omega
  by_cases hc : c = .latest
  · subst hc
    simp only [latestOk, hs, decide_eq_true_eq] at hok
    obtain ⟨hmax, hcap, hlt⟩ := hok
    unfold Subscriber.onHead
    rw [if_neg (by omega), if_pos ⟨hcap, hlt⟩]
    exact hlag hlt
  · have hslack : slack s.pc = 0 := by rw [hs]; cases c <;> first | rfl | exact absurd rfl hc
    have hj : ¬ Jumped s.pc := by rw [hs]; cases c <;> first | exact fun hf => hf | exact absurd rfl hc
    have hempty : Kept base t i (s.resume .empty c) :=
      h.local hslack hj (by rw [hs]; rfl) (resume_local s .empty c).1 rfl
    exact Subscriber.onHead_cases hempty (fun _ _ hlt => hlag hlt)

/-- A step of a subscriber that meets the condition. -/
theorem Kept.step (h : Kept base t i s) (hc : s.cursor < seqLimit) (hok : latestOk cfg r s = true)
    (hstep : s.step cfg r t i = some (t', s')) : Kept base t' i s' := by
  have hcr := h.created
  have hfl := h.floor
  have hloc {t' : Trackers} {s' : Subscriber n} (hs : slack s.pc = 0) (hj : ¬ Jumped s.pc)
      (hset : settled s.cursor (stage s.pc) = s.cursor) (hval : t'.value = t.value) (hl : Local s s') :
      Kept base t' i s' := h.local hs hj hset hl hval
  cases Subscriber.step_moves hstep with
  | @gateClosed c m hpc _ =>
    exact hloc (by rw [hpc]; rfl) (by rw [hpc]; exact fun hf => hf) (by rw [hpc]; rfl) rfl (resume_local s .empty c).1
  | @reading c pc pc' hpc _ =>
    by_cases hlat : c = .latest
    · subst hlat
      exact h.readLatest hpc hc hok hstep
    · obtain ⟨hset, _⟩ := settled_read s.cursor c pc
      obtain ⟨hset', hcr'⟩ := settled_read s.cursor c pc'
      refine ⟨hcr', ?_, fun htr _ => ?_⟩
      · rw [hpc] at hfl
        cases c <;> exact hfl
      · have hj : ¬ Jumped s.pc := by rw [hpc]; cases c <;> first | exact fun hf => hf | exact absurd rfl hlat
        refine (h.tracker htr hj).trans ?_
        rw [hpc, hset]
        exact hset'.symm
  | @read c pc res hpc _ =>
    by_cases hlat : c = .latest
    · subst hlat
      exact h.readLatest hpc hc hok hstep
    · exact h.afterRead hpc hlat hc (onTryRead_after s c res)
  | head hpc => exact h.onHead hpc hok
  | @commit c res hpc =>
    have hcount := onCommit_counted s c res
    refine ⟨by rw [hcount.stage]; trivial, ?_, fun htr _ => ?_⟩
    · rw [hpc] at hfl
      rw [hcount.cursor]
      exact hfl.trans (Nat.le_add_right _ _)
    · rw [hcount.tracker] at htr
      rw [if_pos htr, hcount.stage, hcount.cursor]
      exact Function.update_self ..
  | latestHead hpc hmax =>
    simp only [latestOk, hpc, decide_eq_true_eq] at hok
    rw [hpc] at hfl
    refine ⟨trivial, ?_, fun _ hj => absurd trivial hj⟩
    change base ≤ r.cursor + 1
    have hle : s.cursor ≤ r.cursor + 1 := hok.resolve_left hmax
    exact hfl.trans hle
  | @loadPending policy idle final hpc =>
    exact hloc (by rw [hpc]; rfl) (by rw [hpc]; exact fun hf => hf) (by rw [hpc]; rfl) rfl
      (onPending_local cfg policy idle final r.cursor s).1
  | dropArc hpc =>
    refine hloc (by rw [hpc]; rfl) (by rw [hpc]; exact fun hf => hf) (by rw [hpc]; rfl) ?_
      ⟨rfl, rfl, rfl, rfl, rfl, rfl⟩
    split <;> rfl
  | gateNext hpc | gateOpen hpc _ | latestNone hpc _ | pending hpc | checkDrain hpc _ | checkStop hpc _
  | checkGo hpc _ | dropLock hpc _ | dropRetain hpc =>
    exact hloc (by rw [hpc]; rfl) (by rw [hpc]; exact fun hf => hf) (by rw [hpc]; rfl) rfl
      ⟨rfl, rfl, rfl, rfl, rfl, rfl⟩
  | takeLock hpc _ | join hpc _ _ | bare hpc _ | tracked hpc _ | history hpc _ | bareHistory hpc _ | lockPush hpc _
  | push hpc =>
    rw [hpc] at hcr
    exact hcr.elim

/-! ## Along a run -/

theorem careful_step (h : carefulStep cfg w a = some w') :
    step cfg w a = some w' ∧ ∀ i, a = .sub i → latestOk cfg w.ring (w.subs i) = true := by
  unfold carefulStep at h
  split at h
  · obtain ⟨hok, h⟩ := Option.ite_none_right_eq_some.mp h
    exact ⟨h, fun j hj => Act.sub.inj hj ▸ hok⟩
  · rename_i hne
    exact ⟨h, fun j hj => absurd hj (hne j)⟩

theorem step_kept (h : carefulStep cfg w a = some w') (hl : messages w < seqLimit) (hs : Sane cfg w)
    (hk : Kept base w.trackers i (w.subs i)) : Kept base w'.trackers i (w'.subs i) := by
  obtain ⟨hstep, hok⟩ := careful_step h
  by_cases ha : a = .sub i
  · obtain ⟨⟨t', s'⟩, hst, rfl⟩ := Option.map_eq_some_iff.mp (ha ▸ hstep)
    rw [setSub_self]
    exact hk.step ((hs.readers i).cursor_lt hl) (hok i ha) hst
  · have hval := step_value_other hstep hl hs ha
    -- a call or a drop begins where nothing is in progress
    have hsame {s' : Subscriber n} (hpc : slack (w.subs i).pc = 0) (hj : ¬ Jumped (w.subs i).pc)
        (hst : stage (w.subs i).pc = .ready) (hst' : stage s'.pc = .ready)
        (hcur : s'.cursor = (w.subs i).cursor) (htr : s'.tracker = (w.subs i).tracker) :
        Kept base w'.trackers i s' := by
      have hfl := hk.floor
      refine ⟨by rw [hst']; trivial, by rw [hcur]; omega, fun ht _ => ?_⟩
      have hv := hk.tracker (htr ▸ ht) hj
      rw [hval, hv, hst, hst', hcur]
    have hcr := hk.created
    cases step_subs hstep i with
    | other he =>
      rw [he]
      exact ⟨hk.created, hk.floor, fun htr hj => hval.trans (hk.tracker htr hj)⟩
    | subscribe he _ => rw [(subscribe_pc he).1] at hcr; exact hcr.elim
    | call he _ =>
      obtain ⟨hidle, hst, hcur, htr⟩ := call_idle he
      exact hsame (by rw [hidle]; rfl) (by rw [hidle]; exact fun hf => hf) (by rw [hidle]; rfl) hst hcur htr
    | step he => exact absurd rfl ha
    | drop he _ =>
      obtain ⟨hpc | hpc, he | he⟩ := drop_pc he <;> rw [he] <;>
        exact hsame (by rw [hpc]; rfl) (by rw [hpc]; exact fun hf => hf) (by rw [hpc]; rfl) rfl rfl rfl
    | shutdown he _ =>
      rw [he]
      exact ⟨hk.created, hk.floor, fun htr hj => hval.trans (hk.tracker htr hj)⟩

/-- From its creation on a subscriber is kept. -/
theorem step_all_kept (h : carefulStep cfg w a = some w') (hl : messages w < seqLimit) (hs : Sane cfg w)
    (hk : ∀ i, Created (stage (w.subs i).pc) → Kept 0 w.trackers i (w.subs i)) (i : Nat)
    (hcr' : Created (stage (w'.subs i).pc)) : Kept 0 w'.trackers i (w'.subs i) := by
  by_cases hcr : Created (stage (w.subs i).pc)
  · exact step_kept h hl hs (hk i hcr)
  · obtain ⟨hstep, _⟩ := careful_step h
    cases step_subs hstep i with
    | other he => rw [he] at hcr'; exact absurd hcr' hcr
    | subscribe he _ =>
      obtain ⟨_, pc, hpc, he⟩ := subscribe_pc he
      rw [he] at hcr'
      rcases hpc with rfl | rfl <;> exact hcr'.elim
    | call he _ => rw [(call_idle he).1] at hcr; exact absurd trivial hcr
    | step he =>
      have hf := step_follow ((hs.readers i).cursor_lt hl) he
      revert hcr' hf
      generalize w'.subs i = s'
      intro hcr' hf
      cases hf with
      | keep _ _ hiff _ => exact absurd (hiff.mp hcr') hcr
      | @create start tracker _ hval =>
        refine ⟨trivial, Nat.zero_le _, fun htr _ => ?_⟩
        have htr' : tracker = true := htr
        rw [hval, htr']
        exact Function.update_self ..
      | commit hp _ => rw [hp] at hcr; exact absurd trivial hcr
    | drop he _ => obtain ⟨hpc | hpc, _⟩ := drop_pc he <;> rw [hpc] at hcr <;> exact absurd trivial hcr
    | shutdown he _ => rw [he] at hcr'; exact absurd hcr' hcr

theorem reach_kept (h : Reachable (carefulStep cfg) (World.new n) w) (hl : messages w < seqLimit) :
    Sane cfg w ∧ ∀ i, Created (stage (w.subs i).pc) → Kept 0 w.trackers i (w.subs i) :=
  Reachable.invariant_below
    (P := fun w => Sane cfg w ∧ ∀ i, Created (stage (w.subs i).pc) → Kept 0 w.trackers i (w.subs i))
    messages seqLimit (fun _ _ _ hs => step_log_le (careful_step hs).1)
    ⟨⟨written_new cfg, fun _ => ok_absent cfg _⟩, fun _ hcr => hcr.elim⟩
    (fun _ _ _ hs hlt hw => ⟨step_sane (careful_step hs).1 hlt hw.1,
      step_all_kept hs ((step_log_le (careful_step hs).1).trans_lt hlt) hw.1 hw.2⟩) h hl

theorem kept_along {w0 : World n} (h0 : Reachable (carefulStep cfg) (World.new n) w0)
    (hk : Kept base w0.trackers i (w0.subs i)) (h : Reachable (carefulStep cfg) w0 w)
    (hl : messages w < seqLimit) : Kept base w.trackers i (w.subs i) := by
  induction h with
  | start => exact hk
  | next hw ha ih =>
    have hl0 := (step_log_le (careful_step ha).1).trans_lt hl
    exact step_kept ha hl0 (reach_kept (h0.trans hw) hl0).1 (ih hl0)

/-- The program points at which no operation of a subscriber is in progress. -/
def resting : SubPc n → Bool
  | .idle => true
  | .exited => true
  | _ => false

/-- In every run whose `latest` calls find the head caught up with the subscriber and the
slot they read not being overwritten, on every kind of channel: from one point between two
operations of a subscriber to any later one, whatever they are and return, its cursor has
not moved backward, and a tracked subscriber's tracker equals its cursor. -/
theorem position_monotone {w0 : World n} (h0 : Reachable (carefulStep cfg) (World.new n) w0)
    (h : Reachable (carefulStep cfg) w0 w) (hl : messages w < seqLimit)
    (hrest0 : resting (w0.subs i).pc = true) (hrest : resting (w.subs i).pc = true) :
    (w0.subs i).cursor ≤ (w.subs i).cursor ∧
      ((w.subs i).tracker = true → w.trackers.value i = (w.subs i).cursor) := by
  have hout {pc : SubPc n} (hr : resting pc = true) : stage pc = .ready ∧ slack pc = 0 ∧ ¬ Jumped pc := by
    revert hr
    cases pc <;> first | exact fun _ => ⟨rfl, rfl, fun hf => hf⟩ | exact fun hr => by cases hr
  obtain ⟨hst0, hsl0, hj0⟩ := hout hrest0
  obtain ⟨hst, hsl, hj⟩ := hout hrest
  have hmono : messages w0 ≤ messages w := h.le_of_mono (fun _ _ _ ha => step_log_le (careful_step ha).1)
  have hkept0 : Kept (w0.subs i).cursor w0.trackers i (w0.subs i) := by
    have hk := (reach_kept h0 (hmono.trans_lt hl)).2 i (by rw [hst0]; trivial)
    exact ⟨hk.created, by omega, hk.tracker⟩
  have hk := kept_along h0 hkept0 h hl
  have hfloor := hk.floor
  rw [hsl] at hfloor
  refine ⟨hfloor, fun htr => (hk.tracker htr hj).trans ?_⟩
  rw [hst]
  rfl

/-- A tracked subscriber before and after a `latest` that skips a message. -/
theorem position_monotone_latest :
    ∃ w0 w : World 1, Reachable (carefulStep Config.smallLossy) (World.new 1) w0 ∧
      Reachable (carefulStep Config.smallLossy) w0 w ∧ (w.subs 0).latestUsed = true ∧ (w.subs 0).cursor = 2 ∧
      (w0.subs 0).cursor ≤ (w.subs 0).cursor ∧ w.trackers.value 0 = (w.subs 0).cursor := by
  obtain ⟨w0, w1, w, h0, h1, h, hp⟩ := Reachable.of_run_step_any (carefulStep Config.smallLossy) (World.new 1)
    (fun w0 _ w => decide (messages w < seqLimit ∧ (w.subs 0).latestUsed = true ∧ (w.subs 0).cursor = 2 ∧
      (w.subs 0).tracker = true ∧ resting (w0.subs 0).pc = true ∧ resting (w.subs 0).pc = true))
    [.subscribe 0 .tracked, .sub 0] (.pubCall (.publish fun _ => 7))
    (List.flatten [List.replicate 5 .pub, .pubCall (.publish fun _ => 8) :: List.replicate 5 .pub,
      .subCall 0 .latest :: List.replicate 5 (.sub 0)]) (by decide +kernel)
  obtain ⟨hl, hused, hcur, htr, hrest0, hrest⟩ := of_decide_eq_true hp
  have hrun : Reachable (carefulStep Config.smallLossy) w0 w := (Reachable.start.next h1).trans h
  obtain ⟨hle, hval⟩ := position_monotone h0 hrun hl hrest0 hrest
  exact ⟨w0, w, h0, hrun, hused, hcur, hle, hval htr⟩

/-- A subscriber that has received the only message calls `latest`. Between its load of the
head and its read of the slot the publisher goes round the ring and begins to overwrite
that slot: the call returns `None`, the cursor is back at the first message, and the tracker
still says that it was received. -/
theorem latest_moves_back :
    ∃ w0 w : World 1, Reach Config.smallLossy w0 ∧ Reachable (step Config.smallLossy) w0 w ∧
      resting (w0.subs 0).pc = true ∧ resting (w.subs 0).pc = true ∧ messages w = 2 ∧ (w.subs 0).tracker = true ∧
      (w0.subs 0).cursor = 1 ∧ (w.subs 0).cursor = 0 ∧ w.trackers.value 0 = 1 := by
  obtain ⟨w0, w1, w, h0, h1, h, hp⟩ := Reachable.of_run_step_any (step Config.smallLossy) (World.new 1)
    (fun w0 _ w => decide (messages w = 2 ∧ (w.subs 0).tracker = true ∧ (w0.subs 0).cursor = 1 ∧
      (w.subs 0).cursor = 0 ∧ w.trackers.value 0 = 1 ∧ resting (w0.subs 0).pc = true ∧
      resting (w.subs 0).pc = true))
    (List.flatten [[.subscribe 0 .tracked, .sub 0], .pubCall (.publish fun _ => 7) :: List.replicate 5 .pub,
      .subCall 0 .tryRecv :: List.replicate 4 (.sub 0)])
    (.subCall 0 .latest)
    (List.flatten [[.sub 0], .pubCall (.publish fun _ => 8) :: List.replicate 5 .pub,
      .pubCall (.publish fun _ => 9) :: List.replicate 2 .pub, [.sub 0]]) (by decide +kernel)
  obtain ⟨hm, htr, hc0, hc, hval, hrest0, hrest⟩ := of_decide_eq_true hp
  exact ⟨w0, w, h0, (Reachable.start.next h1).trans h, hrest0, hrest, hm, htr, hc0, hc, hval⟩

end PhotonRing.Position
