import PhotonRing.Backpressure
import PhotonRing.Channel.ReadSide

/-!
# Backpressure on a bounded channel

The publisher of a bounded channel is a gated writer: its position is the next
sequence, and the reservation of a subscriber is its tracker, or the start it has
picked while it still holds the tracker lock. Here is what each step of the
publisher and of a subscriber does to the gate, the trackers and the lock.
-/
namespace PhotonRing.Bounded

open Lib Reader World

variable {n : Nat} {cfg : Config} {r r' : Ring n} {t t' : Trackers} {p p' : Publisher n} {i : Nat}
  {s s' : Subscriber n} {wm : Nat}

/-! ## The publisher as a gated writer -/

/-- `has_room` has returned true for the next sequence. -/
def granted : PubPc n → Bool
  | .closure _ => true
  | .write _ _ _ => true
  | .cursor _ => true
  | _ => false

/-- The scan in progress: the trackers still to be loaded and the minimum so far. -/
def scanOf : PubPc n → Option (List Nat × Option Nat)
  | .scan _ todo _ min live => some (todo, if live then some min else none)
  | .loadTracker _ i todo _ min live => some (i :: todo, if live then some min else none)
  | _ => none

def gateOf (p : Publisher n) : Gate Nat := ⟨p.seq, p.cachedSlowest, granted p.pc, scanOf p.pc⟩

/-- The registered trackers, with the part of the list that a scan is working on. -/
def listed (t : Trackers) : PubPc n → List Nat
  | .scan _ todo kept _ _ => kept ++ todo
  | .loadTracker _ i todo kept _ _ => kept ++ i :: todo
  | _ => t.registered

theorem gateOf_enter (p : Publisher n) (c : PubCall n) :
    ∃ b, gateOf (p.enter c) = ⟨p.seq, p.cachedSlowest, b, none⟩ := by
  unfold Publisher.enter
  split
  · exact ⟨true, rfl⟩
  · exact ⟨true, rfl⟩
  · exact ⟨true, rfl⟩
  · exact ⟨false, rfl⟩
  · exact ⟨true, rfl⟩

theorem gateOf_full (p : Publisher n) (c : PubCall n) :
    gateOf (p.full c) = ⟨p.seq, p.cachedSlowest, false, none⟩ := by
  unfold Publisher.full; split <;> rfl

theorem listed_enter (t : Trackers) (p : Publisher n) (c : PubCall n) :
    listed t (p.enter c).pc = t.registered := by unfold Publisher.enter; split <;> rfl

theorem listed_full (t : Trackers) (p : Publisher n) (c : PubCall n) :
    listed t (p.full c).pc = t.registered := by unfold Publisher.full; split <;> rfl

/-- What a step of the publisher does to the trackers. -/
abbrev PubMove (cfg : Config) (t : Trackers) (p : Publisher n) (t' : Trackers) (p' : Publisher n) : Prop :=
  Trackers.Turn cfg.effective t t' (listed t p.pc) (listed t' p'.pc) (gateOf p) (gateOf p')

theorem pub_move (hk : cfg.kind = .bounded wm) (hseq : p.seq < seqLimit)
    (h : p.step cfg r t = some (r', t', p')) : PubMove cfg t p t' p' := by
  unfold seqLimit at hseq
  have hg (pc : PubPc n) (hp : p.pc = pc) :
      gateOf p = ⟨p.seq, p.cachedSlowest, granted pc, scanOf pc⟩ := by rw [← hp]; rfl
  unfold Publisher.step at h
  split at h
  case h_1 => cases h
  case h_2 c hp =>
    rw [hk] at h
    dsimp only at h
    split at h <;> cases h
    · refine .outside (by rw [hp]; rfl) rfl ?_
      rw [hg _ hp]
      exact .stay
    · rename_i hroom
      obtain ⟨b, hb⟩ := gateOf_enter p c
      refine .outside (by rw [hp, listed_enter]; rfl) (congrArg Gate.scan hb) ?_
      rw [hb, hg _ hp]
      exact .trust b (lt_of_lt_of_le (Nat.lt_of_not_le hroom) (u64_le _))
  case h_3 c hp =>
    split at h <;> cases h
    rename_i hfree
    refine .lock (by simpa using hfree) (by rw [hp]; rfl) ?_
    rw [hg _ hp, hp]
    exact .beginScan
  case h_4 c j todo kept min live hp =>
    have hsome : (gateOf p).scan.isSome := by rw [hg _ hp]; rfl
    split at h <;> cases h
    · refine .scanning (fun i _ hi => by rw [hp] at hi; exact hi) hsome ?_
      rw [hg _ hp]
      exact .stay
    · rename_i hdead
      refine .scanning (fun i hi hm => ?_) hsome ?_
      · rw [hp] at hm
        exact Trackers.mem_of_dead hdead hi hm
      · rw [hg _ hp]
        exact .skip (j := j) rfl hdead
  case h_5 c kept min live hp =>
    have hkeep (i : Nat) (hm : i ∈ listed t p.pc) : i ∈ kept := by
      rw [hp] at hm
      simpa [listed] using hm
    have hsome : (gateOf p).scan.isSome := by rw [hg _ hp]; rfl
    dsimp only at h
    split at h
    · rename_i hlive
      split at h <;> cases h
      · have hf := gateOf_full { p with cachedSlowest := min } c
        unfold PubMove
        rw [listed_full]
        refine .unlock hkeep hsome (congrArg Gate.scan hf) ?_
        rw [hf, hg _ hp]
        exact .endScan (by simp [scanOf, hlive]) (fun hb => by cases hb)
      · rename_i hroom
        obtain ⟨b, hb⟩ := gateOf_enter { p with cachedSlowest := min } c
        unfold PubMove
        rw [listed_enter]
        refine .unlock hkeep hsome (congrArg Gate.scan hb) ?_
        rw [hb, hg _ hp]
        exact .endScan (by simp [scanOf, hlive]) (fun _ => lt_of_lt_of_le (Nat.lt_of_not_le hroom) (u64_le _))
    · rename_i hdead
      cases h
      obtain ⟨b, hb⟩ := gateOf_enter p c
      unfold PubMove
      rw [listed_enter]
      refine .unlock hkeep hsome (congrArg Gate.scan hb) ?_
      rw [hb, hg _ hp]
      exact .endEmpty (by simp [scanOf, hdead])
  case h_6 c j todo kept min live hp =>
    cases h
    refine .scanning (fun i _ hi => ?_) (by rw [hg _ hp]; rfl) ?_
    · rw [hp] at hi
      simpa [listed] using hi
    · rw [hg _ hp]
      refine .visit (j := j) rfl ?_ (fun k hk' => ?_)
      · split_ifs <;> omega
      · split_ifs at hk'
        obtain rfl := Option.some.inj hk'
        split_ifs <;> omega
  case h_7 hp =>
    cases h
    refine .outside (by rw [hp]; rfl) rfl ?_
    rw [hg _ hp]
    exact .revoke
  case h_8 hp =>
    cases h
    refine .outside (by rw [hp]; rfl) rfl ?_
    rw [hg _ hp]
    exact .stay
  case h_9 hp =>
    dsimp only at h
    split at h <;> cases h <;> refine .outside (by rw [hp]; rfl) rfl ?_ <;>
      rw [hg _ hp] <;> exact .stay
  case h_10 rest hp =>
    have hword : u64 (p.seq + 1) = p.seq + 1 := u64_of_lt (by omega)
    dsimp only at h
    rw [hword] at h
    split at h <;> cases h <;> refine .outside (by rw [hp]; rfl) rfl ?_ <;>
      rw [hg _ hp] <;> exact .advance rfl

/-- A call of the publisher before its first step. -/
theorem call_move {c : PubCall n} (h : p.call c = some p') : PubMove cfg t p t p' := by
  obtain ⟨hseq, hcached, hidle, hpc⟩ := pubCall_quiet h
  have hgate : gateOf p' = gateOf p := by
    unfold gateOf
    rw [hseq, hcached, hidle]
    rcases hpc with hpc | hpc
    · rw [hpc]
    · rw [hpc]; rfl
  refine .outside ?_ ?_ (by rw [hgate]; exact .stay)
  · rw [hidle]
    rcases hpc with hpc | hpc
    · rw [hpc]
    · rw [hpc]; rfl
  · rw [hgate]
    unfold gateOf
    rw [hidle]
    rfl

/-! ## The subscribers as holders of reservations -/

/-- A subscriber that is promised every message from its start on. -/
def NoLoss (s : Subscriber n) : Prop :=
  (s.kind = .subscribe ∨ s.kind = .tracked) ∧ s.latestUsed = false

/-- The program points between taking the tracker lock and releasing it. -/
def holdsLock : SubPc n → Prop
  | .loadHead .subscribe => True
  | .loadHead .tracked => True
  | .push _ => True
  | .dropRetain => True
  | _ => False

/-- Where a subscriber stands with its registration. -/
inductive Seat where
  | away
  | asking (k : SubscribeKind)
  | history
  | joining (start : Nat)
  | seated

def seat : SubPc n → Seat
  | .absent => .away
  | .lock k => .asking k
  | .loadHead k => .asking k
  | .lockPush _ => .history
  | .push start => .joining start
  | .dropLock => .away
  | .dropRetain => .away
  | .dropArc => .away
  | .dropped => .away
  | _ => .seated

theorem not_holdsLock_of_seated {pc : SubPc n} (h : seat pc = .seated) : ¬ holdsLock pc := by
  cases pc <;> simp [seat, holdsLock] at *

theorem endBatch_seated (s : Subscriber n) (b : Batch) : seat (s.endBatch b).pc = .seated := by
  unfold Subscriber.endBatch; split <;> rfl

theorem nextInBatch_seated (s : Subscriber n) (b : Batch) : seat (s.nextInBatch b).pc = .seated := by
  unfold Subscriber.nextInBatch
  split
  · rfl
  · exact endBatch_seated s b

theorem resume_seated (s : Subscriber n) (res : Recv n) (c : Caller n) :
    seat (s.resume res c).pc = .seated := by
  cases c with
  | recvBatch left filled again =>
    cases res <;> simp only [Subscriber.resume] <;> first | rfl | (split <;> rfl)
  | drainBatch b =>
    cases res with
    | ok buf =>
      exact Subscriber.handle_cases (P := fun u => seat u.pc = .seated) (fun _ => rfl) fun _ => nextInBatch_seated _ _
    | empty => exact endBatch_seated _ _
    | lagged k => exact nextInBatch_seated _ _
  | _ => cases res <;> rfl

theorem afterRead_seated {c : Caller n} {res : TryRead n} (h : AfterRead s c res s') :
    seat s'.pc = .seated ∧ s'.tracker = s.tracker := by
  cases h with
  | value _ => exact ⟨rfl, rfl⟩
  | again _ _ => exact ⟨rfl, rfl⟩
  | empty => exact ⟨resume_seated s .empty c, (resume_local s .empty c).1.tracker⟩
  | passed => exact ⟨rfl, rfl⟩

theorem onHead_seated (cfg : Config) (c : Caller n) (head : Nat) (s : Subscriber n) :
    seat (s.onHead cfg c head).pc = .seated ∧ (s.onHead cfg c head).tracker = s.tracker := by
  exact Subscriber.onHead_cases (P := fun u => seat u.pc = .seated ∧ u.tracker = s.tracker)
    ⟨resume_seated s .empty c, (resume_local s .empty c).1.tracker⟩ (fun _ _ _ => ⟨rfl, rfl⟩)

theorem onCommit_seated (c : Caller n) (res : Recv n) (s : Subscriber n) :
    seat (s.onCommit c res).pc = .seated := by
  cases res <;> exact resume_seated _ _ _

theorem onPending_seated (cfg : Config) (policy : DrainPolicy) (idle : Nat) (final : Bool) (head : Nat)
    (s : Subscriber n) : seat (s.onPending cfg policy idle final head).pc = .seated := by
  exact Subscriber.onPending_cases (P := fun u => seat u.pc = .seated) (fun _ => endBatch_seated s _) (fun _ => rfl)

/-- A subscriber that is neither being created nor dropped stores its position, if it has a
tracker, and does nothing else to the trackers. -/
theorem step_seated (hs : seat s.pc = .seated) (h : s.step cfg r t i = some (t', s')) :
    seat s'.pc = .seated ∧ s'.tracker = s.tracker ∧
      (t' = t ∨ (s.tracker = true ∧ t' = { t with value := Function.update t.value i s.cursor })) := by
  cases Subscriber.step_moves h with
  | @gateClosed c m _ _ => exact ⟨resume_seated s .empty c, (resume_local s .empty c).1.tracker, Or.inl rfl⟩
  | @read c pc res _ _ =>
    obtain ⟨hseat, htr⟩ := afterRead_seated (onTryRead_after s c res)
    exact ⟨hseat, htr, Or.inl rfl⟩
  | @head c _ =>
    obtain ⟨hseat, htr⟩ := onHead_seated cfg c r.cursor s
    exact ⟨hseat, htr, Or.inl rfl⟩
  | @commit c res _ =>
    refine ⟨onCommit_seated c res s, (onCommit_counted s c res).tracker, ?_⟩
    split_ifs with htr
    · exact Or.inr ⟨htr, rfl⟩
    · exact Or.inl rfl
  | @loadPending policy idle final _ =>
    exact ⟨onPending_seated cfg policy idle final r.cursor s,
      (onPending_local cfg policy idle final r.cursor s).1.tracker, Or.inl rfl⟩
  | gateNext _ | gateOpen _ _ | reading _ _ | latestNone _ _ | latestHead _ _ | pending _ | checkDrain _ _
  | checkStop _ _ | checkGo _ _ => exact ⟨rfl, rfl, Or.inl rfl⟩
  | takeLock hp _ | join hp _ _ | bare hp _ | tracked hp _ | history hp _ | bareHistory hp _ | lockPush hp _ | push hp
  | dropLock hp _ | dropRetain hp | dropArc hp =>
    rw [hp] at hs
    cases hs

theorem call_seated {c : SubCall} (h : s.call c = some s') : seat s'.pc = .seated := by
  cases (Subscriber.call_begins h).2 <;> rfl

/-- All that a step of a subscriber can do to its registration and to the trackers
of a bounded channel. -/
inductive SeatMove (r : Ring n) (t : Trackers) (i : Nat) (s : Subscriber n) :
    Trackers → Subscriber n → Prop where
  | stay {s' : Subscriber n} (hseat : seat s'.pc = seat s.pc) (hlock : holdsLock s'.pc ↔ holdsLock s.pc)
      (hset : settled s'.cursor (stage s'.pc) = settled s.cursor (stage s.pc) ∨ InLatest s.pc)
      (hkind : s'.kind = s.kind) (hused : s'.latestUsed = false → s.latestUsed = false)
      (htr : s'.tracker = s.tracker) : SeatMove r t i s t s'
  | ask {pc : SubPc n} {k : SubscribeKind} (hs : s.pc = .absent) (hseat : seat pc = .asking k)
      (hlock : ¬ holdsLock pc) : SeatMove r t i s t { s with pc := pc, kind := k }
  | leave {pc : SubPc n} (hseat : seat pc = .away) (hlock : ¬ holdsLock pc) :
      SeatMove r t i s t { s with pc := pc }
  | lock {pc : SubPc n} (hfree : t.locked = false) (hne : seat s.pc ≠ .seated)
      (hseat : seat pc = seat s.pc ∨ seat s.pc = .history ∧ ∃ start, seat pc = .joining start) :
      SeatMove r t i s { t with locked := true } { s with pc := pc }
  | join {k : SubscribeKind} (hs : s.pc = .loadHead k) (hk : k = .subscribe ∨ k = .tracked) :
      SeatMove r t i s t { s with pc := .push (startOf r.cursor) }
  | lossy {start : Nat} (hs : s.pc = .loadHead .lossy) : SeatMove r t i s t (s.created start false)
  | history {start : Nat} (hs : s.pc = .loadHead .fromOldest) :
      SeatMove r t i s t { s with pc := .lockPush start }
  | push {start : Nat} (hs : s.pc = .push start) :
      SeatMove r t i s
        { t with
          locked := false
          registered := t.registered ++ [i]
          value := Function.update t.value i start
          strong := Function.update t.strong i 1 }
        (s.created start true)
  | commit {c : Caller n} {res : Recv n} (hs : s.pc = .commit c res) :
      SeatMove r t i s
        (if s.tracker then { t with value := Function.update t.value i s.cursor } else t)
        (s.onCommit c res)
  | unlist (hs : s.pc = .dropRetain) :
      SeatMove r t i s { t with locked := false, registered := t.registered.filter (· ≠ i) }
        { s with pc := .dropArc }
  | release (hs : s.pc = .dropArc) :
      SeatMove r t i s
        (if s.tracker then { t with strong := Function.update t.strong i (t.strong i - 1) } else t)
        { s with pc := .dropped }

/-- Local work of a seated subscriber. -/
theorem SeatMove.ofLocal (hs : seat s.pc = .seated) (hs' : seat s'.pc = .seated)
    (hset : settled s.cursor (stage s.pc) = s.cursor) (h : Local s s') : SeatMove r t i s t s' := by
  refine .stay (hs'.trans hs.symm) ?_ (Or.inl ?_) h.kind (by rw [h.latestUsed]; exact fun hu => hu) h.tracker
  · exact iff_of_false (not_holdsLock_of_seated hs') (not_holdsLock_of_seated hs)
  · rw [h.stage, h.cursor, hset]
    rfl

/-- A read either goes on, or returns to its caller, or moves the cursor with the
outcome still to be counted. -/
theorem SeatMove.ofChange (hs : seat s.pc = .seated) (hs' : seat s'.pc = .seated)
    (hset : settled s.cursor (stage s.pc) = s.cursor) (hc : s.cursor < seqLimit)
    (h : Local s s' ∨ (∃ c pc, s' = { s with pc := .read c pc }) ∨
      (∃ c buf, s' = { s with cursor := u64 (s.cursor + 1), pc := .commit c (.ok buf) }) ∨
      (∃ c head, s.cursor < head ∧ s' = { s with cursor := head, pc := .commit c (.lagged (head - s.cursor)) })) :
    SeatMove r t i s t s' := by
  have hlock := iff_of_false (not_holdsLock_of_seated hs') (not_holdsLock_of_seated hs)
  rcases h with h | ⟨c, pc, rfl⟩ | ⟨c, buf, rfl⟩ | ⟨c, head, hlt, rfl⟩
  · exact .ofLocal hs hs' hset h
  · refine .stay (hs'.trans hs.symm) hlock (Or.inl ?_) rfl (fun hu => hu) rfl
    rw [hset]
    cases pc <;> rfl
  · refine .stay (hs'.trans hs.symm) hlock (Or.inl ?_) rfl (fun hu => hu) rfl
    unfold seqLimit at hc
    rw [hset]
    change u64 (s.cursor + 1) - 1 = s.cursor
    rw [u64_of_lt (by omega)]
    omega
  · refine .stay (hs'.trans hs.symm) hlock (Or.inl ?_) rfl (fun hu => hu) rfl
    rw [hset]
    change head - (head - s.cursor) = s.cursor
    omega

theorem afterRead_seat {c : Caller n} {pc : ReadPc n} {res : TryRead n} (h : AfterRead s c res s')
    (hs : s.pc = .read c pc) (hc : s.cursor < seqLimit) : SeatMove r t i s t s' := by
  have hset : settled s.cursor (stage s.pc) = s.cursor := by rw [hs]; cases pc <;> rfl
  have hseat : seat s.pc = .seated := by rw [hs]; rfl
  cases h with
  | @value buf _ => exact .ofChange hseat rfl hset hc (Or.inr (Or.inr (Or.inl ⟨c, buf, rfl⟩)))
  | again _ _ => exact .ofLocal hseat rfl hset ⟨rfl, rfl, rfl, rfl, rfl, rfl⟩
  | empty => exact .ofLocal hseat (resume_seated s .empty c) hset (resume_local s .empty c).1
  | passed => exact .ofLocal hseat rfl hset ⟨rfl, rfl, rfl, rfl, rfl, rfl⟩

theorem onHead_seat {c : Caller n} {head : Nat} (hs : s.pc = .head c) (hc : s.cursor < seqLimit) :
    SeatMove r t i s t (s.onHead cfg c head) := by
  have hempty : SeatMove r t i s t (s.resume .empty c) :=
    .ofLocal (by rw [hs]; rfl) (resume_seated s .empty c) (by rw [hs]; rfl) (resume_local s .empty c).1
  refine Subscriber.onHead_cases hempty (fun _ _ hlt => ?_)
  exact .ofChange (by rw [hs]; rfl) rfl (by rw [hs]; rfl) hc (Or.inr (Or.inr (Or.inr ⟨c, _, hlt, rfl⟩)))

theorem step_seat (hk : cfg.kind = .bounded wm) (hc : s.cursor < seqLimit)
    (h : s.step cfg r t i = some (t', s')) : SeatMove r t i s t' s' := by
  have hloc {s' : Subscriber n} (hs : seat s.pc = .seated) (hset : settled s.cursor (stage s.pc) = s.cursor)
      (hs' : seat s'.pc = .seated) (hl : Local s s') : SeatMove r t i s t s' := .ofLocal hs hs' hset hl
  cases Subscriber.step_moves h with
  | takeLock hp hfree => exact .lock hfree (by rw [hp]; simp [seat]) (Or.inl (by rw [hp]; rfl))
  | join hp hk' _ => exact .join hp hk'
  | bare hp hk' =>
    rcases hk' with rfl | ⟨_, hnot⟩
    · exact .lossy hp
    · exact absurd hk (hnot wm)
  | tracked _ hnot => exact absurd hk (hnot wm)
  | history hp _ => exact .history hp
  | bareHistory _ hnot => exact absurd hk (hnot wm)
  | @lockPush start hp hfree => exact .lock hfree (by rw [hp]; simp [seat]) (Or.inr ⟨by rw [hp]; rfl, start, rfl⟩)
  | push hp => exact .push hp
  | @gateClosed c m hp _ =>
    exact hloc (by rw [hp]; rfl) (by rw [hp]; rfl) (resume_seated s .empty c) (resume_local s .empty c).1
  | @reading c pc pc' hp _ =>
    exact .ofChange (by rw [hp]; rfl) rfl (by rw [hp]; cases pc <;> rfl) hc (Or.inr (Or.inl ⟨c, pc', rfl⟩))
  | @read c pc res hp _ => exact afterRead_seat (onTryRead_after s c res) hp hc
  | head hp => exact onHead_seat hp hc
  | commit hp => exact .commit hp
  | latestHead hp _ =>
    exact .stay (by rw [hp]; rfl) (by rw [hp]; rfl) (Or.inr (by rw [hp]; trivial)) rfl (fun hu => hu) rfl
  | @loadPending policy idle final hp =>
    exact hloc (by rw [hp]; rfl) (by rw [hp]; rfl) (onPending_seated cfg policy idle final r.cursor s)
      (onPending_local cfg policy idle final r.cursor s).1
  | dropLock hp hfree => exact .lock hfree (by rw [hp]; simp [seat]) (Or.inl (by rw [hp]; rfl))
  | dropRetain hp => exact .unlist hp
  | dropArc hp => exact .release hp
  | gateNext hp | gateOpen hp _ | latestNone hp _ | pending hp | checkDrain hp _ | checkStop hp _ | checkGo hp _ =>
    exact hloc (by rw [hp]; rfl) (by rw [hp]; rfl) rfl ⟨rfl, rfl, rfl, rfl, rfl, rfl⟩

theorem subscribe_seat (hk : cfg.kind = .bounded wm) {k : SubscribeKind}
    (h : s.subscribe cfg k = some s') : SeatMove r t i s t s' := by
  unfold Subscriber.subscribe at h
  split at h
  · rename_i hp
    rw [hk] at h
    cases k <;> cases h <;> exact .ask hp rfl (fun hl => hl)
  · cases h

theorem call_seat {c : SubCall} (h : s.call c = some s') : SeatMove r t i s t s' := by
  obtain ⟨hp, hbegins⟩ := Subscriber.call_begins h
  have hw {s' : Subscriber n} (hseat : seat s'.pc = .seated) (hset : settled s'.cursor (stage s'.pc) = s.cursor)
      (hkind : s'.kind = s.kind) (hu : s'.latestUsed = false → s.latestUsed = false)
      (htr : s'.tracker = s.tracker) : SeatMove r t i s t s' := by
    refine .stay (by rw [hseat, hp]; rfl) ?_ (Or.inl (by rw [hset, hp]; rfl)) hkind hu htr
    exact iff_of_false (not_holdsLock_of_seated hseat) (not_holdsLock_of_seated (by rw [hp]; rfl))
  cases hbegins with
  | latest => exact hw rfl rfl rfl (fun hu => by cases hu) rfl
  | _ => exact hw rfl rfl rfl (fun hu => hu) rfl

theorem drop_seat (h : s.drop cfg = some s') : SeatMove r t i s t s' := by
  obtain ⟨_, rfl | rfl⟩ := drop_pc h <;> exact .leave rfl (fun hl => hl)

/-- How a step of a subscriber uses the tracker lock. -/
theorem SeatMove.lock_cases (h : SeatMove r t i s t' s') :
    (t'.locked = t.locked ∧ (holdsLock s'.pc → holdsLock s.pc)) ∨
      (t.locked = false ∧ t'.locked = true) ∨ (holdsLock s.pc ∧ ¬ holdsLock s'.pc) := by
  cases h with
  | stay _ hlock _ _ _ _ => exact Or.inl ⟨rfl, hlock.mp⟩
  | ask _ _ hlock => exact Or.inl ⟨rfl, fun hl => absurd hl hlock⟩
  | leave _ hlock => exact Or.inl ⟨rfl, fun hl => absurd hl hlock⟩
  | lock hfree _ _ => exact Or.inr (Or.inl ⟨hfree, rfl⟩)
  | join hs hk =>
    refine Or.inl ⟨rfl, fun _ => ?_⟩
    rw [hs]
    rcases hk with rfl | rfl <;> trivial
  | lossy hs => exact Or.inl ⟨rfl, fun hl => hl.elim⟩
  | history hs => exact Or.inl ⟨rfl, fun hl => hl.elim⟩
  | push hs => exact Or.inr (Or.inr ⟨by rw [hs]; trivial, fun hl => hl⟩)
  | @commit c res hs =>
    refine Or.inl ⟨by split <;> rfl, fun hl => absurd hl (not_holdsLock_of_seated ?_)⟩
    cases res <;> exact resume_seated _ _ _
  | unlist hs => exact Or.inr (Or.inr ⟨by rw [hs]; trivial, fun hl => hl⟩)
  | release hs => exact Or.inl ⟨by split <;> rfl, fun hl => hl.elim⟩

/-- The trackers of the other subscribers stay as they are. -/
theorem SeatMove.others (h : SeatMove r t i s t' s') {j : Nat} (hj : j ≠ i) :
    t'.value j = t.value j ∧ t'.strong j = t.strong j ∧ (j ∈ t.registered → j ∈ t'.registered) := by
  cases h with
  | push hs =>
    exact ⟨Function.update_of_ne hj .., Function.update_of_ne hj .., fun h => List.mem_append_left _ h⟩
  | commit hs =>
    split
    · exact ⟨Function.update_of_ne hj .., rfl, fun h => h⟩
    · exact ⟨rfl, rfl, fun h => h⟩
  | unlist hs => exact ⟨rfl, rfl, fun h => List.mem_filter.mpr ⟨h, by simpa using hj⟩⟩
  | release hs =>
    split
    · exact ⟨rfl, Function.update_of_ne hj .., fun h => h⟩
    · exact ⟨rfl, rfl, fun h => h⟩
  | _ => exact ⟨rfl, rfl, fun h => h⟩

/-- A tracker only ever holds a position its subscriber has had. -/
theorem SeatMove.value (h : SeatMove r t i s t' s') (j : Nat) :
    t'.value j = t.value j ∨ t'.value j = s.cursor ∨ ∃ start, s.pc = .push start ∧ t'.value j = start := by
  by_cases hj : j = i
  · subst hj
    cases h with
    | push hs => exact Or.inr (Or.inr ⟨_, hs, Function.update_self ..⟩)
    | commit hs =>
      split
      · exact Or.inr (Or.inl (Function.update_self ..))
      · exact Or.inl rfl
    | release hs => split <;> exact Or.inl rfl
    | _ => exact Or.inl rfl
  · exact Or.inl (h.others hj).1

/-- A subscriber keeps the promise it was created with until it calls `latest`. -/
theorem SeatMove.kind (h : SeatMove r t i s t' s') :
    (s.pc = .absent ∧ stage s'.pc = .fresh) ∨
      (s'.kind = s.kind ∧ (s'.latestUsed = false → s.latestUsed = false)) := by
  cases h with
  | stay _ _ _ hkind hused _ => exact Or.inr ⟨hkind, hused⟩
  | @ask pc k hs hseat _ =>
    refine Or.inl ⟨hs, ?_⟩
    change stage pc = .fresh
    revert hseat
    cases pc <;> first | exact fun _ => rfl | exact fun h => by cases h
  | @commit c res hs =>
    have hcount := onCommit_counted s c res
    exact Or.inr ⟨hcount.kind, by rw [hcount.latestUsed]; exact fun h => h⟩
  | _ => exact Or.inr ⟨rfl, fun h => h⟩

end PhotonRing.Bounded
