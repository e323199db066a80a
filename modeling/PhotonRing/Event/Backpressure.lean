import PhotonRing.Backpressure
import PhotonRing.Event.Ring

/-!
# Backpressure on the event ring

The publisher is a gated writer with the whole capacity as its room. A subscriber
reserves from the sequence it still needs: the start it has picked while it holds
the tracker lock, its cursor afterwards, and the message it has just processed until
its tracker says so. Whatever is published from a reservation on is still in its
slot, unchanged.
-/
namespace PhotonRing.Event.Backpressure

open Lib Event.World

variable {τ : Type} {cfg : Config} {r r' : EventRing τ} {t t' : Trackers} {p p' : EventPublisher τ}
  {i : Nat} {s s' : EventSubscriber τ}

/-! ## The publisher as a gated writer -/

/-- `has_room` has returned true for the next sequence. -/
def granted : PubPc τ → Bool
  | .closure _ _ => true
  | .cursor => true
  | _ => false

/-- The scan in progress: the trackers still to be loaded and the minimum so far. -/
def scanOf : PubPc τ → Option (List Nat × Option Nat)
  | .scan _ todo _ min any => some (todo, if any then some min else none)
  | .loadTracker _ i todo _ min any => some (i :: todo, if any then some min else none)
  | _ => none

def gateOf (p : EventPublisher τ) : Gate Nat := ⟨p.seq, p.cachedSlowest, granted p.pc, scanOf p.pc⟩

/-- The registered trackers, with the part of the list that a scan is working on. -/
def listed (t : Trackers) : PubPc τ → List Nat
  | .scan _ todo kept _ _ => kept ++ todo
  | .loadTracker _ i todo kept _ _ => kept ++ i :: todo
  | _ => t.registered

theorem gateOf_full (p : EventPublisher τ) (c : Call τ) :
    gateOf (p.full c) = ⟨p.seq, p.cachedSlowest, false, none⟩ := by
  unfold EventPublisher.full; split <;> rfl

theorem listed_full (t : Trackers) (p : EventPublisher τ) (c : Call τ) :
    listed t (p.full c).pc = t.registered := by unfold EventPublisher.full; split <;> rfl

/-- What a step of the publisher does to the trackers. -/
abbrev PubMove (cfg : Config) (t : Trackers) (p : EventPublisher τ) (t' : Trackers)
    (p' : EventPublisher τ) : Prop :=
  Trackers.Turn cfg.capacity t t' (listed t p.pc) (listed t' p'.pc) (gateOf p) (gateOf p')

theorem call_move {c : Call τ} (h : p.call c = some p') : PubMove cfg t p t p' := by
  unfold EventPublisher.call at h
  split at h
  · rename_i hp
    cases h
    refine .outside (by rw [hp]; rfl) rfl ?_
    unfold gateOf
    rw [hp]
    exact .stay
  · cases h

theorem pub_move (hword : p.pc = .cursor → u64 (p.seq + 1) = p.seq + 1)
    (h : p.step cfg r t = some (r', t', p')) : PubMove cfg t p t' p' := by
  have hg (pc : PubPc τ) (hp : p.pc = pc) :
      gateOf p = ⟨p.seq, p.cachedSlowest, granted pc, scanOf pc⟩ := by rw [← hp]; rfl
  unfold EventPublisher.step at h
  split at h
  case h_1 => cases h
  case h_2 c hp =>
    split at h <;> cases h
    · refine .outside (by rw [hp]; rfl) rfl ?_
      rw [hg _ hp]
      exact .stay
    · rename_i hroom
      refine .outside (by rw [hp]; rfl) rfl ?_
      rw [hg _ hp]
      exact .trust true (lt_of_lt_of_le (Nat.lt_of_not_le hroom) (u64_le _))
  case h_3 c hp =>
    split at h <;> cases h
    rename_i hfree
    refine .lock (by simpa using hfree) (by rw [hp]; rfl) ?_
    rw [hg _ hp, hp]
    exact .beginScan
  case h_4 c j todo kept min any hp =>
    have hsome : (gateOf p).scan.isSome := by rw [hg _ hp]; rfl
    split at h <;> cases h
    · refine .scanning (fun i _ hi => by rw [hp] at hi; exact hi) hsome ?_
      rw [hg _ hp]
      exact .stay
    · rename_i hdead
      refine .scanning (fun i hi hm => ?_) hsome ?_
      · rw [hp] at hm
        exact Trackers.mem_of_dead hdead hi hm
      · rw [hg _ hp]
        exact .skip (j := j) rfl hdead
  case h_5 c kept min any hp =>
    have hkeep (i : Nat) (hm : i ∈ listed t p.pc) : i ∈ kept := by
      rw [hp] at hm
      simpa [listed] using hm
    have hsome : (gateOf p).scan.isSome := by rw [hg _ hp]; rfl
    dsimp only at h
    split at h
    · rename_i hany
      split at h <;> cases h
      · have hf := gateOf_full { p with cachedSlowest := min } c
        unfold PubMove
        rw [listed_full]
        refine .unlock hkeep hsome (congrArg Gate.scan hf) ?_
        rw [hf, hg _ hp]
        exact .endScan (by simp [scanOf, hany]) (fun hb => by cases hb)
      · rename_i hroom
        refine .unlock hkeep hsome rfl ?_
        rw [hg _ hp]
        exact .endScan (m := min) (by simp [scanOf, hany]) (fun _ => lt_of_lt_of_le (Nat.lt_of_not_le hroom) (u64_le _))
    · rename_i hnone
      cases h
      refine .unlock hkeep hsome rfl ?_
      rw [hg _ hp]
      exact .endEmpty (by simp [scanOf, hnone])
  case h_6 c j todo kept min any hp =>
    cases h
    refine .scanning (fun i _ hi => ?_) (by rw [hg _ hp]; rfl) ?_
    · rw [hp] at hi
      simpa [listed] using hi
    · rw [hg _ hp]
      refine .visit (j := j) rfl (Nat.min_le_right ..) (fun k hk => ?_)
      split_ifs at hk
      obtain rfl := Option.some.inj hk
      exact Nat.min_le_left ..
  case h_7 hp =>
    cases h
    refine .outside (by rw [hp]; rfl) rfl ?_
    rw [hg _ hp]
    exact .stay
  case h_8 hp =>
    cases h
    refine .outside (by rw [hp]; rfl) rfl ?_
    rw [hg _ hp]
    exact .revoke
  case h_9 hp =>
    cases h
    refine .outside (by rw [hp]; rfl) rfl ?_
    rw [hg _ hp]
    exact .stay
  case h_10 hp =>
    cases h
    refine .outside (by rw [hp]; rfl) rfl ?_
    rw [hg _ hp]
    unfold gateOf
    rw [hword hp]
    exact .advance rfl

/-! ## What is published and still needed -/

/-- All that a step of the publisher can do to the ring. -/
inductive RingMove (cfg : Config) (r : EventRing τ) (p : EventPublisher τ) :
    EventRing τ → EventPublisher τ → Prop where
  | stay {p' : EventPublisher τ} (hseq : p'.seq = p.seq) : RingMove cfg r p r p'
  | write {f : τ → τ} {fs : List (τ → τ)} {b : Bool} (hp : p.pc = .closure (f :: fs) b) :
      RingMove cfg r p
        { r with slots := Function.update r.slots (cfg.slot p.seq) (f (r.slots (cfg.slot p.seq))) }
        { p with pc := .closure fs b }
  | publish (hp : p.pc = .cursor) :
      RingMove cfg r p { r with cursor := p.seq, log := r.log ++ [r.slots (cfg.slot p.seq)] }
        { p with seq := u64 (p.seq + 1), pc := .idle, last := some .published }

theorem pub_ring (h : p.step cfg r t = some (r', t', p')) : RingMove cfg r p r' p' := by
  have hfull (c : Call τ) (q : EventPublisher τ) : (q.full c).seq = q.seq := by
    unfold EventPublisher.full; split <;> rfl
  unfold EventPublisher.step at h
  split at h
  case h_1 => cases h
  case h_2 => split at h <;> cases h <;> exact .stay rfl
  case h_3 => split at h <;> cases h; exact .stay rfl
  case h_4 => split at h <;> cases h <;> exact .stay rfl
  case h_5 =>
    dsimp only at h
    split at h
    · split at h <;> cases h
      · exact .stay (hfull ..)
      · exact .stay rfl
    · cases h
      exact .stay rfl
  case h_6 => cases h; exact .stay rfl
  case h_7 hp => cases h; exact .write hp
  case h_8 => cases h; exact .stay rfl
  case h_9 => cases h; exact .stay rfl
  case h_10 hp => cases h; exact .publish hp

theorem RingMove.log_grows (h : RingMove cfg r p r' p') : r.log <+: r'.log := by
  cases h with
  | stay => exact List.prefix_refl _
  | write => exact List.prefix_refl _
  | publish => exact List.prefix_append ..

/-- The messages from `a` on are in their slots as they were published. -/
def Retained (cfg : Config) (r : EventRing τ) (a : Nat) : Prop :=
  ∀ q, a ≤ q → q < r.log.length → r.log[q]? = some (r.slots (q % cfg.capacity))

theorem Retained.mono {a b : Nat} (h : Retained cfg r a) (hab : a ≤ b) : Retained cfg r b :=
  fun q hq => h q (hab.trans hq)

/-- The closure of a granted publish works on a slot that nobody needs. -/
theorem Retained.move {a : Nat} (h : Retained cfg r a) (hm : RingMove cfg r p r' p')
    (hseq : p.seq = r.log.length) (hword : p.seq < 2 ^ 64)
    (hroom : granted p.pc = true → p.seq < a + cfg.capacity) : Retained cfg r' a := by
  have hslot := cfg.slot_eq hword
  cases hm with
  | stay => exact h
  | write hp =>
    intro q hq hlt
    change q < r.log.length at hlt
    have hne : q % cfg.capacity ≠ cfg.slot p.seq := by
      have := hroom (by rw [hp]; rfl)
      rw [hslot]
      exact (lap_ne (by omega) (by omega)).symm
    change r.log[q]? = some (Function.update r.slots (cfg.slot p.seq) _ (q % cfg.capacity))
    rw [Function.update_of_ne hne]
    exact h q hq hlt
  | publish hp =>
    intro q hq hlt
    change (r.log ++ [_])[q]? = some (r.slots (q % cfg.capacity))
    change q < (r.log ++ [_]).length at hlt
    rw [List.length_append, List.length_singleton] at hlt
    by_cases hold : q < r.log.length
    · rw [List.getElem?_append_left hold]
      exact h q hq hold
    · obtain rfl : q = r.log.length := by omega
      rw [List.getElem?_append_right (Nat.le_refl _), hslot, hseq]
      simp

/-! ## Subscribers -/

/-- The subscriber exists: `subscribe` has returned it and it has not been dropped. -/
def live : SubPc → Bool
  | .absent => false
  | .lock => false
  | .loadHead => false
  | .push _ => false
  | .dropped => false
  | _ => true

/-- The program points between taking the tracker lock and releasing it. -/
def holdsLock : SubPc → Bool
  | .loadHead => true
  | .push _ => true
  | _ => false

/-- What the tracker of a live subscriber says. -/
def settled (s : EventSubscriber τ) : Nat := if s.pc = .store then s.cursor - 1 else s.cursor

/-- All that a step of a subscriber can do to the trackers. -/
inductive TrackerMove (t : Trackers) (i : Nat) (s s' : EventSubscriber τ) : Trackers → Prop where
  | stay (hlock : holdsLock s'.pc = holdsLock s.pc) : TrackerMove t i s s' t
  | lock (hfree : t.locked = false) : TrackerMove t i s s' { t with locked := true }
  | push {start : Nat} (hs : s.pc = .push start) (hs' : holdsLock s'.pc = false) :
      TrackerMove t i s s'
        { t with
          locked := false
          registered := t.registered ++ [i]
          value := Function.update t.value i start
          strong := Function.update t.strong i 1 }
  | store (hs : s.pc = .store) (hs' : holdsLock s'.pc = false) :
      TrackerMove t i s s' { t with value := Function.update t.value i s.cursor }
  | drop (hs' : holdsLock s'.pc = false) :
      TrackerMove t i s s' { t with strong := Function.update t.strong i 0 }

theorem step_trackers (h : s.step cfg r t i = some (t', s')) : TrackerMove t i s s' t' := by
  unfold EventSubscriber.step at h
  split at h
  case h_1 => cases h
  case h_2 => split at h <;> cases h; exact .lock (by simpa using ‹¬ t.locked = true›)
  case h_3 hp => cases h; exact .stay (by rw [hp]; rfl)
  case h_4 hp => cases h; exact .push hp rfl
  case h_5 => cases h
  case h_6 hp => split at h <;> cases h <;> exact .stay (by rw [hp]; rfl)
  case h_7 hp => cases h; exact .stay (by rw [hp]; rfl)
  case h_8 hp => cases h; exact .stay (by rw [hp]; rfl)
  case h_9 hp => cases h; exact .stay (by rw [hp]; rfl)
  case h_10 hp => cases h; exact .store hp rfl
  case h_11 hp => cases h; exact .stay (by rw [hp]; rfl)
  case h_12 => cases h

theorem TrackerMove.lock_cases (h : TrackerMove t i s s' t') :
    (t'.locked = t.locked ∧ (holdsLock s'.pc = true → holdsLock s.pc = true)) ∨
      (t.locked = false ∧ t'.locked = true) ∨ (holdsLock s.pc = true ∧ ¬ holdsLock s'.pc = true) := by
  cases h with
  | stay hlock => exact Or.inl ⟨rfl, fun h => hlock ▸ h⟩
  | lock hfree => exact Or.inr (Or.inl ⟨hfree, rfl⟩)
  | push hs hs' => exact Or.inr (Or.inr ⟨by rw [hs]; rfl, by rw [hs']; exact Bool.false_ne_true⟩)
  | store hs hs' => exact Or.inl ⟨rfl, fun h => by rw [hs'] at h; cases h⟩
  | drop hs' => exact Or.inl ⟨rfl, fun h => by rw [hs'] at h; cases h⟩

/-- The trackers of the other subscribers stay as they are. -/
theorem TrackerMove.others (h : TrackerMove t i s s' t') {j : Nat} (hj : j ≠ i) :
    t'.value j = t.value j ∧ t'.strong j = t.strong j ∧ (j ∈ t.registered → j ∈ t'.registered) := by
  cases h with
  | stay _ => exact ⟨rfl, rfl, fun h => h⟩
  | lock _ => exact ⟨rfl, rfl, fun h => h⟩
  | push _ _ =>
    exact ⟨Function.update_of_ne hj .., Function.update_of_ne hj .., fun h => List.mem_append_left _ h⟩
  | store _ _ => exact ⟨Function.update_of_ne hj .., rfl, fun h => h⟩
  | drop _ => exact ⟨rfl, Function.update_of_ne hj .., fun h => h⟩

/-- A tracker only ever holds a position its subscriber has had. -/
theorem TrackerMove.value (h : TrackerMove t i s s' t') (j : Nat) :
    t'.value j = t.value j ∨ t'.value j = s.cursor ∨ ∃ start, s.pc = .push start ∧ t'.value j = start := by
  by_cases hj : j = i
  · subst hj
    cases h with
    | push hs _ => exact Or.inr (Or.inr ⟨_, hs, Function.update_self ..⟩)
    | store _ _ => exact Or.inr (Or.inl (Function.update_self ..))
    | _ => exact Or.inl rfl
  · exact Or.inl (h.others hj).1

end PhotonRing.Event.Backpressure
