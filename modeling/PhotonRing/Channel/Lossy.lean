import PhotonRing.Channel.ReadSide
import PhotonRing.Channel.Backpressure

/-!
# Lossy subscribers are invisible

A subscriber made by `subscribe_lossy` has no tracker, takes no lock and stores to
no shared location. Deleting all its steps from a run therefore leaves a run in which
the ring, the trackers, the publishers and all other subscribers go through the same
states.
-/
namespace PhotonRing.Lossy

open Lib World Reader Bounded

variable {n : Nat} {cfg : Config} {r : Ring n} {t t' : Trackers} {i : Nat} {s s' : Subscriber n}
  {w w' : World n} {a : Act n}

/-- The program points of a subscriber that never registers. -/
def Apart : SubPc n → Prop
  | .absent => True
  | .loadHead k => k = .lossy
  | .dropArc => True
  | .dropped => True
  | pc => seat pc = .seated

/-- A lossy subscriber: it has no tracker, and nobody has made one for it. -/
structure Unseen (t : Trackers) (i : Nat) (s : Subscriber n) : Prop where
  tracker : s.tracker = false
  strong : t.strong i = 0
  pc : Apart s.pc

theorem apart_of_seated {pc : SubPc n} (h : seat pc = .seated) : Apart pc := by
  cases pc <;> first | exact h | exact trivial | cases h

/-- Local work of a subscriber keeps it apart. -/
theorem Unseen.local (h : Unseen t i s) (hs' : seat s'.pc = .seated) (htr : s'.tracker = s.tracker) :
    Unseen t i s' := ⟨htr.trans h.tracker, h.strong, apart_of_seated hs'⟩

/-- A step of a lossy subscriber changes nothing but itself. -/
theorem Unseen.step (h : Unseen t i s) (hs : s.step cfg r t i = some (t', s')) :
    t' = t ∧ Unseen t i s' := by
  have hpc := h.pc
  have htr := h.tracker
  by_cases hseat : seat s.pc = .seated
  · obtain ⟨hseat', htr', ht | ⟨htrue, _⟩⟩ := step_seated hseat hs
    · exact ⟨ht, h.local hseat' htr'⟩
    · rw [htr] at htrue
      cases htrue
  · cases hp : s.pc with
    | loadHead k =>
      rw [hp] at hpc
      obtain rfl : k = .lossy := hpc
      simp only [Subscriber.step, hp] at hs
      cases hs
      exact ⟨rfl, rfl, h.strong, rfl⟩
    | dropArc =>
      simp only [Subscriber.step, hp, htr] at hs
      cases hs
      exact ⟨rfl, rfl, h.strong, trivial⟩
    | absent => simp only [Subscriber.step, hp] at hs; cases hs
    | dropped => simp only [Subscriber.step, hp] at hs; cases hs
    | _ => rw [hp] at hpc hseat; exact absurd hpc hseat

/-- An operation begins. -/
theorem Unseen.call {c : SubCall} (h : Unseen t i s) (hs : s.call c = some s') : Unseen t i s' :=
  h.local (call_seated hs) (call_idle hs).2.2.2

theorem Unseen.subscribe (h : Unseen t i s) (hs : s.subscribe cfg .lossy = some s') : Unseen t i s' := by
  unfold Subscriber.subscribe at hs
  split at hs
  · split at hs
    · contradiction
    · contradiction
    · cases hs
      exact ⟨h.tracker, h.strong, rfl⟩
  · cases hs

theorem Unseen.drop (h : Unseen t i s) (hs : s.drop cfg = some s') : Unseen t i s' := by
  have harc : Unseen t i { s with pc := .dropArc } := ⟨h.tracker, h.strong, trivial⟩
  unfold Subscriber.drop at hs
  dsimp only at hs
  split at hs <;> cases hs
  all_goals
    split
    · have htrue : s.tracker = true := ‹_›
      rw [h.tracker] at htrue
      cases htrue
    · exact harc

/-! ## Deleting the steps of lossy subscribers -/

/-- The subscriber whose step a label is. -/
def owner : Act n → Option Nat
  | .subscribe i _ => some i
  | .subCall i _ => some i
  | .sub i => some i
  | .drop i => some i
  | .cloneTracker i => some i
  | .dropClone i => some i
  | .shutdown i => some i
  | _ => none

/-- The labels that remain when the steps of the subscribers in `L` are deleted. -/
def keep (L : Nat → Bool) (a : Act n) : Bool :=
  match owner a with
  | some i => !L i
  | none => true

/-- The subscribers in `L` are made by `subscribe_lossy`, if at all. -/
def lossyOnly (L : Nat → Bool) : Act n → Bool
  | .subscribe i k => !L i || k == .lossy
  | _ => true

/-- A channel as if the subscribers in `L` had never existed. -/
def hide (L : Nat → Bool) (w : World n) : World n :=
  { w with subs := fun i => if L i then Subscriber.absent n else w.subs i }

variable {L : Nat → Bool}

theorem hide_setSub (hi : L i = true) (s : Subscriber n) : hide L (w.setSub i s) = hide L w := by
  unfold hide setSub
  congr 1
  funext j
  by_cases hj : j = i
  · subst hj
    simp only [hi, if_true]
  · simp only [Function.update_of_ne hj]

theorem setSub_hide (hi : L i = false) (s : Subscriber n) : (hide L w).setSub i s = hide L (w.setSub i s) := by
  unfold hide setSub
  congr 1
  funext j
  by_cases hj : j = i
  · subst hj
    simp only [Function.update_self, hi, Bool.false_eq_true, if_false]
  · simp only [Function.update_of_ne hj]

theorem hide_subs (hi : L i = false) : (hide L w).subs i = w.subs i := by
  simp only [hide, hi, Bool.false_eq_true, if_false]

theorem hide_new (L : Nat → Bool) : hide L (World.new n) = World.new n := by
  unfold hide World.new
  congr 1
  funext i
  simp

/-- What the deleted subscribers keep to. -/
def AllUnseen (L : Nat → Bool) (w : World n) : Prop :=
  ∀ i, L i = true → Unseen w.trackers i (w.subs i)

theorem AllUnseen.setSub (h : AllUnseen L w) (hs : L i = true → Unseen w.trackers i s) :
    AllUnseen L (w.setSub i s) := by
  intro j hj
  by_cases hji : j = i
  · subst hji
    rw [setSub_self]
    exact hs hj
  · rw [setSub_ne _ _ hji]
    exact h j hj

/-- A deleted label moves a subscriber in `L` only. -/
theorem step_deleted (h : AllUnseen L w) (hk : keep L a = false) (ha : lossyOnly L a = true)
    (hs : step cfg w a = some w') : AllUnseen L w' ∧ hide L w' = hide L w := by
  have hL {j : Nat} (ho : owner a = some j) : L j = true := by
    unfold keep at hk
    rw [ho] at hk
    simpa using hk
  have hset {j : Nat} {s : Subscriber n} (hj : L j = true) (hu : Unseen w.trackers j s) :
      AllUnseen L (w.setSub j s) ∧ hide L (w.setSub j s) = hide L w :=
    ⟨h.setSub (fun _ => hu), hide_setSub hj s⟩
  cases a with
  | pubCall c => cases hk
  | pub => cases hk
  | mpCall p c => cases hk
  | mp p => cases hk
  | subscribe j k =>
    have hj := hL rfl
    obtain ⟨s, hi, rfl⟩ := Option.map_eq_some_iff.mp hs
    have hkind : k = .lossy := by simpa [lossyOnly, hj] using ha
    subst hkind
    exact hset hj ((h j hj).subscribe hi)
  | subCall j c =>
    have hj := hL rfl
    obtain ⟨s, hi, rfl⟩ := Option.map_eq_some_iff.mp hs
    exact hset hj ((h j hj).call hi)
  | sub j =>
    have hj := hL rfl
    obtain ⟨⟨t, s⟩, hi, rfl⟩ := Option.map_eq_some_iff.mp hs
    obtain ⟨rfl, hu⟩ := (h j hj).step hi
    exact hset hj hu
  | drop j =>
    have hj := hL rfl
    obtain ⟨s, hi, rfl⟩ := Option.map_eq_some_iff.mp hs
    exact hset hj ((h j hj).drop hi)
  | cloneTracker j =>
    have hj := hL rfl
    simp only [step, (h j hj).tracker, Bool.false_eq_true, false_and, if_false] at hs
    cases hs
  | dropClone j =>
    have hj := hL rfl
    simp only [step, (h j hj).strong, Nat.not_lt_zero, and_false, or_false, if_false] at hs
    cases hs
  | shutdown j =>
    have hj := hL rfl
    cases hs
    have hu := h j hj
    exact hset hj ⟨hu.tracker, hu.strong, hu.pc⟩

/-- A step of a subscriber leaves the reference counts of the others alone. -/
theorem step_strong_ne {j : Nat} (hs : s.step cfg r t j = some (t', s')) (hij : i ≠ j) :
    t'.strong i = t.strong i := by
  have hupd (m : Nat) : Function.update t.strong j m i = t.strong i := Function.update_of_ne hij ..
  cases Subscriber.step_moves hs with
  | tracked _ _ => exact hupd _
  | push _ => exact hupd _
  | commit _ => split <;> rfl
  | dropArc _ =>
    split
    · exact hupd _
    · rfl
  | _ => rfl

/-- A kept label does to the rest of the channel what it does to the whole of it. -/
theorem step_kept (h : AllUnseen L w) (hk : keep L a = true) (hs : step cfg w a = some w') :
    AllUnseen L w' ∧ step cfg (hide L w) a = some (hide L w') := by
  have hL {j : Nat} (ho : owner a = some j) : L j = false := by
    unfold keep at hk
    rw [ho] at hk
    simpa using hk
  have hset {j : Nat} {s : Subscriber n} (hj : L j = false) : AllUnseen L (w.setSub j s) :=
    h.setSub (fun ht => by rw [hj] at ht; cases ht)
  cases a with
  | pubCall c =>
    simp only [step] at hs ⊢
    split_ifs at hs ⊢ with hm
    obtain ⟨p, hp, rfl⟩ := Option.map_eq_some_iff.mp hs
    refine ⟨h, ?_⟩
    change (w.publisher.call c).map _ = _
    rw [hp]
    rfl
  | pub =>
    obtain ⟨⟨r, t, p⟩, hp, rfl⟩ := Option.map_eq_some_iff.mp hs
    refine ⟨fun i hi => ?_, ?_⟩
    · have hu := h i hi
      exact ⟨hu.tracker, (congrFun (Publisher.step_trackers hp).2 i).trans hu.strong, hu.pc⟩
    · change (w.publisher.step cfg w.ring w.trackers).map _ = _
      rw [hp]
      rfl
  | mpCall p c =>
    simp only [step] at hs ⊢
    split_ifs at hs ⊢ with hm
    obtain ⟨pc, hp, rfl⟩ := Option.map_eq_some_iff.mp hs
    refine ⟨h, ?_⟩
    change ((w.producers p).call c).map _ = _
    rw [hp]
    rfl
  | mp p =>
    obtain ⟨⟨r, pc⟩, hp, rfl⟩ := Option.map_eq_some_iff.mp hs
    refine ⟨h, ?_⟩
    change ((w.producers p).step cfg w.ring).map _ = _
    rw [hp]
    rfl
  | subscribe j k =>
    have hj := hL rfl
    obtain ⟨s, hi, rfl⟩ := Option.map_eq_some_iff.mp hs
    refine ⟨hset hj, ?_⟩
    rw [step, hide_subs hj, hi, Option.map_some, setSub_hide hj]
  | subCall j c =>
    have hj := hL rfl
    obtain ⟨s, hi, rfl⟩ := Option.map_eq_some_iff.mp hs
    refine ⟨hset hj, ?_⟩
    rw [step, hide_subs hj, hi, Option.map_some, setSub_hide hj]
  | sub j =>
    have hj := hL rfl
    obtain ⟨⟨t, s⟩, hi, rfl⟩ := Option.map_eq_some_iff.mp hs
    refine ⟨fun i hit => ?_, ?_⟩
    · have hij : i ≠ j := by
        rintro rfl
        rw [hj] at hit
        cases hit
      have hu := h i hit
      rw [setSub_ne _ _ hij]
      exact ⟨hu.tracker, (step_strong_ne hi hij).trans hu.strong, hu.pc⟩
    · have hi' : ((hide L w).subs j).step cfg (hide L w).ring (hide L w).trackers j = some (t, s) := by
        rw [hide_subs hj]
        exact hi
      rw [step, hi']
      exact congrArg some (setSub_hide (w := { w with trackers := t }) hj s)
  | drop j =>
    have hj := hL rfl
    obtain ⟨s, hi, rfl⟩ := Option.map_eq_some_iff.mp hs
    refine ⟨hset hj, ?_⟩
    rw [step, hide_subs hj, hi, Option.map_some, setSub_hide hj]
  | cloneTracker j =>
    have hj := hL rfl
    simp only [step] at hs
    split_ifs at hs with hc
    cases hs
    refine ⟨fun i hit => ?_, ?_⟩
    · have hij : i ≠ j := by
        rintro rfl
        rw [hj] at hit
        cases hit
      have hu := h i hit
      exact ⟨hu.tracker, (Function.update_of_ne hij ..).trans hu.strong, hu.pc⟩
    · rw [step, hide_subs hj]
      exact if_pos hc
  | dropClone j =>
    have hj := hL rfl
    simp only [step] at hs
    split_ifs at hs with hc
    cases hs
    refine ⟨fun i hit => ?_, ?_⟩
    · have hij : i ≠ j := by
        rintro rfl
        rw [hj] at hit
        cases hit
      have hu := h i hit
      exact ⟨hu.tracker, (Function.update_of_ne hij ..).trans hu.strong, hu.pc⟩
    · rw [step, hide_subs hj]
      exact if_pos hc
  | shutdown j =>
    have hj := hL rfl
    cases hs
    refine ⟨hset hj, ?_⟩
    rw [step, hide_subs hj, setSub_hide hj]
    rfl

theorem allUnseen_new (L : Nat → Bool) : AllUnseen L (World.new n) :=
  fun _ _ => ⟨rfl, rfl, trivial⟩

/-- What remains of a run when all steps of some lossy subscribers are deleted is a run, and
it ends with the ring, the trackers, the publishers and the other subscribers in the states
they are in with the lossy ones around. -/
theorem run_without {as : List (Act n)} (hall : ∀ a ∈ as, lossyOnly L a = true)
    (h : run (step cfg) (World.new n) as = some w) :
    run (step cfg) (World.new n) (as.filter (keep L)) = some (hide L w) := by
  have hrun : run (step cfg) (hide L (World.new n)) (as.filter (keep L)) = some (hide L w) :=
    run_filter (I := AllUnseen L) (fun _ _ _ hI hk ha hs => step_deleted hI hk ha hs)
      (fun _ _ _ hI hk hs => step_kept hI hk hs) hall (allUnseen_new L) h
  rwa [hide_new] at hrun

/-- Lossy subscribers cannot be noticed: at every point of a run, what the publishers and
the other subscribers have done and been told so far is what it would be without them. Two
runs that differ in the steps of lossy subscribers only end alike for everybody else. -/
theorem lossy_invisible {as : List (Act n)} (hall : ∀ a ∈ as, lossyOnly L a = true)
    (h : run (step cfg) (World.new n) as = some w) :
    (∀ pre, pre <+: as → ∃ v, run (step cfg) (World.new n) pre = some v ∧
      run (step cfg) (World.new n) (pre.filter (keep L)) = some (hide L v)) ∧
    ∀ bs v, (∀ a ∈ bs, lossyOnly L a = true) → run (step cfg) (World.new n) bs = some v →
      bs.filter (keep L) = as.filter (keep L) → hide L v = hide L w := by
  constructor
  · rintro pre ⟨rest, rfl⟩
    obtain ⟨v, hv, _⟩ := run_of_append h
    exact ⟨v, hv, run_without (fun a ha => hall a (List.mem_append_left rest ha)) hv⟩
  · intro bs v hbs hv heq
    have hv' := run_without hbs hv
    rw [heq, run_without hall h] at hv'
    exact (Option.some.inj hv').symm

/-- A lossy observer comes, receives, looks at the latest message and goes while a
registered subscriber receives the first of two messages. -/
theorem lossy_invisible_observer : ∃ w : World 1,
    run (step Config.smallBounded) (World.new 1) (List.flatten [
      [.subscribe 0 .subscribe, .sub 0, .sub 0, .sub 0, .subscribe 1 .lossy, .sub 1],
      .pubCall (.publish fun _ => 7) :: List.replicate 5 .pub,
      [.subCall 0 .tryRecv, .subCall 1 .tryRecv], List.replicate 4 (.sub 0), List.replicate 4 (.sub 1),
      .subCall 1 .latest :: List.replicate 5 (.sub 1), [.drop 1, .sub 1],
      .pubCall (.tryPublish fun _ => 8) :: List.replicate 5 .pub]) = some w ∧
    (w.subs 0).events.length = 1 ∧ (w.subs 1).events.length = 2 ∧ messages w = 2 ∧
    run (step Config.smallBounded) (World.new 1) (List.flatten [
      [.subscribe 0 .subscribe, .sub 0, .sub 0, .sub 0],
      .pubCall (.publish fun _ => 7) :: List.replicate 5 .pub,
      [.subCall 0 .tryRecv], List.replicate 4 (.sub 0),
      .pubCall (.tryPublish fun _ => 8) :: List.replicate 5 .pub]) = some (hide (· == 1) w) := by
  obtain ⟨w, hw, hp⟩ := (Option.any_eq_true (fun w : World 1 => decide ((w.subs 0).events.length = 1 ∧
    (w.subs 1).events.length = 2 ∧ messages w = 2)) _).mp (show (run (step Config.smallBounded)
      (World.new 1) (List.flatten [
      [.subscribe 0 .subscribe, .sub 0, .sub 0, .sub 0, .subscribe 1 .lossy, .sub 1],
      .pubCall (.publish fun _ => 7) :: List.replicate 5 .pub,
      [.subCall 0 .tryRecv, .subCall 1 .tryRecv], List.replicate 4 (.sub 0), List.replicate 4 (.sub 1),
      .subCall 1 .latest :: List.replicate 5 (.sub 1), [.drop 1, .sub 1],
      .pubCall (.tryPublish fun _ => 8) :: List.replicate 5 .pub])).any _ = true by decide +kernel)
  obtain ⟨h0, h1, hm⟩ := of_decide_eq_true hp
  obtain ⟨v, hv, hrun⟩ := (lossy_invisible (L := (· == 1)) (by decide) hw).1 _ (List.prefix_refl _)
  obtain rfl := Option.some.inj (hw.symm.trans hv)
  exact ⟨w, hw, h0, h1, hm, hrun⟩

end PhotonRing.Lossy
