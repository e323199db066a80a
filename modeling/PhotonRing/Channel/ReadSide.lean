import PhotonRing.Channel.WriteSide
import PhotonRing.Channel.Reader

/-!
# The read side of a channel along a run

Every subscriber keeps `Reader.Ok` in every reachable state with fewer than
`seqLimit` messages, whatever the writers and the other subscribers do.
-/
namespace PhotonRing.World

open Lib Lib.Seqlock Reader

variable {n : Nat} {cfg : Config} {w w' : World n} {a : Act n} {i : Nat}

/-- Which label moved subscriber `i`, and how. -/
inductive SubStep (cfg : Config) (w w' : World n) (i : Nat) : Act n → Prop where
  | other {a : Act n} (hs : w'.subs i = w.subs i) : SubStep cfg w w' i a
  | subscribe {k : SubscribeKind} (hs : (w.subs i).subscribe cfg k = some (w'.subs i))
      (ht : w'.trackers = w.trackers) : SubStep cfg w w' i (.subscribe i k)
  | call {c : SubCall} (hs : (w.subs i).call c = some (w'.subs i))
      (ht : w'.trackers = w.trackers) : SubStep cfg w w' i (.subCall i c)
  | step (hs : (w.subs i).step cfg w.ring w.trackers i = some (w'.trackers, w'.subs i)) :
      SubStep cfg w w' i (.sub i)
  | drop (hs : (w.subs i).drop cfg = some (w'.subs i)) (ht : w'.trackers = w.trackers) :
      SubStep cfg w w' i (.drop i)
  | shutdown (hs : w'.subs i = requestShutdown w.ring (w.subs i)) (ht : w'.trackers = w.trackers) :
      SubStep cfg w w' i (.shutdown i)

theorem setSub_self (w : World n) (i : Nat) (s : Subscriber n) : (w.setSub i s).subs i = s :=
  Function.update_self ..

theorem setSub_ne (w : World n) {i j : Nat} (s : Subscriber n) (h : i ≠ j) :
    (w.setSub j s).subs i = w.subs i := Function.update_of_ne h ..

theorem step_subs (h : step cfg w a = some w') (i : Nat) : SubStep cfg w w' i a := by
  cases a with
  | pubCall c =>
    simp only [step] at h
    split_ifs at h
    obtain ⟨p, _, rfl⟩ := Option.map_eq_some_iff.mp h
    exact .other rfl
  | pub =>
    obtain ⟨⟨r, t, p⟩, _, rfl⟩ := Option.map_eq_some_iff.mp h
    exact .other rfl
  | mpCall p c =>
    simp only [step] at h
    split_ifs at h
    obtain ⟨pc, _, rfl⟩ := Option.map_eq_some_iff.mp h
    exact .other rfl
  | mp p =>
    obtain ⟨⟨r, pc⟩, _, rfl⟩ := Option.map_eq_some_iff.mp h
    exact .other rfl
  | subscribe j k =>
    obtain ⟨s, hs, rfl⟩ := Option.map_eq_some_iff.mp h
    by_cases hj : i = j
    · subst hj
      exact .subscribe (by rw [setSub_self]; exact hs) rfl
    · exact .other (setSub_ne w s hj)
  | subCall j c =>
    obtain ⟨s, hs, rfl⟩ := Option.map_eq_some_iff.mp h
    by_cases hj : i = j
    · subst hj
      exact .call (by rw [setSub_self]; exact hs) rfl
    · exact .other (setSub_ne w s hj)
  | sub j =>
    obtain ⟨⟨t, s⟩, hs, rfl⟩ := Option.map_eq_some_iff.mp h
    by_cases hj : i = j
    · subst hj
      exact .step (by rw [setSub_self]; exact hs)
    · exact .other (setSub_ne _ s hj)
  | drop j =>
    obtain ⟨s, hs, rfl⟩ := Option.map_eq_some_iff.mp h
    by_cases hj : i = j
    · subst hj
      exact .drop (by rw [setSub_self]; exact hs) rfl
    · exact .other (setSub_ne w s hj)
  | cloneTracker j =>
    simp only [step] at h
    split_ifs at h
    cases h
    exact .other rfl
  | dropClone j =>
    simp only [step] at h
    split_ifs at h
    cases h
    exact .other rfl
  | shutdown j =>
    cases h
    by_cases hj : i = j
    · subst hj
      exact .shutdown (setSub_self ..) rfl
    · exact .other (setSub_ne w _ hj)

/-- The subscriber that a label is about. -/
def subOf : Act n → Option Nat
  | .subscribe i _ => some i
  | .subCall i _ => some i
  | .sub i => some i
  | .drop i => some i
  | .shutdown i => some i
  | _ => none

theorem step_elsewhere (h : step cfg w a = some w') (ha : subOf a ≠ some i) : w'.subs i = w.subs i := by
  cases step_subs h i with
  | other hs => exact hs
  | _ => exact absurd rfl ha

theorem subscribe_pc {s s' : Subscriber n} {k : SubscribeKind} (h : s.subscribe cfg k = some s') :
    s.pc = .absent ∧ ∃ pc, (pc = .lock k ∨ pc = .loadHead k) ∧ s' = { s with pc := pc, kind := k } := by
  unfold Subscriber.subscribe at h
  split at h
  · refine ⟨‹_›, ?_⟩
    split at h <;> cases h
    · exact ⟨_, Or.inl rfl, rfl⟩
    · exact ⟨_, Or.inl rfl, rfl⟩
    · exact ⟨_, Or.inr rfl, rfl⟩
  · cases h

theorem drop_pc {s s' : Subscriber n} (h : s.drop cfg = some s') :
    (s.pc = .idle ∨ s.pc = .exited) ∧ (s' = { s with pc := .dropLock } ∨ s' = { s with pc := .dropArc }) := by
  unfold Subscriber.drop at h
  dsimp only at h
  split at h <;> cases h
  · refine ⟨Or.inl ‹_›, ?_⟩
    split
    · exact Or.inl rfl
    · exact Or.inr rfl
  · refine ⟨Or.inr ‹_›, ?_⟩
    split
    · exact Or.inl rfl
    · exact Or.inr rfl

theorem call_idle {s s' : Subscriber n} {c : SubCall} (h : s.call c = some s') :
    s.pc = .idle ∧ stage s'.pc = .ready ∧ s'.cursor = s.cursor ∧ s'.tracker = s.tracker := by
  obtain ⟨hidle, hbegins⟩ := Subscriber.call_begins h
  refine ⟨hidle, ?_⟩
  cases hbegins <;> exact ⟨rfl, rfl, rfl⟩

theorem call_change {r : Ring n} {s s' : Subscriber n} {c : SubCall} (h : s.call c = some s') :
    Change cfg r s s' := by
  obtain ⟨hp, hbegins⟩ := Subscriber.call_begins h
  have hw {s' : Subscriber n} (hst : stage s'.pc = .ready) (hb : book s' = book s)
      (hc : s'.cursor = s.cursor) (hu : s.latestUsed = true → s'.latestUsed = true)
      (hl : InLatest s'.pc → s'.latestUsed = true) : Change cfg r s s' :=
    .wait (Or.inl (by rw [hst, hp]; rfl)) hb hc hu (fun hi => Or.inr (hl hi))
  cases hbegins with
  | latest => exact hw rfl rfl rfl (fun _ => rfl) (fun _ => rfl)
  | _ => exact hw rfl rfl rfl (fun hu => hu) (fun hi => hi.elim)

/-- The labels that can occur while subscriber `i` is inside a call. -/
def insideCall (i : Nat) : Act n → Bool
  | .subCall j _ => decide (j ≠ i)
  | .drop j => decide (j ≠ i)
  | _ => true

/-- Inside a call, only its own steps move subscriber `i`; it can be asked to shut down. -/
theorem step_inside (h : step cfg w a = some w') (hin : insideCall i a = true) (hpc : (w.subs i).pc ≠ .absent) :
    (a = .sub i ∧ (w.subs i).step cfg w.ring w.trackers i = some (w'.trackers, w'.subs i)) ∨
      a ≠ .sub i ∧ ∃ shutdown owed, w'.subs i = { w.subs i with shutdown := shutdown, owed := owed } := by
  by_cases ha : a = .sub i
  · subst ha
    obtain ⟨⟨t, s⟩, hs, rfl⟩ := Option.map_eq_some_iff.mp h
    exact Or.inl ⟨rfl, by rw [setSub_self]; exact hs⟩
  · refine Or.inr ⟨ha, ?_⟩
    cases step_subs h i with
    | other hs => exact ⟨_, _, hs⟩
    | subscribe hs _ => exact absurd (subscribe_pc hs).1 hpc
    | call _ _ => exact absurd rfl (of_decide_eq_true hin)
    | step _ => exact absurd rfl ha
    | drop _ _ => exact absurd rfl (of_decide_eq_true hin)
    | shutdown hs _ => exact ⟨_, _, hs⟩

/-- A label moves subscriber `i` by a `Change`, if at all. -/
theorem step_reader (h : step cfg w a = some w') (i : Nat) :
    w'.subs i = w.subs i ∨ Change cfg w.ring (w.subs i) (w'.subs i) := by
  cases step_subs h i with
  | other hs => exact Or.inl hs
  | subscribe hs _ =>
    obtain ⟨hp, pc, hpc, he⟩ := subscribe_pc hs
    refine Or.inr (.wait (Or.inl ?_) ?_ ?_ ?_ ?_)
    · rw [he, hp]
      rcases hpc with rfl | rfl <;> rfl
    · rw [he]; rfl
    · rw [he]
    · rw [he]; exact fun hu => hu
    · rw [he]
      rcases hpc with rfl | rfl <;> exact fun hi => hi.elim
  | call hs _ => exact Or.inr (call_change hs)
  | step hs => exact Or.inr (step_change hs)
  | drop hs _ =>
    obtain ⟨hp, he⟩ := drop_pc hs
    refine Or.inr (.ofLocal (Or.inl ?_) ?_ ?_)
    · rcases hp with hp | hp <;> rw [hp] <;> rfl
    · rcases he with he | he <;> rw [he] <;> exact ⟨rfl, rfl, rfl, rfl, rfl, rfl⟩
    · rcases he with he | he <;> rw [he] <;> exact fun hi => hi.elim
  | shutdown hs _ =>
    exact Or.inr (.wait (Or.inl (by rw [hs]; rfl)) (by rw [hs]; rfl) (by rw [hs]; rfl)
      (by rw [hs]; exact fun hu => hu) (by rw [hs]; exact fun hi => Or.inl hi))

/-- Both sides of a channel. -/
structure Sane (cfg : Config) (w : World n) : Prop where
  written : Written cfg w
  readers : ∀ i, Reader.Ok cfg w.ring (w.subs i)

theorem step_sane (h : step cfg w a = some w') (hl : messages w' < seqLimit) (hw : Sane cfg w) :
    Sane cfg w' := by
  obtain ⟨hwritten, hgrows⟩ := step_written h hl hw.written
  have hl0 : w.ring.log.length < seqLimit := hgrows.log_le.trans_lt hl
  refine ⟨hwritten, fun i => ?_⟩
  have hi := hw.readers i
  rcases step_reader h i with hs | hc
  · rw [hs]
    exact hi.mono hgrows
  · exact (hc.ok hi hw.written.ring hl0).mono hgrows

theorem reach_sane (h : Reach cfg w) (hl : messages w < seqLimit) : Sane cfg w :=
  Reachable.invariant_below messages seqLimit (fun _ _ _ hs => step_log_le hs)
    ⟨written_new cfg, fun _ => ok_absent cfg _⟩ (fun _ _ _ hs hlt hw => step_sane hs hlt hw) h hl

end PhotonRing.World
