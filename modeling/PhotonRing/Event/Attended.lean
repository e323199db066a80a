import PhotonRing.HasRoom
import PhotonRing.Lib.CatchUp
import PhotonRing.Event.Exclusive

/-!
# An event ring whose subscribers keep processing

Every subscriber of an event ring holds the publisher back. None of them waits for another,
and a closure that returns uses up its message, so a publisher waits only for as long as
some subscriber does not process.
-/
namespace PhotonRing.Event.Attended

open Lib Event.World Backpressure Exclusive

variable {τ : Type} {cfg : Config} {r r' : EventRing τ} {t t' : Trackers} {p p' : EventPublisher τ} {i : Nat}
  {s s' : EventSubscriber τ} {w w' : World τ} {a : Act τ} {factory : Nat → τ}

/-! ## What a step of the publisher can do -/

def lookOf : PubPc τ → Option Look
  | .room _ => some .room
  | .lock _ => some .lock
  | .scan _ todo _ min any => some (.scan todo min any)
  | .loadTracker _ i todo _ min any => some (.load i todo min any)
  | _ => none

/-- Own steps until the call is over, from the closure on. -/
def writeLeft : PubPc τ → Nat
  | .closure writes _ => writes.length + 2
  | .cursor => 1
  | _ => 0

/-- It looks for room, or comes nearer to the end of its call. -/
inductive Goes (cfg : Config) (t : Trackers) (p : EventPublisher τ) : EventPublisher τ → Prop where
  | look {l : Look} {p' : EventPublisher τ} (hl : lookOf p.pc = some l)
      (hnext : l.Next p.seq cfg.capacity t (lookOf p'.pc)) (hseq : p'.seq = p.seq) : Goes cfg t p p'
  | write {p' : EventPublisher τ} (hpc : lookOf p.pc = none)
      (hnext : p'.pc = .idle ∨ lookOf p'.pc = none ∧ writeLeft p'.pc < writeLeft p.pc) : Goes cfg t p p'

/-- `try_publish` gives up, and `publish` looks again. -/
theorem Goes.full {min : Nat} {c : Call τ} {q : EventPublisher τ} (hl : lookOf p.pc = some (.scan [] min true))
    (hfull : u64 (min + cfg.capacity) ≤ p.seq) (hq : q.seq = p.seq) : Goes cfg t p (q.full c) := by
  unfold EventPublisher.full
  split_ifs
  · exact .look hl (.full hfull) hq
  · exact .look hl (.returns min true) hq

theorem pub_goes (h : p.step cfg r t = some (r', t', p')) : Goes cfg t p p' := by
  unfold EventPublisher.step at h
  split at h
  case h_1 => cases h
  case h_2 c hpc =>
    split at h <;> cases h
    · exact .look (by rw [hpc]; rfl) .stale rfl
    · exact .look (by rw [hpc]; rfl) .trust rfl
  case h_3 c hpc =>
    split at h <;> cases h
    exact .look (by rw [hpc]; rfl) .lock rfl
  case h_4 c j todo kept min any hpc =>
    have hl : lookOf p.pc = some (.scan (j :: todo) min any) := by rw [hpc]; rfl
    split at h <;> cases h
    · exact .look hl (.alive todo min any ‹_›) rfl
    · exact .look hl (.dead todo min any ‹_›) rfl
  case h_5 c kept min any hpc =>
    have hl : lookOf p.pc = some (.scan [] min any) := by rw [hpc]; rfl
    dsimp only at h
    split at h
    · rename_i hany
      subst hany
      split at h <;> cases h
      · exact .full hl ‹_› rfl
      · exact .look hl (.returns min true) rfl
    · cases h
      exact .look hl (.returns min any) rfl
  case h_6 c j todo kept m any hpc =>
    cases h
    have hmin : min m (t.value j) = if t.value j < m then t.value j else m := by
      split_ifs <;> omega
    refine .look (l := .load j todo m any) (by rw [hpc]; rfl) ?_ rfl
    change Look.Next _ _ _ _ (some (.scan todo (min m (t.value j)) true))
    rw [hmin]
    exact .load j todo m any
  case h_7 f fs panics hpc =>
    cases h
    exact .write (by rw [hpc]; rfl) (Or.inr ⟨rfl, by rw [hpc]; simp [writeLeft]⟩)
  case h_8 hpc =>
    cases h
    exact .write (by rw [hpc]; rfl) (Or.inl rfl)
  case h_9 hpc =>
    cases h
    exact .write (by rw [hpc]; rfl) (Or.inr ⟨rfl, by rw [hpc]; simp [writeLeft]⟩)
  case h_10 hpc =>
    cases h
    exact .write (by rw [hpc]; rfl) (Or.inl rfl)

theorem Goes.writes (h : Goes cfg t p p') (hnone : lookOf p.pc = none) :
    p'.pc = .idle ∨ lookOf p'.pc = none ∧ writeLeft p'.pc < writeLeft p.pc := by
  cases h with
  | look hl _ _ =>
    rw [hnone] at hl
    cases hl
  | write _ hnext => exact hnext

theorem Goes.looks {l : Look} (h : Goes cfg t p p') (hl : lookOf p.pc = some l) :
    l.Next p.seq cfg.capacity t (lookOf p'.pc) := by
  cases h with
  | look hl' hnext _ =>
    obtain rfl := Option.some.inj (hl.symm.trans hl')
    exact hnext
  | write hnone _ =>
    rw [hnone] at hl
    cases hl

theorem pub_moves (hbusy : p.pc ≠ .idle) (hfree : ∀ c, p.pc = .lock c → t.locked = false) :
    ∃ x, p.step cfg r t = some x := by
  unfold EventPublisher.step
  cases hpc : p.pc with
  | idle => exact absurd hpc hbusy
  | room c => dsimp only; split_ifs <;> exact ⟨_, rfl⟩
  | lock c => exact ⟨_, if_neg (by rw [hfree c hpc]; exact Bool.false_ne_true)⟩
  | scan c todo kept min any => cases todo <;> dsimp only <;> split_ifs <;> exact ⟨_, rfl⟩
  | loadTracker c j todo kept min any => exact ⟨_, rfl⟩
  | closure ws panics =>
    cases ws with
    | nil => cases panics <;> exact ⟨_, rfl⟩
    | cons f fs => exact ⟨_, rfl⟩
  | cursor => exact ⟨_, rfl⟩

/-! ## The tracker lock -/

/-- Whoever has set the lock flag is still there. -/
def Locked (w : World τ) : Prop :=
  Held w.trackers.locked ((gateOf w.publisher).inside fun i => holdsLock (w.subs i).pc = true)

theorem pub_locked (h : p.step cfg r t = some (r', t', p')) (hl : t'.locked = true) :
    (scanOf p'.pc).isSome = true ∨ t.locked = true ∧ scanOf p.pc = none := by
  unfold EventPublisher.step at h
  split at h
  case h_1 => cases h
  case h_2 c hpc =>
    refine Or.inr ⟨?_, by rw [hpc]; rfl⟩
    split at h <;> cases h <;> exact hl
  case h_3 c hpc =>
    split at h <;> cases h
    exact Or.inl rfl
  case h_4 c j todo kept min any hpc =>
    split at h <;> cases h <;> exact Or.inl rfl
  case h_5 c kept min any hpc =>
    dsimp only at h
    split at h
    · split at h <;> cases h <;> cases hl
    · cases h
      cases hl
  case h_6 hpc =>
    cases h
    exact Or.inl rfl
  case h_7 hpc | h_8 hpc | h_9 hpc | h_10 hpc =>
    cases h
    exact Or.inr ⟨hl, by rw [hpc]; rfl⟩

theorem sub_locked (h : s.step cfg r t i = some (t', s')) (hl : t'.locked = true) :
    holdsLock s'.pc = true ∨ t.locked = true ∧ holdsLock s.pc = false := by
  unfold EventSubscriber.step at h
  split at h
  case h_1 | h_5 | h_12 => cases h
  case h_2 hpc =>
    split at h <;> cases h
    exact Or.inl rfl
  case h_3 hpc =>
    cases h
    exact Or.inl rfl
  case h_4 hpc =>
    cases h
    cases hl
  case h_6 hpc =>
    refine Or.inr ⟨?_, by rw [hpc]; rfl⟩
    split at h <;> cases h <;> exact hl
  case h_7 hpc | h_8 hpc | h_9 hpc | h_10 hpc | h_11 hpc =>
    cases h
    exact Or.inr ⟨hl, by rw [hpc]; rfl⟩

/-- All that a label can do. -/
inductive Moved (cfg : Config) (w : World τ) : Act τ → World τ → Prop where
  | pubCall {c : Call τ} (hidle : w.publisher.pc = .idle) :
      Moved cfg w (.pubCall c) { w with publisher := { w.publisher with pc := .room c } }
  | pub {r : EventRing τ} {t : Trackers} {p : EventPublisher τ}
      (hp : w.publisher.step cfg w.ring w.trackers = some (r, t, p)) :
      Moved cfg w .pub { w with ring := r, trackers := t, publisher := p }
  | subscribe {i : Nat} (hs : (w.subs i).pc = .absent) :
      Moved cfg w (.subscribe i) (w.setSub i { w.subs i with pc := .lock })
  | subCall {i : Nat} {c : SubCall} {pc : SubPc} (hs : (w.subs i).pc = .idle)
      (hpc : (∃ reads panics, pc = .head reads panics) ∨ pc = .pending) :
      Moved cfg w (.subCall i c) (w.setSub i { w.subs i with pc := pc })
  | sub {i : Nat} {t : Trackers} {s : EventSubscriber τ}
      (hs : (w.subs i).step cfg w.ring w.trackers i = some (t, s)) :
      Moved cfg w (.sub i) ({ w with trackers := t }.setSub i s)
  | drop {i : Nat} (hs : (w.subs i).pc = .idle) :
      Moved cfg w (.drop i) ({ w with trackers := { w.trackers with
        strong := Function.update w.trackers.strong i 0 } }.setSub i { w.subs i with pc := .dropped })

theorem step_moved (h : step cfg w a = some w') : Moved cfg w a w' := by
  cases a with
  | pubCall c =>
    obtain ⟨p, hp, rfl⟩ := Option.map_eq_some_iff.mp h
    unfold EventPublisher.call at hp
    split at hp <;> cases hp
    exact .pubCall ‹_›
  | pub =>
    obtain ⟨⟨r, t, p⟩, hp, rfl⟩ := Option.map_eq_some_iff.mp h
    exact .pub hp
  | subscribe i =>
    obtain ⟨s, hs, rfl⟩ := Option.map_eq_some_iff.mp h
    unfold EventSubscriber.subscribe at hs
    split at hs <;> cases hs
    exact .subscribe ‹_›
  | subCall i c =>
    obtain ⟨s, hs, rfl⟩ := Option.map_eq_some_iff.mp h
    unfold EventSubscriber.call at hs
    split at hs <;> cases hs
    · exact .subCall ‹_› (Or.inl ⟨_, _, rfl⟩)
    · exact .subCall ‹_› (Or.inr rfl)
  | sub i =>
    obtain ⟨⟨t, s⟩, hs, rfl⟩ := Option.map_eq_some_iff.mp h
    exact .sub hs
  | drop i =>
    obtain ⟨⟨t, s⟩, hs, rfl⟩ := Option.map_eq_some_iff.mp h
    unfold EventSubscriber.drop at hs
    split at hs <;> cases hs
    exact .drop ‹_›

/-- A subscriber moves. -/
theorem Locked.sub (hw : Locked w) {t : Trackers}
    (hi : t.locked = true → holdsLock s'.pc = true ∨ w.trackers.locked = true ∧ holdsLock (w.subs i).pc = false) :
    Locked ({ w with trackers := t }.setSub i s') := by
  refine Gate.reader_held (i := i) hw (fun j hj hin => ?_) fun hl => ?_
  · rw [setSub_ne _ s' hj]
    exact hin
  · rw [setSub_self]
    exact (hi hl).imp_right fun ⟨hlock, hnot⟩ => ⟨hlock, by rw [hnot]; exact Bool.false_ne_true⟩

theorem step_locked (h : step cfg w a = some w') (hw : Locked w) : Locked w' := by
  cases step_moved h with
  | pubCall hidle =>
    refine Gate.writer_held hw fun hl => Or.inr ⟨hl, ?_⟩
    change scanOf w.publisher.pc = none
    rw [hidle]
    rfl
  | pub hp => exact Gate.writer_held hw (pub_locked hp)
  | sub hs => exact hw.sub (sub_locked hs)
  | subscribe hs | subCall hs _ => exact hw.sub (t := w.trackers) fun hl => Or.inr ⟨hl, by rw [hs]; rfl⟩
  | drop hs => exact hw.sub fun hl => Or.inr ⟨hl, by rw [hs]; rfl⟩

theorem reach_locked (h : Reach cfg factory w) : Locked w := by
  induction h with
  | start => exact fun hl => by cases hl
  | next _ ha ih => exact step_locked ha ih

/-! ## A subscriber that keeps processing -/

/-- The program points of a subscriber that calls `process` only, with closures that return. -/
def Processing : SubPc → Prop
  | .idle => True
  | .head _ panics => panics = false
  | .borrow _ panics => panics = false
  | .store => True
  | _ => False

instance : DecidablePred Processing
  | .idle => inferInstanceAs (Decidable True)
  | .head _ panics => inferInstanceAs (Decidable (panics = false))
  | .borrow _ panics => inferInstanceAs (Decidable (panics = false))
  | .store => inferInstanceAs (Decidable True)
  | .absent | .lock | .loadHead | .push _ | .pending | .dropped => inferInstanceAs (Decidable False)

theorem Processing.live {pc : SubPc} (h : Processing pc) : live pc = true := by
  cases pc <;> first | rfl | exact h.elim

theorem Processing.not_holds {pc : SubPc} (h : Processing pc) : holdsLock pc = false := by
  cases pc <;> first | rfl | exact h.elim

/-- Own steps until the message is used up, if there is one. -/
def processLeft : SubPc → Nat
  | .head reads _ => reads + 3
  | .borrow reads _ => reads + 2
  | .store => 1
  | _ => 0

/-- What it is about to store is the position after a message. -/
def Storing (w : World τ) : Prop := ∀ i, (w.subs i).pc = .store → 0 < (w.subs i).cursor

theorem step_storing (h : step cfg w a = some w') (hl : messages w < 2 ^ 64) (hok : Ok cfg w) (hw : Storing w) :
    Storing w' := by
  have hset {t : Trackers} {j : Nat} {s : EventSubscriber τ} (hj : s.pc = .store → 0 < s.cursor) :
      Storing ({ w with trackers := t }.setSub j s) := by
    intro i hi
    by_cases he : i = j
    · subst he
      rw [setSub_self] at hi ⊢
      exact hj hi
    · rw [setSub_ne _ _ he] at hi ⊢
      exact hw i hi
  cases step_moved h with
  | pubCall _ => exact hw
  | pub _ => exact hw
  | subscribe _ => exact hset (t := w.trackers) fun hpc => by cases hpc
  | subCall _ hpc =>
    refine hset (t := w.trackers) fun hstore => ?_
    rcases hpc with ⟨reads, panics, rfl⟩ | rfl <;> cases hstore
  | drop _ => exact hset fun hpc => by cases hpc
  | @sub j t s hs =>
    refine hset fun hstore => ?_
    unfold EventSubscriber.step at hs
    split at hs
    case h_9 hpc =>
      cases hs
      have hlt := (hok.journals j).borrow 0 false hpc
      have hlen : w.ring.log.length < 2 ^ 64 := hl
      change 0 < u64 ((w.subs j).cursor + 1)
      rw [u64_of_lt (by omega)]
      exact Nat.succ_pos _
    all_goals (try split at hs) <;> cases hs <;> cases hstore

theorem reach_storing (h : Reach cfg factory w) (hl : messages w < 2 ^ 64) : Storing w :=
  (Reachable.invariant_below (P := fun w => Ok cfg w ∧ Storing w) messages (2 ^ 64) (fun _ _ _ hs => step_log_le hs)
    ⟨ok_new cfg factory, fun _ hpc => by cases hpc⟩
    (fun _ _ _ hs hlt hw => ⟨step_ok hs hlt hw.1, step_storing hs ((step_log_le hs).trans_lt hlt) hw.1 hw.2⟩) h hl).2

/-- With a message before it, every step brings it nearer to a later position. -/
theorem step_value (h : s.step cfg r t i = some (t', s')) (hs : Processing s.pc) (hv : t.value i = settled s)
    (hstore : s.pc = .store → 0 < s.cursor) (hcur : t.value i < startOf r.cursor) :
    t.value i < t'.value i ∨ t'.value i = t.value i ∧ s'.pc ≠ .idle ∧ processLeft s'.pc < processLeft s.pc := by
  unfold EventSubscriber.step at h
  split at h
  case h_6 reads panics hpc =>
    have hset : settled s = s.cursor := by unfold settled; rw [if_neg (by rw [hpc]; simp)]
    have hwait : ¬ (r.cursor = u64Max ∨ r.cursor < s.cursor) := by
      unfold startOf at hcur
      have := u64_le (r.cursor + 1)
      split_ifs at hcur <;> omega
    rw [if_neg hwait] at h
    cases h
    exact Or.inr ⟨rfl, by simp, by rw [hpc]; exact Nat.lt_succ_self _⟩
  case h_7 reads panics hpc =>
    cases h
    exact Or.inr ⟨rfl, by simp, by rw [hpc]; exact Nat.lt_succ_self _⟩
  case h_8 hpc =>
    rw [hpc] at hs
    cases hs
  case h_9 hpc =>
    cases h
    exact Or.inr ⟨rfl, by simp, by rw [hpc]; exact Nat.lt_succ_self _⟩
  case h_10 hpc =>
    cases h
    have hpos := hstore hpc
    have hset : settled s = s.cursor - 1 := by unfold settled; rw [if_pos hpc]
    refine Or.inl ?_
    change t.value i < Function.update t.value i s.cursor i
    rw [Function.update_self]
    omega
  case h_5 | h_12 => cases h
  case h_1 hpc | h_2 hpc | h_3 hpc | h_4 hpc | h_11 hpc =>
    rw [hpc] at hs
    cases hs

/-- The publisher stores to no tracker and holds none. -/
theorem pub_trackers (h : p.step cfg r t = some (r', t', p')) : t'.value = t.value ∧ t'.strong = t.strong := by
  unfold EventPublisher.step at h
  split at h <;> (try dsimp only at h) <;> (try split at h) <;> (try split at h) <;> cases h <;> exact ⟨rfl, rfl⟩

/-- A subscriber that keeps processing moves by its own steps, and otherwise only begins a call. -/
theorem step_member (h : step cfg w a = some w') (i : Nat) :
    (a = .sub i ∧ (w.subs i).step cfg w.ring w.trackers i = some (w'.trackers, w'.subs i)) ∨
    (a ≠ .sub i ∧ w'.trackers.value i = w.trackers.value i ∧
      ((w'.subs i).pc = (w.subs i).pc ∨ (w.subs i).pc = .idle ∨ (w.subs i).pc = .absent)) := by
  cases step_moved h with
  | pubCall _ => exact Or.inr ⟨by simp, rfl, Or.inl rfl⟩
  | pub hp => exact Or.inr ⟨by simp, by rw [(pub_trackers hp).1], Or.inl rfl⟩
  | @sub j t s hs =>
    by_cases hj : i = j
    · subst hj
      exact Or.inl ⟨rfl, by rw [setSub_self]; exact hs⟩
    · refine Or.inr ⟨fun he => hj (Act.sub.inj he).symm, ((step_trackers hs).others hj).1, Or.inl ?_⟩
      rw [setSub_ne _ _ hj]
  | @subscribe j hs | @subCall j c pc hs _ | @drop j hs =>
    refine Or.inr ⟨by simp, rfl, ?_⟩
    by_cases hj : i = j
    · subst hj
      simp [hs]
    · rw [setSub_ne _ _ hj]
      exact Or.inl rfl

theorem step_start (h : step cfg w a = some w') (hs : Processing (w.subs i).pc) :
    (w'.subs i).start = (w.subs i).start := by
  cases step_moved h with
  | pubCall _ => rfl
  | pub _ => rfl
  | @sub j t s hstep =>
    by_cases hj : i = j
    · subst hj
      rw [setSub_self]
      unfold EventSubscriber.step at hstep
      split at hstep
      case h_4 hpc =>
        rw [hpc] at hs
        exact hs.elim
      all_goals (try split at hstep) <;> cases hstep <;> rfl
    · rw [setSub_ne _ _ hj]
  | @subscribe j _ | @subCall j c pc _ _ | @drop j _ =>
    by_cases hj : i = j
    · subst hj
      rw [setSub_self]
    · rw [setSub_ne _ _ hj]

/-- The tracker of a subscriber that is gone stays without a reference. -/
theorem step_gone (h : step cfg w a = some w') (hi : w.trackers.strong i = 0)
    (hpush : holdsLock (w.subs i).pc = false) : w'.trackers.strong i = 0 := by
  cases step_moved h with
  | pub hp => rw [(pub_trackers hp).2, hi]
  | @sub j t s hs =>
    by_cases hj : i = j
    · subst hj
      change t.strong i = 0
      cases step_trackers hs with
      | push hpc _ =>
        rw [hpc] at hpush
        cases hpush
      | drop _ => exact Function.update_self ..
      | _ => exact hi
    · rw [← hi]
      exact ((step_trackers hs).others hj).2.1
  | @drop j hs =>
    change Function.update w.trackers.strong j 0 i = 0
    by_cases hj : i = j
    · rw [hj, Function.update_self]
    · rw [Function.update_of_ne hj, hi]
  | _ => exact hi

/-! ## Executions -/

/-- A subscriber that keeps processing: as long as a message waits for it, its thread gets
another turn. -/
structure Member (e : Execution (step (τ := τ) cfg)) (i : Nat) : Prop where
  processing : ∀ k, Processing ((e.state k).subs i).pc
  turns : ∀ k, (e.state k).trackers.value i < startOf (e.state k).ring.cursor → ∃ m ≥ k, e.act m = .sub i

/-- An event ring from some point on at which nobody joins or leaves: all registered trackers
belong to members that keep processing, or to subscribers that are gone already. -/
structure Attends (cfg : Config) (factory : Nat → τ) (e : Execution (step (τ := τ) cfg)) (members : Finset Nat) :
    Prop where
  reach : Reach cfg factory (e.state 0)
  limit : ∀ k, messages (e.state k) < 2 ^ 63
  fits : cfg.capacity ≤ 2 ^ 63
  fair : e.Fair .pub
  still : ∀ k i, holdsLock ((e.state k).subs i).pc = false
  registered : ∀ k, ∀ i ∈ (e.state k).trackers.registered, i ∈ members ∨ (e.state 0).trackers.strong i = 0
  members : ∀ i ∈ members, Member e i

section Attends

variable {e : Execution (step (τ := τ) cfg)} {members : Finset Nat} {k : Nat}

theorem Attends.short (h : Attends cfg factory e members) (m : Nat) : messages (e.state m) < 2 ^ 64 :=
  (h.limit m).trans (by decide)

theorem Attends.ok (h : Attends cfg factory e members) (m : Nat) : Ok cfg (e.state m) :=
  reach_ok (e.reachable h.reach m) (h.short m)

theorem Attends.startOf_cursor (h : Attends cfg factory e members) (m : Nat) :
    startOf (e.state m).ring.cursor = messages (e.state m) := by
  rw [(h.ok m).cursor]
  exact startOf_expectedCursor (h.short m)

/-- One step of a member: its tracker moves on, or stays as its program point tells. -/
theorem Attends.member_next (h : Attends cfg factory e members) (hi : i ∈ members) (m : Nat)
    (hlt : (e.state m).trackers.value i < messages (e.state m)) :
    (e.act m = .sub i ∧ ((e.state m).trackers.value i < (e.state (m + 1)).trackers.value i ∨
      (e.state (m + 1)).trackers.value i = (e.state m).trackers.value i ∧ ((e.state (m + 1)).subs i).pc ≠ .idle ∧
        processLeft ((e.state (m + 1)).subs i).pc < processLeft ((e.state m).subs i).pc)) ∨
    (e.act m ≠ .sub i ∧ (e.state (m + 1)).trackers.value i = (e.state m).trackers.value i ∧
      (((e.state (m + 1)).subs i).pc = ((e.state m).subs i).pc ∨ ((e.state m).subs i).pc = .idle)) := by
  have hproc := (h.members i hi).processing m
  rcases step_member (e.next m) i with ⟨ha, hs⟩ | ⟨ha, hval, hpc⟩
  · refine Or.inl ⟨ha, step_value hs hproc ?_ (reach_storing (e.reachable h.reach m) (h.short m) i) ?_⟩
    · exact (((h.ok m).seats i).registered hproc.live).1
    · rw [h.startOf_cursor m]
      exact hlt
  · refine Or.inr ⟨ha, hval, hpc.imp_right fun hpc => hpc.resolve_right fun habsent => ?_⟩
    rw [habsent] at hproc
    exact hproc

theorem Attends.value_le (h : Attends cfg factory e members) (hi : i ∈ members) (m : Nat) :
    (e.state m).trackers.value i ≤ (e.state (m + 1)).trackers.value i := by
  have hproc := (h.members i hi).processing m
  have hval := (((h.ok m).seats i).registered hproc.live).1
  rcases step_member (e.next m) i with ⟨_, hs⟩ | ⟨_, hsame, _⟩
  · have hmove := step_trackers hs
    revert hmove
    generalize (e.state (m + 1)).trackers = t'
    intro hmove
    cases hmove with
    | push hpc _ =>
      rw [hpc] at hproc
      exact hproc.elim
    | store hpc _ =>
      rw [hval]
      change settled ((e.state m).subs i) ≤ Function.update (e.state m).trackers.value i ((e.state m).subs i).cursor i
      rw [Function.update_self]
      unfold settled
      rw [if_pos hpc]
      exact Nat.sub_le _ _
    | _ => exact Nat.le_refl _
  · exact hsame.ge

theorem Attends.gone (h : Attends cfg factory e members) (hi : (e.state 0).trackers.strong i = 0) (m : Nat) :
    (e.state m).trackers.strong i = 0 :=
  Execution.stays (P := fun m => (e.state m).trackers.strong i = 0) hi
    (fun m _ ih => step_gone (e.next m) ih (h.still m i)) m (Nat.zero_le m)

/-- A member for which a message waits uses up the next one, once nothing is published any more. -/
theorem Attends.advances (h : Attends cfg factory e members) (hi : i ∈ members)
    (hset : ∀ m ≥ k, messages (e.state m) = messages (e.state k))
    (hlt : (e.state k).trackers.value i < messages (e.state k)) :
    ∃ m ≥ k, (e.state k).trackers.value i < (e.state m).trackers.value i := by
  generalize hv : (e.state k).trackers.value i = v at hlt
  have hwaits {m : Nat} (hm : m ≥ k) (hval : (e.state m).trackers.value i = v) :
      (e.state m).trackers.value i < messages (e.state m) := by rw [hval, hset m hm]; exact hlt
  by_contra hnever
  have hstays : ∀ m ≥ k, (e.state m).trackers.value i = v := by
    refine Execution.stays hv fun m hm hval => ?_
    have hle := h.value_le hi m
    have hnot : ¬ v < (e.state (m + 1)).trackers.value i := fun hmove => hnever ⟨m + 1, by omega, hmove⟩
    omega
  have hturn {m : Nat} (hm : m ≥ k) : ∃ j ≥ m, e.act j = .sub i := by
    apply (h.members i hi).turns
    rw [h.startOf_cursor m]
    exact hwaits hm (hstays m hm)
  -- at its next turn it is inside a call, and the rest of the call uses up the message
  obtain ⟨j, hj, ha⟩ := hturn (Nat.le_refl k)
  have hin {m : Nat} (hm : m ≥ k) (ha : e.act m = .sub i) : ((e.state (m + 1)).subs i).pc ≠ .idle := by
    rcases h.member_next hi m (hwaits hm (hstays m hm)) with ⟨_, hmove | ⟨_, hne, _⟩⟩ | ⟨hne, _⟩
    · rw [hstays m hm, hstays (m + 1) (by omega)] at hmove
      exact absurd hmove (Nat.lt_irrefl v)
    · exact hne
    · exact absurd ha hne
  refine not_of_rank (fun m => e.act m = .sub i) (fun m => ((e.state m).subs i).pc ≠ .idle)
    (fun m => processLeft ((e.state m).subs i).pc) (k := j + 1) ?_ ?_ ?_ (hin hj ha)
  · exact fun m hm _ => hturn (by omega)
  · intro m hm hne hown
    have hmk : m ≥ k := by omega
    rcases h.member_next hi m (hwaits hmk (hstays m hmk)) with ⟨_, hmove | ⟨_, hnext⟩⟩ | ⟨hno, _⟩
    · rw [hstays m hmk, hstays (m + 1) (by omega)] at hmove
      exact absurd hmove (Nat.lt_irrefl v)
    · exact hnext
    · exact absurd hown hno
  · intro m hm hne hown
    have hmk : m ≥ k := by omega
    rcases h.member_next hi m (hwaits hmk (hstays m hmk)) with ⟨hyes, _⟩ | ⟨_, _, hpc | hidle⟩
    · exact absurd hyes hown
    · rw [hpc]
      exact ⟨hne, Nat.le_refl _⟩
    · exact absurd hidle hne

theorem Attends.settles (h : Attends cfg factory e members) :
    ∃ k, ∀ m ≥ k, messages (e.state m) = messages (e.state k) :=
  Execution.settles (fun m => step_log_le (e.next m)) h.limit

/-- The members process everything. -/
theorem Attends.catch_up (h : Attends cfg factory e members)
    (hset : ∀ m ≥ k, messages (e.state m) = messages (e.state k)) :
    ∀ᶠ m in Filter.atTop, ∀ i ∈ members, messages (e.state k) ≤ (e.state m).trackers.value i := by
  have hmono : ∀ i ∈ members, Monotone fun m => (e.state m).trackers.value i :=
    fun i hi => monotone_nat_of_le_succ (h.value_le hi)
  refine Lib.catch_up (k := k) members (fun _ => 0) hmono fun i hi j hj hlt _ => ?_
  have hset' : ∀ m ≥ j, messages (e.state m) = messages (e.state j) := fun m hm => by
    rw [hset m (hj.trans hm), hset j hj]
  rw [← hset j hj] at hlt
  exact h.advances hi hset' hlt

/-- A publisher in a call gets its turn: nobody else holds the tracker lock. -/
theorem Attends.turn (h : Attends cfg factory e members) (hbusy : ∀ m ≥ k, (e.state m).publisher.pc ≠ .idle) :
    ∃ m ≥ k, e.act m = .pub := by
  refine h.fair k fun m hm hnone => ?_
  have hfree (c : Call τ) (hpc : (e.state m).publisher.pc = .lock c) : (e.state m).trackers.locked = false := by
    by_contra hlock
    obtain ⟨x, hx⟩ := reach_locked (e.reachable h.reach m) (Bool.eq_true_of_not_eq_false hlock)
    cases x with
    | none =>
      have hscan : (scanOf (e.state m).publisher.pc).isSome = true := hx
      rw [hpc] at hscan
      cases hscan
    | some j => exact absurd ((h.still m j).symm.trans hx) Bool.false_ne_true
  have hmoves : ∃ x, (e.state m).publisher.step cfg (e.state m).ring (e.state m).trackers = some x :=
    pub_moves (hbusy m hm) hfree
  obtain ⟨x, hx⟩ := hmoves
  simp [step, hx] at hnone

/-- What one step does to a publisher inside a call. -/
theorem goes_of_busy (m : Nat) (hbusy : (e.state m).publisher.pc ≠ .idle) :
    (e.act m = .pub ∧ Goes cfg (e.state m).trackers (e.state m).publisher (e.state (m + 1)).publisher) ∨
    (e.act m ≠ .pub ∧ (e.state (m + 1)).publisher = (e.state m).publisher) := by
  have hmoved := step_moved (e.next m)
  generalize e.act m = a at hmoved ⊢
  generalize e.state (m + 1) = w' at hmoved ⊢
  cases hmoved with
  | pubCall hidle => exact absurd hidle hbusy
  | pub hp => exact Or.inl ⟨rfl, pub_goes hp⟩
  | _ => exact Or.inr ⟨by simp, rfl⟩

/-- Whatever the closure does, the call is over soon after it. -/
theorem Attends.closure_ends (h : Attends cfg factory e members)
    (hbusy : ∀ m ≥ k, (e.state m).publisher.pc ≠ .idle) : ∀ m ≥ k, ∃ l, lookOf (e.state m).publisher.pc = some l := by
  intro m hm
  cases hl : lookOf (e.state m).publisher.pc with
  | some l => exact ⟨l, rfl⟩
  | none =>
    refine absurd hl (not_of_rank (fun j => e.act j = .pub) (fun j => lookOf (e.state j).publisher.pc = none)
      (fun j => writeLeft (e.state j).publisher.pc) ?_ ?_ ?_)
    · exact fun j hj _ => h.turn fun i hi => hbusy i (by omega)
    · intro j hj hnone hown
      rcases goes_of_busy j (hbusy j (by omega)) with ⟨_, hgoes⟩ | ⟨hno, _⟩
      · rcases hgoes.writes hnone with hidle | hnext
        · exact absurd hidle (hbusy (j + 1) (by omega))
        · exact hnext
      · exact absurd hown hno
    · intro j hj hnone hown
      rcases goes_of_busy j (hbusy j (by omega)) with ⟨hyes, _⟩ | ⟨_, hsame⟩
      · exact absurd hyes hown
      · rw [hsame]
        exact ⟨hnone, Nat.le_refl _⟩

/-- A waiting publisher finds room once the members have processed what there is. -/
theorem Attends.publish_returns (h : Attends cfg factory e members) (k : Nat) :
    ∃ m ≥ k, (e.state m).publisher.pc = .idle := by
  by_contra hnever
  obtain ⟨k₀, hset⟩ := h.settles
  obtain ⟨k₁, hup⟩ := Filter.eventually_atTop.mp (h.catch_up hset)
  obtain ⟨j, hj, hj₀, hj₁⟩ : ∃ j, k ≤ j ∧ k₀ ≤ j ∧ k₁ ≤ j := ⟨max k (max k₀ k₁), by omega, by omega, by omega⟩
  have hbusy : ∀ m ≥ j, (e.state m).publisher.pc ≠ .idle := fun m hm he => hnever ⟨m, hj.trans hm, he⟩
  have hlooking := h.closure_ends hbusy
  have hlooks : Look.Looks (fun m => lookOf (e.state m).publisher.pc) (fun m => (e.state m).trackers)
      (fun m => e.act m = .pub) (messages (e.state k₀)) cfg.capacity j := by
    refine ⟨fun j' hj' _ => h.turn fun m hm => hbusy m (hj'.trans hm), fun m hm l hl ha => ?_, fun m hm ha _ => ?_⟩
    · rcases goes_of_busy m (hbusy m hm) with ⟨_, hgoes⟩ | ⟨hne, _⟩
      · rw [← hset m (hj₀.trans hm)]
        have hnext := hgoes.looks hl
        rwa [(h.ok m).seq] at hnext
      · exact absurd ha hne
    · rcases goes_of_busy m (hbusy m hm) with ⟨ha', _⟩ | ⟨_, hpub⟩
      · exact absurd ha' ha
      · exact congrArg (fun p => lookOf p.pc) hpub
  have hfits := h.fits
  obtain ⟨m, hm, hnone⟩ := hlooks.returns cfg.capacity_pos (by omega) (h.limit k₀) fun m hm i hi => by
    refine (h.registered m i hi).imp (fun hmem j' hj' => ?_) (fun hgone j' _ => h.gone hgone j')
    exact ⟨hup j' (hj₁.trans hj') i hmem, ((h.ok j').values i).trans_lt (h.limit j')⟩
  obtain ⟨l, hl⟩ := hlooking m hm
  rw [hnone] at hl
  cases hl

/-- Every message is processed by every member that had started by then. -/
theorem Attends.processes (h : Attends cfg factory e members) (hi : i ∈ members) {q : Nat}
    (hq : q < messages (e.state k)) (hstart : ((e.state k).subs i).start ≤ q) :
    ∃ m ≥ k, q ∈ ((e.state m).subs i).processed := by
  obtain ⟨k₀, hset⟩ := h.settles
  obtain ⟨k₁, hup⟩ := Filter.eventually_atTop.mp (h.catch_up hset)
  obtain ⟨m, hm, hm₀, hm₁⟩ : ∃ m, k ≤ m ∧ k₀ ≤ m ∧ k₁ ≤ m := ⟨max k (max k₀ k₁), by omega, by omega, by omega⟩
  have hfrom : ∀ m ≥ k, ((e.state m).subs i).start = ((e.state k).subs i).start :=
    Execution.stays rfl fun j _ hj => (step_start (e.next j) ((h.members i hi).processing j)).trans hj
  have hjournal := (h.ok m).journals i
  have hval := (((h.ok m).seats i).registered ((h.members i hi).processing m).live).1
  have hpast : q < ((e.state m).subs i).cursor := by
    have hlen : messages (e.state k) ≤ messages (e.state m) :=
      Execution.le_of_le (fun m => step_log_le (e.next m)) hm
    rw [hset m hm₀] at hlen
    have hle : settled ((e.state m).subs i) ≤ ((e.state m).subs i).cursor := by unfold settled; split <;> omega
    have := hup m hm₁ i hi
    omega
  refine ⟨m, hm, ?_⟩
  rw [hjournal.processed, List.mem_range'_1, hfrom m hm]
  omega

/-- As long as its subscribers keep processing, every call of the publisher comes to an end, and
every subscriber processes every message from its start on. -/
theorem attended_ring_lives (h : Attends cfg factory e members) :
    (∀ k, ∃ m ≥ k, (e.state m).publisher.pc = .idle) ∧
    ∀ i ∈ members, ∀ k q, q < messages (e.state k) → ((e.state k).subs i).start ≤ q →
      ∃ m ≥ k, q ∈ ((e.state m).subs i).processed :=
  ⟨h.publish_returns, fun _ hi _ _ hq hstart => h.processes hi hq hstart⟩

end Attends

/-! ## A group of two, and one that left -/

def turnOf : Act τ → Option Nat
  | .sub i => some i
  | _ => none

/-- The subscriber that a label is about. -/
def subOf : Act τ → Option Nat
  | .subscribe i => some i
  | .subCall i _ => some i
  | .sub i => some i
  | .drop i => some i
  | _ => none

theorem step_elsewhere (h : step cfg w a = some w') (ha : subOf a ≠ some i) : w'.subs i = w.subs i := by
  cases step_moved h with
  | pubCall _ => rfl
  | pub _ => rfl
  | _ => exact setSub_ne _ _ fun he => ha (congrArg some he.symm)

theorem run_elsewhere {as : List (Act τ)} (h : run (step cfg) w as = some w') (has : ∀ a ∈ as, subOf a ≠ some i) :
    w'.subs i = w.subs i :=
  run_untouched (f := fun w => w.subs i) (fun a ha _ _ hs => step_elsewhere hs (has a ha)) h

/-- A call of `process` that finds nothing, after another one. -/
theorem poll_nothing (hpc : (w.subs i).pc = .idle) (hlast : (w.subs i).last = some .nothing)
    (hnone : w.ring.cursor < (w.subs i).cursor) :
    run (step cfg) w [.subCall i (.process 0 false), .sub i] = some w := by
  have hsame : { w.subs i with pc := .idle, last := some .nothing } = w.subs i := by rw [← hpc, ← hlast]
  simp [run, step, EventSubscriber.call, EventSubscriber.step, setSub, hpc, hnone, hsame]

/-- What `Attends` asks of one state, and of the labels still to come, of a ring with two members. -/
def Proper (w : World Nat) (rest : List (Act Nat)) : Prop :=
  messages w < 2 ^ 63 ∧ (∀ i ∈ w.trackers.registered, i ∈ Finset.range 2 ∨ i = 2) ∧
    ∀ i ∈ Finset.range 2, Processing (w.subs i).pc ∧
      (w.trackers.value i < startOf w.ring.cursor → some i ∈ rest.map turnOf)

instance (w : World Nat) (rest : List (Act Nat)) : Decidable (Proper w rest) := by
  unfold Proper
  infer_instance

def publishOf (v : Nat) : List (Act Nat) := .pubCall ⟨true, [fun _ => v], false⟩ :: List.replicate 4 .pub

def processBy (i : Nat) : List (Act Nat) := .subCall i (.process 1 false) :: List.replicate 4 (.sub i)

/-- The ring is full, and the third subscriber has gone without processing anything. -/
def filling : List (Act Nat) := List.flatten [
  .subscribe 0 :: List.replicate 3 (.sub 0), .subscribe 1 :: List.replicate 3 (.sub 1),
  .subscribe 2 :: List.replicate 3 (.sub 2), [.drop 2], publishOf 5, publishOf 6, publishOf 7,
  [.pubCall ⟨true, [fun _ => 8], false⟩, .pub, .pub]]

/-- What the first subscriber goes on with for ever. -/
def polling : List (Act Nat) := [.subCall 0 (.process 0 false), .sub 0]

def draining : List (Act Nat) := List.flatten [
  [.pub, .pub], processBy 0, List.replicate 4 .pub, processBy 1, processBy 0, processBy 1, List.replicate 10 .pub,
  processBy 0, processBy 0, processBy 1, processBy 1, polling]

/-- Where the states of an execution are proper, it attends to its two members. -/
theorem attends_of_proper {e : Execution (step (τ := Nat) three)} (h0 : Reach three (fun _ => 0) (e.state 0))
    (hfair : e.Fair .pub) (rest : Nat → List (Act Nat)) (hrest : ∀ k, Proper (e.state k) (rest k))
    (hcomes : ∀ k, ∀ a ∈ rest k, ∃ m ≥ k, e.act m = a) (hgone : (e.state 0).trackers.strong 2 = 0)
    (hstill : ∀ k, ∀ i ≥ 2, holdsLock ((e.state k).subs i).pc = false) :
    Attends three (fun _ => 0) e (Finset.range 2) where
  reach := h0
  limit k := (hrest k).1
  fits := by decide
  fair := hfair
  still k i := by
    by_cases h2 : i < 2
    · exact ((hrest k).2.2 i (Finset.mem_range.mpr h2)).1.not_holds
    · exact hstill k i (Nat.le_of_not_lt h2)
  registered k i hi := ((hrest k).2.1 i hi).imp_right fun he => by rw [he]; exact hgone
  members i hi :=
    { processing := fun k => ((hrest k).2.2 i hi).1
      turns := fun k hlt => by
        obtain ⟨a, ha, hturn⟩ := List.mem_map.mp (((hrest k).2.2 i hi).2 hlt)
        obtain rfl : a = .sub i := by
          cases a <;> cases hturn
          rfl
        exact hcomes k _ ha }

theorem exists_attends : ∃ e : Execution (step (τ := Nat) three), Attends three (fun _ => 0) e (Finset.range 2) ∧
    (e.state 0).publisher.pc ≠ .idle ∧ messages (e.state 0) = 3 ∧ ((e.state 0).subs 1).start = 0 := by
  have hrun : ((run (step three) (new fun _ => 0) filling).any fun w =>
      Execution.along (step three) (fun w rest => decide (Proper w rest)) w draining &&
        decide ((scanOf w.publisher.pc).isSome ∧ messages w = 3 ∧ (w.subs 1).start = 0 ∧ w.trackers.strong 2 = 0 ∧
          holdsLock (w.subs 2).pc = false) &&
        (run (step three) w draining).any fun w' =>
          Execution.along (step three) (fun w rest => decide (Proper w rest)) w' polling &&
            (step three w' .pub).isNone && decide ((w'.subs 0).pc = .idle ∧ (w'.subs 0).last = some .nothing ∧
              w'.ring.cursor < (w'.subs 0).cursor)) =
      true := by decide +kernel
  obtain ⟨w, hw, htest⟩ := (Option.any_eq_true _ _).mp hrun
  obtain ⟨⟨hproper, hstart⟩, hend⟩ := by simpa only [Bool.and_eq_true] using htest
  obtain ⟨hscan, hlen, hfirst, hgone, hleft⟩ := of_decide_eq_true hstart
  obtain ⟨w', hw', hlast⟩ := (Option.any_eq_true _ _).mp hend
  obtain ⟨⟨hagain, hpub⟩, hset⟩ := by simpa only [Bool.and_eq_true] using hlast
  obtain ⟨hidle, hnothing, hnone⟩ := of_decide_eq_true hset
  have hloop : run (step three) w' (.subCall 0 (.process 0 false) :: [.sub 0]) = some w' :=
    poll_nothing hidle hnothing hnone
  let e := Execution.ofLoop (.subCall 0 (.process 0 false)) [.sub 0] hw' hloop
  have hothers : ∀ k, ∀ i ≥ 2, (e.state k).subs i = w.subs i := by
    intro k i hi
    refine Execution.stays (P := fun k => (e.state k).subs i = w.subs i) rfl (fun m _ ih => ?_) k (Nat.zero_le k)
    rw [← ih]
    refine step_elsewhere (e.next m) fun ha => ?_
    have htwo : ∀ a ∈ Act.subCall 0 (.process 0 false) :: ([.sub 0] ++ draining), ∀ i ∈ subOf a, i < 2 := by decide
    have := htwo _ (Execution.ofLoop_act hw' hloop m) i ha
    omega
  refine ⟨e, ?_, fun hidle => ?_, hlen, hfirst⟩
  · refine attends_of_proper (Reachable.start.of_run hw)
      (Execution.ofLoop_fair hw' hloop (Option.isNone_iff_eq_none.mp hpub)) _
      (fun k => of_decide_eq_true (Execution.ofLoop_along hw' hloop hproper hagain k))
      (fun k a ha => Execution.ofLoop_comes hw' hloop ha) hgone fun k i hi => ?_
    rw [hothers k i hi]
    rcases Nat.lt_or_eq_of_le hi with hlt | rfl
    · have hthree : ∀ a ∈ filling, ∀ i ∈ subOf a, i < 3 := by decide
      rw [run_elsewhere hw fun a ha he => by have := hthree a ha i he; omega]
      rfl
    · exact hleft
  · change w.publisher.pc = .idle at hidle
    rw [hidle] at hscan
    cases hscan

/-- A publish into a full ring, begun before either subscriber has processed anything. -/
theorem attended_ring_lives_full : ∃ e : Execution (step (τ := Nat) three), (e.state 0).publisher.pc ≠ .idle ∧
    (∃ m, (e.state m).publisher.pc = .idle) ∧ ∃ m, 1 ∈ ((e.state m).subs 1).processed := by
  obtain ⟨e, h, hbusy, hlen, hstart⟩ := exists_attends
  obtain ⟨hidle, hprocessed⟩ := attended_ring_lives h
  obtain ⟨m, _, hm⟩ := hidle 0
  obtain ⟨m', _, hm'⟩ := hprocessed 1 (by decide) 0 1 (by rw [hlen]; decide) (by rw [hstart]; decide)
  exact ⟨e, hbusy, ⟨m, hm⟩, m', hm'⟩

end PhotonRing.Event.Attended
