import PhotonRing.HasRoom
import PhotonRing.Channel.Bounded
import PhotonRing.Channel.KeepUp
import PhotonRing.Channel.WaitFree

/-!
# A bounded channel whose subscribers keep receiving

A publisher that waits for room waits for the slowest tracker, and a gated subscriber waits
for its upstreams. Neither waits for ever: while the publisher waits the ring is at rest, so
the members of the group catch up one after the other, and then the next scan finds room.
-/
namespace PhotonRing.Attended

open Lib Reader World Bounded KeepUp

variable {n : Nat} {cfg : Config} {r r' : Ring n} {t t' : Trackers} {p p' : Publisher n} {i wm : Nat}
  {w w' : World n} {a : Act n}

/-! ## What a step of the publisher can do -/

def lookOf : PubPc n → Option Look
  | .room _ => some .room
  | .lock _ => some .lock
  | .scan _ todo _ min live => some (.scan todo min live)
  | .loadTracker _ i todo _ min live => some (.load i todo min live)
  | _ => none

/-- It writes a slot or announces it. -/
def Writes : PubPc n → Prop
  | .write _ _ _ => True
  | .cursor _ => True
  | _ => False

def partWritten : PubPc n → Nat
  | .write _ _ (.store off) => min off n + 1
  | .cursor _ => n + 2
  | _ => 0

/-- What the publisher has done to the ring so far. -/
def progress (p : Publisher n) : Nat := (n + 3) * p.seq + partWritten p.pc

/-- It looks for room, runs the closure, or does something to the ring. -/
inductive Goes (cfg : Config) (r : Ring n) (t : Trackers) (p : Publisher n) : Ring n → Publisher n → Prop where
  | look {l : Look} {p' : Publisher n} (hl : lookOf p.pc = some l)
      (hnext : l.Next p.seq cfg.effective t (lookOf p'.pc)) (hseq : p'.seq = p.seq) (hpart : partWritten p'.pc = 0) :
      Goes cfg r t p r p'
  | closure {f : Option (Value n)} {p' : Publisher n} (hpc : p.pc = .closure f)
      (hnew : p'.pc = .idle ∨ Writes p'.pc) (hseq : p'.seq = p.seq) (hpart : partWritten p'.pc = 0) :
      Goes cfg r t p r p'
  | write {r' : Ring n} {p' : Publisher n} (hpc : Writes p.pc) (hlt : progress p < progress p') : Goes cfg r t p r' p'

theorem Goes.enter {l : Look} {c : PubCall n} {q : Publisher n} (hl : lookOf p.pc = some l)
    (hnext : l.Next p.seq cfg.effective t none) (hq : q.seq = p.seq) : Goes cfg r t p r (q.enter c) := by
  have hout : lookOf (q.enter c).pc = none ∧ (q.enter c).seq = q.seq ∧ partWritten (q.enter c).pc = 0 := by
    unfold Publisher.enter
    split <;> exact ⟨rfl, rfl, rfl⟩
  obtain ⟨hnone, hseq, hpart⟩ := hout
  exact .look hl (by rw [hnone]; exact hnext) (hseq.trans hq) hpart

/-- `try_publish` gives up, and the others look again. -/
theorem Goes.full {min : Nat} {c : PubCall n} {q : Publisher n} (hl : lookOf p.pc = some (.scan [] min true))
    (hfull : u64 (min + cfg.effective) ≤ p.seq) (hq : q.seq = p.seq) : Goes cfg r t p r (q.full c) := by
  have hout : (lookOf (q.full c).pc = none ∨ lookOf (q.full c).pc = some .room) ∧
      (q.full c).seq = q.seq ∧ partWritten (q.full c).pc = 0 := by
    unfold Publisher.full
    split
    · exact ⟨Or.inl rfl, rfl, rfl⟩
    · exact ⟨Or.inr rfl, rfl, rfl⟩
  obtain ⟨hlook, hseq, hpart⟩ := hout
  refine .look hl ?_ (hseq.trans hq) hpart
  rcases hlook with hnone | hroom
  · rw [hnone]
    exact .returns min true
  · rw [hroom]
    exact .full hfull

theorem pub_goes (hseq : p.seq < seqLimit) (h : p.step cfg r t = some (r', t', p')) : Goes cfg r t p r' p' := by
  unfold Publisher.step at h
  split at h
  case h_1 => cases h
  case h_2 c hpc =>
    have hl : lookOf p.pc = some .room := by rw [hpc]; rfl
    split at h
    · split at h <;> cases h
      · exact .look hl .stale rfl rfl
      · exact .enter hl .trust rfl
    · cases h
      exact .enter hl .trust rfl
  case h_3 c hpc =>
    split at h <;> cases h
    exact .look (by rw [hpc]; rfl) .lock rfl rfl
  case h_4 c j todo kept min live hpc =>
    have hl : lookOf p.pc = some (.scan (j :: todo) min live) := by rw [hpc]; rfl
    split at h <;> cases h
    · exact .look hl (.alive todo min live ‹_›) rfl rfl
    · exact .look hl (.dead todo min live ‹_›) rfl rfl
  case h_5 c kept min live hpc =>
    have hl : lookOf p.pc = some (.scan [] min live) := by rw [hpc]; rfl
    dsimp only at h
    split at h
    · rename_i hlive
      subst hlive
      split at h <;> cases h
      · exact .full hl ‹_› rfl
      · exact .enter hl (.returns min true) rfl
    · cases h
      exact .enter hl (.returns min live) rfl
  case h_6 c j todo kept min live hpc =>
    cases h
    exact .look (by rw [hpc]; rfl) (.load j todo min live) rfl rfl
  case h_7 hpc =>
    cases h
    exact .closure hpc (Or.inl rfl) rfl rfl
  case h_8 v hpc =>
    cases h
    exact .closure hpc (Or.inr trivial) rfl rfl
  case h_9 v rest wp hpc =>
    have hw : Writes p.pc := by rw [hpc]; trivial
    cases wp with
    | begin =>
      cases h
      refine .write hw ?_
      rw [progress, progress, hpc]
      simp only [partWritten]
      omega
    | store off =>
      simp only [Slot.writeStep] at h
      split_ifs at h with hlt
      · cases h
        refine .write hw ?_
        have := stripeWidth_pos (n - off)
        rw [progress, progress, hpc]
        simp only [partWritten]
        omega
      · cases h
        refine .write hw ?_
        rw [progress, progress, hpc]
        simp only [partWritten]
        omega
  case h_10 rest hpc =>
    have hw : Writes p.pc := by rw [hpc]; trivial
    have hword : u64 (p.seq + 1) = p.seq + 1 := u64_of_lt (by unfold seqLimit at hseq; omega)
    have hlt : progress p < (n + 3) * (p.seq + 1) := by
      rw [progress, hpc, Nat.mul_succ]
      simp only [partWritten]
      omega
    rw [← hword] at hlt
    dsimp only at h
    split at h <;> cases h <;> exact .write hw (hlt.trans_eq (Nat.add_zero _).symm)

theorem progress_of_rest (hpc : ¬ Writes p.pc) : progress p = (n + 3) * p.seq := by
  unfold progress
  cases he : p.pc with
  | write v rest wp => exact absurd (he ▸ trivial) hpc
  | cursor rest => exact absurd (he ▸ trivial) hpc
  | _ => rfl

theorem not_writes_of_look {l : Look} {pc : PubPc n} (hl : lookOf pc = some l) : ¬ Writes pc := by
  cases pc <;> first | exact fun hw => hw.elim | cases hl

theorem Goes.progress_le (h : Goes cfg r t p r' p') : progress p ≤ progress p' := by
  cases h with
  | look hl _ hseq hpart =>
    rw [progress_of_rest (not_writes_of_look hl), progress, hseq, hpart]
    exact Nat.le_refl _
  | closure hpc _ hseq hpart =>
    rw [progress_of_rest (by rw [hpc]; exact fun hw => hw), progress, hseq, hpart]
    exact Nat.le_refl _
  | write _ hlt => exact hlt.le

theorem Goes.writes (h : Goes cfg r t p r' p') (hw : Writes p.pc) : progress p < progress p' := by
  cases h with
  | look hl _ _ _ => exact absurd hw (not_writes_of_look hl)
  | closure hpc _ _ _ =>
    rw [hpc] at hw
    exact hw.elim
  | write _ hlt => exact hlt

theorem Goes.returns {f : Option (Value n)} (h : Goes cfg r t p r' p') (hf : p.pc = .closure f) :
    p'.pc = .idle ∨ Writes p'.pc := by
  cases h with
  | look hl _ _ _ =>
    rw [hf] at hl
    cases hl
  | closure _ hnew _ _ => exact hnew
  | write hw _ =>
    rw [hf] at hw
    exact hw.elim

theorem Goes.looks {l : Look} (h : Goes cfg r t p r' p') (hl : lookOf p.pc = some l) :
    l.Next p.seq cfg.effective t (lookOf p'.pc) := by
  cases h with
  | look hl' hnext _ _ =>
    obtain rfl := Option.some.inj (hl.symm.trans hl')
    exact hnext
  | closure hpc _ _ _ =>
    rw [hpc] at hl
    cases hl
  | write hw _ => exact absurd hw (not_writes_of_look hl)

theorem Goes.ring (h : Goes cfg r t p r' p') (hquiet : ¬ Writes p.pc) : r' = r := by
  cases h with
  | look _ _ _ _ => rfl
  | closure _ _ _ _ => rfl
  | write hw _ => exact absurd hw hquiet

/-! ## The tracker lock -/

/-- Whoever has set the lock flag is still there. -/
structure Locked (w : World n) : Prop where
  held : Held w.trackers.locked ((gateOf w.publisher).inside fun i => holdsLock (w.subs i).pc)
  asks : ∀ i k, (w.subs i).pc = .lock k → k = .subscribe ∨ k = .tracked

theorem pub_locked (h : p.step cfg r t = some (r', t', p')) (hl : t'.locked = true) :
    (scanOf p'.pc).isSome = true ∨ t.locked = true ∧ scanOf p.pc = none := by
  unfold Publisher.step at h
  split at h
  case h_1 => cases h
  case h_2 c hpc =>
    refine Or.inr ⟨?_, by rw [hpc]; rfl⟩
    split at h
    · split at h <;> cases h <;> exact hl
    · cases h
      exact hl
  case h_3 c hpc =>
    split at h <;> cases h
    exact Or.inl rfl
  case h_4 c j todo kept min live hpc =>
    split at h <;> cases h <;> exact Or.inl rfl
  case h_5 c kept min live hpc =>
    dsimp only at h
    split at h
    · split at h <;> cases h <;> cases hl
    · cases h
      cases hl
  case h_6 c j todo kept min live hpc =>
    cases h
    exact Or.inl rfl
  case h_7 hpc | h_8 v hpc =>
    cases h
    exact Or.inr ⟨hl, by rw [hpc]; rfl⟩
  case h_9 v rest wp hpc =>
    refine Or.inr ⟨?_, by rw [hpc]; rfl⟩
    dsimp only at h
    split at h <;> cases h <;> exact hl
  case h_10 rest hpc =>
    refine Or.inr ⟨?_, by rw [hpc]; rfl⟩
    dsimp only at h
    split at h <;> cases h <;> exact hl

theorem sub_locked {s s' : Subscriber n} (hk : cfg.kind = .bounded wm) (h : s.step cfg r t i = some (t', s'))
    (hasks : ∀ k, s.pc = .lock k → k = .subscribe ∨ k = .tracked) (hl : t'.locked = true) :
    holdsLock s'.pc ∨ t.locked = true ∧ ¬ holdsLock s.pc := by
  cases Subscriber.step_moves h with
  | @takeLock k hpc _ =>
    rcases hasks k hpc with rfl | rfl <;> exact Or.inl trivial
  | join hpc _ _ => exact Or.inl trivial
  | lockPush hpc _ => exact Or.inl trivial
  | dropLock hpc _ => exact Or.inl trivial
  | push hpc => cases hl
  | dropRetain hpc => cases hl
  | bare hpc hkind =>
    rcases hkind with rfl | ⟨_, hne⟩
    · exact Or.inr ⟨hl, by rw [hpc]; exact fun hh => hh⟩
    · exact absurd hk (hne wm)
  | tracked hpc hne => exact absurd hk (hne wm)
  | bareHistory hpc hne => exact absurd hk (hne wm)
  | commit hpc =>
    refine Or.inr ⟨?_, by rw [hpc]; exact fun hh => hh⟩
    split at hl <;> exact hl
  | dropArc hpc =>
    refine Or.inr ⟨?_, by rw [hpc]; exact fun hh => hh⟩
    split at hl <;> exact hl
  | _ hpc => exact Or.inr ⟨hl, by rw [hpc]; exact fun hh => hh⟩

theorem step_asks {s s' : Subscriber n} (h : s.step cfg r t i = some (t', s')) (k : SubscribeKind) :
    s'.pc ≠ .lock k := by
  intro hpc
  have hseat (hs : seat s.pc = .seated) : False := by
    have hs' := (step_seated hs h).1
    rw [hpc] at hs'
    cases hs'
  cases Subscriber.step_moves h with
  | commit h' | loadPending h' | read h' _ | head h' | gateClosed h' _ => exact hseat (by rw [h']; rfl)
  | _ => cases hpc

/-- A subscriber moves. -/
theorem Locked.sub (hw : Locked w) {t' : Trackers} {s' : Subscriber n}
    (hi : t'.locked = true → holdsLock s'.pc ∨ w.trackers.locked = true ∧ ¬ holdsLock (w.subs i).pc) :
    Held t'.locked ((gateOf w.publisher).inside fun j => holdsLock ((w.setSub i s').subs j).pc) := by
  refine Gate.reader_held (i := i) hw.held (fun j hj hin => ?_) ?_
  · rw [setSub_ne w s' hj]
    exact hin
  · rw [setSub_self]
    exact hi

theorem step_held (hk : cfg.kind = .bounded wm) (h : World.step cfg w a = some w') (hw : Locked w) :
    Held w'.trackers.locked ((gateOf w'.publisher).inside fun i => holdsLock (w'.subs i).pc) := by
  have hkind := kind_ne_mpmc hk
  cases a with
  | pubCall c =>
    simp only [World.step, if_neg hkind] at h
    obtain ⟨p, hp, rfl⟩ := Option.map_eq_some_iff.mp h
    obtain ⟨_, _, hidle, _⟩ := pubCall_quiet hp
    refine Gate.writer_held hw.held fun hl => Or.inr ⟨hl, ?_⟩
    change scanOf w.publisher.pc = none
    rw [hidle]
    rfl
  | pub =>
    obtain ⟨⟨r, t, p⟩, hp, rfl⟩ := Option.map_eq_some_iff.mp h
    exact Gate.writer_held hw.held (pub_locked hp)
  | mpCall p c =>
    simp only [World.step, if_neg hkind] at h
    cases h
  | mp p =>
    obtain ⟨⟨r, pc⟩, _, rfl⟩ := Option.map_eq_some_iff.mp h
    exact hw.held
  | subscribe j k =>
    obtain ⟨s, hs, rfl⟩ := Option.map_eq_some_iff.mp h
    refine hw.sub fun hl => Or.inr ⟨hl, ?_⟩
    rw [(subscribe_pc hs).1]
    exact fun hj => hj
  | subCall j c =>
    obtain ⟨s, hs, rfl⟩ := Option.map_eq_some_iff.mp h
    refine hw.sub fun hl => Or.inr ⟨hl, ?_⟩
    rw [(Subscriber.call_begins hs).1]
    exact fun hj => hj
  | sub j =>
    obtain ⟨⟨t, s⟩, hs, rfl⟩ := Option.map_eq_some_iff.mp h
    exact hw.sub (sub_locked hk hs (hw.asks j))
  | drop j =>
    obtain ⟨s, hs, rfl⟩ := Option.map_eq_some_iff.mp h
    refine hw.sub fun hl => Or.inr ⟨hl, ?_⟩
    rcases (drop_pc hs).1 with hpc | hpc <;> rw [hpc] <;> exact fun hj => hj
  | cloneTracker j =>
    simp only [World.step] at h
    split_ifs at h
    cases h
    exact hw.held
  | dropClone j =>
    simp only [World.step] at h
    split_ifs at h
    cases h
    exact hw.held
  | shutdown j =>
    cases h
    refine hw.sub fun hl => ?_
    by_cases hj : holdsLock (w.subs j).pc
    · exact Or.inl hj
    · exact Or.inr ⟨hl, hj⟩

theorem subscribe_asks {s s' : Subscriber n} {k k' : SubscribeKind} (h : s.subscribe cfg k = some s')
    (hpc : s'.pc = .lock k') : k' = .subscribe ∨ k' = .tracked := by
  unfold Subscriber.subscribe at h
  split at h
  · split at h <;> cases h
    · cases hpc
      exact Or.inl rfl
    · cases hpc
      exact Or.inr rfl
    · cases hpc
  · cases h

theorem step_locked (hk : cfg.kind = .bounded wm) (h : World.step cfg w a = some w') (hw : Locked w) : Locked w' := by
  refine ⟨step_held hk h hw, fun i k hpc => ?_⟩
  cases step_subs h i with
  | other hs => exact hw.asks i k (hs ▸ hpc)
  | subscribe hs _ => exact subscribe_asks hs hpc
  | call hs _ =>
    have hseat := call_seated hs
    rw [hpc] at hseat
    cases hseat
  | step hs => exact absurd hpc (step_asks hs k)
  | drop hs _ =>
    obtain ⟨_, he | he⟩ := drop_pc hs <;> rw [he] at hpc <;> cases hpc
  | shutdown hs _ =>
    rw [hs] at hpc
    exact hw.asks i k hpc

theorem reach_locked (hk : cfg.kind = .bounded wm) (h : Reach cfg w) : Locked w := by
  induction h with
  | start => exact ⟨fun hl => (by cases hl), fun i k hpc => (by cases hpc)⟩
  | next _ ha ih => exact step_locked hk ha ih

/-! ## Executions -/

/-- A bounded channel from some point on at which nobody joins or leaves: its registered
trackers belong to members that keep receiving, and no cycle of barriers makes them wait for
each other. -/
structure Attends (cfg : Config) (e : Execution (World.step (n := n) cfg)) (members : Finset Nat) (rank : Nat → Nat) :
    Prop where
  bounded : ∃ wm, cfg.kind = .bounded wm
  capacity : cfg.capacity ≤ 2 ^ 63
  reach : Reach cfg (e.state 0)
  limit : ∀ k, messages (e.state k) < seqLimit
  fair : e.Fair .pub
  still : ∀ k i, ¬ holdsLock ((e.state k).subs i).pc
  registered : ∀ k, ∀ i ∈ (e.state k).trackers.registered, i ∈ members
  members : ∀ i ∈ members, KeepUp.Member e i fun u => u ∈ members ∧ rank u < rank i

section Attends

variable {e : Execution (World.step (n := n) cfg)} {members : Finset Nat} {rank : Nat → Nat} {k : Nat}

theorem Attends.single (h : Attends cfg e members rank) (m : Nat) :
    SpWriter.Ok cfg (e.state m).ring (e.state m).publisher.seq (SpWriter.phase (e.state m).publisher.pc) := by
  obtain ⟨wm, hk⟩ := h.bounded
  exact ((reach_sane (e.reachable h.reach m) (h.limit m)).written.single (kind_ne_mpmc hk)).1

theorem Attends.seq_lt (h : Attends cfg e members rank) (m : Nat) : (e.state m).publisher.seq < seqLimit := by
  have hlen := (h.single m).length
  have := h.limit m
  unfold messages at this
  omega

/-- What one step of the execution does to the publisher and to the ring. -/
theorem Attends.goes (h : Attends cfg e members rank) (m : Nat) :
    (e.act m = .pub ∧ Goes cfg (e.state m).ring (e.state m).trackers (e.state m).publisher
      (e.state (m + 1)).ring (e.state (m + 1)).publisher) ∨
    (e.act m ≠ .pub ∧ (e.state (m + 1)).ring = (e.state m).ring ∧
      ((e.state (m + 1)).publisher = (e.state m).publisher ∨ (e.state m).publisher.pc = .idle ∧
        progress (e.state (m + 1)).publisher = progress (e.state m).publisher)) := by
  obtain ⟨wm, hk⟩ := h.bounded
  have hkind := kind_ne_mpmc hk
  have hnext := e.next m
  have hsane := reach_sane (e.reachable h.reach m) (h.limit m)
  by_cases ha : e.act m = .pub
  · refine Or.inl ⟨ha, ?_⟩
    rw [ha] at hnext
    obtain ⟨⟨r, t, p⟩, hp, he⟩ := Option.map_eq_some_iff.mp hnext
    rw [← he]
    exact pub_goes (h.seq_lt m) hp
  · refine Or.inr ⟨ha, ?_⟩
    rcases step_writers hnext with ⟨hr, hp, _⟩ | ⟨c, p, _, _, hc, he⟩ | ⟨_, _, _, ha', _⟩ |
      ⟨_, _, _, _, hk', _⟩ | ⟨q, r, pc, _, hq, _⟩
    · exact ⟨hr, Or.inl hp⟩
    · obtain ⟨hseq, _, hidle, hpc⟩ := pubCall_quiet hc
      rw [he]
      refine ⟨rfl, Or.inr ⟨hidle, ?_⟩⟩
      change progress p = _
      rw [progress, progress, hseq, hidle]
      rcases hpc with hpc | hpc
      · rw [hpc]
      · rw [hpc]
        rfl
    · exact absurd ha' ha
    · exact absurd hk' hkind
    · rw [(hsane.written.single hkind).2 q] at hq
      cases hq

theorem Attends.progress_le (h : Attends cfg e members rank) (m : Nat) :
    progress (e.state m).publisher ≤ progress (e.state (m + 1)).publisher := by
  rcases h.goes m with ⟨_, hgoes⟩ | ⟨_, _, hsame | ⟨_, hsame⟩⟩
  · exact hgoes.progress_le
  · rw [hsame]
  · rw [hsame]

theorem partWritten_le (pc : PubPc n) : partWritten pc ≤ n + 2 := by
  unfold partWritten
  split <;> omega

/-- The publisher cannot go on writing for ever. -/
theorem Attends.settles (h : Attends cfg e members rank) :
    ∃ k, ∀ m ≥ k, progress (e.state m).publisher = progress (e.state k).publisher := by
  refine Execution.settles (f := fun w : World n => progress w.publisher) h.progress_le
    (show ∀ m, progress (e.state m).publisher < (n + 3) * seqLimit from fun m => ?_)
  have hle : (n + 3) * ((e.state m).publisher.seq + 1) ≤ (n + 3) * seqLimit := Nat.mul_le_mul_left _ (h.seq_lt m)
  have hpart := partWritten_le (e.state m).publisher.pc
  unfold progress
  rw [Nat.mul_succ] at hle
  omega

/-- A publisher in a call can move, unless it waits for the tracker lock. -/
theorem pub_moves (hbusy : p.pc ≠ .idle) (hfree : ∀ c, p.pc = .lock c → t.locked = false) :
    ∃ x, p.step cfg r t = some x := by
  unfold Publisher.step
  cases hpc : p.pc with
  | idle => exact absurd hpc hbusy
  | room c => dsimp only; split <;> (try split_ifs) <;> exact ⟨_, rfl⟩
  | lock c => exact ⟨_, if_neg (by rw [hfree c hpc]; exact Bool.false_ne_true)⟩
  | scan c todo kept min live => cases todo <;> dsimp only <;> split_ifs <;> exact ⟨_, rfl⟩
  | loadTracker c j todo kept min live => exact ⟨_, rfl⟩
  | closure f => cases f <;> exact ⟨_, rfl⟩
  | write v rest wp => dsimp only; split <;> exact ⟨_, rfl⟩
  | cursor rest => cases rest <;> exact ⟨_, rfl⟩

/-- A publisher in a call gets its turn: nobody else holds the tracker lock. -/
theorem Attends.turn (h : Attends cfg e members rank) (hbusy : ∀ m ≥ k, (e.state m).publisher.pc ≠ .idle) :
    ∃ m ≥ k, e.act m = .pub := by
  obtain ⟨wm, hk⟩ := h.bounded
  refine h.fair k fun m hm hnone => ?_
  have hfree (c : PubCall n) (hpc : (e.state m).publisher.pc = .lock c) : (e.state m).trackers.locked = false := by
    by_contra hlock
    obtain ⟨x, hx⟩ := (reach_locked hk (e.reachable h.reach m)).held (Bool.eq_true_of_not_eq_false hlock)
    cases x with
    | none =>
      have hscan : (scanOf (e.state m).publisher.pc).isSome = true := hx
      rw [hpc] at hscan
      cases hscan
    | some j => exact h.still m j hx
  have hmoves : ∃ x, (e.state m).publisher.step cfg (e.state m).ring (e.state m).trackers = some x :=
    pub_moves (hbusy m hm) hfree
  obtain ⟨x, hx⟩ := hmoves
  simp [World.step, hx] at hnone

/-- It does not stop in the middle of a write. -/
theorem Attends.not_writes (h : Attends cfg e members rank)
    (hset : ∀ m ≥ k, progress (e.state m).publisher = progress (e.state k).publisher) :
    ∀ m ≥ k, ¬ Writes (e.state m).publisher.pc := by
  intro m hm hw
  have hsame {j : Nat} (hj : j ≥ m) : ¬ progress (e.state j).publisher < progress (e.state (j + 1)).publisher := by
    rw [hset j (hm.trans hj), hset (j + 1) (by omega)]
    exact Nat.lt_irrefl _
  have hstays : ∀ j ≥ m, Writes (e.state j).publisher.pc := by
    refine Execution.stays hw fun j hj hwj => ?_
    rcases h.goes j with ⟨_, hgoes⟩ | ⟨_, _, hpub | ⟨hidle, _⟩⟩
    · exact absurd (hgoes.writes hwj) (hsame hj)
    · rw [hpub]
      exact hwj
    · rw [hidle] at hwj
      exact hwj.elim
  have hbusy (j : Nat) (hj : j ≥ m) : (e.state j).publisher.pc ≠ .idle := fun hidle => by
    have hwj := hstays j hj
    rw [hidle] at hwj
    exact hwj
  obtain ⟨j, hj, ha⟩ := h.turn hbusy
  rcases h.goes j with ⟨_, hgoes⟩ | ⟨hne, _⟩
  · exact hsame hj (hgoes.writes (hstays j hj))
  · exact hne ha

/-- From some point on the ring is at rest, and the publisher idle, in its closure, or looking. -/
theorem Attends.rests (h : Attends cfg e members rank) :
    ∃ k, RestsFrom e k (e.state k).ring ∧ (∀ m ≥ k, ¬ Writes (e.state m).publisher.pc) ∧
      ∀ m ≥ k, (e.state m).publisher.seq = (e.state k).ring.log.length := by
  obtain ⟨k, hset⟩ := h.settles
  have hquiet := h.not_writes hset
  have hphase {m : Nat} (hm : m ≥ k) : SpWriter.phase (e.state m).publisher.pc = .quiet := by
    have hnot := hquiet m hm
    revert hnot
    cases (e.state m).publisher.pc with
    | write v rest wp => exact fun hnot => absurd trivial hnot
    | cursor rest => exact fun hnot => absurd trivial hnot
    | _ => exact fun _ => rfl
  have hring : ∀ m ≥ k, (e.state m).ring = (e.state k).ring := by
    refine Execution.stays rfl fun m hm hr => ?_
    rcases h.goes m with ⟨_, hgoes⟩ | ⟨_, hsame, _⟩
    · rw [← hr]
      exact hgoes.ring (hquiet m hm)
    · exact hsame.trans hr
  have hsingle {m : Nat} (hm : m ≥ k) : SpWriter.Ok cfg (e.state k).ring (e.state m).publisher.seq .quiet := by
    have := h.single m
    rwa [hphase hm, hring m hm] at this
  exact ⟨k, ⟨hring, atRest (hsingle (Nat.le_refl k)) (h.seq_lt k)⟩, hquiet, fun m hm => (hsingle hm).length.symm⟩

/-- A publisher that never becomes idle nor writes is looking for room, not in its closure. -/
theorem Attends.looking (h : Attends cfg e members rank) (hbusy : ∀ m ≥ k, (e.state m).publisher.pc ≠ .idle)
    (hquiet : ∀ m ≥ k, ¬ Writes (e.state m).publisher.pc) :
    ∀ m ≥ k, ∃ l, lookOf (e.state m).publisher.pc = some l := by
  intro m hm
  have hreturns {f : Option (Value n)} {j : Nat} (hj : j ≥ m) (hf : (e.state j).publisher.pc = .closure f) :
      e.act j ≠ .pub ∧ (e.state (j + 1)).publisher.pc = .closure f := by
    rcases h.goes j with ⟨_, hgoes⟩ | ⟨hne, _, hpub | ⟨hidle, _⟩⟩
    · rcases hgoes.returns hf with hidle | hw
      · exact absurd hidle (hbusy (j + 1) (by omega))
      · exact absurd hw (hquiet (j + 1) (by omega))
    · exact ⟨hne, by rw [hpub]; exact hf⟩
    · exact absurd hidle (hbusy j (hm.trans hj))
  cases hpc : (e.state m).publisher.pc with
  | idle => exact absurd hpc (hbusy m hm)
  | write v rest wp => exact absurd (hpc ▸ trivial) (hquiet m hm)
  | cursor rest => exact absurd (hpc ▸ trivial) (hquiet m hm)
  | closure f =>
    have hstays : ∀ j ≥ m, (e.state j).publisher.pc = .closure f :=
      Execution.stays hpc fun j hj hf => (hreturns hj hf).2
    obtain ⟨j, hj, ha⟩ := h.turn fun j hj => hbusy j (hm.trans hj)
    exact absurd ha (hreturns hj (hstays j hj)).1
  | room c => exact ⟨_, rfl⟩
  | lock c => exact ⟨_, rfl⟩
  | scan c todo kept min live => exact ⟨_, rfl⟩
  | loadTracker c i todo kept min live => exact ⟨_, rfl⟩

/-- A call of the publisher comes to an end as long as its subscribers keep receiving. -/
theorem attended_publish_returns (h : Attends cfg e members rank) (k : Nat) :
    ∃ m ≥ k, (e.state m).publisher.pc = .idle := by
  by_contra hnever
  obtain ⟨k₀, hrest, hquiet, hseq⟩ := h.rests
  obtain ⟨k₁, hup⟩ := Filter.eventually_atTop.mp
    (members_catch_up h.members (Bounds.of_reach h.reach h.limit) hrest)
  obtain ⟨j, hj, hj₀, hj₁⟩ : ∃ j, k ≤ j ∧ k₀ ≤ j ∧ k₁ ≤ j :=
    ⟨max k (max k₀ k₁), by omega, by omega, by omega⟩
  have hbusy : ∀ m ≥ j, (e.state m).publisher.pc ≠ .idle := fun m hm he => hnever ⟨m, hj.trans hm, he⟩
  have hlooking := h.looking hbusy fun m hm => hquiet m (hj₀.trans hm)
  have hlooks : Look.Looks (fun m => lookOf (e.state m).publisher.pc) (fun m => (e.state m).trackers)
      (fun m => e.act m = .pub) (e.state k₀).ring.log.length cfg.effective j := by
    refine ⟨fun j' hj' _ => h.turn fun m hm => hbusy m (hj'.trans hm), fun m hm l hl ha => ?_, fun m hm ha _ => ?_⟩
    · rcases h.goes m with ⟨_, hgoes⟩ | ⟨hne, _⟩
      · rw [← hseq m (hj₀.trans hm)]
        exact hgoes.looks hl
      · exact absurd ha hne
    · rcases h.goes m with ⟨ha', _⟩ | ⟨_, _, hpub | ⟨hidle, _⟩⟩
      · exact absurd ha' ha
      · exact congrArg (fun p => lookOf p.pc) hpub
      · exact absurd hidle (hbusy m hm)
  obtain ⟨wm, hk⟩ := h.bounded
  have hcap := h.capacity
  have hroom := cfg.effective_le
  obtain ⟨m, hm, hnone⟩ := hlooks.returns cfg.effective_pos (by unfold seqLimit; omega)
    (h.limit k₀) fun m hm i hi => Or.inl fun j' hj' => by
      refine ⟨hup j' (hj₁.trans hj') i (h.registered m i hi), ?_⟩
      have hb := (reach_ok hk (e.reachable h.reach j') (h.limit j')).2.values i
      exact hb.trans_lt (h.limit j')
  obtain ⟨l, hl⟩ := hlooking m hm
  rw [hnone] at hl
  cases hl

/-- A member remains the subscriber it was made as. -/
theorem Attends.member_stays (h : Attends cfg e members rank) (hi : i ∈ members) (m : Nat) :
    ((e.state (m + 1)).subs i).kind = ((e.state m).subs i).kind ∧
      ((e.state (m + 1)).subs i).start = ((e.state m).subs i).start := by
  obtain ⟨wm, hk⟩ := h.bounded
  have hsane := reach_sane (e.reachable h.reach m) (h.limit m)
  have hcreated : Created (stage ((e.state m).subs i).pc) := ((h.members i hi).receiving m).created
  refine ⟨?_, (Barrier.step_onward (e.next m) (h.limit m) hsane
    (((Bounds.of_reach h.reach h.limit).ok m).tracked i)).start hcreated⟩
  have hmoved := step_moved hk (e.next m) (h.limit (m + 1)) hsane
  revert hmoved
  generalize e.state (m + 1) = w'
  intro hmoved
  cases hmoved with
  | @sub j t' s' hm _ =>
    by_cases hj : i = j
    · subst hj
      rw [setSub_self]
      rcases hm.kind with ⟨habsent, _⟩ | ⟨hkind, _⟩
      · rw [habsent] at hcreated
        exact hcreated.elim
      · exact hkind
    · rw [setSub_ne _ _ hj]
  | _ => rfl

/-- Every message reaches every member that had started by then. One that was made to read the
history may find it gone, and is told so. -/
theorem attended_delivers (h : Attends cfg e members rank) (hi : i ∈ members) {q : Nat} {v : Value n}
    (hq : (e.state k).ring.log[q]? = some v) (hstart : ((e.state k).subs i).start ≤ q) :
    ∃ m ≥ k, Event.received q (bytesOf v) ∈ ((e.state m).subs i).events ∨
      ((e.state k).subs i).kind ≠ .subscribe ∧ ((e.state k).subs i).kind ≠ .tracked ∧
        ∃ old new, old ≤ q ∧ q < new ∧ Event.skipped old new ∈ ((e.state m).subs i).events := by
  obtain ⟨wm, hk⟩ := h.bounded
  obtain ⟨k₀, hrest, _, _⟩ := h.rests
  have hbounds := Bounds.of_reach h.reach h.limit
  obtain ⟨k₁, hup⟩ := Filter.eventually_atTop.mp (members_catch_up h.members hbounds hrest)
  obtain ⟨m, hm, hm₀, hm₁⟩ : ∃ m, k ≤ m ∧ k₀ ≤ m ∧ k₁ ≤ m := ⟨max k (max k₀ k₁), by omega, by omega, by omega⟩
  obtain ⟨hkind, hst, hlog⟩ : ((e.state m).subs i).kind = ((e.state k).subs i).kind ∧
      ((e.state m).subs i).start = ((e.state k).subs i).start ∧ (e.state m).ring.log[q]? = some v := by
    refine Execution.stays (P := fun m => ((e.state m).subs i).kind = ((e.state k).subs i).kind ∧
      ((e.state m).subs i).start = ((e.state k).subs i).start ∧ (e.state m).ring.log[q]? = some v)
      ⟨rfl, rfl, hq⟩ (fun j _ hj => ?_) m hm
    have hwritten := (reach_sane (e.reachable h.reach j) (h.limit j)).written
    obtain ⟨_, hgrows⟩ := step_written (e.next j) (h.limit (j + 1)) hwritten
    obtain ⟨hkind, hst⟩ := h.member_stays hi j
    exact ⟨hkind.trans hj.1, hst.trans hj.2.1, hgrows.log_eq hj.2.2⟩
  obtain ⟨hsane, hb⟩ := reach_ok hk (e.reachable h.reach m) (h.limit m)
  have hreader := hsane.readers i
  have hunused := (h.members i hi).unused m
  have hpast : q < settled ((e.state m).subs i).cursor (stage ((e.state m).subs i).pc) := by
    rw [← (h.members i hi).value hbounds m]
    have hlen := (List.getElem?_eq_some_iff.mp hlog).1
    rw [hrest.ring m hm₀] at hlen
    exact hlen.trans_le (hup m hm₁ i hi)
  obtain ⟨j, ⟨hlo, hhi⟩, _⟩ := (hreader.tiles hunused).existsUnique (hst.trans_le hstart) hpast
  have hmem : ((e.state m).subs i).events.get j ∈ ((e.state m).subs i).events := List.get_mem _ _
  refine ⟨m, hm, ?_⟩
  revert hmem hlo hhi
  cases he : ((e.state m).subs i).events.get j with
  | received seq buf =>
    intro hlo hhi hmem
    obtain rfl : seq = q := by
      change seq ≤ q at hlo
      change q < seq + 1 at hhi
      omega
    obtain ⟨v', hv', rfl⟩ : Published (e.state m).ring seq buf := hreader.events _ hmem
    obtain rfl := Option.some.inj (hv'.symm.trans hlog)
    exact Or.inl hmem
  | skipped old new =>
    intro hlo hhi hmem
    have hlossy (hno : ((e.state m).subs i).kind = .subscribe ∨ ((e.state m).subs i).kind = .tracked) : False := by
      obtain ⟨_, _, hr⟩ := (hb.lossless i ⟨hno, hunused⟩).1 _ hmem
      cases hr
    exact Or.inr ⟨fun he => hlossy (Or.inl (hkind.trans he)), fun he => hlossy (Or.inr (hkind.trans he)),
      old, new, hlo, hhi, hmem⟩

end Attends

/-! ## A group of two -/

/-- What `Attends` asks of one state, and of the labels still to come, of a ring with two members,
of which the second may be gated by the first. -/
def Proper (w : World 1) (rest : List (Act 1)) : Prop :=
  messages w < seqLimit ∧ (∀ i ∈ w.trackers.registered, i ∈ Finset.range 2) ∧
    ∀ i ∈ Finset.range 2, (w.subs i).tracker = true ∧ (w.subs i).latestUsed = false ∧
      Receiving (fun u => u ∈ Finset.range 2 ∧ u < i) (w.subs i).pc ∧
      (w.trackers.value i < startOf w.ring.cursor → .sub i ∈ rest)

instance (w : World 1) (rest : List (Act 1)) : Decidable (Proper w rest) := by
  unfold Proper
  infer_instance

/-- The ring is full and both subscribers have two messages before them. -/
def filling : List (Act 1) := List.flatten [
  .subscribe 0 .tracked :: List.replicate 3 (.sub 0), .subscribe 1 .subscribe :: List.replicate 3 (.sub 1),
  .pubCall (.publish fun _ => 7) :: List.replicate 5 .pub, .pubCall (.publish fun _ => 8) :: List.replicate 5 .pub,
  [.pubCall (.publish fun _ => 9), .pub, .pub]]

/-- The first makes room, then the second, which has to wait for the first. -/
def draining : List (Act 1) := List.flatten [
  [.subCall 1 (.recvGated [0]), .sub 1, .sub 1],
  .subCall 0 .tryRecv :: List.replicate 4 (.sub 0), List.replicate 8 .pub,
  .subCall 0 .recv :: List.replicate 4 (.sub 0), List.replicate 6 (.sub 1),
  .subCall 1 (.recvGated [0]) :: List.replicate 6 (.sub 1), List.replicate 8 .pub,
  .subCall 0 .recvWith :: List.replicate 4 (.sub 0), .subCall 1 (.tryRecvGated [0]) :: List.replicate 6 (.sub 1),
  [.shutdown 0]]

/-- Labels of the two members only. -/
def OfTwo (a : Act 1) : Prop := ∀ i, subOf a = some i → i < 2

instance (a : Act 1) : Decidable (OfTwo a) :=
  decidable_of_iff (∀ i ∈ subOf a, i < 2) Iff.rfl

theorem run_ofTwo {w w' : World 1} {as : List (Act 1)} (h : run (step Config.smallBounded) w as = some w')
    (has : ∀ a ∈ as, OfTwo a) {i : Nat} (hi : 2 ≤ i) : w'.subs i = w.subs i := by
  refine run_untouched (f := fun w => w.subs i) (fun a ha s t hs => ?_) h
  refine step_elsewhere hs fun he => ?_
  have := has a ha i he
  omega

/-- Where the states of an execution are proper, it attends to its two members. -/
theorem attends_of_proper {e : Execution (World.step (n := 1) Config.smallBounded)}
    (h0 : Reach Config.smallBounded (e.state 0)) (hfair : e.Fair .pub) (rest : Nat → List (Act 1))
    (hrest : ∀ k, Proper (e.state k) (rest k)) (hcomes : ∀ k, ∀ a ∈ rest k, ∃ m ≥ k, e.act m = a)
    (habsent : ∀ k, ∀ i ≥ 2, (e.state k).subs i = Subscriber.absent 1) :
    Attends Config.smallBounded e (Finset.range 2) id where
  bounded := ⟨0, rfl⟩
  capacity := by decide
  reach := h0
  limit k := (hrest k).1
  fair := hfair
  still k i hi := by
    by_cases h2 : i < 2
    · have hrec := ((hrest k).2.2 i (Finset.mem_range.mpr h2)).2.2.1
      revert hi hrec
      cases ((e.state k).subs i).pc <;> first | exact fun hi _ => hi | exact fun _ hrec => hrec
    · rw [habsent k i (Nat.le_of_not_lt h2)] at hi
      exact hi
  registered k := (hrest k).2.1
  members i hi :=
    { tracker := fun k => ((hrest k).2.2 i hi).1
      unused := fun k => ((hrest k).2.2 i hi).2.1
      receiving := fun k => ((hrest k).2.2 i hi).2.2.1
      turns := fun k hlt => hcomes k _ (((hrest k).2.2 i hi).2.2.2 hlt) }

theorem exists_attends : ∃ e : Execution (World.step (n := 1) Config.smallBounded),
    Attends Config.smallBounded e (Finset.range 2) id ∧ (e.state 0).publisher.pc ≠ .idle ∧
      (e.state 0).ring.log[1]?.map bytesOf = some (bytesOf fun _ => 8) ∧ ((e.state 0).subs 1).start = 0 ∧
      ((e.state 0).subs 1).kind = .subscribe := by
  have hrun : ((run (step Config.smallBounded) (new 1) filling).any fun w =>
      Execution.along (step Config.smallBounded) (fun w rest => decide (Proper w rest)) w draining &&
        decide ((scanOf w.publisher.pc).isSome ∧ w.ring.log[1]?.map bytesOf = some (bytesOf fun _ => 8) ∧
          (w.subs 1).start = 0 ∧ (w.subs 1).kind = .subscribe) &&
        (run (step Config.smallBounded) w draining).any fun w' =>
          Execution.along (step Config.smallBounded) (fun w rest => decide (Proper w rest)) w' [.shutdown 0] &&
            (step Config.smallBounded w' .pub).isNone && (w'.subs 0).shutdown) = true := by decide +kernel
  obtain ⟨w, hw, htest⟩ := (Option.any_eq_true _ _).mp hrun
  obtain ⟨⟨hproper, hstart⟩, hend⟩ := by simpa only [Bool.and_eq_true] using htest
  obtain ⟨hscan, hlog, hfirst, hkind⟩ := of_decide_eq_true hstart
  obtain ⟨w', hw', hlast⟩ := (Option.any_eq_true _ _).mp hend
  obtain ⟨⟨hagain, hpub⟩, hset⟩ := by simpa only [Bool.and_eq_true] using hlast
  have hloop : run (step Config.smallBounded) w' [.shutdown 0] = some w' := run_cons (shutdown_set hset) rfl
  have hreach : Reach Config.smallBounded w := Reachable.start.of_run hw
  let e := Execution.ofLoop (.shutdown 0) [] hw' hloop
  have hzero : e.state 0 = w := rfl
  have hattends : Attends Config.smallBounded e (Finset.range 2) id := by
    refine attends_of_proper hreach (Execution.ofLoop_fair hw' hloop (Option.isNone_iff_eq_none.mp hpub)) _
      (fun k => of_decide_eq_true (Execution.ofLoop_along hw' hloop hproper hagain k))
      (fun k a ha => Execution.ofLoop_comes hw' hloop ha) fun k i hi => ?_
    have hnew : (e.state 0).subs i = Subscriber.absent 1 := run_ofTwo hw (by decide) hi
    refine Execution.stays (P := fun k => (e.state k).subs i = Subscriber.absent 1) hnew (fun m _ ih => ?_) k
      (Nat.zero_le k)
    rw [← ih]
    refine step_elsewhere (e.next m) fun ha => ?_
    have htwo : ∀ a ∈ Act.shutdown 0 :: draining, OfTwo a := by decide
    have := htwo _ (Execution.ofLoop_act hw' hloop m) i ha
    omega
  rw [← hzero] at hscan hlog hfirst hkind
  refine ⟨e, hattends, fun hidle => ?_, hlog, hfirst, hkind⟩
  rw [hidle] at hscan
  cases hscan

/-- A publish into a full ring, begun before either subscriber has received anything. -/
theorem attended_publish_returns_full : ∃ e : Execution (World.step (n := 1) Config.smallBounded),
    (e.state 0).publisher.pc ≠ .idle ∧ ∃ m, (e.state m).publisher.pc = .idle := by
  obtain ⟨e, h, hbusy, _⟩ := exists_attends
  obtain ⟨m, _, hm⟩ := attended_publish_returns h 0
  exact ⟨e, hbusy, m, hm⟩

/-- The second message, for the subscriber that is gated by the other one. -/
theorem attended_delivers_gated : ∃ e : Execution (World.step (n := 1) Config.smallBounded), ∃ m, ∃ v,
    bytesOf v = bytesOf (fun _ => 8) ∧ Event.received 1 (bytesOf v) ∈ ((e.state m).subs 1).events := by
  obtain ⟨e, h, _, hlog, hstart, hkind⟩ := exists_attends
  obtain ⟨v, hv, hbytes⟩ := Option.map_eq_some_iff.mp hlog
  obtain ⟨m, _, hgot | ⟨hne, _⟩⟩ := attended_delivers (i := 1) h (by decide) hv (hstart.trans_le (Nat.zero_le 1))
  · exact ⟨e, m, v, hbytes, hgot⟩
  · exact absurd hkind hne

end PhotonRing.Attended
