import PhotonRing.Channel.World
import PhotonRing.Channel.SpWriter
import PhotonRing.Channel.MpCursor

/-!
# The write side of a channel along a run

The two kinds of producers keep their invariants in every reachable state with
fewer than `seqLimit` messages. What the readers need of it is the same for both:
`Ring.Ok` in every state, and `Ring.Grows` along every step.
-/
namespace PhotonRing.World

open Lib Lib.Seqlock MpCursor

variable {n : Nat} {cfg : Config} {w w' : World n} {a : Act n}

/-- Which label moved the write side, and how. -/
theorem step_writers (h : step cfg w a = some w') :
    (w'.ring = w.ring ∧ w'.publisher = w.publisher ∧ w'.producers = w.producers) ∨
    (∃ c p, a = .pubCall c ∧ cfg.kind ≠ .mpmc ∧ w.publisher.call c = some p ∧
      w' = { w with publisher := p }) ∨
    (∃ r t p, a = .pub ∧ w.publisher.step cfg w.ring w.trackers = some (r, t, p) ∧
      w' = { w with ring := r, trackers := t, publisher := p }) ∨
    (∃ p c pc, a = .mpCall p c ∧ cfg.kind = .mpmc ∧ (w.producers p).call c = some pc ∧
      w' = w.setProducer p pc) ∨
    (∃ p r pc, a = .mp p ∧ (w.producers p).step cfg w.ring = some (r, pc) ∧
      w' = { w with ring := r }.setProducer p pc) := by
  cases a with
  | pubCall c =>
    simp only [step] at h
    split_ifs at h with hk
    obtain ⟨p, hp, rfl⟩ := Option.map_eq_some_iff.mp h
    exact Or.inr (Or.inl ⟨c, p, rfl, hk, hp, rfl⟩)
  | pub =>
    obtain ⟨⟨r, t, p⟩, hp, rfl⟩ := Option.map_eq_some_iff.mp h
    exact Or.inr (Or.inr (Or.inl ⟨r, t, p, rfl, hp, rfl⟩))
  | mpCall p c =>
    simp only [step] at h
    split_ifs at h with hk
    obtain ⟨pc, hp, rfl⟩ := Option.map_eq_some_iff.mp h
    exact Or.inr (Or.inr (Or.inr (Or.inl ⟨p, c, pc, rfl, hk, hp, rfl⟩)))
  | mp p =>
    obtain ⟨⟨r, pc⟩, hp, rfl⟩ := Option.map_eq_some_iff.mp h
    exact Or.inr (Or.inr (Or.inr (Or.inr ⟨p, r, pc, rfl, hp, rfl⟩)))
  | subscribe i k =>
    obtain ⟨s, _, rfl⟩ := Option.map_eq_some_iff.mp h
    exact Or.inl ⟨rfl, rfl, rfl⟩
  | subCall i c =>
    obtain ⟨s, _, rfl⟩ := Option.map_eq_some_iff.mp h
    exact Or.inl ⟨rfl, rfl, rfl⟩
  | sub i =>
    obtain ⟨⟨t, s⟩, _, rfl⟩ := Option.map_eq_some_iff.mp h
    exact Or.inl ⟨rfl, rfl, rfl⟩
  | drop i =>
    obtain ⟨s, _, rfl⟩ := Option.map_eq_some_iff.mp h
    exact Or.inl ⟨rfl, rfl, rfl⟩
  | cloneTracker i =>
    simp only [step] at h
    split_ifs at h
    cases h
    exact Or.inl ⟨rfl, rfl, rfl⟩
  | dropClone i =>
    simp only [step] at h
    split_ifs at h
    cases h
    exact Or.inl ⟨rfl, rfl, rfl⟩
  | shutdown i =>
    cases h
    exact Or.inl ⟨rfl, rfl, rfl⟩

/-- The write side's invariant, by kind of channel. -/
structure Written (cfg : Config) (w : World n) : Prop where
  mpmc : cfg.kind = .mpmc → Sound cfg w.ring w.producers ∧ w.publisher.pc = .idle
  single : cfg.kind ≠ .mpmc →
    SpWriter.Ok cfg w.ring w.publisher.seq (SpWriter.phase w.publisher.pc) ∧ ∀ p, w.producers p = .idle

theorem written_new (cfg : Config) : Written cfg (new n) where
  mpmc := fun _ => ⟨⟨MpWriter.ok_new cfg, MpCursor.ok_new cfg⟩, rfl⟩
  single := fun _ => ⟨SpWriter.ok_new cfg, fun _ => rfl⟩

theorem Written.ring (h : Written cfg w) : w.ring.Ok cfg := by
  by_cases hk : cfg.kind = .mpmc
  · obtain ⟨hs, _⟩ := h.mpmc hk
    refine ⟨hs.writers.content, fun hc => ?_, hs.cursor.committed⟩
    rw [← hs.writers.next]
    exact hs.cursor.cursor_lt hc
  · exact (h.single hk).1.ring

theorem pubCall_quiet {p p' : Publisher n} {c : PubCall n} (h : p.call c = some p') :
    p'.seq = p.seq ∧ p'.cachedSlowest = p.cachedSlowest ∧ p.pc = .idle ∧
      (p'.pc = .idle ∨ p'.pc = .room c) := by
  unfold Publisher.call at h
  split at h <;> cases h
  · exact ⟨rfl, rfl, ‹_›, Or.inl ‹_›⟩
  · exact ⟨rfl, rfl, ‹_›, Or.inr rfl⟩

theorem mpCall_claim {pc pc' : MpPc n} {c : MpCall n} (h : pc.call c = some pc') :
    pc = .idle ∧ pc' = .claim c := by
  cases pc <;> cases h
  exact ⟨rfl, rfl⟩

theorem step_log_le (h : step cfg w a = some w') : w.ring.log.length ≤ w'.ring.log.length := by
  rcases step_writers h with ⟨hr, _⟩ | ⟨c, p, _, _, _, rfl⟩ | ⟨r, t, p, _, hp, rfl⟩ |
    ⟨p, c, pc, _, _, _, rfl⟩ | ⟨p, r, pc, _, hp, rfl⟩
  · rw [hr]
  · exact Nat.le_refl _
  · have he := SpWriter.step_effect hp
    cases he <;> simp
  · exact Nat.le_refl _
  · exact MpCursor.step_log_le hp

theorem step_written (h : step cfg w a = some w') (hl : w'.ring.log.length < seqLimit)
    (hw : Written cfg w) : Written cfg w' ∧ w.ring.Grows w'.ring := by
  rcases step_writers h with ⟨hr, hp, hps⟩ | ⟨c, p, _, hk, hp, rfl⟩ | ⟨r, t, p, _, hp, rfl⟩ |
    ⟨p, c, pc, _, hk, hp, rfl⟩ | ⟨p, r, pc, _, hp, rfl⟩
  · rw [hr]
    exact ⟨⟨fun hk => by rw [hr, hp, hps]; exact hw.mpmc hk,
      fun hk => by rw [hr, hp, hps]; exact hw.single hk⟩, Ring.Grows.refl _⟩
  · obtain ⟨hseq, _, hidle, hpc⟩ := pubCall_quiet hp
    refine ⟨⟨fun hk' => absurd hk' hk, fun _ => ⟨?_, (hw.single hk).2⟩⟩, Ring.Grows.refl _⟩
    have hok := (hw.single hk).1
    rw [hidle] at hok
    rw [hseq]
    rcases hpc with hpc | hpc <;> rw [hpc] <;> exact hok
  · by_cases hk : cfg.kind = .mpmc
    · have hidle := (hw.mpmc hk).2
      rw [Publisher.step, hidle] at hp
      cases hp
    · obtain ⟨hok, hgrows⟩ := (SpWriter.step_effect hp).ok (hw.single hk).1 hl
      exact ⟨⟨fun hk' => absurd hk' hk, fun _ => ⟨hok, (hw.single hk).2⟩⟩, hgrows⟩
  · obtain ⟨hidle, rfl⟩ := mpCall_claim hp
    obtain ⟨hs, hpub⟩ := hw.mpmc hk
    refine ⟨⟨fun _ => ⟨?_, hpub⟩, fun hk' => absurd hk hk'⟩, Ring.Grows.refl _⟩
    have hlocal : MpCursor.Sound cfg { w.ring with returned := w.ring.returned }
        (Function.update w.producers p (.claim c)) ∧ _ :=
      hs.local (fun s hs => by cases hs) (by rw [hidle]; rfl) trivial trivial
        (fun _ hr => by rw [hidle] at hr; exact hr.elim)
    exact hlocal.1
  · by_cases hk : cfg.kind = .mpmc
    · obtain ⟨hs, hpub⟩ := hw.mpmc hk
      obtain ⟨hs', hmoves⟩ := hs.step hp hl
      exact ⟨⟨fun _ => ⟨hs', hpub⟩, fun hk' => absurd hk hk'⟩, hmoves.grows⟩
    · rw [(hw.single hk).2 p] at hp
      cases hp

/-- The number of messages in the history bounds every sequence in use. -/
def messages (w : World n) : Nat := w.ring.log.length

theorem messages_congr {u w : World n} (h : u.ring = w.ring) : messages u = messages w :=
  congrArg (fun r => r.log.length) h

theorem reach_written (h : Reach cfg w) (hl : messages w < seqLimit) : Written cfg w :=
  Reachable.invariant_below messages seqLimit (fun _ _ _ hs => step_log_le hs) (written_new cfg)
    (fun _ _ _ hs hlt hw => (step_written hs hlt hw).1) h hl

end PhotonRing.World
