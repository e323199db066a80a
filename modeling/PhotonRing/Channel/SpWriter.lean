import PhotonRing.Channel.Publisher

/-!
# The single producer's side of the ring

What the slots, the cursor and the history hold while one publisher runs. The
facts depend on the publisher only through its next sequence and on whether a
slot write is under way (`storing`) or complete but not yet announced (`stored`).
-/
namespace PhotonRing.SpWriter

open Lib Lib.Seqlock

variable {n : Nat} {cfg : Config} {r r' : Ring n} {t t' : Trackers} {p p' : Publisher n}

inductive Phase (n : Nat) where
  | quiet
  | storing (v : Value n) (off : Nat)
  | stored

def phase : PubPc n → Phase n
  | .write v _ (.store off) => .storing v off
  | .cursor _ => .stored
  | _ => .quiet

/-- Messages stamped complete that the publisher has not counted yet. -/
def Phase.ahead : Phase n → Nat
  | .stored => 1
  | _ => 0

structure Ok (cfg : Config) (r : Ring n) (seq : Nat) (ph : Phase n) : Prop where
  length : r.log.length = seq + ph.ahead
  cursor : r.cursor = expectedCursor seq
  origin : ∀ q, r.stampAt cfg q = 0 ∨ ∃ s, s % cfg.capacity = q % cfg.capacity ∧
    ((r.stampAt cfg q = 2 * s + 2 ∧ s < r.log.length) ∨
      (r.stampAt cfg q = 2 * s + 1 ∧ s = seq ∧ ∃ v off, ph = .storing v off))
  stamped : ∀ s < r.log.length, 2 * s + 2 ≤ r.stampAt cfg s
  storing : ∀ v off, ph = .storing v off →
    WriteOk (r.slots (seq % cfg.capacity)) seq 0 v (.store off)
  content : ∀ s, r.stampAt cfg s = 2 * s + 2 →
    ∃ v, r.log[s]? = some v ∧ (r.slots (s % cfg.capacity)).value = bytesOf v

theorem ok_new (cfg : Config) : Ok cfg (Ring.new n) 0 .quiet where
  length := rfl
  cursor := rfl
  origin := fun _ => Or.inl rfl
  stamped := fun s hs => absurd hs (Nat.not_lt_zero s)
  storing := fun _ _ h => by cases h
  content := (Ring.new_ok cfg).content

theorem Ok.ring {seq : Nat} {ph : Phase n} (h : Ok cfg r seq ph) : r.Ok cfg := by
  have hlen := h.length
  have hcur := h.cursor
  unfold expectedCursor at hcur
  have hlt : r.cursor ≠ u64Max → r.cursor < r.log.length := by
    intro hc
    split_ifs at hcur with h0
    · exact absurd hcur hc
    · omega
  exact ⟨h.content, hlt, fun hc s hs => h.stamped s (lt_of_le_of_lt hs (hlt hc))⟩

/-- Before the odd stamp, the slot of the next sequence holds an older message. -/
theorem Ok.stamp_lt {seq : Nat} (h : Ok cfg r seq .quiet) : r.stampAt cfg seq < 2 * seq + 1 := by
  have hlen : r.log.length = seq := h.length
  rcases h.origin seq with h0 | ⟨s, _, ⟨hs, hl⟩ | ⟨_, _, v, off, hv⟩⟩
  · omega
  · omega
  · cases hv

/-- A message that the publisher is not a whole ring ahead of, nor about to get there, is
still in its slot. -/
theorem Ok.retained {seq q : Nat} {ph : Phase n} (h : Ok cfg r seq ph) (hq : q < seq)
    (hle : seq ≤ q + cfg.capacity) (hlt : ph ≠ .quiet → seq < q + cfg.capacity) :
    r.stampAt cfg q = 2 * q + 2 := by
  have hlen := h.length
  have hst := h.stamped q (by omega)
  rcases h.origin q with h0 | ⟨s, hm, ⟨hs, hl⟩ | ⟨_, rfl, v, off, rfl⟩⟩
  · omega
  · have hsq : s < q + cfg.capacity := by
      cases ph with
      | quiet =>
        have : r.log.length = seq := hlen
        omega
      | storing v off =>
        have : r.log.length = seq := hlen
        omega
      | stored =>
        have : r.log.length = seq + 1 := hlen
        have := hlt (by simp)
        omega
    have := lap_le_of_lt hm hsq
    omega
  · exact absurd hm (lap_ne hq (hlt (by simp)))

/-- The odd stamp and every payload stripe. -/
theorem Ok.store {seq : Nat} {ph : Phase n} {v : Value n} {off : Nat} {s : Slot n}
    (h : Ok cfg r seq ph) (hph : ph.ahead = 0) (hs : WriteOk s seq 0 v (.store off)) :
    Ok cfg (r.setSlot (seq % cfg.capacity) s) seq (.storing v off) := by
  have hst : s.stamp = 2 * seq + 1 := hs.1
  have hlen : r.log.length = seq := by rw [h.length, hph]; rfl
  refine ⟨hlen, h.cursor, ?_, ?_, ?_, ?_⟩
  · intro q
    rw [Ring.stampAt_setSlot]
    split_ifs with he
    · exact Or.inr ⟨seq, he.symm, Or.inr ⟨hst, rfl, v, off, rfl⟩⟩
    · rcases h.origin q with h0 | ⟨s', hm, hd | ⟨_, rfl, _⟩⟩
      · exact Or.inl h0
      · exact Or.inr ⟨s', hm, Or.inl hd⟩
      · exact absurd hm.symm he
  · intro q hq
    have hq' : q < r.log.length := hq
    rw [Ring.stampAt_setSlot]
    split_ifs with he
    · omega
    · exact h.stamped q hq'
  · rintro v' off' hv
    cases hv
    rw [Ring.setSlot_slots_self]
    exact hs
  · intro q hq
    rw [Ring.stampAt_setSlot] at hq
    split_ifs at hq with he
    · omega
    · rw [Ring.setSlot_slots_ne _ _ he]
      exact h.content q hq

/-- The even stamp: the message enters the history. -/
theorem Ok.finish {seq : Nat} {v : Value n} {off : Nat} {s : Slot n}
    (h : Ok cfg r seq (.storing v off)) (hst : s.stamp = 2 * seq + 2) (hv : s.value = bytesOf v) :
    Ok cfg ((r.setSlot (seq % cfg.capacity) s).append v) seq .stored := by
  have hlen : r.log.length = seq := h.length
  refine ⟨by simp [hlen, Phase.ahead], h.cursor, fun q => ?_, fun q hq => ?_,
    fun _ _ hv => (by cases hv), fun q hq => ?_⟩
  · rw [Ring.append_stampAt, Ring.stampAt_setSlot]
    split_ifs with he
    · exact Or.inr ⟨seq, he.symm, Or.inl ⟨hst, by simp [hlen]⟩⟩
    · rcases h.origin q with h0 | ⟨s', hm, ⟨hd, hl⟩ | ⟨_, rfl, _⟩⟩
      · exact Or.inl h0
      · exact Or.inr ⟨s', hm, Or.inl ⟨hd, by simp; omega⟩⟩
      · exact absurd hm.symm he
  · have hq' : q ≤ seq := by simp [hlen] at hq; omega
    rw [Ring.append_stampAt, Ring.stampAt_setSlot]
    split_ifs with he
    · omega
    · refine h.stamped q ?_
      rcases Nat.lt_or_eq_of_le hq' with hlt | rfl
      · omega
      · exact absurd rfl he
  · rw [Ring.append_stampAt, Ring.stampAt_setSlot] at hq
    rw [Ring.append_slots]
    split_ifs at hq with he
    · obtain rfl : q = seq := by omega
      rw [Ring.setSlot_slots_self]
      exact ⟨v, by simp [← hlen], hv⟩
    · obtain ⟨v', hl, hv'⟩ := h.content q hq
      rw [Ring.setSlot_slots_ne _ _ he]
      exact ⟨v', Ring.append_log_eq (r := r.setSlot _ s) hl, hv'⟩

/-- The cursor store, which also counts the message. -/
theorem Ok.announce {seq : Nat} (h : Ok cfg r seq .stored) (ret : List Nat) :
    Ok cfg { r with cursor := seq, returned := ret } (seq + 1) .quiet := by
  have hlen : r.log.length = seq + 1 := h.length
  refine ⟨hlen, by simp [expectedCursor], fun q => ?_, h.stamped, fun _ _ hv => (by cases hv),
    h.content⟩
  rcases h.origin q with h0 | ⟨s, hm, hd | ⟨_, _, v, off, hv⟩⟩
  · exact Or.inl h0
  · exact Or.inr ⟨s, hm, Or.inl hd⟩
  · cases hv

@[simp] theorem enter_seq (p : Publisher n) (c : PubCall n) : (p.enter c).seq = p.seq := by
  unfold Publisher.enter; split <;> rfl

@[simp] theorem full_seq (p : Publisher n) (c : PubCall n) : (p.full c).seq = p.seq := by
  unfold Publisher.full; split <;> rfl

@[simp] theorem enter_phase (p : Publisher n) (c : PubCall n) : phase (p.enter c).pc = .quiet := by
  unfold Publisher.enter; split <;> rfl

@[simp] theorem full_phase (p : Publisher n) (c : PubCall n) : phase (p.full c).pc = .quiet := by
  unfold Publisher.full; split <;> rfl

/-- All that a step of the publisher can do to the ring. -/
inductive Effect (cfg : Config) (r : Ring n) (p : Publisher n) : Ring n → Publisher n → Prop where
  | quiet {p' : Publisher n} (hseq : p'.seq = p.seq) (hp : phase p.pc = .quiet)
      (hp' : phase p'.pc = .quiet) : Effect cfg r p r p'
  | write {v : Value n} {rest : List (Value n)} {w w' : WritePc} {p' : Publisher n}
      (hseq : p'.seq = p.seq) (hp : p.pc = .write v rest w)
      (hw : ((r.slots (cfg.slot p.seq)).writeStep p.seq v w).2 = some w')
      (hp' : p'.pc = .write v rest w') :
      Effect cfg r p
        (r.setSlot (cfg.slot p.seq) ((r.slots (cfg.slot p.seq)).writeStep p.seq v w).1) p'
  | finish {v : Value n} {rest : List (Value n)} {w : WritePc} {p' : Publisher n}
      (hseq : p'.seq = p.seq) (hp : p.pc = .write v rest w)
      (hw : ((r.slots (cfg.slot p.seq)).writeStep p.seq v w).2 = none)
      (hp' : p'.pc = .cursor rest) :
      Effect cfg r p
        ((r.setSlot (cfg.slot p.seq) ((r.slots (cfg.slot p.seq)).writeStep p.seq v w).1).append v) p'
  | announce {rest : List (Value n)} {ret : List Nat} {p' : Publisher n}
      (hp : p.pc = .cursor rest) (hseq : p'.seq = u64 (p.seq + 1)) (hp' : phase p'.pc = .quiet) :
      Effect cfg r p { r with cursor := p.seq, returned := ret } p'

theorem step_effect (h : p.step cfg r t = some (r', t', p')) : Effect cfg r p r' p' := by
  unfold Publisher.step at h
  split at h
  case h_1 => cases h
  case h_2 c hp =>
    split at h
    · split at h <;> cases h <;> exact .quiet (by simp) (by rw [hp]; rfl) (by first | rfl | simp)
    · cases h
      exact .quiet (by simp) (by rw [hp]; rfl) (by simp)
  case h_3 c hp =>
    split at h <;> cases h
    exact .quiet rfl (by rw [hp]; rfl) rfl
  case h_4 hp =>
    split at h <;> cases h <;> exact .quiet rfl (by rw [hp]; rfl) rfl
  case h_5 hp =>
    dsimp only at h
    split at h
    · split at h <;> cases h <;> exact .quiet (by simp) (by rw [hp]; rfl) (by simp)
    · cases h
      exact .quiet (by simp) (by rw [hp]; rfl) (by simp)
  case h_6 hp => cases h; exact .quiet rfl (by rw [hp]; rfl) rfl
  case h_7 hp => cases h; exact .quiet rfl (by rw [hp]; rfl) rfl
  case h_8 hp => cases h; exact .quiet rfl (by rw [hp]; rfl) rfl
  case h_9 hp =>
    dsimp only at h
    split at h <;> cases h
    · exact .write rfl hp ‹_› rfl
    · exact .finish rfl hp ‹_› rfl
  case h_10 hp =>
    dsimp only at h
    split at h <;> cases h <;> exact .announce hp rfl rfl

/-- A publisher at a slot access has the slot to itself. -/
theorem Ok.writable {seq : Nat} {pc : PubPc n} {v : Value n} {rest : List (Value n)} {w : WritePc}
    (h : Ok cfg r seq (phase pc)) (hp : pc = .write v rest w) :
    ∃ prev, prev < 2 * seq + 1 ∧ WriteOk (r.slots (seq % cfg.capacity)) seq prev v w := by
  subst hp
  cases w with
  | begin => exact ⟨_, h.stamp_lt, rfl⟩
  | store off => exact ⟨0, by omega, h.storing v off rfl⟩

/-- Every step of the publisher keeps its side of the ring, and does to the rest
of the system only what a reader tolerates. -/
theorem Effect.ok (he : Effect cfg r p r' p') (h : Ok cfg r p.seq (phase p.pc))
    (hl : r'.log.length < seqLimit) : Ok cfg r' p'.seq (phase p'.pc) ∧ r.Grows r' := by
  cases he with
  | quiet hseq hp hp' =>
    rw [hseq, hp', ← hp]
    exact ⟨h, Ring.Grows.refl _⟩
  | write hseq hp hw hp' =>
    have hlen := h.length
    have hlt : p.seq < seqLimit := by simp only [Ring.setSlot_log] at hl; omega
    rw [cfg.slot_eq_of_lt hlt] at hw ⊢
    obtain ⟨prev, hprev, hok⟩ := h.writable hp
    have hev := writeStep_evolves hlt hprev hok
    rcases writeStep_spec hlt hok with ⟨off, ho, hok'⟩ | ⟨_, hn, _⟩
    · obtain rfl := Option.some.inj (hw.symm.trans ho)
      rw [hseq, hp']
      refine ⟨h.store ?_ hok', Ring.setSlot_evolves hev, List.prefix_refl _,
        fun hc => ⟨hc, Nat.le_refl _⟩⟩
      rw [hp]
      unfold phase
      split <;> simp_all [Phase.ahead]
    · rw [hn] at hw
      cases hw
  | @finish v rest w _ hseq hp hw hp' =>
    have hlen := h.length
    have hlt : p.seq < seqLimit := by
      simp only [Ring.append_log, Ring.setSlot_log, List.length_append] at hl; omega
    rw [cfg.slot_eq_of_lt hlt] at hw ⊢
    obtain ⟨prev, hprev, hok⟩ := h.writable hp
    have hev := writeStep_evolves hlt hprev hok
    rcases writeStep_spec hlt hok with ⟨off, ho, _⟩ | ⟨⟨off, rfl⟩, _, hst, hv⟩
    · rw [hw] at ho
      cases ho
    · rw [hseq, hp']
      rw [hp] at h
      refine ⟨h.finish hst hv, ?_, by simp, fun hc => ⟨hc, Nat.le_refl _⟩⟩
      intro idx
      exact Ring.setSlot_evolves hev idx
  | announce hp hseq hp' =>
    rw [hp] at h
    have hlen : r.log.length = p.seq + 1 := h.length
    have hl' : r.log.length < seqLimit := hl
    have hcur := h.cursor
    unfold seqLimit at hl'
    rw [hseq, hp', u64_of_lt (by omega)]
    refine ⟨h.announce _, fun _ => Evolves.refl _, List.prefix_refl _, fun hc => ?_⟩
    unfold expectedCursor at hcur
    unfold u64Max at *
    split_ifs at hcur <;> dsimp only <;> omega

end PhotonRing.SpWriter
