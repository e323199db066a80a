import PhotonRing.Channel.MpWriter

/-!
# Advancing the shared cursor

No producer retries its CAS until it succeeds, so the cursor moves only because
somebody is always responsible for the next position: its own producer until the
second CAS, and whoever moved the cursor last until its catch-up scan has looked
at that position. `Responsible` names these program points; every step either
keeps a responsible producer or hands the position to another one.
-/
namespace PhotonRing.MpCursor

open Lib Lib.Seqlock MpWriter

variable {n : Nat} {cfg : Config} {r r' : Ring n} {ps : Nat → MpPc n}

/-- How many messages the cursor covers, which is also the next position. -/
def count (r : Ring n) : Nat := if r.cursor = u64Max then 0 else r.cursor + 1

/-- The cursor has reached `seq`. -/
def Reached (r : Ring n) (seq : Nat) : Prop := r.cursor ≠ u64Max ∧ seq ≤ r.cursor

/-- A producer that will still see to position `m`. -/
def Responsible (m : Nat) : MpPc n → Prop
  | .idle => False
  | .claim _ => False
  | .waitSlot own _ => own = m
  | .closure own _ => own = m
  | .write own _ _ => own = m
  | .cas own => own = m
  | .waitPred own => own = m
  | .recas own => own = m
  | .reload own => own + 1 = m
  | .catchNext _ seq => seq + 1 = m
  | .catchStamp _ seq => seq + 1 = m
  | .catchCas _ seq => seq + 1 = m

/-- What a producer has learnt from its last loads. -/
def PcOk (cfg : Config) (r : Ring n) : MpPc n → Prop
  | .catchNext _ seq => Reached r seq
  | .catchStamp _ seq => Reached r seq ∧ seq + 1 < r.nextSeq
  | .catchCas _ seq => Reached r seq ∧ seq + 1 < r.nextSeq ∧ 2 * (seq + 1) + 2 ≤ r.stampAt cfg (seq + 1)
  | _ => True

structure Ok (cfg : Config) (r : Ring n) (ps : Nat → MpPc n) : Prop where
  cursor_lt : r.cursor ≠ u64Max → r.cursor < r.nextSeq
  committed : r.cursor ≠ u64Max → ∀ s ≤ r.cursor, 2 * s + 2 ≤ r.stampAt cfg s
  pcs : ∀ p, PcOk cfg r (ps p)
  responsible : count r < r.nextSeq → ∃ p, Responsible (count r) (ps p)

theorem ok_new (cfg : Config) : Ok cfg (Ring.new n) (fun _ => .idle) where
  cursor_lt := fun h => absurd rfl h
  committed := fun h => absurd rfl h
  pcs := fun _ => trivial
  responsible := fun h => absurd h (Nat.not_lt_zero _)

theorem responsible_of_open {pc : MpPc n} {m : Nat} (h : (task pc).open? = some m) :
    Responsible m pc := by
  cases pc with
  | write own v w => cases w <;> exact Option.some.inj h
  | waitSlot own c => exact Option.some.inj h
  | closure own v => exact Option.some.inj h
  | _ => cases h

theorem expectedCursor_count (r : Ring n) : expectedCursor (count r) = r.cursor := by
  unfold expectedCursor count
  split_ifs <;> simp_all

theorem PcOk.mono {pc : MpPc n} (h : PcOk cfg r pc)
    (hcur : ∀ s, Reached r s → Reached r' s) (hnext : r.nextSeq ≤ r'.nextSeq)
    (hst : ∀ s, r.stampAt cfg s ≤ r'.stampAt cfg s) : PcOk cfg r' pc := by
  cases pc with
  | catchNext own seq => exact hcur _ h
  | catchStamp own seq => exact ⟨hcur _ h.1, h.2.trans_le hnext⟩
  | catchCas own seq => exact ⟨hcur _ h.1, h.2.1.trans_le hnext, h.2.2.trans (hst _)⟩
  | _ => trivial

/-- A step that leaves the cursor and the claims alone. The producer that moves
stays responsible, or somebody else is. -/
theorem Ok.quiet {p : Nat} {pc : MpPc n} (h : Ok cfg r ps) (hcur : r'.cursor = r.cursor)
    (hnext : r'.nextSeq = r.nextSeq) (hst : ∀ s, r.stampAt cfg s ≤ r'.stampAt cfg s)
    (hpc : PcOk cfg r' pc)
    (hresp : count r < r.nextSeq → Responsible (count r) (ps p) →
      Responsible (count r) pc ∨ ∃ q, q ≠ p ∧ Responsible (count r) (ps q)) :
    Ok cfg r' (Function.update ps p pc) := by
  have hcount : count r' = count r := by unfold count; rw [hcur]
  refine ⟨?_, ?_, ?_, ?_⟩
  · intro hc
    rw [hcur] at hc ⊢; rw [hnext]; exact h.cursor_lt hc
  · intro hc s hs
    rw [hcur] at hc hs; exact (h.committed hc s hs).trans (hst s)
  · intro q
    by_cases hq : q = p
    · rw [hq, Function.update_self]; exact hpc
    · rw [Function.update_of_ne hq]
      exact (h.pcs q).mono (fun s hs => by unfold Reached at *; rwa [hcur]) hnext.ge hst
  · intro hlt
    rw [hcount, hnext] at hlt
    rw [hcount]
    obtain ⟨q, hq⟩ := h.responsible hlt
    have hother : ∀ q', q' ≠ p → Responsible (count r) (ps q') →
        ∃ q, Responsible (count r) (Function.update ps p pc q) :=
      fun q' hne hr => ⟨q', by rwa [Function.update_of_ne hne]⟩
    by_cases hqp : q = p
    · subst hqp
      rcases hresp hlt hq with hs | ⟨q', hne, hr⟩
      · exact ⟨q, by rwa [Function.update_self]⟩
      · exact hother q' hne hr
    · exact hother q hqp hq

/-- A CAS moves the cursor to the next position, whose write is complete. The
producer that moved it answers for the position after. -/
theorem Ok.advance {p m : Nat} {pc : MpPc n} (h : Ok cfg r ps) (hlim : m < seqLimit)
    (hcur : r.cursor = expectedCursor m) (hm : m < r.nextSeq)
    (hdone : 2 * m + 2 ≤ r.stampAt cfg m) (hpc : PcOk cfg { r with cursor := m } pc)
    (hresp : Responsible (m + 1) pc) : Ok cfg { r with cursor := m } (Function.update ps p pc) := by
  have hmax : m ≠ u64Max := by unfold seqLimit at hlim; unfold u64Max; omega
  have hcount : count { r with cursor := m } = m + 1 := by unfold count; simp [hmax]
  refine ⟨fun _ => hm, fun _ s hs => ?_, fun q => ?_, fun _ => ⟨p, ?_⟩⟩
  · rcases Nat.lt_or_eq_of_le hs with hlt | rfl
    · have hlt' : s < m := hlt
      unfold expectedCursor at hcur
      rw [if_neg (by omega)] at hcur
      refine h.committed ?_ s (by omega)
      rw [hcur]; unfold seqLimit at hlim; unfold u64Max; omega
    · exact hdone
  · by_cases hq : q = p
    · rw [hq, Function.update_self]; exact hpc
    · rw [Function.update_of_ne hq]
      refine (h.pcs q).mono (fun s hs => ⟨hmax, ?_⟩) (Nat.le_refl _) (fun _ => Nat.le_refl _)
      change s ≤ m
      have hs1 := hs.1
      have hs2 := hs.2
      unfold expectedCursor at hcur
      split_ifs at hcur with h0
      · exact absurd hcur hs1
      · omega
  · rw [hcount, Function.update_self]; exact hresp

/-- `fetch_add`: the claimant answers for its own position. -/
theorem Ok.claim {p : Nat} {c : MpCall n} (h : Ok cfg r ps) (hp : ps p = .claim c)
    (hl : r.nextSeq + 1 < seqLimit) :
    Ok cfg ({ r with nextSeq := u64 (r.nextSeq + 1) }.append c.value)
      (Function.update ps p (.waitSlot r.nextSeq c)) := by
  have hnext : ({ r with nextSeq := u64 (r.nextSeq + 1) }.append c.value).nextSeq = r.nextSeq + 1 :=
    u64_of_lt (by unfold seqLimit at hl; omega)
  refine ⟨?_, h.committed, ?_, ?_⟩
  · intro hc
    rw [hnext]
    have := h.cursor_lt hc
    exact this.trans (Nat.lt_succ_self _)
  · intro q
    by_cases hq : q = p
    · rw [hq, Function.update_self]; trivial
    · rw [Function.update_of_ne hq]
      exact (h.pcs q).mono (fun s hs => hs) (by rw [hnext]; omega) (fun _ => Nat.le_refl _)
  · intro hlt
    rw [hnext] at hlt
    by_cases hm : count r < r.nextSeq
    · obtain ⟨q, hq⟩ := h.responsible hm
      have hqp : q ≠ p := by
        rintro rfl
        rw [hp] at hq
        exact hq
      exact ⟨q, by rw [Function.update_of_ne hqp]; exact hq⟩
    · refine ⟨p, ?_⟩
      rw [Function.update_self]
      change r.nextSeq = count r
      change count r < _ at hlt
      omega

/-! ## One step of a producer -/

/-- The stamps of slot `idx` of a ring of `c` slots, in the order they are stored. -/
def NextStamp (c idx old new : Nat) : Prop :=
  (old = 0 ∧ new = 2 * idx + 1) ∨
    ∃ s, s % c = idx ∧ ((old = 2 * s + 1 ∧ new = 2 * s + 2) ∨ (old = 2 * s + 2 ∧ new = 2 * (s + c) + 1))

/-- What a producer's step does to the ring. -/
structure Moves (cfg : Config) (r r' : Ring n) : Prop where
  grows : r.Grows r'
  cursor : r'.cursor = r.cursor ∨ (r.cursor = expectedCursor r'.cursor ∧ r'.cursor < seqLimit)
  stamps : ∀ idx < cfg.capacity, (r'.slots idx).stamp = (r.slots idx).stamp ∨
    NextStamp cfg.capacity idx (r.slots idx).stamp (r'.slots idx).stamp

theorem Moves.refl (cfg : Config) (r : Ring n) : Moves cfg r r :=
  ⟨Ring.Grows.refl r, Or.inl rfl, fun _ _ => Or.inl rfl⟩

/-- Both sides of the producers' state. -/
structure Sound (cfg : Config) (r : Ring n) (ps : Nat → MpPc n) : Prop where
  writers : MpWriter.Ok cfg r (fun p => task (ps p))
  cursor : Ok cfg r ps

theorem task_update (ps : Nat → MpPc n) (p : Nat) (pc : MpPc n) :
    (fun q => task (Function.update ps p pc q)) = Function.update (fun q => task (ps q)) p (task pc) := by
  funext q
  by_cases h : q = p
  · subst h; rw [Function.update_self, Function.update_self]
  · rw [Function.update_of_ne h, Function.update_of_ne h]

/-- A step that moves only the producer itself. -/
theorem Sound.local {p : Nat} {pc : MpPc n} {ret : List Nat} (h : Sound cfg r ps)
    (hown : ∀ s, (task pc).own? = some s → (task (ps p)).own? = some s)
    (hopen : (task pc).open? = (task (ps p)).open?) (htask : TaskOk cfg r (task pc))
    (hpc : PcOk cfg r pc)
    (hresp : count r < r.nextSeq → Responsible (count r) (ps p) →
      Responsible (count r) pc ∨ ∃ q, q ≠ p ∧ Responsible (count r) (ps q)) :
    Sound cfg { r with returned := ret } (Function.update ps p pc) ∧
      Moves cfg r { r with returned := ret } := by
  refine ⟨⟨?_, ?_⟩, ⟨fun _ => Evolves.refl _, List.prefix_refl _, fun hc => ⟨hc, Nat.le_refl _⟩⟩,
    Or.inl rfl, fun _ _ => Or.inl rfl⟩
  · rw [task_update]
    exact h.writers.retask rfl rfl rfl hown hopen htask
  · refine h.cursor.quiet rfl rfl (fun _ => Nat.le_refl _) ?_ hresp
    exact hpc.mono (fun _ hs => hs) (Nat.le_refl _) (fun _ => Nat.le_refl _)

/-- A step of `advance_cursor` or the catch-up loop that stays in it. -/
theorem Sound.stay {p own : Nat} {pc : MpPc n} (h : Sound cfg r ps)
    (hp : task (ps p) = .published own) (ht : task pc = .published own) (hpc : PcOk cfg r pc)
    (hresp : Responsible (count r) (ps p) → Responsible (count r) pc) :
    Sound cfg r (Function.update ps p pc) ∧ Moves cfg r r := by
  have htask := h.writers.tasks p
  rw [hp] at htask
  exact h.local (by rw [hp, ht]; exact fun _ hs => hs) (by rw [hp, ht]) (by rw [ht]; exact htask) hpc
    (fun _ hr => Or.inl (hresp hr))

/-- The call returns; somebody else answers for the next position. -/
theorem Sound.ret {p own : Nat} (h : Sound cfg r ps) (hp : task (ps p) = .published own)
    (hresp : count r < r.nextSeq → Responsible (count r) (ps p) →
      ∃ q, q ≠ p ∧ Responsible (count r) (ps q)) :
    Sound cfg (MpPc.ret r own).1 (Function.update ps p (MpPc.ret r own).2) ∧
      Moves cfg r (MpPc.ret r own).1 :=
  h.local (fun s hs => by cases hs) (by rw [hp]; rfl) trivial trivial
    (fun hlt hr => Or.inr (hresp hlt hr))

/-- A successful CAS. -/
theorem Sound.advance {p own m : Nat} {pc : MpPc n} (h : Sound cfg r ps)
    (hp : task (ps p) = .published own) (ht : task pc = .published own) (hlim : m < seqLimit)
    (hcur : r.cursor = expectedCursor m) (hm : m < r.nextSeq)
    (hdone : 2 * m + 2 ≤ r.stampAt cfg m) (hpc : PcOk cfg { r with cursor := m } pc)
    (hresp : Responsible (m + 1) pc) :
    Sound cfg { r with cursor := m } (Function.update ps p pc) ∧
      Moves cfg r { r with cursor := m } := by
  have htask := h.writers.tasks p
  rw [hp] at htask
  have hmax : m ≠ u64Max := by unfold seqLimit at hlim; unfold u64Max; omega
  refine ⟨⟨?_, h.cursor.advance hlim hcur hm hdone hpc hresp⟩,
    ⟨fun _ => Evolves.refl _, List.prefix_refl _, fun hc => ⟨hmax, ?_⟩⟩,
    Or.inr ⟨hcur, hlim⟩, fun _ _ => Or.inl rfl⟩
  · rw [task_update]
    exact h.writers.retask rfl rfl rfl (by rw [hp, ht]; exact fun _ hs => hs) (by rw [hp, ht])
      (by rw [ht]; exact htask)
  · change r.cursor ≤ m
    unfold expectedCursor at hcur
    split_ifs at hcur with h0
    · exact absurd hcur hc
    · omega

/-- A producer at a slot access has the slot to itself. -/
theorem Sound.writable {p own : Nat} {v : Value n} {w : WritePc} (h : Sound cfg r ps)
    (hp : ps p = .write own v w) :
    r.log[own]? = some v ∧ (task (ps p)).open? = some own ∧
      (w = .begin ∧ r.stampAt cfg own = prevDone cfg own ∨
        ∃ off, w = .store off ∧ r.stampAt cfg own = 2 * own + 1) ∧
      ∃ prev, prev < 2 * own + 1 ∧ WriteOk (r.slots (own % cfg.capacity)) own prev v w := by
  have ht := h.writers.tasks p
  rw [hp] at ht
  rw [hp]
  cases w with
  | begin => exact ⟨ht.1, rfl, Or.inl ⟨rfl, ht.2⟩, _, prevDone_lt cfg own, ht.2⟩
  | store off => exact ⟨ht.1, rfl, Or.inr ⟨off, rfl, ht.2.1⟩, 0, by omega, ht.2⟩

/-- The stamp a slot access leaves is the next one of its slot. -/
theorem next_stamp {own : Nat} {w : WritePc} {s : Slot n}
    (hw : w = .begin ∧ r.stampAt cfg own = prevDone cfg own ∨
      ∃ off, w = .store off ∧ r.stampAt cfg own = 2 * own + 1)
    (hs : s.stamp = 2 * own + 1 ∨ ((∃ off, w = .store off) ∧ s.stamp = 2 * own + 2)) :
    s.stamp = r.stampAt cfg own ∨
      NextStamp cfg.capacity (own % cfg.capacity) (r.stampAt cfg own) s.stamp := by
  rcases hw with ⟨rfl, hst⟩ | ⟨off, rfl, hst⟩
  · obtain hs | ⟨⟨off, hoff⟩, _⟩ := hs
    · right
      rw [hst, hs]
      unfold prevDone
      split_ifs with hlt
      · exact Or.inl ⟨rfl, by rw [Nat.mod_eq_of_lt hlt]⟩
      · refine Or.inr ⟨own - cfg.capacity, sub_lap_mod (by omega), Or.inr ⟨rfl, ?_⟩⟩
        omega
    · cases hoff
  · rcases hs with hs | ⟨_, hs⟩
    · exact Or.inl (hs.trans hst.symm)
    · exact Or.inr (Or.inr ⟨own, rfl, Or.inl ⟨hst, hs⟩⟩)

theorem setSlot_moves {own : Nat} {s : Slot n} (hev : Evolves (r.slots (own % cfg.capacity)) s)
    (hs : s.stamp = r.stampAt cfg own ∨
      NextStamp cfg.capacity (own % cfg.capacity) (r.stampAt cfg own) s.stamp) :
    Moves cfg r (r.setSlot (own % cfg.capacity) s) := by
  refine ⟨⟨Ring.setSlot_evolves hev, List.prefix_refl _, fun hc => ⟨hc, Nat.le_refl _⟩⟩,
    Or.inl rfl, fun idx _ => ?_⟩
  by_cases he : idx = own % cfg.capacity
  · rw [he, Ring.setSlot_slots_self]; exact hs
  · rw [Ring.setSlot_slots_ne _ _ he]; exact Or.inl rfl

theorem Sound.write {p own : Nat} {v : Value n} {w : WritePc} (h : Sound cfg r ps)
    (hp : ps p = .write own v w) (hlim : own < seqLimit) :
    ∃ pc, MpPc.step cfg r (ps p) = some (r.setSlot (own % cfg.capacity)
        ((r.slots (own % cfg.capacity)).writeStep own v w).1, pc) ∧
      Sound cfg (r.setSlot (own % cfg.capacity) ((r.slots (own % cfg.capacity)).writeStep own v w).1)
        (Function.update ps p pc) ∧
      Moves cfg r (r.setSlot (own % cfg.capacity)
        ((r.slots (own % cfg.capacity)).writeStep own v w).1) := by
  obtain ⟨hv, hopen, hst, prev, hprev, hok⟩ := h.writable hp
  have hev := writeStep_evolves hlim hprev hok
  have hold : r.stampAt cfg own = prevDone cfg own ∨ r.stampAt cfg own = 2 * own + 1 := by
    rcases hst with ⟨_, hs⟩ | ⟨_, _, hs⟩
    · exact Or.inl hs
    · exact Or.inr hs
  have hcur : ∀ s : Slot n, Evolves (r.slots (own % cfg.capacity)) s → ∀ pc, PcOk cfg r pc →
      Responsible own pc → Ok cfg (r.setSlot (own % cfg.capacity) s) (Function.update ps p pc) := by
    intro s hs pc hpc hr
    have hmono : ∀ q, r.stampAt cfg q ≤ (r.setSlot (own % cfg.capacity) s).stampAt cfg q :=
      fun q => (Ring.setSlot_evolves hs _).stamp_le
    refine h.cursor.quiet rfl rfl hmono (hpc.mono (fun _ hs => hs) (Nat.le_refl _) hmono) ?_
    intro _ hr'
    rw [hp] at hr'
    obtain rfl : own = count r := hr'
    exact Or.inl hr
  rcases writeStep_spec hlim hok with ⟨off, ho, hok'⟩ | ⟨hoff, hn, hs, hval⟩
  · refine ⟨.write own v (.store off), ?_, ⟨?_, hcur _ hev _ trivial rfl⟩,
      setSlot_moves hev (next_stamp hst (Or.inl hok'.1))⟩
    · rw [hp]
      simp only [MpPc.step, cfg.slot_eq_of_lt hlim, ho]
    · rw [task_update]
      exact h.writers.write hopen hold hev.stamp_le hv (Or.inl ⟨off, rfl, hok'⟩)
  · refine ⟨.cas own, ?_, ⟨?_, hcur _ hev _ trivial rfl⟩,
      setSlot_moves hev (next_stamp hst (Or.inr ⟨hoff, hs⟩))⟩
    · rw [hp]
      simp only [MpPc.step, cfg.slot_eq_of_lt hlim, hn]
    · rw [task_update]
      exact h.writers.write hopen hold hev.stamp_le hv (Or.inr ⟨rfl, hs, hval⟩)

/-- The history only grows. -/
theorem step_log_le {pc pc' : MpPc n} (h : pc.step cfg r = some (r', pc')) :
    r.log.length ≤ r'.log.length := by
  cases pc <;> simp only [MpPc.step, MpPc.ret] at h <;> (try split at h) <;> (try split at h) <;>
    cases h <;> simp

/-- Every step of a producer keeps both sides, and does to the rest of the system
only what a reader tolerates. -/
theorem Sound.step {p : Nat} {pc : MpPc n} (h : Sound cfg r ps)
    (hstep : (ps p).step cfg r = some (r', pc)) (hl : r'.log.length < seqLimit) :
    Sound cfg r' (Function.update ps p pc) ∧ Moves cfg r r' := by
  have hlog : r.log.length < seqLimit := (step_log_le hstep).trans_lt hl
  have hnext := h.writers.next
  have hown : ∀ own, (task (ps p)).own? = some own → own < r.log.length :=
    fun own => h.writers.own_lt p own
  have htask := h.writers.tasks p
  have hpcs := h.cursor.pcs p
  have hcount := expectedCursor_count r
  have hword : ∀ {s : Nat}, s < seqLimit → u64 (s + 1) = s + 1 := by
    intro s hs; unfold seqLimit at hs; exact u64_of_lt (by omega)
  generalize hp : ps p = pc₀ at hstep hown htask hpcs
  cases pc₀ with
  | idle => cases hstep
  | claim c =>
    obtain ⟨rfl, rfl⟩ : _ ∧ _ := by simpa [MpPc.step] using hstep
    simp only [Ring.append_log, List.length_append, List.length_singleton] at hl
    refine ⟨⟨?_, h.cursor.claim hp (by omega)⟩,
      ⟨fun _ => Evolves.refl _, ⟨[c.value], rfl⟩, fun hc => ⟨hc, Nat.le_refl _⟩⟩,
      Or.inl rfl, fun _ _ => Or.inl rfl⟩
    rw [task_update]
    exact h.writers.claim (by rw [hp]; rfl) (by omega) c.value
  | waitSlot own c =>
    have hlt := hown own rfl
    have hpass : (own < cfg.capacity ∨ 2 * (own - cfg.capacity) + 2 ≤ r.stampAt cfg own) →
        r' = r → pc = MpPc.written own c → Sound cfg r' (Function.update ps p pc) ∧ Moves cfg r r' := by
      rintro hready rfl rfl
      have hrd := TaskOk.pass h.writers htask hready
      have hw : task (MpPc.written own c) = .ready own c.value := by
        unfold MpPc.written; split_ifs <;> rfl
      refine h.local (by rw [hw, hp]; exact fun _ hs => hs) (by rw [hw, hp]; rfl)
        (by rw [hw]; exact hrd) ?_ ?_
      · unfold MpPc.written; split_ifs <;> trivial
      · intro _ hr
        rw [hp] at hr
        left
        unfold MpPc.written
        split_ifs <;> exact hr
    simp only [MpPc.step] at hstep
    split_ifs at hstep with hcap hst
    · cases hstep
      exact hpass (Or.inl hcap) rfl rfl
    · cases hstep
      rw [← hp, Function.update_eq_self]
      exact ⟨h, Moves.refl cfg _⟩
    · cases hstep
      rw [cfg.slot_eq_of_lt (by omega), u64_of_lt (by unfold seqLimit at hlog; omega)] at hst
      refine hpass (Or.inr ?_) rfl rfl
      unfold Ring.stampAt
      omega
  | closure own v =>
    cases hstep
    exact h.local (by rw [hp]; exact fun _ hs => hs) (by rw [hp]; rfl) htask trivial
      (fun _ hr => Or.inl (by rw [hp] at hr; exact hr))
  | write own v w =>
    obtain ⟨pc', hs, hsound, hmoves⟩ := h.write hp ((hown own (by cases w <;> rfl)).trans hlog)
    rw [hp, hstep] at hs
    cases hs
    exact ⟨hsound, hmoves⟩
  | cas own =>
    have hlt := hown own rfl
    simp only [MpPc.step] at hstep
    split_ifs at hstep with hcur h0 <;> cases hstep
    · have hmax : own ≠ u64Max := by unfold seqLimit at hlog; unfold u64Max; omega
      exact h.advance (by rw [hp]; rfl) rfl (hlt.trans hlog) hcur (by omega) htask
        ⟨hmax, Nat.le_refl own⟩ rfl
    · exact h.stay (by rw [hp]; rfl) rfl trivial (by rw [hp]; exact fun hr => hr)
    · exact h.stay (by rw [hp]; rfl) rfl trivial (by rw [hp]; exact fun hr => hr)
  | waitPred own =>
    simp only [MpPc.step] at hstep
    split_ifs at hstep with hst <;> cases hstep
    · exact h.stay (by rw [hp]; rfl) rfl trivial (by rw [hp]; exact fun hr => hr)
    · exact h.stay (by rw [hp]; rfl) rfl trivial (by rw [hp]; exact fun hr => hr)
  | recas own =>
    have hlt := hown own rfl
    simp only [MpPc.step] at hstep
    split_ifs at hstep with hcur <;> cases hstep
    · exact h.advance (by rw [hp]; rfl) rfl (hlt.trans hlog) hcur (by omega) htask trivial rfl
    · refine h.stay (by rw [hp]; rfl) rfl trivial (fun hr => ?_)
      rw [hp] at hr
      obtain rfl : own = count r := hr
      exact absurd hcount.symm hcur
  | reload own =>
    have hlt := hown own rfl
    simp only [MpPc.step] at hstep
    split_ifs at hstep with hcur <;> cases hstep
    · have hmax : r.cursor ≠ u64Max := by unfold seqLimit at hlog; unfold u64Max; omega
      exact h.stay (by rw [hp]; rfl) rfl ⟨hmax, hcur.ge⟩ (by rw [hp]; exact fun hr => hr)
    · refine h.ret (by rw [hp]; rfl) (fun _ hr => ?_)
      rw [hp] at hr
      have hr' : own + 1 = count r := hr
      rw [← hr', expectedCursor, if_neg (by omega)] at hcount
      exact absurd hcount.symm (by omega)
  | catchNext own seq =>
    have hreach : Reached r seq := hpcs
    have hlt := h.cursor.cursor_lt hreach.1
    have hseq : seq < seqLimit := by have := hreach.2; omega
    simp only [MpPc.step, hword hseq] at hstep
    split_ifs at hstep with hn <;> cases hstep
    · refine h.ret (by rw [hp]; rfl) (fun hlt' hr => ?_)
      rw [hp] at hr
      have hr' : seq + 1 = count r := hr
      omega
    · exact h.stay (by rw [hp]; rfl) rfl ⟨hreach, by omega⟩ (by rw [hp]; exact fun hr => hr)
  | catchStamp own seq =>
    obtain ⟨hreach, hn⟩ : Reached r seq ∧ seq + 1 < r.nextSeq := hpcs
    have hseq : seq < seqLimit := by omega
    simp only [MpPc.step, hword hseq, cfg.slot_eq_of_lt (show seq + 1 < seqLimit by omega),
      u64_of_lt (show (seq + 1) * 2 + 2 < 2 ^ 64 by unfold seqLimit at hlog; omega)] at hstep
    split_ifs at hstep with hst <;> cases hstep
    · refine h.ret (by rw [hp]; rfl) (fun _ hr => ?_)
      rw [hp] at hr
      have hr' : seq + 1 = count r := hr
      rcases h.writers.claimed (seq + 1) (by omega) with hd | ⟨q, hq⟩
      · unfold Ring.stampAt at hd; omega
      · refine ⟨q, ?_, hr' ▸ responsible_of_open hq⟩
        rintro rfl
        simp only [hp] at hq
        cases hq
    · refine h.stay (by rw [hp]; rfl) rfl ⟨hreach, hn, ?_⟩ (by rw [hp]; exact fun hr => hr)
      unfold Ring.stampAt
      omega
  | catchCas own seq =>
    obtain ⟨hreach, hn, hdone⟩ : Reached r seq ∧ seq + 1 < r.nextSeq ∧
      2 * (seq + 1) + 2 ≤ r.stampAt cfg (seq + 1) := hpcs
    have hseq : seq < seqLimit := by omega
    simp only [MpPc.step, hword hseq] at hstep
    split_ifs at hstep with hcur <;> cases hstep
    · have hmax : seq + 1 ≠ u64Max := by unfold seqLimit at hlog; unfold u64Max; omega
      exact h.advance (by rw [hp]; rfl) rfl (by omega) (by rw [hcur]; simp [expectedCursor]) hn hdone
        ⟨hmax, Nat.le_refl _⟩ rfl
    · refine h.ret (by rw [hp]; rfl) (fun _ hr => ?_)
      rw [hp] at hr
      have hr' : seq + 1 = count r := hr
      rw [← hr', expectedCursor, if_neg (by omega)] at hcount
      exact absurd hcount.symm (by omega)

/-- With nobody left to answer for it, no position is missing. -/
theorem Sound.nextSeq_le_count (h : Sound cfg r ps) (hidle : ∀ p, ps p = .idle) : r.nextSeq ≤ count r := by
  by_contra hn
  obtain ⟨p, hp⟩ := h.cursor.responsible (by omega)
  rw [hidle p] at hp
  exact hp

end PhotonRing.MpCursor
