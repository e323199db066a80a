import PhotonRing.Channel.MpPublisher

/-!
# The producers' side of an MPMC ring

Same-slot writers are told apart by the slot's stamp alone. A producer that has
passed `wait_for_slot` finds exactly the stamp of the lap before its own, and one
inside `Slot::write` finds its own odd stamp; both stamps name one sequence, and
one producer holds it. Nothing below depends on how far a producer has got with
the cursor, so all of `advance_cursor` counts as `published`.
-/
namespace PhotonRing.MpWriter

open Lib Lib.Seqlock

variable {n : Nat} {cfg : Config} {r r' : Ring n}

/-- What a producer is doing to its slot. -/
inductive Task (n : Nat) where
  | none
  | waiting (own : Nat) (v : Value n)
  | ready (own : Nat) (v : Value n)
  | storing (own : Nat) (v : Value n) (off : Nat)
  | published (own : Nat)

def task : MpPc n → Task n
  | .idle => .none
  | .claim _ => .none
  | .waitSlot own c => .waiting own c.value
  | .closure own v => .ready own v
  | .write own v .begin => .ready own v
  | .write own v (.store off) => .storing own v off
  | .cas own => .published own
  | .waitPred own => .published own
  | .recas own => .published own
  | .reload own => .published own
  | .catchNext own _ => .published own
  | .catchStamp own _ => .published own
  | .catchCas own _ => .published own

/-- The sequence the producer has claimed. -/
def Task.own? : Task n → Option Nat
  | .none => Option.none
  | .waiting own _ => some own
  | .ready own _ => some own
  | .storing own _ _ => some own
  | .published own => some own

/-- The claimed sequence whose slot write is not complete. -/
def Task.open? : Task n → Option Nat
  | .none => Option.none
  | .waiting own _ => some own
  | .ready own _ => some own
  | .storing own _ _ => some own
  | .published _ => Option.none

theorem Task.own_of_open {t : Task n} {s : Nat} (h : t.open? = some s) : t.own? = some s := by
  cases t <;> first | exact h | cases h

/-- The stamp that the lap before `own` leaves in the slot. -/
def prevDone (cfg : Config) (own : Nat) : Nat :=
  if own < cfg.capacity then 0 else 2 * (own - cfg.capacity) + 2

theorem prevDone_lt (cfg : Config) (own : Nat) : prevDone cfg own < 2 * own + 1 := by
  have := cfg.two_le
  unfold prevDone
  split_ifs <;> omega

theorem prevDone_even (cfg : Config) (own : Nat) : prevDone cfg own % 2 = 0 := by
  unfold prevDone
  split_ifs <;> omega

/-- Sequences of one slot are told apart by the stamp before them. -/
theorem prevDone_inj {own s : Nat} (hm : s % cfg.capacity = own % cfg.capacity)
    (h : prevDone cfg s = prevDone cfg own) : s = own := by
  unfold prevDone at h
  split_ifs at h with hs ho
  · rw [← Nat.mod_eq_of_lt hs, hm, Nat.mod_eq_of_lt ho]
  · omega

/-- An earlier sequence of the slot is complete once the stamp before `own` is there. -/
theorem le_prevDone {own s : Nat} (hm : s % cfg.capacity = own % cfg.capacity) (hlt : s < own) :
    2 * s + 2 ≤ prevDone cfg own := by
  have hlap := lap_le hm hlt
  unfold prevDone
  split_ifs <;> omega

def TaskOk (cfg : Config) (r : Ring n) : Task n → Prop
  | .none => True
  | .waiting own v => r.log[own]? = some v ∧ r.stampAt cfg own ≤ 2 * own
  | .ready own v => r.log[own]? = some v ∧ r.stampAt cfg own = prevDone cfg own
  | .storing own v off =>
    r.log[own]? = some v ∧ WriteOk (r.slots (own % cfg.capacity)) own 0 v (.store off)
  | .published own => 2 * own + 2 ≤ r.stampAt cfg own

structure Ok (cfg : Config) (r : Ring n) (ts : Nat → Task n) : Prop where
  next : r.nextSeq = r.log.length
  own_lt : ∀ p s, (ts p).own? = some s → s < r.log.length
  unique : ∀ p q s, (ts p).own? = some s → (ts q).own? = some s → p = q
  origin : ∀ q, r.stampAt cfg q = 0 ∨ ∃ s, s % cfg.capacity = q % cfg.capacity ∧
    s < r.log.length ∧ (r.stampAt cfg q = 2 * s + 1 ∨ r.stampAt cfg q = 2 * s + 2)
  claimed : ∀ s < r.log.length, 2 * s + 2 ≤ r.stampAt cfg s ∨ ∃ p, (ts p).open? = some s
  tasks : ∀ p, TaskOk cfg r (ts p)
  content : ∀ s, r.stampAt cfg s = 2 * s + 2 →
    ∃ v, r.log[s]? = some v ∧ (r.slots (s % cfg.capacity)).value = bytesOf v

theorem ok_new (cfg : Config) : Ok cfg (Ring.new n) (fun _ => .none) where
  next := rfl
  own_lt := fun _ _ h => by cases h
  unique := fun _ _ _ h => by cases h
  origin := fun _ => Or.inl rfl
  claimed := fun s hs => absurd hs (Nat.not_lt_zero s)
  tasks := fun _ => trivial
  content := (Ring.new_ok cfg).content

/-- A claimed slot is free for its owner: exactly the previous lap's stamp is there. -/
theorem TaskOk.pass {own : Nat} {v : Value n} {ts : Nat → Task n} (h : Ok cfg r ts)
    (ht : TaskOk cfg r (.waiting own v))
    (hpass : own < cfg.capacity ∨ 2 * (own - cfg.capacity) + 2 ≤ r.stampAt cfg own) :
    TaskOk cfg r (.ready own v) := by
  refine ⟨ht.1, ?_⟩
  have hle := ht.2
  have hcap := cfg.two_le
  unfold prevDone
  rcases h.origin own with h0 | ⟨s, hm, _, hst⟩
  · rw [h0] at hpass ⊢
    split_ifs <;> omega
  · have hlap := lap_le hm (show s < own by omega)
    split_ifs <;> omega

/-- Storing into a slot that another producer owns disturbs nobody else. -/
theorem TaskOk.other {own : Nat} {s : Slot n} {t : Task n}
    (hold : r.stampAt cfg own = prevDone cfg own ∨ r.stampAt cfg own = 2 * own + 1)
    (hle : r.stampAt cfg own ≤ s.stamp) (hnew : s.stamp ≤ 2 * own + 2) (hne : t.own? ≠ some own)
    (ht : TaskOk cfg r t) : TaskOk cfg (r.setSlot (own % cfg.capacity) s) t := by
  have hpe := prevDone_even cfg own
  cases t with
  | none => trivial
  | waiting q v =>
    refine ⟨ht.1, ?_⟩
    have hq := ht.2
    rw [Ring.stampAt_setSlot]
    split_ifs with he
    · have heq : r.stampAt cfg q = r.stampAt cfg own := by unfold Ring.stampAt; rw [he]
      have hqo : q ≠ own := fun h => hne (by rw [h]; rfl)
      rcases Nat.lt_or_gt_of_ne hqo with hlt | hgt
      · have hp := le_prevDone he hlt
        have := prevDone_lt cfg own
        omega
      · omega
    · exact hq
  | ready q v =>
    refine ⟨ht.1, ?_⟩
    have hq := ht.2
    rw [Ring.stampAt_setSlot]
    split_ifs with he
    · have heq : r.stampAt cfg q = r.stampAt cfg own := by unfold Ring.stampAt; rw [he]
      exfalso
      rcases hold with hp | ho
      · exact hne (by rw [prevDone_inj he (by omega)]; rfl)
      · have := prevDone_even cfg q
        omega
    · exact hq
  | storing q v off =>
    refine ⟨ht.1, ?_⟩
    by_cases he : q % cfg.capacity = own % cfg.capacity
    · have heq : r.stampAt cfg q = r.stampAt cfg own := by unfold Ring.stampAt; rw [he]
      have hq : r.stampAt cfg q = 2 * q + 1 := ht.2.1
      exfalso
      rcases hold with hp | ho
      · omega
      · exact hne (by rw [show q = own by omega]; rfl)
    · rw [Ring.setSlot_slots_ne _ _ he]
      exact ht.2
  | published q =>
    have hq : 2 * q + 2 ≤ r.stampAt cfg q := ht
    change 2 * q + 2 ≤ (r.setSlot (own % cfg.capacity) s).stampAt cfg q
    rw [Ring.stampAt_setSlot]
    split_ifs with he
    · have heq : r.stampAt cfg q = r.stampAt cfg own := by unfold Ring.stampAt; rw [he]
      omega
    · exact hq

/-- Replacing one producer's task, where its claim and its open write stay the same. -/
theorem Ok.retask {ts : Nat → Task n} {p : Nat} {t : Task n} (h : Ok cfg r ts)
    (hslots : r'.slots = r.slots) (hlog : r'.log = r.log) (hnext : r'.nextSeq = r.nextSeq)
    (hown : ∀ s, t.own? = some s → (ts p).own? = some s) (hopen : t.open? = (ts p).open?)
    (ht : TaskOk cfg r t) : Ok cfg r' (Function.update ts p t) := by
  have hat : ∀ q, r'.stampAt cfg q = r.stampAt cfg q := fun q => by
    unfold Ring.stampAt; rw [hslots]
  have hown' : ∀ q s, (Function.update ts p t q).own? = some s → (ts q).own? = some s := by
    intro q s hq
    by_cases hqp : q = p
    · subst hqp
      rw [Function.update_self] at hq
      exact hown s hq
    · rwa [Function.update_of_ne hqp] at hq
  refine ⟨by rw [hnext, hlog, h.next], fun q s hq => ?_, fun q q' s hq hq' => ?_, fun q => ?_,
    fun s hs => ?_, fun q => ?_, fun s hs => ?_⟩
  · rw [hlog]; exact h.own_lt q s (hown' q s hq)
  · exact h.unique q q' s (hown' q s hq) (hown' q' s hq')
  · rw [hat, hlog]; exact h.origin q
  · rw [hlog] at hs
    rw [hat]
    rcases h.claimed s hs with hd | ⟨q, hq⟩
    · exact Or.inl hd
    · refine Or.inr ⟨q, ?_⟩
      by_cases hqp : q = p
      · subst hqp; rw [Function.update_self, hopen]; exact hq
      · rw [Function.update_of_ne hqp]; exact hq
  · have hstable : ∀ t, TaskOk cfg r t → TaskOk cfg r' t := by
      intro t' ht'
      cases t' <;> simp only [TaskOk, hlog, hat, hslots] <;> exact ht'
    by_cases hqp : q = p
    · subst hqp; rw [Function.update_self]; exact hstable t ht
    · rw [Function.update_of_ne hqp]; exact hstable _ (h.tasks q)
  · rw [hat] at hs
    rw [hlog, hslots]
    exact h.content s hs

/-- `fetch_add` claims the next sequence, whose slot no later lap has touched. -/
theorem Ok.claim {ts : Nat → Task n} {p : Nat} (h : Ok cfg r ts) (hp : (ts p).own? = none)
    (hl : r.log.length + 1 < seqLimit) (v : Value n) :
    Ok cfg ({ r with nextSeq := u64 (r.nextSeq + 1) }.append v)
      (Function.update ts p (.waiting r.nextSeq v)) := by
  have hnext := h.next
  have hne : ∀ q, q ≠ p → Function.update ts p (.waiting r.nextSeq v) q = ts q :=
    fun q hq => Function.update_of_ne hq ..
  have hself : Function.update ts p (.waiting r.nextSeq v) p = .waiting r.nextSeq v :=
    Function.update_self ..
  have hlog : ∀ {s : Nat} {u : Value n}, r.log[s]? = some u →
      ({ r with nextSeq := u64 (r.nextSeq + 1) }.append v).log[s]? = some u :=
    fun hs => Ring.append_log_eq (r := { r with nextSeq := u64 (r.nextSeq + 1) }) hs
  refine ⟨?_, fun q s hq => ?_, fun q q' s hq hq' => ?_, fun q => ?_, fun s hs => ?_,
    fun q => ?_, fun s hs => ?_⟩
  · unfold seqLimit at hl
    simp only [Ring.append_nextSeq, Ring.append_log, List.length_append, List.length_singleton, hnext]
    exact u64_of_lt (by omega)
  · simp only [Ring.append_log, List.length_append, List.length_singleton]
    by_cases hqp : q = p
    · rw [hqp, hself] at hq
      obtain rfl := Option.some.inj hq
      omega
    · rw [hne q hqp] at hq
      have := h.own_lt q s hq
      omega
  · have hfresh : ∀ a b, a ≠ p → b = p → (Function.update ts p (.waiting r.nextSeq v) a).own? = some s →
        (Function.update ts p (.waiting r.nextSeq v) b).own? = some s → False := by
      intro a b ha hb hsa hsb
      rw [hne a ha] at hsa
      rw [hb, hself] at hsb
      obtain rfl := Option.some.inj hsb
      have := h.own_lt a _ hsa
      omega
    by_cases hqp : q = p
    · by_cases hqp' : q' = p
      · rw [hqp, hqp']
      · exact (hfresh q' q hqp' hqp hq' hq).elim
    · by_cases hqp' : q' = p
      · exact (hfresh q q' hqp hqp' hq hq').elim
      · rw [hne q hqp] at hq
        rw [hne q' hqp'] at hq'
        exact h.unique q q' s hq hq'
  · rcases h.origin q with h0 | ⟨s, hm, hs, hst⟩
    · exact Or.inl h0
    · exact Or.inr ⟨s, hm, by simp; omega, hst⟩
  · simp only [Ring.append_log, List.length_append, List.length_singleton] at hs
    by_cases hlt : s < r.log.length
    · rcases h.claimed s hlt with hd | ⟨q, hq⟩
      · exact Or.inl hd
      · refine Or.inr ⟨q, ?_⟩
        have hqp : q ≠ p := by
          rintro rfl
          rw [Task.own_of_open hq] at hp
          cases hp
        rw [hne q hqp]
        exact hq
    · refine Or.inr ⟨p, ?_⟩
      rw [hself, show s = r.nextSeq by omega]
      rfl
  · by_cases hqp : q = p
    · rw [hqp, hself]
      refine ⟨by simp [hnext], ?_⟩
      change r.stampAt cfg r.nextSeq ≤ 2 * r.nextSeq
      rcases h.origin r.nextSeq with h0 | ⟨s, _, hs, hst⟩ <;> omega
    · rw [hne q hqp]
      have ht := h.tasks q
      revert ht
      cases ts q with
      | none => exact fun _ => trivial
      | waiting own u => exact fun ht => ⟨hlog ht.1, ht.2⟩
      | ready own u => exact fun ht => ⟨hlog ht.1, ht.2⟩
      | storing own u off => exact fun ht => ⟨hlog ht.1, ht.2⟩
      | published own => exact fun ht => ht
  · obtain ⟨u, hu, hv⟩ := h.content s hs
    exact ⟨u, hlog hu, hv⟩

/-- Any access of a slot write, by the producer that holds the sequence. -/
theorem Ok.write {ts : Nat → Task n} {p own : Nat} {v : Value n} {s : Slot n} {t : Task n}
    (h : Ok cfg r ts) (hopen : (ts p).open? = some own)
    (hold : r.stampAt cfg own = prevDone cfg own ∨ r.stampAt cfg own = 2 * own + 1)
    (hle : r.stampAt cfg own ≤ s.stamp) (hv : r.log[own]? = some v)
    (ht : (∃ off, t = .storing own v off ∧ WriteOk s own 0 v (.store off)) ∨
      (t = .published own ∧ s.stamp = 2 * own + 2 ∧ s.value = bytesOf v)) :
    Ok cfg (r.setSlot (own % cfg.capacity) s) (Function.update ts p t) := by
  have hown : (ts p).own? = some own := Task.own_of_open hopen
  have hst : s.stamp = 2 * own + 1 ∨ s.stamp = 2 * own + 2 := by
    rcases ht with ⟨off, _, hw⟩ | ⟨_, hs, _⟩
    · exact Or.inl hw.1
    · exact Or.inr hs
  have hto : t.own? = some own := by
    rcases ht with ⟨off, rfl, _⟩ | ⟨rfl, _⟩ <;> rfl
  have hown' : ∀ q s', (Function.update ts p t q).own? = some s' → (ts q).own? = some s' := by
    intro q s' hq
    by_cases hqp : q = p
    · subst hqp
      rw [Function.update_self, hto] at hq
      rw [hown, hq]
    · rwa [Function.update_of_ne hqp] at hq
  refine ⟨h.next, fun q s' hq => h.own_lt q s' (hown' q s' hq),
    fun q q' s' hq hq' => h.unique q q' s' (hown' q s' hq) (hown' q' s' hq'), fun q => ?_,
    fun q hq => ?_, fun q => ?_, fun q hq => ?_⟩
  · rw [Ring.stampAt_setSlot]
    split_ifs with he
    · exact Or.inr ⟨own, he.symm, h.own_lt p own hown, hst⟩
    · exact h.origin q
  · by_cases hqo : q = own
    · subst hqo
      rcases ht with ⟨off, rfl, _⟩ | ⟨_, hs, _⟩
      · exact Or.inr ⟨p, by rw [Function.update_self]; rfl⟩
      · left
        rw [Ring.stampAt_setSlot, if_pos rfl]
        omega
    · rcases h.claimed q hq with hd | ⟨q', hq'⟩
      · left
        rw [Ring.stampAt_setSlot]
        split_ifs with he
        · have heq : r.stampAt cfg q = r.stampAt cfg own := by unfold Ring.stampAt; rw [he]
          omega
        · exact hd
      · refine Or.inr ⟨q', ?_⟩
        have hne : q' ≠ p := by
          rintro rfl
          rw [hopen] at hq'
          exact hqo (Option.some.inj hq').symm
        rw [Function.update_of_ne hne]
        exact hq'
  · by_cases hqp : q = p
    · subst hqp
      rw [Function.update_self]
      rcases ht with ⟨off, rfl, hw⟩ | ⟨rfl, hs, _⟩
      · refine ⟨hv, ?_⟩
        rw [Ring.setSlot_slots_self]
        exact hw
      · change 2 * own + 2 ≤ Ring.stampAt _ _ _
        rw [Ring.stampAt_setSlot, if_pos rfl]
        omega
    · rw [Function.update_of_ne hqp]
      exact (h.tasks q).other hold hle (by omega) fun hq => hqp (h.unique q p own hq hown)
  · rw [Ring.stampAt_setSlot] at hq
    split_ifs at hq with he
    · rcases ht with ⟨_, _, hw⟩ | ⟨_, hs, hval⟩
      · have := hw.1
        omega
      · obtain rfl : q = own := by omega
        rw [Ring.setSlot_slots_self]
        exact ⟨v, hv, hval⟩
    · rw [Ring.setSlot_slots_ne _ _ he]
      exact h.content q hq

end PhotonRing.MpWriter
