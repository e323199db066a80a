import PhotonRing.Lib.Solo
import PhotonRing.Channel.LogSpec
import PhotonRing.Channel.ReadSide

/-!
# Operations that nothing interrupts

Between operations the ring is quiet: the cursor stands at the last message and
every slot holds the last message of its lap. A call that runs alone from a quiet
ring comes to its end, and its outcome is read off the log.
-/
namespace PhotonRing.Solo

open Lib Lib.Seqlock Reader World LogSpec

variable {n : Nat} {cfg : Config} {r r' : Ring n} {t : Trackers} {i : Nat} {s : Subscriber n}

/-! ## A quiet ring -/

structure Quiet (cfg : Config) (r : Ring n) : Prop where
  ok : r.Ok cfg
  cursor : r.cursor = expectedCursor r.log.length
  origin : ∀ q, r.stampAt cfg q = 0 ∨
    ∃ s < r.log.length, s % cfg.capacity = q % cfg.capacity ∧ r.stampAt cfg q = 2 * s + 2
  stamped : ∀ s < r.log.length, 2 * s + 2 ≤ r.stampAt cfg s

theorem quiet_of_idle {w : World n} (h : Written cfg w)
    (hpub : w.publisher.pc = .idle) (hps : ∀ p, w.producers p = .idle) : Quiet cfg w.ring := by
  by_cases hk : cfg.kind = .mpmc
  · obtain ⟨hs, _⟩ := h.mpmc hk
    have hstamped : ∀ s < w.ring.log.length, 2 * s + 2 ≤ w.ring.stampAt cfg s := by
      intro s hs'
      rcases hs.writers.claimed s hs' with hd | ⟨p, hp⟩
      · exact hd
      · rw [hps p] at hp
        cases hp
    refine ⟨h.ring, ?_, ?_, hstamped⟩
    · have hcount := hs.nextSeq_le_count hps
      have hlt := hs.cursor.cursor_lt
      have hnext := hs.writers.next
      unfold MpCursor.count at hcount
      unfold expectedCursor
      split_ifs at hcount with hc
      · rw [hc, if_pos (by omega)]
      · have := hlt hc
        rw [if_neg (by omega)]
        omega
    · intro q
      rcases hs.writers.origin q with h0 | ⟨s, hm, hlt, hst | hst⟩
      · exact Or.inl h0
      · have hd := hstamped s hlt
        unfold Ring.stampAt at hd hst
        rw [hm] at hd
        omega
      · exact Or.inr ⟨s, hlt, hm, hst⟩
  · have hok := (h.single hk).1
    rw [hpub] at hok
    have hlen : w.ring.log.length = w.publisher.seq := hok.length
    refine ⟨h.ring, by rw [hlen]; exact hok.cursor, fun q => ?_, hok.stamped⟩
    rcases hok.origin q with h0 | ⟨s, hm, ⟨hst, hlt⟩ | ⟨_, _, v, off, hph⟩⟩
    · exact Or.inl h0
    · exact Or.inr ⟨s, hlt, hm, hst⟩
    · cases hph

/-- A position beyond the log: its slot holds an older message, or none. -/
theorem Quiet.ahead (h : Quiet cfg r) {q : Nat} (hq : r.log.length ≤ q) :
    r.stampAt cfg q < 2 * q + 2 ∧ r.stampAt cfg q % 2 = 0 := by
  rcases h.origin q with h0 | ⟨s, hlt, _, hst⟩ <;> omega

/-- A position of the last `capacity` messages: its slot holds it. -/
theorem Quiet.held (h : Quiet cfg r) {q : Nat} (hq : q < r.log.length)
    (hc : r.log.length ≤ q + cfg.capacity) : r.stampAt cfg q = 2 * q + 2 := by
  have hd := h.stamped q hq
  rcases h.origin q with h0 | ⟨s, hlt, hm, hst⟩
  · omega
  · have := lap_le_of_lt hm (by omega)
    omega

/-- An older position: its slot holds a later message. -/
theorem Quiet.passed (h : Quiet cfg r) {q : Nat} (hq : q + cfg.capacity < r.log.length) :
    2 * q + 2 < r.stampAt cfg q ∧ r.stampAt cfg q % 2 = 0 := by
  have hcap := cfg.two_le
  have hd := h.stamped (q + cfg.capacity) hq
  unfold Ring.stampAt at hd
  rw [Nat.add_mod_right] at hd
  change 2 * (q + cfg.capacity) + 2 ≤ r.stampAt cfg q at hd
  rcases h.origin q with h0 | ⟨s, hlt, _, hst⟩ <;> omega

theorem Quiet.head (h : Quiet cfg r) (hp : 0 < r.log.length) : r.cursor = r.log.length - 1 := by
  rw [h.cursor, expectedCursor, if_neg (by omega)]

/-! ## Reading alone -/

/-- The states of subscriber `i` and the trackers, moved by the subscriber's steps. -/
abbrev subStep (cfg : Config) (r : Ring n) (i : Nat) (x : Trackers × Subscriber n) :
    Option (Trackers × Subscriber n) := x.2.step cfg r x.1 i

def busy (s : Subscriber n) : Bool :=
  match s.pc with
  | .idle => false
  | .absent => false
  | .exited => false
  | .dropped => false
  | _ => true

/-- The payload loads of a slot that stays as it is end in a validated read. -/
theorem load_ends {Q : Trackers × Subscriber n → Prop} {c : Caller n}
    (hst : (r.slots (cfg.slot s.cursor)).stamp = done s.cursor)
    (hcont : Ends (fun x => busy x.2) (subStep cfg r i) Q (t, { s with
      cursor := u64 (s.cursor + 1), pc := .commit c (.ok (r.slots (cfg.slot s.cursor)).value) }))
    {off : Nat} {buf : Buf n} (hoff : off ≤ n)
    (hbuf : ∀ j : Fin n, j.val < off → buf j = (r.slots (cfg.slot s.cursor)).value j) :
    Ends (fun x => busy x.2) (subStep cfg r i) Q (t, { s with pc := .read c (.load off buf) }) := by
  obtain ⟨m, hm⟩ : ∃ m, n - off = m := ⟨_, rfl⟩
  induction m using Nat.strong_induction_on generalizing off buf with
  | _ m ih =>
    by_cases hlt : off < n
    · have hw := stripeWidth_pos (n - off)
      have hle := stripeWidth_le (show 0 < n - off by omega)
      refine .step (t := (t, { s with pc := .read c (.load (off + stripeWidth (n - off))
        (loadPayload buf (r.slots (cfg.slot s.cursor)).value off)) })) rfl ?_
        (ih (n - (off + stripeWidth (n - off))) (by omega) (by omega) ?_ rfl)
      · simp only [subStep, Subscriber.step, Slot.readStep, hlt, ↓reduceIte]
      · intro j hj
        rcases copyStripe_prefix buf (r.slots (cfg.slot s.cursor)).value j hj with ⟨hj', he⟩ | he
        · exact he.trans (hbuf j hj')
        · exact he
    · have hval : buf = (r.slots (cfg.slot s.cursor)).value := funext fun j => hbuf j (j.isLt.trans_le (by omega))
      refine .step rfl ?_ hcont
      simp only [subStep, Subscriber.step, Slot.readStep, hlt, ↓reduceIte, hst, Subscriber.onTryRead, hval]

/-- A read of a slot that carries the stamp it looks for. -/
theorem held_ends {Q : Trackers × Subscriber n → Prop} {c : Caller n}
    (hst : (r.slots (cfg.slot s.cursor)).stamp = done s.cursor)
    (hcont : Ends (fun x => busy x.2) (subStep cfg r i) Q (t, { s with
      cursor := u64 (s.cursor + 1), pc := .commit c (.ok (r.slots (cfg.slot s.cursor)).value) })) :
    Ends (fun x => busy x.2) (subStep cfg r i) Q (t, s.poll c) := by
  refine .step (t := (t, { s with pc := .read c (.load 0 (uninit n)) })) rfl ?_
    (load_ends hst hcont (Nat.zero_le n) (fun j hj => absurd hj (Nat.not_lt_zero _)))
  simp only [subStep, Subscriber.step, Subscriber.poll, Slot.readStep, hst, ↓reduceIte]

/-- A read of a message that its slot holds. -/
theorem read_ends {Q : Trackers × Subscriber n → Prop} {c : Caller n} (hr : r.Ok cfg)
    (hseq : s.cursor < seqLimit) (hst : r.stampAt cfg s.cursor = 2 * s.cursor + 2)
    (hcont : ∀ buf, Published r s.cursor buf → Ends (fun x => busy x.2) (subStep cfg r i) Q
      (t, { s with cursor := s.cursor + 1, pc := .commit c (.ok buf) })) :
    Ends (fun x => busy x.2) (subStep cfg r i) Q (t, s.poll c) := by
  have hslot := cfg.slot_eq_of_lt hseq
  have hword : u64 (s.cursor + 1) = s.cursor + 1 := u64_of_lt (by unfold seqLimit at hseq; omega)
  refine held_ends (by rw [hslot, done_eq hseq]; exact hst) ?_
  rw [hword, hslot]
  exact hcont _ (hr.content s.cursor hst)

/-- A read of a position whose slot holds another message. -/
theorem readStep_of_ne {q : Nat} (hseq : q < seqLimit) (hne : r.stampAt cfg q ≠ 2 * q + 2)
    (hev : r.stampAt cfg q % 2 = 0) :
    (r.slots (q % cfg.capacity)).readStep q .stamp = .inr (.other (r.stampAt cfg q)) := by
  have hne' : (r.slots (q % cfg.capacity)).stamp ≠ done q := by rw [done_eq hseq]; exact hne
  have hev' : (r.slots (q % cfg.capacity)).stamp % 2 = 0 := hev
  simp only [Slot.readStep, hne', hev', ne_eq, not_true_eq_false, ↓reduceIte]
  rfl

/-- `read_slot` on a slot that has been overwritten, on a ring with a head far enough ahead. -/
theorem lag_ends {Q : Trackers × Subscriber n → Prop} {c : Caller n} {stamp head : Nat} (hc : ThroughReadSlot c)
    (hread : (r.slots (cfg.slot s.cursor)).readStep s.cursor .stamp = .inr (.other stamp))
    (hev : stamp % 2 = 0) (hdone : done s.cursor ≤ stamp) (hhead : r.cursor = head)
    (hmax : head ≠ u64Max) (hcap : cfg.capacity ≤ head) (hlt : s.cursor < head - cfg.capacity + 1)
    (hcont : Ends (fun x => busy x.2) (subStep cfg r i) Q (t, { s with
      cursor := head - cfg.capacity + 1, pc := .commit c (.lagged (head - cfg.capacity + 1 - s.cursor)) })) :
    Ends (fun x => busy x.2) (subStep cfg r i) Q (t, s.poll c) := by
  have hbehind : ¬ (head = u64Max ∨ head < s.cursor) := by omega
  have hlate : ¬ stamp < done s.cursor := Nat.not_lt.mpr hdone
  refine .step (t := (t, { s with pc := .head c })) rfl ?_ (.step rfl ?_ hcont)
  · simp only [subStep, Subscriber.step, Subscriber.poll, hread, onTryRead_other hc, hev, hlate, ne_eq,
      not_true_eq_false, ↓reduceIte]
  · simp only [subStep, Subscriber.step, Subscriber.onHead, hhead, hbehind, hcap, hlt, and_self, ↓reduceIte]

theorem published_eq {q : Nat} {v : Value n} {buf : Buf n} (hv : r.log[q]? = some v)
    (h : Published r q buf) : buf = bytesOf v := by
  obtain ⟨v', hv', hb⟩ := h
  rw [hv] at hv'
  rw [hb, Option.some.inj hv']

/-! ## The three outcomes of a read -/

/-- The trackers after `update_tracker`. -/
def stored (t : Trackers) (i : Nat) (s : Subscriber n) : Trackers :=
  if s.tracker then { t with value := Function.update t.value i s.cursor } else t

/-- A subscriber that has counted the message at its cursor. -/
def taken (s : Subscriber n) (buf : Buf n) : Subscriber n :=
  { s with
    cursor := s.cursor + 1
    totalReceived := u64 (s.totalReceived + 1)
    events := s.events ++ [Event.received s.cursor buf] }

/-- A subscriber that has counted the jump of its cursor to `oldest`. -/
def jumped (s : Subscriber n) (oldest : Nat) : Subscriber n :=
  { s with
    cursor := oldest
    totalLagged := u64 (s.totalLagged + (oldest - s.cursor))
    events := s.events ++ [Event.skipped s.cursor oldest] }

/-- The message at the cursor is one of the last `capacity`. -/
theorem ok_ends {Q : Trackers × Subscriber n → Prop} {c : Caller n} {v : Value n} (h : Quiet cfg r)
    (hl : r.log.length < seqLimit) (hv : r.log[s.cursor]? = some v) (hold : r.log.length ≤ s.cursor + cfg.capacity)
    (hcont : Ends (fun x => busy x.2) (subStep cfg r i) Q
      (stored t i (taken s (bytesOf v)), (taken s (bytesOf v)).resume (.ok (bytesOf v)) c)) :
    Ends (fun x => busy x.2) (subStep cfg r i) Q (t, s.poll c) := by
  have hlt : s.cursor < r.log.length := (List.getElem?_eq_some_iff.mp hv).1
  refine read_ends h.ok (hlt.trans hl) (h.held hlt hold) (fun buf hbuf => ?_)
  obtain rfl := published_eq hv hbuf
  rw [← resume_pc (taken s (bytesOf v)) (.commit c (.ok (bytesOf v)))] at hcont
  exact .step rfl rfl hcont

/-- The message at the cursor has been overwritten, and `read_slot` reports the lag. -/
theorem lagged_ends {Q : Trackers × Subscriber n → Prop} {c : Caller n} {oldest : Nat} (h : Quiet cfg r)
    (hl : r.log.length < seqLimit) (hc : ThroughReadSlot c) (hold : r.log.length = oldest + cfg.capacity)
    (hlt : s.cursor < oldest) (hcont : Ends (fun x => busy x.2) (subStep cfg r i) Q
      (stored t i (jumped s oldest), (jumped s oldest).resume (.lagged (oldest - s.cursor)) c)) :
    Ends (fun x => busy x.2) (subStep cfg r i) Q (t, s.poll c) := by
  have hcap := cfg.two_le
  have hseq : s.cursor < seqLimit := by omega
  obtain ⟨hst, hev⟩ := h.passed (q := s.cursor) (by omega)
  have hread := readStep_of_ne hseq (by omega) hev
  rw [← cfg.slot_eq_of_lt hseq] at hread
  have hdone : done s.cursor ≤ r.stampAt cfg s.cursor := by rw [done_eq hseq]; omega
  have hmax : r.log.length - 1 ≠ u64Max := by unfold seqLimit at hl; unfold u64Max; omega
  have he : r.log.length - 1 - cfg.capacity + 1 = oldest := by omega
  have hback : oldest - (oldest - s.cursor) = s.cursor := by omega
  refine lag_ends hc hread hev hdone (h.head (by omega)) hmax (by omega) (by omega) ?_
  rw [he]
  rw [← resume_pc (jumped s oldest) (.commit c (.lagged (oldest - s.cursor)))] at hcont
  refine .step rfl ?_ hcont
  simp only [subStep, Subscriber.step, Subscriber.onCommit, hback]
  rfl

/-- Nothing has been published at the cursor yet. -/
theorem empty_ends {Q : Trackers × Subscriber n → Prop} {c : Caller n} (h : Quiet cfg r)
    (hc : ThroughReadSlot c) (hseq : s.cursor < seqLimit) (hge : r.log.length ≤ s.cursor)
    (hcont : Ends (fun x => busy x.2) (subStep cfg r i) Q (t, s.resume .empty c)) :
    Ends (fun x => busy x.2) (subStep cfg r i) Q (t, s.poll c) := by
  obtain ⟨hst, hev⟩ := h.ahead hge
  have hread := readStep_of_ne hseq (by omega) hev
  refine .step rfl (t := (t, s.resume .empty c)) ?_ hcont
  have hstep : subStep cfg r i (t, s.poll c) = some (t, (s.poll c).onTryRead c (.other (r.stampAt cfg s.cursor))) := by
    simp only [subStep, Subscriber.step, Subscriber.poll, cfg.slot_eq_of_lt hseq, hread]
  rw [hstep, onTryRead_other hc, if_neg (not_not_intro hev), if_pos (by rw [← done_eq hseq] at hst; exact hst)]
  exact congrArg (fun s => some (t, s)) (resume_pc s _ _ c)

/-- `try_recv` on a quiet ring. -/
theorem tryRecv_ends (h : Quiet cfg r) (hl : r.log.length < seqLimit) (hc : s.cursor ≤ r.log.length) :
    Ends (fun x => busy x.2) (subStep cfg r i)
      (fun x => x.2.pc = .idle ∧ x.2.cursor = (recvAt cfg.capacity r.log s.cursor).2 ∧
        x.2.last = some (.recv (recvAt cfg.capacity r.log s.cursor).1)) (t, s.poll .tryRecv) := by
  rcases Nat.lt_or_ge s.cursor r.log.length with hlt | hge
  · have hlog := List.getElem?_eq_getElem hlt
    by_cases hold : r.log.length ≤ s.cursor + cfg.capacity
    · have he : recvAt cfg.capacity r.log s.cursor = (.ok (bytesOf r.log[s.cursor]), s.cursor + 1) := by
        simp only [recvAt, hlog, show ¬ s.cursor < r.log.length - cfg.capacity by omega, ↓reduceIte]
      rw [he]
      exact ok_ends h hl hlog hold (.done rfl ⟨rfl, rfl, rfl⟩)
    · have he : recvAt cfg.capacity r.log s.cursor =
          (.lagged (r.log.length - cfg.capacity - s.cursor), r.log.length - cfg.capacity) := by
        simp only [recvAt, hlog, show s.cursor < r.log.length - cfg.capacity by omega, ↓reduceIte]
      rw [he]
      exact lagged_ends h hl trivial (by omega) (by omega) (.done rfl ⟨rfl, rfl, rfl⟩)
  · have he : recvAt cfg.capacity r.log s.cursor = (.empty, s.cursor) := by
      simp only [recvAt, List.getElem?_eq_none hge]
    rw [he]
    exact empty_ends h trivial (hc.trans_lt hl) hge (.done rfl ⟨rfl, rfl, rfl⟩)

/-- `latest` on a quiet ring. -/
theorem latest_ends (h : Quiet cfg r) (hl : r.log.length < seqLimit) :
    Ends (fun x => busy x.2) (subStep cfg r i)
      (fun x => x.2.pc = .idle ∧ x.2.cursor = (latestAt r.log s.cursor).2 ∧
        x.2.last = some (.latest (latestAt r.log s.cursor).1))
      (t, { s with pc := .latestHead, latestUsed := true }) := by
  have hcap := cfg.two_le
  by_cases h0 : r.log.length = 0
  · have hnil : r.log = [] := List.eq_nil_of_length_eq_zero h0
    have hmax : r.cursor = u64Max := by rw [h.cursor, h0]; rfl
    refine .step rfl (t := (t, { s with latestUsed := true }.finish (.latest none))) ?_
      (.done rfl ⟨rfl, ?_, ?_⟩)
    · simp only [subStep, Subscriber.step, hmax, ↓reduceIte]
      rfl
    · simp [latestAt, hnil, Subscriber.finish]
    · simp [latestAt, hnil, Subscriber.finish]
  · have hlt : r.log.length - 1 < r.log.length := by omega
    have hhead := h.head (by omega)
    have hmax : ¬ r.log.length - 1 = u64Max := by unfold seqLimit at hl; unfold u64Max; omega
    have hlast : r.log.getLast? = some r.log[r.log.length - 1] := by
      rw [List.getLast?_eq_getElem?, List.getElem?_eq_getElem hlt]
    refine .step rfl (t := (t, { s with
      cursor := r.log.length - 1, latestUsed := true, pc := .read .latest .stamp })) ?_ ?_
    · simp only [subStep, Subscriber.step, hhead, hmax, ↓reduceIte]
    · refine read_ends (s := { s with cursor := r.log.length - 1, latestUsed := true }) h.ok
        (hlt.trans hl) (h.held hlt (by dsimp only; omega)) (fun buf hbuf => ?_)
      refine .step rfl rfl (.done rfl ⟨rfl, ?_, ?_⟩)
      · simp only [latestAt, hlast]
        change r.log.length - 1 + 1 = r.log.length
        omega
      · simp only [latestAt, hlast, ← published_eq (List.getElem?_eq_getElem hlt) hbuf]
        rfl

/-- `pending` on a quiet ring. -/
theorem pendingOf_eq (h : Quiet cfg r) (hl : r.log.length < seqLimit) (hc : s.cursor ≤ r.log.length) :
    pendingOf cfg.capacity r.cursor s.cursor = min (r.log.length - s.cursor) cfg.capacity := by
  unfold pendingOf
  by_cases h0 : r.log.length = 0
  · have hmax : r.cursor = u64Max := by rw [h.cursor, h0]; rfl
    rw [if_pos (Or.inl hmax)]
    omega
  · have hhead := h.head (by omega)
    have hmax : r.cursor ≠ u64Max := by unfold seqLimit at hl; unfold u64Max; omega
    split_ifs with hcase
    · rcases hcase with hm | hlt
      · exact absurd hm hmax
      · omega
    · have hle : s.cursor ≤ r.cursor := by
        by_contra hn
        exact hcase (Or.inr (by omega))
      congr 1
      omega

/-- The rest of a `subscribe` call without backpressure. -/
theorem subscribe_ends (h : Quiet cfg r) (hl : r.log.length < seqLimit) (k : SubscribeKind)
    (hk : cfg.kind = .lossy ∨ cfg.kind = .mpmc) :
    Ends (fun x => busy x.2) (subStep cfg r i)
      (fun x => x.2.pc = .idle ∧ x.2.cursor = startAt cfg.capacity r.log k)
      (t, { s with pc := .loadHead k, kind := k }) := by
  have hstart : startOf r.cursor = r.log.length := by
    rw [h.cursor, startOf_expectedCursor (by unfold seqLimit at hl; omega)]
  have hold : oldestOf cfg.capacity r.cursor = r.log.length - cfg.capacity := by
    rw [h.cursor, oldestOf_expectedCursor cfg.capacity_pos hl]
  have hstep : ∃ t' tr, subStep cfg r i (t, { s with pc := .loadHead k, kind := k })
      = some (t', { s with pc := .loadHead k, kind := k }.created (startAt cfg.capacity r.log k) tr) := by
    cases k <;> rcases hk with hk | hk <;>
      simp only [subStep, Subscriber.step, hk, hstart, hold, startAt] <;> exact ⟨_, _, rfl⟩
  obtain ⟨t', tr, hstep⟩ := hstep
  exact .step rfl hstep (.done rfl ⟨rfl, rfl⟩)

/-! ## Publishing alone -/

/-- Accesses that a slot write still has to make. -/
def writeLeft (n : Nat) : WritePc → Nat
  | .begin => n + 2
  | .store off => n - off + 1

/-- The payload that a write of `v` has stored by `pc`. -/
def StoredTo (sl : Slot n) (v : Value n) : WritePc → Prop
  | .begin => True
  | .store off => off ≤ n ∧ ∀ i : Fin n, i.val < off → sl.value i = some (v i)

/-- A slot write goes on, or it is complete and the slot holds its message. -/
theorem writeStep_stored {sl : Slot n} {v : Value n} {pc : WritePc} (seq : Nat) (h : StoredTo sl v pc) :
    (∃ pc', (sl.writeStep seq v pc).2 = some pc' ∧ writeLeft n pc' < writeLeft n pc ∧
      StoredTo (sl.writeStep seq v pc).1 v pc') ∨
      (sl.writeStep seq v pc).2 = none ∧ (sl.writeStep seq v pc).1 = ⟨done seq, bytesOf v⟩ := by
  cases pc with
  | begin => exact Or.inl ⟨_, rfl, by simp [writeLeft], Nat.zero_le n, fun i hi => absurd hi (Nat.not_lt_zero _)⟩
  | store off =>
    obtain ⟨hoff, hpre⟩ := h
    by_cases hlt : off < n
    · left
      have hw := stripeWidth_pos (n - off)
      have hle := stripeWidth_le (show 0 < n - off by omega)
      simp only [Slot.writeStep, hlt, ↓reduceIte]
      refine ⟨_, rfl, ?_, by omega, fun i hi => ?_⟩
      · simp only [writeLeft]
        omega
      · rcases copyStripe_prefix sl.value (bytesOf v) i hi with ⟨hi', he⟩ | he
        · exact he.trans (hpre i hi')
        · exact he
    · right
      have hval : sl.value = bytesOf v := funext fun i => hpre i (i.isLt.trans_le (by omega))
      simp only [Slot.writeStep, hlt, ↓reduceIte, hval, and_self]

abbrev pubStep (cfg : Config) (x : Ring n × Trackers × Publisher n) :
    Option (Ring n × Trackers × Publisher n) := x.2.2.step cfg x.1 x.2.1

def pubBusy (p : Publisher n) : Bool :=
  match p.pc with
  | .idle => false
  | _ => true

theorem idle_of_not_pubBusy {p : Publisher n} (h : pubBusy p = false) : p.pc = .idle := by
  unfold pubBusy at h
  split at h
  · assumption
  · cases h

/-- A publisher that nothing interrupts completes its slot. -/
theorem write_ends {Q : Ring n × Trackers × Publisher n → Prop} {p : Publisher n} {v : Value n}
    {rest : List (Value n)} {pc : WritePc} (hpc : StoredTo (r.slots (cfg.slot p.seq)) v pc)
    (hcont : Ends (fun x => pubBusy x.2.2) (pubStep cfg) Q
      ((r.setSlot (cfg.slot p.seq) ⟨done p.seq, bytesOf v⟩).append v, t, { p with pc := .cursor rest })) :
    Ends (fun x => pubBusy x.2.2) (pubStep cfg) Q (r, t, { p with pc := .write v rest pc }) := by
  obtain ⟨m, hm⟩ : ∃ m, writeLeft n pc = m := ⟨_, rfl⟩
  induction m using Nat.strong_induction_on generalizing pc r with
  | _ m ih =>
    rcases writeStep_stored p.seq hpc with ⟨pc', hnext, hlt, hst⟩ | ⟨hend, hslot⟩
    · refine .step (t := (r.setSlot (cfg.slot p.seq) ((r.slots (cfg.slot p.seq)).writeStep p.seq v pc).1, t,
        { p with pc := .write v rest pc' })) rfl ?_ (ih (writeLeft n pc') (by omega) ?_ ?_ rfl)
      · simp only [pubStep, Publisher.step, hnext]
      · rw [Ring.setSlot_slots_self]
        exact hst
      · rw [Ring.setSlot_setSlot]
        exact hcont
    · refine .step rfl ?_ hcont
      simp only [pubStep, Publisher.step, hend, hslot]

/-- The values a call publishes. -/
def valuesOf : PubCall n → List (Value n)
  | .publish v => [v]
  | .tryPublish v => [v]
  | .publishWith (some v) => [v]
  | .publishWith none => []
  | .publishBatch vs => vs

/-- What a call returns on a channel without backpressure. -/
def resultOf : PubCall n → PubResult n
  | .publishWith none => .panicked
  | _ => .ok

/-- The end of a publisher's call: the log has grown by `vs`. -/
def Appended (r : Ring n) (t : Trackers) (vs : List (Value n)) (res : PubResult n)
    (x : Ring n × Trackers × Publisher n) : Prop :=
  x.2.2.pc = .idle ∧ x.1.log = r.log ++ vs ∧ x.2.1 = t ∧ x.2.2.last = some res

theorem room_step (hk : cfg.kind = .lossy) {p : Publisher n} {c : PubCall n} (hp : p.pc = .room c) :
    pubStep cfg (r, t, p) = some (r, t, p.enter c) := by
  simp only [pubStep, Publisher.step, hp, hk]

theorem batch_ends (hk : cfg.kind = .lossy) {vs : List (Value n)} {v : Value n} {p : Publisher n} :
    Ends (fun x => pubBusy x.2.2) (pubStep cfg) (Appended r t (v :: vs) .ok)
      (r, t, { p with pc := .write v vs .begin }) := by
  induction vs generalizing r v p with
  | nil =>
    exact write_ends trivial (.step rfl rfl (.done rfl ⟨rfl, rfl, rfl, rfl⟩))
  | cons v' vs ih =>
    refine write_ends trivial (.step (t := ({ (r.setSlot (cfg.slot p.seq) ⟨done p.seq, bytesOf v⟩).append v with
      cursor := p.seq }, t, { p with seq := u64 (p.seq + 1), pc := .room (.publishBatch (v' :: vs)) })) rfl rfl ?_)
    refine .step rfl (room_step hk rfl) (ih.mono (fun x hx => ⟨hx.1, ?_, hx.2.2.1, hx.2.2.2⟩))
    rw [hx.2.1]
    simp

/-- A publisher's call on a lossy channel. -/
theorem publish_ends (hk : cfg.kind = .lossy) {p : Publisher n} {c : PubCall n} (hc : c ≠ .publishBatch []) :
    Ends (fun x => pubBusy x.2.2) (pubStep cfg) (Appended r t (valuesOf c) (resultOf c))
      (r, t, { p with pc := .room c }) := by
  refine .step rfl (room_step hk rfl) ?_
  cases c with
  | publish v => exact batch_ends hk
  | tryPublish v => exact batch_ends hk
  | publishWith f =>
    cases f with
    | none => exact .step rfl rfl (.done rfl ⟨rfl, by simp [valuesOf], rfl, rfl⟩)
    | some v => exact .step rfl rfl (batch_ends hk)
  | publishBatch vs =>
    cases vs with
    | nil => exact absurd rfl hc
    | cons v vs => exact batch_ends hk

abbrev mpStep (cfg : Config) (x : Ring n × MpPc n) : Option (Ring n × MpPc n) := x.2.step cfg x.1

def mpBusy : MpPc n → Bool
  | .idle => false
  | _ => true

/-- A producer that nothing interrupts completes its slot. -/
theorem mpWrite_ends {b : MpPc n → Bool} {Q : Ring n × MpPc n → Prop} {own : Nat} {v : Value n} {pc : WritePc}
    (hb : ∀ pc, b (.write own v pc) = true) (hpc : StoredTo (r.slots (cfg.slot own)) v pc)
    (hcont : Ends (fun x => b x.2) (mpStep cfg) Q (r.setSlot (cfg.slot own) ⟨done own, bytesOf v⟩, .cas own)) :
    Ends (fun x => b x.2) (mpStep cfg) Q (r, .write own v pc) := by
  obtain ⟨m, hm⟩ : ∃ m, writeLeft n pc = m := ⟨_, rfl⟩
  induction m using Nat.strong_induction_on generalizing pc r with
  | _ m ih =>
    rcases writeStep_stored own hpc with ⟨pc', hnext, hlt, hst⟩ | ⟨hend, hslot⟩
    · refine .step (t := (r.setSlot (cfg.slot own) ((r.slots (cfg.slot own)).writeStep own v pc).1,
        .write own v pc')) (hb pc) ?_ (ih (writeLeft n pc') (by omega) ?_ ?_ rfl)
      · simp only [mpStep, MpPc.step, hnext]
      · rw [Ring.setSlot_slots_self]
        exact hst
      · rw [Ring.setSlot_setSlot]
        exact hcont
    · refine .step (hb pc) ?_ hcont
      simp only [mpStep, MpPc.step, hend, hslot]

/-- `wait_for_slot` does not wait for the next sequence. -/
def LapDone (cfg : Config) (r : Ring n) : Prop :=
  r.nextSeq < cfg.capacity ∨ u64 ((r.nextSeq - cfg.capacity) * 2 + 2) ≤ (r.slots (cfg.slot r.nextSeq)).stamp

/-- The ring with one more message of a producer. -/
def mpPublished (cfg : Config) (r : Ring n) (v : Value n) : Ring n :=
  { (r.setSlot (cfg.slot r.nextSeq) ⟨done r.nextSeq, bytesOf v⟩).append v with
    nextSeq := u64 (r.nextSeq + 1)
    cursor := r.nextSeq
    returned := r.returned ++ [r.nextSeq] }

/-- A producer's call when every claim before it has moved the cursor. No bound on the
sequence is needed. -/
theorem mpAlone_ends (hcur : r.cursor = expectedCursor r.nextSeq) (hlap : LapDone cfg r) (c : MpCall n) :
    Ends (fun x => mpBusy x.2) (mpStep cfg) (fun x => x = (mpPublished cfg r c.value, .idle)) (r, .claim c) := by
  let r₁ : Ring n := { r with nextSeq := u64 (r.nextSeq + 1) }.append c.value
  have hwrite : Ends (fun x => mpBusy x.2) (mpStep cfg) (fun x => x = (mpPublished cfg r c.value, .idle))
      (r₁, .write r.nextSeq c.value .begin) := by
    let r₂ : Ring n := r₁.setSlot (cfg.slot r.nextSeq) ⟨done r.nextSeq, bytesOf c.value⟩
    refine mpWrite_ends (fun _ => rfl) trivial
      (.step (t := ({ r₂ with cursor := r.nextSeq }, .catchNext r.nextSeq r.nextSeq)) rfl ?_
      (.step (t := MpPc.ret { r₂ with cursor := r.nextSeq } r.nextSeq) rfl ?_ (.done rfl rfl)))
    · exact if_pos hcur
    · exact if_pos (Nat.le_refl (u64 (r.nextSeq + 1)))
  refine .step (t := (r₁, .waitSlot r.nextSeq c)) rfl rfl (.step (t := (r₁, MpPc.written r.nextSeq c)) rfl ?_ ?_)
  · rcases hlap with hlt | hst
    · exact if_pos hlt
    · change (if _ then some _ else if _ then some _ else some _) = _
      split_ifs with hlt hwait
      · rfl
      · exact absurd hwait (Nat.not_lt.mpr hst)
      · rfl
  · unfold MpPc.written
    split_ifs
    · exact .step rfl rfl hwrite
    · exact hwrite

theorem Quiet.lapDone (h : Quiet cfg r) (hnext : r.nextSeq = r.log.length) (hl : r.log.length < seqLimit) :
    LapDone cfg r := by
  have hcap := cfg.two_le
  unfold LapDone
  rw [hnext]
  by_cases hlt : r.log.length < cfg.capacity
  · exact Or.inl hlt
  · right
    have hd := h.stamped (r.log.length - cfg.capacity) (by omega)
    unfold Ring.stampAt at hd
    rw [sub_lap_mod (by omega)] at hd
    unfold seqLimit at hl
    rw [cfg.slot_eq (by omega), u64_of_lt (by omega)]
    omega

/-- A producer's call on a quiet MPMC ring. -/
theorem mpPublish_ends (h : Quiet cfg r) (hnext : r.nextSeq = r.log.length)
    (hl : r.log.length < seqLimit) (c : MpCall n) :
    Ends (fun x => mpBusy x.2) (mpStep cfg) (fun x => x.2 = .idle ∧ x.1.log = r.log ++ [c.value])
      (r, .claim c) := by
  refine (mpAlone_ends (by rw [hnext]; exact h.cursor) (h.lapDone hnext hl) c).mono (fun x hx => ?_)
  rw [hx]
  exact ⟨rfl, rfl⟩

/-- A channel in which a producer has moved. -/
def produced (w : World n) (p : Nat) (x : Ring n × MpPc n) : World n := { w with ring := x.1 }.setProducer p x.2

theorem produced_self (w : World n) (p : Nat) (x : Ring n × MpPc n) : (produced w p x).producers p = x.2 :=
  Function.update_self ..

/-- What a producer does alone it does in the channel. -/
theorem produced_ends {Q : Ring n × MpPc n → Prop} {x : Ring n × MpPc n} (w : World n) (p : Nat)
    (h : Ends (fun x => mpBusy x.2) (mpStep cfg) Q x) :
    Ends (fun u => mpBusy (u.producers p)) (fun u => World.step cfg u (.mp p))
      (fun u => ∃ x, u = produced w p x ∧ Q x) (produced w p x) := by
  refine h.lift (fun x => by rw [produced_self]) (fun x y hxy => ?_)
  have hxy' : x.2.step cfg x.1 = some y := hxy
  simp only [World.step, produced_self]
  change (x.2.step cfg x.1).map _ = _
  rw [hxy', Option.map_some]
  simp only [produced, World.setProducer, Function.update_idem]

end PhotonRing.Solo
