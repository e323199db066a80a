import PhotonRing.Channel.Solo
import PhotonRing.Channel.Delivery

/-!
# A publisher that nobody holds back

On a lossy channel, and on a bounded one whose tracker list is empty, a publisher publishes
one message after the other. Nothing here bounds their number: the publisher's sequence is a
64-bit word that goes on from zero, and the stamps of a slot start over after half as many
messages.
-/
namespace PhotonRing.Unattended

open Lib World Solo

variable {n : Nat} {cfg : Config} {w w' : World n} {v : Value n} {c : PubCall n}

/-- `has_room` returns true without reading a tracker. -/
def Unchecked (cfg : Config) (t : Trackers) (p : Publisher n) : Prop :=
  match cfg.kind with
  | .lossy => True
  | .bounded _ => ¬ u64 (p.cachedSlowest + cfg.effective) ≤ p.seq ∨ t.locked = false ∧ t.registered = []
  | .mpmc => False

/-- The channel with one more message. -/
def afterPublish (cfg : Config) (w : World n) (v : Value n) : World n :=
  { w with
    ring := { (w.ring.setSlot (cfg.slot w.publisher.seq) ⟨done w.publisher.seq, bytesOf v⟩).append v with
      cursor := w.publisher.seq
      returned := List.range (w.publisher.seq + 1) }
    publisher := { w.publisher with seq := u64 (w.publisher.seq + 1), pc := .idle, last := some .ok } }

@[simp] theorem afterPublish_subs (w : World n) (v : Value n) : (afterPublish cfg w v).subs = w.subs := rfl

@[simp] theorem afterPublish_trackers (w : World n) (v : Value n) :
    (afterPublish cfg w v).trackers = w.trackers := rfl

@[simp] theorem afterPublish_publisher (w : World n) (v : Value n) : (afterPublish cfg w v).publisher =
    { w.publisher with seq := u64 (w.publisher.seq + 1), pc := .idle, last := some .ok } := rfl

@[simp] theorem afterPublish_cursor (w : World n) (v : Value n) :
    (afterPublish cfg w v).ring.cursor = w.publisher.seq := rfl

@[simp] theorem afterPublish_log (w : World n) (v : Value n) :
    (afterPublish cfg w v).ring.log = w.ring.log ++ [v] := rfl

@[simp] theorem afterPublish_slots (w : World n) (v : Value n) : (afterPublish cfg w v).ring.slots =
    Function.update w.ring.slots (cfg.slot w.publisher.seq) ⟨done w.publisher.seq, bytesOf v⟩ := rfl

/-! ## One message -/

section One

variable {r : Ring n} {t : Trackers} {p : Publisher n}

theorem enter_write (hc : c = .publish v ∨ c = .tryPublish v) : p.enter c = { p with pc := .write v [] .begin } := by
  rcases hc with rfl | rfl <;> rfl

/-- An empty scan under the lock. -/
theorem scan_empty_ends {Q : Ring n × Trackers × Publisher n → Prop} (hfree : t.locked = false)
    (hnone : t.registered = [])
    (hcont : Ends (fun x => pubBusy x.2.2) (pubStep cfg) Q (r, t, p.enter c)) :
    Ends (fun x => pubBusy x.2.2) (pubStep cfg) Q (r, t, { p with pc := .lock c }) := by
  have hlock : pubStep cfg (r, t, { p with pc := .lock c }) =
      some (r, { t with locked := true }, { p with pc := .scan c [] [] u64Max false }) := by
    simp only [pubStep, Publisher.step, hfree, hnone, Bool.false_eq_true, ↓reduceIte]
  have hsame : { t with locked := false, registered := [] } = t := by
    rw [← hfree, ← hnone]
  have hscan : pubStep cfg (r, { t with locked := true }, { p with pc := .scan c [] [] u64Max false }) =
      some (r, t, p.enter c) := by
    simp only [pubStep, Publisher.step, Bool.false_eq_true, ↓reduceIte, hsame]
    cases c <;> rfl
  exact .step rfl hlock (.step rfl hscan hcont)

/-- The call that has room publishes its value and returns. -/
theorem enter_ends (hc : c = .publish v ∨ c = .tryPublish v) :
    Ends (fun x => pubBusy x.2.2) (pubStep cfg) (fun x => x =
      ({ (r.setSlot (cfg.slot p.seq) ⟨done p.seq, bytesOf v⟩).append v with
        cursor := p.seq, returned := List.range (p.seq + 1) }, t,
        { p with seq := u64 (p.seq + 1), pc := .idle, last := some .ok })) (r, t, p.enter c) := by
  rw [enter_write hc]
  exact write_ends trivial (.step rfl rfl (.done rfl rfl))

theorem publish_ends (h : Unchecked cfg t p) (hc : c = .publish v ∨ c = .tryPublish v) :
    Ends (fun x => pubBusy x.2.2) (pubStep cfg) (fun x => x =
      ({ (r.setSlot (cfg.slot p.seq) ⟨done p.seq, bytesOf v⟩).append v with
        cursor := p.seq, returned := List.range (p.seq + 1) }, t,
        { p with seq := u64 (p.seq + 1), pc := .idle, last := some .ok })) (r, t, { p with pc := .room c }) := by
  have henter : { p with pc := .room c }.enter c = p.enter c := by
    rw [enter_write hc, enter_write hc]
  unfold Unchecked at h
  split at h
  · rename_i hk
    refine .step rfl (room_step hk rfl) ?_
    rw [henter]
    exact enter_ends hc
  · rename_i hk
    by_cases hfull : u64 (p.cachedSlowest + cfg.effective) ≤ p.seq
    · obtain ⟨hfree, hnone⟩ := h.resolve_left (not_not_intro hfull)
      refine .step (t := (r, t, { p with pc := .lock c })) rfl ?_ (scan_empty_ends hfree hnone (enter_ends hc))
      simp only [pubStep, Publisher.step, hk, hfull, ↓reduceIte]
    · refine .step (t := (r, t, { p with pc := .room c }.enter c)) rfl ?_ ?_
      · simp only [pubStep, Publisher.step, hk, hfull, ↓reduceIte]
      · rw [henter]
        exact enter_ends hc
  · exact h.elim

end One

/-- A channel in which the publisher has moved. -/
def published (w : World n) (x : Ring n × Trackers × Publisher n) : World n :=
  { w with ring := x.1, trackers := x.2.1, publisher := x.2.2 }

/-- What the publisher does alone it does in the channel. -/
theorem published_ends {Q : Ring n × Trackers × Publisher n → Prop} {x : Ring n × Trackers × Publisher n}
    (w : World n) (h : Ends (fun x => pubBusy x.2.2) (pubStep cfg) Q x) :
    Ends (fun u => pubBusy u.publisher) (fun u => step cfg u .pub) (fun u => ∃ x, u = published w x ∧ Q x)
      (published w x) := by
  refine h.lift (fun _ => rfl) (fun x y hxy => ?_)
  have hxy' : x.2.2.step cfg x.1 x.2.1 = some y := hxy
  simp only [step, published, hxy', Option.map_some]

theorem call_room (hk : cfg.kind ≠ .mpmc) (hidle : w.publisher.pc = .idle)
    (hc : c = .publish v ∨ c = .tryPublish v) :
    step cfg w (.pubCall c) = some { w with publisher := { w.publisher with pc := .room c } } := by
  rcases hc with rfl | rfl <;> simp only [step, hk, ↓reduceIte, Publisher.call, hidle, Option.map_some]

/-- A call that runs alone to its end. -/
theorem publish_run (hidle : w.publisher.pc = .idle) (h : Unchecked cfg w.trackers w.publisher)
    (hc : c = .publish v ∨ c = .tryPublish v) :
    ∃ k, run (step cfg) w (.pubCall c :: List.replicate k .pub) = some (afterPublish cfg w v) := by
  have hk : cfg.kind ≠ .mpmc := by
    intro hk
    simp only [Unchecked, hk] at h
  obtain ⟨k, u, hrun, _, x, rfl, rfl⟩ := (published_ends w (publish_ends (r := w.ring) h hc)).replicate
  exact ⟨k, run_cons (call_room hk hidle hc) hrun⟩

/-! ## Any number of messages -/

/-- A publisher between calls, without anybody to wait for. -/
structure Alone (cfg : Config) (w : World n) : Prop where
  idle : w.publisher.pc = .idle
  kind : cfg.kind ≠ .mpmc
  free : cfg.kind ≠ .lossy → w.trackers.locked = false ∧ w.trackers.registered = []

theorem Alone.unchecked (h : Alone cfg w) : Unchecked cfg w.trackers w.publisher := by
  unfold Unchecked
  split
  · trivial
  · rename_i hk
    exact Or.inr (h.free (by rw [hk]; exact nofun))
  · rename_i hk
    exact h.kind hk

theorem Alone.afterPublish (h : Alone cfg w) : Alone cfg (afterPublish cfg w v) := ⟨rfl, h.kind, h.free⟩

/-- What `k` more messages leave alone, and where they leave the publisher and the head. -/
structure Later (k : Nat) (w w' : World n) : Prop where
  subs : w'.subs = w.subs
  trackers : w'.trackers = w.trackers
  cached : w'.publisher.cachedSlowest = w.publisher.cachedSlowest
  seq : w'.publisher.seq = u64 (w.publisher.seq + k)
  cursor : ∀ j, k = j + 1 → w'.ring.cursor = u64 (w.publisher.seq + j)
  log : ∃ l, l.length = k ∧ w'.ring.log = w.ring.log ++ l

theorem Later.next {k : Nat} (h : Later k w w') : Later (k + 1) w (afterPublish cfg w' v) where
  subs := h.subs
  trackers := h.trackers
  cached := h.cached
  seq := by
    change u64 (w'.publisher.seq + 1) = _
    rw [h.seq]
    exact Nat.mod_add_mod _ _ _
  cursor := by
    intro j hj
    obtain rfl : k = j := by omega
    exact h.seq
  log := by
    obtain ⟨l, hlen, hlog⟩ := h.log
    refine ⟨l ++ [v], by rw [List.length_append, hlen]; rfl, ?_⟩
    change w'.ring.log ++ [v] = _
    rw [hlog, List.append_assoc]

/-- A publisher that is alone publishes any number of messages. `R` is what every one of its
calls preserves, such as being reachable. -/
theorem publish_many {R : World n → Prop} (v : Value n)
    (hone : ∀ u, Alone cfg u → R u → R (afterPublish cfg u v)) (hw : Alone cfg w)
    (hseq : w.publisher.seq < 2 ^ 64) (h0 : R w) (k : Nat) : ∃ w', R w' ∧ Alone cfg w' ∧ Later k w w' := by
  induction k with
  | zero => exact ⟨w, h0, hw, rfl, rfl, rfl, (u64_of_lt hseq).symm, nofun, [], rfl, (List.append_nil _).symm⟩
  | succ k ih =>
    obtain ⟨w', hr, ha, hl⟩ := ih
    exact ⟨_, hone w' ha hr, ha.afterPublish, hl.next⟩

/-- In the interleaving semantics such calls are runs. -/
theorem reach_afterPublish {init : World n} (h : Unchecked cfg w.trackers w.publisher)
    (hidle : w.publisher.pc = .idle) (hw : Reachable (step cfg) init w) :
    Reachable (step cfg) init (afterPublish cfg w v) := by
  obtain ⟨k, hrun⟩ := publish_run (c := .publish v) hidle h (Or.inl rfl)
  exact hw.of_run hrun

/-! ## A registration that nothing interrupts -/

/-- The channel with one more tracked subscriber. -/
def joined (w : World n) (i : Nat) (k : SubscribeKind) (start : Nat) : World n :=
  { w with trackers := { w.trackers with
      registered := w.trackers.registered ++ [i]
      value := Function.update w.trackers.value i start
      strong := Function.update w.trackers.strong i 1 } }.setSub i
    ({ w.subs i with kind := k }.created start true)

variable {i wm : Nat}

theorem joined_self (w : World n) (i : Nat) (k : SubscribeKind) (start : Nat) :
    (joined w i k start).subs i = { w.subs i with kind := k }.created start true := setSub_self ..

@[simp] theorem joined_publisher (w : World n) (i : Nat) (k : SubscribeKind) (start : Nat) :
    (joined w i k start).publisher = w.publisher := rfl

@[simp] theorem joined_ring (w : World n) (i : Nat) (k : SubscribeKind) (start : Nat) :
    (joined w i k start).ring = w.ring := rfl

/-- `subscribe` on a bounded channel. -/
theorem subscribe_run (hk : cfg.kind = .bounded wm) (habsent : (w.subs i).pc = .absent)
    (hfree : w.trackers.locked = false) :
    run (step cfg) w (.subscribe i .subscribe :: List.replicate 3 (.sub i)) =
      some (joined w i .subscribe (startOf w.ring.cursor)) := by
  simp [run, step, Subscriber.subscribe, habsent, hk, Subscriber.step, setSub, hfree, joined, Subscriber.created]

/-- `subscribe_from_oldest` on a bounded channel, up to its last step and by its last step. -/
theorem subscribeFromOldest_run (hk : cfg.kind = .bounded wm) (habsent : (w.subs i).pc = .absent)
    (hfree : w.trackers.locked = false) : ∃ u,
    run (step cfg) w (.subscribe i .fromOldest :: List.replicate 2 (.sub i)) = some u ∧
      (u.subs i).kind = .fromOldest ∧ (u.subs i).pc = .push (oldestOf cfg.capacity w.ring.cursor) ∧
      step cfg u (.sub i) = some (joined w i .fromOldest (oldestOf cfg.capacity w.ring.cursor)) := by
  simp [run, step, Subscriber.subscribe, habsent, hk, Subscriber.step, setSub, hfree, joined, Subscriber.created]

/-! ## Reads that nothing interrupts -/

/-- A channel in which one subscriber and the trackers have moved. -/
def moved (w : World n) (i : Nat) (t : Trackers) (s : Subscriber n) : World n :=
  { w with trackers := t }.setSub i s

theorem moved_self (w : World n) (i : Nat) (t : Trackers) (s : Subscriber n) : (moved w i t s).subs i = s :=
  setSub_self ..

theorem moved_ne (w : World n) {i j : Nat} (t : Trackers) (s : Subscriber n) (hj : j ≠ i) :
    (moved w i t s).subs j = w.subs j := setSub_ne _ s hj

/-- What the subscriber does alone it does in the channel. -/
theorem moved_ends {Q : Trackers × Subscriber n → Prop} {x : Trackers × Subscriber n}
    (h : Ends (fun x => busy x.2) (subStep cfg w.ring i) Q x) :
    Ends (fun u => busy (u.subs i)) (fun u => step cfg u (.sub i)) (fun u => ∃ x, u = moved w i x.1 x.2 ∧ Q x)
      (moved w i x.1 x.2) := by
  have hbusy : ∀ x : Trackers × Subscriber n, busy ((moved w i x.1 x.2).subs i) = busy x.2 := fun x => by
    rw [moved_self]
  refine h.lift hbusy (fun x y hxy => ?_)
  refine Option.map_eq_some_iff.mpr ⟨y, ?_, ?_⟩
  · rw [moved_self]
    exact hxy
  · simp only [moved, setSub, Function.update_idem]

theorem step_of_not_busy (h : busy (w.subs i) = false) : step cfg w (.sub i) = none := by
  revert h
  simp only [step, Subscriber.step, busy]
  cases (w.subs i).pc <;> simp

/-- A `try_recv` that runs alone to its end. -/
theorem tryRecv_run {Q : Trackers × Subscriber n → Prop} (hidle : (w.subs i).pc = .idle)
    (h : Ends (fun x => busy x.2) (subStep cfg w.ring i) Q (w.trackers, (w.subs i).poll .tryRecv)) :
    ∃ k w', run (step cfg) w (.subCall i .tryRecv :: List.replicate k (.sub i)) = some w' ∧
      w'.ring = w.ring ∧ Q (w'.trackers, w'.subs i) := by
  obtain ⟨k, u, hrun, _, x, rfl, hx⟩ := (moved_ends h).replicate
  have hcall : step cfg w (.subCall i .tryRecv) = some (moved w i w.trackers ((w.subs i).poll .tryRecv)) := by
    simp only [step, Subscriber.call, hidle, Option.map_some]
    rfl
  refine ⟨k, _, run_cons hcall hrun, rfl, ?_⟩
  rw [moved_self]
  exact hx

/-- What a receive that has returned has done to its subscriber. -/
structure Gained (bufs : List (Buf n)) (lost cursor : Nat) (s s' : Subscriber n) : Prop where
  pc : s'.pc = .idle
  cursor : s'.cursor = cursor
  latestUsed : s'.latestUsed = s.latestUsed
  totalLagged : s'.totalLagged = u64 (s.totalLagged + lost)
  received : receivedBufs s'.events = receivedBufs s.events ++ bufs

/-- The slot of the subscriber's position carries the stamp that it looks for. -/
theorem receive_run (hidle : (w.subs i).pc = .idle) (hlost : (w.subs i).totalLagged < 2 ^ 64)
    (hst : (w.ring.slots (cfg.slot (w.subs i).cursor)).stamp = done (w.subs i).cursor) :
    ∃ k w', run (step cfg) w (.subCall i .tryRecv :: List.replicate k (.sub i)) = some w' ∧ w'.ring = w.ring ∧
      Gained [(w.ring.slots (cfg.slot (w.subs i).cursor)).value] 0 (u64 ((w.subs i).cursor + 1))
        (w.subs i) (w'.subs i) :=
  tryRecv_run (Q := fun x => Gained _ 0 _ (w.subs i) x.2) hidle (held_ends hst (.step rfl rfl (.done rfl
    ⟨rfl, rfl, rfl, (u64_of_lt hlost).symm, receivedBufs_append _ _⟩)))

/-- The slot of the subscriber's position has been overwritten, and the head is far ahead. -/
theorem lag_run {stamp head : Nat} (hidle : (w.subs i).pc = .idle)
    (hread : (w.ring.slots (cfg.slot (w.subs i).cursor)).readStep (w.subs i).cursor .stamp = .inr (.other stamp))
    (hev : stamp % 2 = 0) (hdone : done (w.subs i).cursor ≤ stamp) (hhead : w.ring.cursor = head)
    (hmax : head ≠ u64Max) (hcap : cfg.capacity ≤ head) (hlt : (w.subs i).cursor < head - cfg.capacity + 1) :
    ∃ k w', run (step cfg) w (.subCall i .tryRecv :: List.replicate k (.sub i)) = some w' ∧ w'.ring = w.ring ∧
      Gained [] (head - cfg.capacity + 1 - (w.subs i).cursor) (head - cfg.capacity + 1) (w.subs i) (w'.subs i) :=
  tryRecv_run (Q := fun x => Gained [] _ _ (w.subs i) x.2) hidle (lag_ends trivial hread hev hdone hhead hmax hcap hlt
    (.step rfl rfl (.done rfl ⟨rfl, rfl, rfl, rfl, receivedBufs_append _ _⟩)))

/-! ## A sequence that starts over -/

/-- Tests of where a subscriber stands. -/
def isAbsent : SubPc n → Bool
  | .absent => true
  | _ => false

def isIdle : SubPc n → Bool
  | .idle => true
  | _ => false

def isPush (start : Nat) : SubPc n → Bool
  | .push s => s == start
  | _ => false

theorem absent_of_isAbsent {pc : SubPc n} (h : isAbsent pc = true) : pc = .absent := by
  cases pc <;> first | rfl | cases h

theorem idle_of_isIdle {pc : SubPc n} (h : isIdle pc = true) : pc = .idle := by
  cases pc <;> first | rfl | cases h

theorem push_of_isPush {start : Nat} {pc : SubPc n} (h : isPush start pc = true) : pc = .push start := by
  cases pc with
  | push s => rw [beq_iff_eq.mp h]
  | _ => cases h

/-- Nobody has made the handle yet. -/
structure Unused (s : Subscriber n) : Prop where
  pc : s.pc = .absent
  events : s.events = []
  latestUsed : s.latestUsed = false
  shutdown : s.shutdown = false
  totalLagged : s.totalLagged = 0

/-- The publisher of a bounded ring of two slots is about to publish sequence `q`, and takes
the slowest subscriber to be at 2. -/
structure Trusting (q : Nat) (w : World 1) : Prop where
  idle : w.publisher.pc = .idle
  cached : w.publisher.cachedSlowest = 2
  seq : w.publisher.seq = q

/-- A bounded ring of two slots after `2 ^ 64` messages. Its publisher still trusts the
position of a subscriber that is gone, which is beyond the sequence it goes on with. -/
theorem reach_wrapped : ∃ w : World 1, Reach Config.smallBounded w ∧ Trusting 0 w ∧
    w.trackers.locked = false ∧ w.ring.cursor = u64Max ∧ Unused (w.subs 1) := by
  obtain ⟨u, hu, hp⟩ := Reachable.of_run_any (step Config.smallBounded) (World.new 1)
    (fun u => decide (u.publisher.seq = 3 ∧ u.publisher.cachedSlowest = 2 ∧ u.trackers.locked = false ∧
        u.trackers.registered = [] ∧ (u.subs 1).latestUsed = false ∧ (u.subs 1).shutdown = false ∧
        (u.subs 1).totalLagged = 0 ∧ (u.subs 1).events.length = 0 ∧ pubBusy u.publisher = false ∧
        isAbsent (u.subs 1).pc = true))
    (List.flatten [.pubCall (.publish fun _ => 7) :: List.replicate 5 .pub,
      .pubCall (.publish fun _ => 7) :: List.replicate 5 .pub, .subscribe 0 .subscribe :: List.replicate 3 (.sub 0),
      .pubCall (.publish fun _ => 7) :: List.replicate 9 .pub, .drop 0 :: List.replicate 3 (.sub 0)])
    (by decide +kernel)
  obtain ⟨hseq, hcached, hfree, hnone, hlat, hshut, hlost, hev, hidle, habsent⟩ := of_decide_eq_true hp
  have halone : Alone Config.smallBounded u := ⟨idle_of_not_pubBusy hidle, nofun, fun _ => ⟨hfree, hnone⟩⟩
  obtain ⟨w, hw, ha, hlater⟩ := publish_many (fun _ => 7)
    (fun u ha hu => reach_afterPublish ha.unchecked ha.idle hu) halone (by rw [hseq]; decide) hu (2 ^ 64 - 3)
  refine ⟨w, hw, ⟨ha.idle, hlater.cached.trans hcached, ?_⟩, (ha.free nofun).1, ?_, ?_⟩
  · rw [hlater.seq, hseq]
    decide
  · rw [hlater.cursor (2 ^ 64 - 4) (by decide), hseq]
    decide
  · rw [hlater.subs]
    exact ⟨absent_of_isAbsent habsent, List.eq_nil_of_length_eq_zero hev, hlat, hshut, hlost⟩

/-- What it trusts gives it room for four messages. -/
theorem Trusting.publish {w init : World 1} {q : Nat} (h : Trusting q w) (hq : q < 4)
    (hw : Reachable (step Config.smallBounded) init w) (v : Value 1) :
    ∃ w', Reachable (step Config.smallBounded) init w' ∧ Trusting (q + 1) w' ∧ w'.subs = w.subs ∧
      w'.ring.cursor = q ∧ w'.ring.log = w.ring.log ++ [v] ∧
      w'.ring.slots = Function.update w.ring.slots (q % 2) ⟨2 * q + 2, bytesOf v⟩ := by
  have hroom : ¬ u64 (w.publisher.cachedSlowest + Config.smallBounded.effective) ≤ w.publisher.seq := by
    rw [h.cached, h.seq, show u64 (2 + Config.smallBounded.effective) = 4 by decide]
    omega
  have hslot : Config.smallBounded.slot q = q % 2 := Config.smallBounded.slot_eq (by omega)
  have hdone : done q = 2 * q + 2 := done_eq (by unfold seqLimit; omega)
  refine ⟨_, reach_afterPublish (Or.inl hroom) h.idle hw, ⟨rfl, h.cached, ?_⟩, rfl, h.seq, rfl, ?_⟩
  · rw [afterPublish_publisher, h.seq]
    exact u64_of_lt (by omega)
  · rw [afterPublish_slots, h.seq, hslot, hdone]

/-! ## Claims that start over -/

theorem mpPublish_run {p : Nat} (hk : cfg.kind = .mpmc) (hidle : w.producers p = .idle)
    (hcur : w.ring.cursor = expectedCursor w.ring.nextSeq) (hlap : LapDone cfg w.ring) (c : MpCall n) :
    ∃ k, run (step cfg) w (.mpCall p c :: List.replicate k (.mp p)) =
      some { w with ring := mpPublished cfg w.ring c.value } := by
  have hcall : step cfg w (.mpCall p c) = some (produced w p (w.ring, .claim c)) := by
    simp only [step, hk, ↓reduceIte, hidle, MpPc.call, Option.map_some]
    rfl
  obtain ⟨k, u, hrun, _, x, rfl, rfl⟩ := (produced_ends w p (mpAlone_ends hcur hlap c)).replicate
  refine ⟨k, (run_cons hcall hrun).trans (congrArg some ?_)⟩
  simp only [produced, setProducer, ← hidle, Function.update_eq_self]

/-- An MPMC ring of two slots through which `k` messages have gone, with the last two of
them in it. -/
def lapped (k : Nat) (slots : Nat → Slot 1) (log : List (Value 1)) (returned : List Nat) : World 1 :=
  { World.new 1 with ring :=
    { slots := Function.update (Function.update slots (k % 2) ⟨done (k - 2), bytesOf fun _ => 7⟩) ((k + 1) % 2)
        ⟨done (k - 1), bytesOf fun _ => 7⟩
      cursor := k - 1
      nextSeq := k
      log := log
      returned := returned } }

theorem lapped_next {k : Nat} (hk : 2 ≤ k) (hlt : k + 1 < 2 ^ 64) {slots : Nat → Slot 1} {log : List (Value 1)}
    {returned : List Nat} (h : Reach Config.smallMpmc (lapped k slots log returned)) :
    ∃ slots' log', Reach Config.smallMpmc (lapped (k + 1) slots' log' (returned ++ [k])) := by
  have hslot : Config.smallMpmc.slot k = k % 2 := Config.smallMpmc.slot_eq (by omega)
  have hcur : k - 1 = expectedCursor k := by
    unfold expectedCursor
    rw [if_neg (by omega)]
  have hlap : LapDone Config.smallMpmc (lapped k slots log returned).ring := by
    right
    change done (k - 2) ≤ ((lapped k slots log returned).ring.slots (Config.smallMpmc.slot k)).stamp
    have hne : k % 2 ≠ (k + 1) % 2 := by omega
    rw [hslot]
    simp only [lapped, Function.update_of_ne hne, Function.update_self, Nat.le_refl]
  obtain ⟨m, hrun⟩ := mpPublish_run (p := 0) rfl rfl hcur hlap ⟨fun _ => 7, false⟩
  refine ⟨Function.update slots (k % 2) ⟨done (k - 2), bytesOf fun _ => 7⟩, log ++ [fun _ => 7], ?_⟩
  have hnext : lapped (k + 1) (Function.update slots (k % 2) ⟨done (k - 2), bytesOf fun _ => 7⟩)
      (log ++ [fun _ => 7]) (returned ++ [k]) =
      { lapped k slots log returned with
        ring := mpPublished Config.smallMpmc (lapped k slots log returned).ring fun _ => 7 } := by
    have hword : u64 (k + 1) = k + 1 := u64_of_lt hlt
    simp only [lapped, mpPublished, Ring.append, Ring.setSlot, hslot, hword, Nat.add_sub_cancel,
      show (k + 1 + 1) % 2 = k % 2 by omega, show k + 1 - 2 = k - 1 by omega]
  rw [hnext]
  exact h.of_run hrun

/-- All but the last two sequences have been published, one after the other. -/
theorem reach_lapped (k : Nat) (hlt : k + 2 < 2 ^ 64) : ∃ slots log returned,
    Reach Config.smallMpmc (lapped (k + 2) slots log returned) ∧ ∀ q < k + 2, q ∈ returned := by
  induction k with
  | zero =>
    let c : MpCall 1 := ⟨fun _ => 7, false⟩
    let u : World 1 := { World.new 1 with ring := mpPublished Config.smallMpmc (Ring.new 1) fun _ => 7 }
    have hfirst : ∃ k, run (step Config.smallMpmc) (World.new 1) (.mpCall 0 c :: List.replicate k (.mp 0)) = some u :=
      mpPublish_run rfl rfl rfl (Or.inl (by decide)) c
    have hsecond : ∃ k, run (step Config.smallMpmc) u (.mpCall 0 c :: List.replicate k (.mp 0)) =
        some { u with ring := mpPublished Config.smallMpmc u.ring fun _ => 7 } :=
      mpPublish_run rfl rfl rfl (Or.inl (by decide)) c
    obtain ⟨m, hrun⟩ := hfirst
    obtain ⟨m', hrun'⟩ := hsecond
    have hs0 : Config.smallMpmc.slot 0 = 0 := by decide +kernel
    have hs1 : Config.smallMpmc.slot 1 = 1 := by decide +kernel
    have htwo : { u with ring := mpPublished Config.smallMpmc u.ring fun _ => 7 } =
        lapped 2 (fun _ => Slot.new 1) [fun _ => 7, fun _ => 7] [0, 1] := by
      have hword : u64 (0 + 1) = 1 := rfl
      simp only [u, lapped, mpPublished, Ring.append, Ring.setSlot, Ring.new, hs0, hword, hs1]
      rfl
    rw [htwo] at hrun'
    exact ⟨_, _, _, (Reachable.start.of_run hrun).of_run hrun', by decide⟩
  | succ k ih =>
    obtain ⟨slots, log, returned, h, hall⟩ := ih (by omega)
    obtain ⟨slots', log', h'⟩ := lapped_next (by omega) hlt h
    refine ⟨slots', log', _, h', fun q hq => ?_⟩
    rw [List.mem_append, List.mem_singleton]
    by_cases hlast : q = k + 2
    · exact Or.inr hlast
    · exact Or.inl (hall q (by omega))

/-- An MPMC ring of two slots with two producers. -/
def both (r : Ring 1) (a b : MpPc 1) : World 1 :=
  { World.new 1 with ring := r, producers := Function.update (Function.update (fun _ => .idle) 0 a) 1 b }

section Both

variable {r r' : Ring 1} {a a' b b' : MpPc 1}

theorem both_idle (r : Ring 1) : both r .idle .idle = { World.new 1 with ring := r } := by
  simp only [both, World.new, Function.update_eq_self_iff.mpr]

theorem both_fst (h : a.step Config.smallMpmc r = some (r', a')) :
    step Config.smallMpmc (both r a b) (.mp 0) = some (both r' a' b) := by
  have ha : (both r a b).producers 0 = a := rfl
  simp only [step, ha]
  change (a.step Config.smallMpmc r).map _ = _
  rw [h, Option.map_some]
  simp only [both, setProducer]
  rw [Function.update_comm (by decide), Function.update_idem]

theorem both_snd (h : b.step Config.smallMpmc r = some (r', b')) :
    step Config.smallMpmc (both r a b) (.mp 1) = some (both r' a b') := by
  have hb : (both r a b).producers 1 = b := rfl
  simp only [step, hb]
  change (b.step Config.smallMpmc r).map _ = _
  rw [h, Option.map_some]
  simp only [both, setProducer]
  rw [Function.update_idem]

theorem both_call_fst (c : MpCall 1) :
    step Config.smallMpmc (both r .idle .idle) (.mpCall 0 c) = some (both r (.claim c) .idle) := by
  change some _ = some _
  simp only [both, setProducer]
  rw [Function.update_comm (by decide), Function.update_idem]

theorem both_call_snd (c : MpCall 1) :
    step Config.smallMpmc (both r a .idle) (.mpCall 1 c) = some (both r a (.claim c)) := by
  change some _ = some _
  simp only [both, setProducer]
  rw [Function.update_idem]

/-- A producer up to its first attempt on the cursor. -/
def filling : MpPc 1 → Bool
  | .waitSlot .. => true
  | .write .. => true
  | _ => false

theorem fill_ends {own : Nat} {v : Value 1}
    (hst : u64 ((own - 2) * 2 + 2) ≤ (r.slots (Config.smallMpmc.slot own)).stamp) :
    Ends (fun x => filling x.2) (mpStep Config.smallMpmc)
      (fun x => x = (r.setSlot (Config.smallMpmc.slot own) ⟨done own, bytesOf v⟩, .cas own))
      (r, .waitSlot own ⟨v, false⟩) := by
  refine .step (t := (r, .write own v .begin)) rfl ?_
    (mpWrite_ends (b := filling) (fun _ => rfl) trivial (.done rfl rfl))
  change (if _ then some _ else if _ then some _ else some _) = _
  split_ifs with hlt hwait
  · rfl
  · exact absurd hwait (Nat.not_lt.mpr hst)
  · rfl

theorem fill_fst {own : Nat} {v : Value 1}
    (hst : u64 ((own - 2) * 2 + 2) ≤ (r.slots (Config.smallMpmc.slot own)).stamp)
    (h : Reach Config.smallMpmc (both r (.waitSlot own ⟨v, false⟩) b)) :
    Reach Config.smallMpmc (both (r.setSlot (Config.smallMpmc.slot own) ⟨done own, bytesOf v⟩) (.cas own) b) :=
  (fill_ends hst).reachable (fun x => both x.1 x.2 b) (fun _ _ hxy => both_fst hxy) h

theorem fill_snd {own : Nat} {v : Value 1}
    (hst : u64 ((own - 2) * 2 + 2) ≤ (r.slots (Config.smallMpmc.slot own)).stamp)
    (h : Reach Config.smallMpmc (both r a (.waitSlot own ⟨v, false⟩))) :
    Reach Config.smallMpmc (both (r.setSlot (Config.smallMpmc.slot own) ⟨done own, bytesOf v⟩) a (.cas own)) :=
  (fill_ends hst).reachable (fun x => both x.1 a x.2) (fun _ _ hxy => both_snd hxy) h

end Both

/-- The producer of the last sequence returns while the one before it has not moved the
cursor. With its claim `next_seq` has wrapped to 0, so the catch-up stops before it. -/
theorem overtaken {r : Ring 1} (h : Reach Config.smallMpmc (both r .idle .idle)) (hnext : r.nextSeq = 2 ^ 64 - 2)
    (hcur : r.cursor = 2 ^ 64 - 3) (h0 : (r.slots 0).stamp = done (2 ^ 64 - 4))
    (h1 : (r.slots 1).stamp = done (2 ^ 64 - 3)) : ∃ r', Reach Config.smallMpmc (both r' .idle .idle) ∧
      r'.returned = r.returned ++ [2 ^ 64 - 1] ++ [2 ^ 64 - 2] ∧ r'.cursor = 2 ^ 64 - 2 ∧
      r'.slots 1 = ⟨done (2 ^ 64 - 1), bytesOf fun _ => 7⟩ := by
  have hs0 : Config.smallMpmc.slot (2 ^ 64 - 2) = 0 := by decide +kernel
  have hs1 : Config.smallMpmc.slot (2 ^ 64 - 1) = 1 := by decide +kernel
  have hclaims := (((h.next (both_call_fst ⟨fun _ => 7, false⟩)).next (both_fst rfl)).next
    (both_call_snd ⟨fun _ => 7, false⟩)).next (both_snd rfl)
  rw [hnext] at hclaims
  simp only [Ring.append_nextSeq, show u64 (2 ^ 64 - 2 + 1) = 2 ^ 64 - 1 by decide,
    show u64 (2 ^ 64 - 1 + 1) = 0 by decide] at hclaims
  have hfill := fill_fst (by rw [hs0]; exact h0.ge) hclaims
  rw [hs0] at hfill
  have hfill' := fill_snd (by rw [hs1]; exact h1.ge) hfill
  rw [hs1] at hfill'
  generalize hr : Ring.setSlot (Ring.setSlot _ 0 _) 1 _ = r₁ at hfill'
  have hcur₁ : r₁.cursor = 2 ^ 64 - 3 := by rw [← hr]; exact hcur
  have hnext₁ : r₁.nextSeq = 0 := by rw [← hr]; rfl
  have hret₁ : r₁.returned = r.returned := by rw [← hr]; rfl
  have hst₁ : (r₁.slots 0).stamp = done (2 ^ 64 - 2) := by rw [← hr]; rfl
  have hlast₁ : r₁.slots 1 = ⟨done (2 ^ 64 - 1), bytesOf fun _ => 7⟩ := by rw [← hr]; rfl
  have hmiss : r₁.cursor ≠ expectedCursor (2 ^ 64 - 1) := by rw [hcur₁]; decide
  have hwait : Reach Config.smallMpmc (both r₁ (.cas (2 ^ 64 - 2)) (.waitPred (2 ^ 64 - 1))) := by
    refine hfill'.next (both_snd ?_)
    simp only [MpPc.step, hmiss, ↓reduceIte]
    rfl
  have hrecas : Reach Config.smallMpmc (both r₁ (.cas (2 ^ 64 - 2)) (.recas (2 ^ 64 - 1))) := by
    refine hwait.next (both_snd (if_neg ?_))
    change ¬ (r₁.slots (Config.smallMpmc.slot (2 ^ 64 - 2))).stamp < done (2 ^ 64 - 2)
    rw [hs0, hst₁]
    exact Nat.lt_irrefl _
  have hreload : Reach Config.smallMpmc (both r₁ (.cas (2 ^ 64 - 2)) (.reload (2 ^ 64 - 1))) :=
    hrecas.next (both_snd (if_neg hmiss))
  let r₂ : Ring 1 := (MpPc.ret r₁ (2 ^ 64 - 1)).1
  have hreturned : Reach Config.smallMpmc (both r₂ (.cas (2 ^ 64 - 2)) .idle) := by
    refine hreload.next (both_snd (if_neg ?_))
    rw [hcur₁]
    decide
  have hwon : Reach Config.smallMpmc
      (both { r₂ with cursor := 2 ^ 64 - 2 } (.catchNext (2 ^ 64 - 2) (2 ^ 64 - 2)) .idle) := by
    refine hreturned.next (both_fst (if_pos ?_))
    change r₁.cursor = _
    rw [hcur₁]
    decide
  have hend : Reach Config.smallMpmc
      (both (MpPc.ret { r₂ with cursor := 2 ^ 64 - 2 } (2 ^ 64 - 2)).1 .idle .idle) := by
    refine hwon.next (both_fst (if_pos ?_))
    change r₁.nextSeq ≤ _
    rw [hnext₁]
    exact Nat.zero_le _
  refine ⟨_, hend, ?_, rfl, hlast₁⟩
  change r₁.returned ++ [2 ^ 64 - 1] ++ [2 ^ 64 - 2] = _
  rw [hret₁]

end PhotonRing.Unattended
