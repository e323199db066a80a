import PhotonRing.Channel.Unattended

/-!
# The blocking receives against `try_recv`

`recv` and `recv_with` read the slot themselves and hand over to a slow path when it has been
overwritten; `recv_gated` asks its barrier before every `try_recv`. On a quiet ring with a
message at or after the cursor all three end where repeated `try_recv`s end: after at most one
jump of the cursor, with the message found there.
-/
namespace PhotonRing.Blocking

open Lib Reader World Solo Unattended

variable {n : Nat} {cfg : Config} {r : Ring n} {t : Trackers} {i : Nat} {s : Subscriber n} {w u : World n}
  {c : Caller n} {v : Value n} {us : List Nat}

/-! ## Where a receive ends -/

/-- The trackers and the subscriber once a lag has been dealt with. -/
def caughtUp (cfg : Config) (r : Ring n) (i : Nat) (x : Trackers × Subscriber n) : Trackers × Subscriber n :=
  if r.log.length ≤ x.2.cursor + cfg.capacity then x
  else (stored x.1 i (jumped x.2 (r.log.length - cfg.capacity)), jumped x.2 (r.log.length - cfg.capacity))

/-- The trackers and the subscriber when a receive returns the message at the cursor. -/
def delivered (i : Nat) (buf : Buf n) (x : Trackers × Subscriber n) : Trackers × Subscriber n :=
  (stored x.1 i (taken x.2 buf), (taken x.2 buf).finish (.recv (.ok buf)))

theorem caughtUp_held (hold : r.log.length ≤ s.cursor + cfg.capacity) : caughtUp cfg r i (t, s) = (t, s) :=
  if_pos hold

theorem caughtUp_passed (hold : ¬ r.log.length ≤ s.cursor + cfg.capacity) : caughtUp cfg r i (t, s) =
    (stored t i (jumped s (r.log.length - cfg.capacity)), jumped s (r.log.length - cfg.capacity)) := if_neg hold

theorem caughtUp_cursor (cfg : Config) (r : Ring n) (t : Trackers) (i : Nat) (s : Subscriber n) :
    (caughtUp cfg r i (t, s)).2.cursor = max s.cursor (r.log.length - cfg.capacity) := by
  by_cases hold : r.log.length ≤ s.cursor + cfg.capacity
  · rw [caughtUp_held hold, Nat.max_eq_left (by omega)]
  · rw [caughtUp_passed hold, Nat.max_eq_right (by omega)]
    rfl

theorem stored_value_ne (s : Subscriber n) {j : Nat} (hj : j ≠ i) : (stored t i s).value j = t.value j := by
  unfold stored
  split
  · exact Function.update_of_ne hj ..
  · rfl

/-! ## The receives alone -/

/-- A receive that returns what `read_slot` gives it, and goes on to the next read after a lag. -/
theorem persist_ends {Q : Trackers × Subscriber n → Prop} (h : Quiet cfg r) (hl : r.log.length < seqLimit)
    (hc : ThroughReadSlot c) (hv : r.log[(caughtUp cfg r i (t, s)).2.cursor]? = some v)
    (hlag : ∀ oldest k, r.log.length = oldest + cfg.capacity → s.cursor < oldest →
      Ends (fun x => busy x.2) (subStep cfg r i) Q (stored t i (jumped s oldest), (jumped s oldest).poll c) →
      Ends (fun x => busy x.2) (subStep cfg r i) Q
        (stored t i (jumped s oldest), (jumped s oldest).resume (.lagged k) c))
    (hcont : let x := caughtUp cfg r i (t, s)
      Ends (fun x => busy x.2) (subStep cfg r i) Q
        (stored x.1 i (taken x.2 (bytesOf v)), (taken x.2 (bytesOf v)).resume (.ok (bytesOf v)) c)) :
    Ends (fun x => busy x.2) (subStep cfg r i) Q (t, s.poll c) := by
  by_cases hold : r.log.length ≤ s.cursor + cfg.capacity
  · rw [caughtUp_held hold] at hv hcont
    exact ok_ends h hl hv hold hcont
  · rw [caughtUp_passed hold] at hv hcont
    have hnew : r.log.length = r.log.length - cfg.capacity + cfg.capacity := by omega
    have hlt : s.cursor < r.log.length - cfg.capacity := by omega
    exact lagged_ends h hl hc hnew hlt (hlag _ _ hnew hlt (ok_ends h hl hv hnew.le hcont))

/-- The fast paths of `recv` and `recv_with` leave an overwritten slot to their slow paths. -/
theorem fast_ends {Q : Trackers × Subscriber n → Prop} {c' : Caller n} (h : Quiet cfg r)
    (hl : r.log.length < seqLimit) (hc : ∀ stamp, done s.cursor ≤ stamp → (s.poll c).onTryRead c (.other stamp) =
      s.poll c') (hold : s.cursor + cfg.capacity < r.log.length)
    (hcont : Ends (fun x => busy x.2) (subStep cfg r i) Q (t, s.poll c')) :
    Ends (fun x => busy x.2) (subStep cfg r i) Q (t, s.poll c) := by
  have hseq : s.cursor < seqLimit := by omega
  obtain ⟨hst, hev⟩ := h.passed hold
  have hread := readStep_of_ne hseq (by omega) hev
  refine .step rfl (t := (t, s.poll c')) ?_ hcont
  have hstep : subStep cfg r i (t, s.poll c) = some (t, (s.poll c).onTryRead c (.other (r.stampAt cfg s.cursor))) := by
    simp only [subStep, Subscriber.step, Subscriber.poll, cfg.slot_eq_of_lt hseq, hread]
  rw [hstep, hc _ (by rw [done_eq hseq]; omega)]

/-- A barrier that is past the cursor lets the receive through. -/
theorem gate_ends {Q : Trackers × Subscriber n → Prop} {min : Nat} (hmin : s.cursor < min)
    (hus : ∀ j ∈ us, s.cursor < t.value j) (hcont : Ends (fun x => busy x.2) (subStep cfg r i) Q (t, s.poll c)) :
    Ends (fun x => busy x.2) (subStep cfg r i) Q (t, { s with pc := .gate c us min }) := by
  induction us generalizing min with
  | nil => exact .step rfl (if_neg (Nat.not_le.mpr hmin)) hcont
  | cons j us ih =>
    refine .step rfl rfl (ih ?_ fun k hk => hus k (List.mem_cons_of_mem j hk))
    split
    · exact hus j List.mem_cons_self
    · exact hmin

/-- The slow paths, and `drain`. -/
theorem slow_ends (h : Quiet cfg r) (hl : r.log.length < seqLimit)
    (hv : r.log[(caughtUp cfg r i (t, s)).2.cursor]? = some v)
    (hc : c = .recvSlow ∨ c = .recvWithSlow 0 ∨ c = .drain) :
    Ends (fun x => busy x.2) (subStep cfg r i) (fun x => x = delivered i (bytesOf v) (caughtUp cfg r i (t, s)))
      (t, s.poll c) := by
  rcases hc with rfl | rfl | rfl
  · exact persist_ends h hl trivial hv (fun _ _ _ _ hnext => hnext) (.done rfl rfl)
  · exact persist_ends h hl trivial hv (fun _ _ _ _ hnext => hnext) (.done rfl rfl)
  · exact persist_ends h hl trivial hv (fun _ _ _ _ hnext => hnext) (.done rfl rfl)

theorem recv_ends (h : Quiet cfg r) (hl : r.log.length < seqLimit)
    (hv : r.log[(caughtUp cfg r i (t, s)).2.cursor]? = some v) (bare : Nat) :
    Ends (fun x => busy x.2) (subStep cfg r i) (fun x => x = delivered i (bytesOf v) (caughtUp cfg r i (t, s)))
      (t, s.poll (.recv bare)) := by
  by_cases hold : r.log.length ≤ s.cursor + cfg.capacity
  · rw [caughtUp_held hold] at hv ⊢
    exact ok_ends h hl hv hold (.done rfl rfl)
  · exact fast_ends h hl (fun _ hst => if_pos hst) (by omega) (slow_ends h hl hv (Or.inl rfl))

theorem recvWith_ends (h : Quiet cfg r) (hl : r.log.length < seqLimit)
    (hv : r.log[(caughtUp cfg r i (t, s)).2.cursor]? = some v) (iter : Nat) :
    Ends (fun x => busy x.2) (subStep cfg r i) (fun x => x = delivered i (bytesOf v) (caughtUp cfg r i (t, s)))
      (t, s.poll (.recvWith iter)) := by
  by_cases hold : r.log.length ≤ s.cursor + cfg.capacity
  · rw [caughtUp_held hold] at hv ⊢
    exact ok_ends h hl hv hold (.done rfl rfl)
  · exact fast_ends h hl (fun _ hst => if_pos hst) (by omega) (slow_ends h hl hv (Or.inr (Or.inl rfl)))

/-- A barrier past the message that the receive comes to. After a jump of the cursor it has to
be past it without the tracker that the jump has moved. -/
theorem recvGated_ends (h : Quiet cfg r) (hl : r.log.length < seqLimit)
    (hv : r.log[(caughtUp cfg r i (t, s)).2.cursor]? = some v)
    (hus : ∀ j ∈ us, (caughtUp cfg r i (t, s)).2.cursor < t.value j)
    (hself : i ∈ us → r.log.length ≤ s.cursor + cfg.capacity) :
    Ends (fun x => busy x.2) (subStep cfg r i) (fun x => x = delivered i (bytesOf v) (caughtUp cfg r i (t, s)))
      (t, s.gate (.recvGated us) us) := by
  have hlt : (caughtUp cfg r i (t, s)).2.cursor < r.log.length := (List.getElem?_eq_some_iff.mp hv).1
  rw [caughtUp_cursor] at hus hlt
  have hmax : max s.cursor (r.log.length - cfg.capacity) < u64Max := by
    unfold seqLimit at hl
    unfold u64Max
    omega
  refine gate_ends (by omega) (fun j hj => (Nat.le_max_left ..).trans_lt (hus j hj)) ?_
  refine persist_ends h hl trivial hv (fun oldest k hnew hold hnext => ?_) (.done rfl rfl)
  have hold' : r.log.length - cfg.capacity = oldest := by omega
  rw [hold'] at hus hmax
  refine gate_ends (s := jumped s oldest) ((Nat.le_max_right ..).trans_lt hmax) (fun j hj => ?_) hnext
  have hne : j ≠ i := by
    rintro rfl
    have := hself hj
    omega
  rw [stored_value_ne _ hne]
  exact (Nat.le_max_right ..).trans_lt (hus j hj)

/-! ## In the channel -/

/-- Subscriber `i`'s call, run alone, ends in `u`. -/
def RunsTo (cfg : Config) (i : Nat) (c : SubCall) (w u : World n) : Prop :=
  ∃ w1, step cfg w (.subCall i c) = some w1 ∧
    Ends (fun x => busy (x.subs i)) (fun x => step cfg x (.sub i)) (fun x => x = u) w1

/-- `try_recv` again and again, ignoring `Lagged`, until the first `Ok`. -/
inductive Retried (cfg : Config) (i : Nat) : World n → World n → Prop where
  | ok {w u : World n} {buf : Buf n} (hrun : RunsTo cfg i .tryRecv w u)
      (hlast : (u.subs i).last = some (.recv (.ok buf))) : Retried cfg i w u
  | lagged {w v u : World n} {k : Nat} (hrun : RunsTo cfg i .tryRecv w v)
      (hlast : (v.subs i).last = some (.recv (.lagged k))) (hnext : Retried cfg i v u) : Retried cfg i w u

theorem runsTo_of_ends {call : SubCall} {s0 : Subscriber n} {x : Trackers × Subscriber n}
    (hcall : (w.subs i).call call = some s0)
    (h : Ends (fun x => busy x.2) (subStep cfg w.ring i) (fun y => y = x) (w.trackers, s0)) :
    RunsTo cfg i call w (moved w i x.1 x.2) := by
  refine ⟨moved w i w.trackers s0, ?_, (moved_ends h).mono fun u hu => ?_⟩
  · simp only [step, hcall, Option.map_some]
    rfl
  · obtain ⟨y, rfl, rfl⟩ := hu
    rfl

theorem call_of_idle (h : s.pc = .idle) : s.call .tryRecv = some (s.poll .tryRecv) ∧
    s.call .recv = some (s.poll (.recv 64)) ∧ s.call .recvWith = some (s.poll (.recvWith 0)) ∧
    ∀ us, us ≠ [] → s.call (.recvGated us) = some (s.gate (.recvGated us) us) := by
  refine ⟨?_, ?_, ?_, fun us hne => ?_⟩
  · simp only [Subscriber.call, h]
  · simp only [Subscriber.call, h]
  · simp only [Subscriber.call, h]
  · cases us with
    | nil => exact absurd rfl hne
    | cons j us => simp only [Subscriber.call, h]

theorem moved_moved (w : World n) (i : Nat) (t t' : Trackers) (s s' : Subscriber n) :
    moved (moved w i t s) i t' s' = moved w i t' s' := by
  simp only [moved, setSub, Function.update_idem]

theorem retried_held (h : Quiet cfg w.ring) (hl : messages w < seqLimit) (hidle : (w.subs i).pc = .idle)
    (hv : w.ring.log[(w.subs i).cursor]? = some v) (hold : w.ring.log.length ≤ (w.subs i).cursor + cfg.capacity) :
    let x := delivered i (bytesOf v) (w.trackers, w.subs i)
    Retried cfg i w (moved w i x.1 x.2) := by
  have hlast : ((moved w i (delivered i (bytesOf v) (w.trackers, w.subs i)).1
      (delivered i (bytesOf v) (w.trackers, w.subs i)).2).subs i).last = some (.recv (.ok (bytesOf v))) := by
    rw [moved_self]
    rfl
  exact .ok (runsTo_of_ends (call_of_idle hidle).1 (ok_ends h hl hv hold (.done rfl rfl))) hlast

theorem retried_delivered (h : Quiet cfg w.ring) (hl : messages w < seqLimit) (hidle : (w.subs i).pc = .idle)
    (hv : w.ring.log[(caughtUp cfg w.ring i (w.trackers, w.subs i)).2.cursor]? = some v) :
    let x := delivered i (bytesOf v) (caughtUp cfg w.ring i (w.trackers, w.subs i))
    Retried cfg i w (moved w i x.1 x.2) := by
  by_cases hold : w.ring.log.length ≤ (w.subs i).cursor + cfg.capacity
  · rw [caughtUp_held hold] at hv ⊢
    exact retried_held h hl hidle hv hold
  · rw [caughtUp_passed hold] at hv ⊢
    generalize hoff : w.ring.log.length - cfg.capacity = oldest at hv ⊢
    let t' := stored w.trackers i (jumped (w.subs i) oldest)
    let s' := (jumped (w.subs i) oldest).finish (.recv (.lagged (oldest - (w.subs i).cursor)))
    have hlag : RunsTo cfg i .tryRecv w (moved w i t' s') :=
      runsTo_of_ends (x := (t', s')) (call_of_idle hidle).1
        (lagged_ends h hl trivial (by omega) (by omega) (.done rfl rfl))
    have hself : (moved w i t' s').subs i = s' := moved_self ..
    have hrest := retried_held (w := moved w i t' s') (i := i) (v := v) h hl (by rw [hself]; rfl)
      (by rw [hself]; exact hv) (by rw [hself]; change w.ring.log.length ≤ oldest + _; omega)
    dsimp only at hrest
    rw [hself, moved_moved] at hrest
    exact .lagged hlag (by rw [hself]; rfl) hrest

/-- On a channel without a publish in progress, a subscriber with something to read gets the
same message and is left in the same state, together with its channel, by repeated
`try_recv`s, by `recv`, by `recv_with` and by `recv_gated` on a barrier past that message. -/
theorem blocking_receives_agree (h : Reach cfg w) (hl : messages w < seqLimit)
    (hpub : w.publisher.pc = .idle) (hps : ∀ p, w.producers p = .idle) (hidle : (w.subs i).pc = .idle)
    (hc : (w.subs i).cursor < messages w) :
    ∃ u v, w.ring.log[max (w.subs i).cursor (messages w - cfg.capacity)]? = some v ∧
      (u.subs i).cursor = max (w.subs i).cursor (messages w - cfg.capacity) + 1 ∧
      (u.subs i).last = some (.recv (.ok (bytesOf v))) ∧
      Retried cfg i w u ∧ RunsTo cfg i .recv w u ∧ RunsTo cfg i .recvWith w u ∧
      ∀ us, us ≠ [] → (∀ j ∈ us, (u.subs i).cursor ≤ w.trackers.value j) →
        (i ∈ us → messages w ≤ (w.subs i).cursor + cfg.capacity) → RunsTo cfg i (.recvGated us) w u := by
  have hq : Quiet cfg w.ring := quiet_of_idle (reach_sane h hl).written hpub hps
  have hcap := cfg.capacity_pos
  have hcur : (caughtUp cfg w.ring i (w.trackers, w.subs i)).2.cursor =
      max (w.subs i).cursor (messages w - cfg.capacity) := caughtUp_cursor ..
  have hlt : (caughtUp cfg w.ring i (w.trackers, w.subs i)).2.cursor < messages w := by
    rw [hcur]
    omega
  obtain ⟨v, hv⟩ : ∃ v, w.ring.log[(caughtUp cfg w.ring i (w.trackers, w.subs i)).2.cursor]? = some v :=
    ⟨_, List.getElem?_eq_getElem hlt⟩
  obtain ⟨_, hrecv, hwith, hgated⟩ := call_of_idle hidle
  refine ⟨_, v, by rw [← hcur, hv], ?_, ?_, retried_delivered hq hl hidle hv,
    runsTo_of_ends hrecv (recv_ends hq hl hv 64),
    runsTo_of_ends hwith (recvWith_ends hq hl hv 0),
    fun us hne hus hself => runsTo_of_ends (hgated us hne) (recvGated_ends hq hl hv (fun j hj => ?_) hself)⟩
  · rw [moved_self]
    exact congrArg (· + 1) hcur
  · rw [moved_self]
    rfl
  · have hpast := hus j hj
    rw [moved_self] at hpast
    exact hpast

/-- A subscriber whose message has been overwritten, behind a barrier over another one. -/
theorem blocking_receives_agree_lagged : ∃ (w u : World 1) (v : Value 1), Reach Config.smallLossy w ∧
    messages w = 3 ∧ (w.subs 0).cursor = 0 ∧ (u.subs 0).cursor = 2 ∧ (u.subs 0).last = some (.recv (.ok (bytesOf v))) ∧
    Retried Config.smallLossy 0 w u ∧ RunsTo Config.smallLossy 0 .recv w u ∧
    RunsTo Config.smallLossy 0 .recvWith w u ∧ RunsTo Config.smallLossy 0 (.recvGated [1]) w u := by
  obtain ⟨w, hw, hp⟩ := Reachable.of_run_any (step Config.smallLossy) (World.new 1)
    (fun w => decide (messages w = 3 ∧ (w.subs 0).cursor = 0 ∧ w.trackers.value 1 = 2 ∧
      pubBusy w.publisher = false ∧ isIdle (w.subs 0).pc = true))
    (List.flatten [[.subscribe 0 .subscribe, .sub 0], [.subscribe 1 .tracked, .sub 1],
      .pubCall (.publish fun _ => 5) :: List.replicate 5 .pub, .pubCall (.publish fun _ => 6) :: List.replicate 5 .pub,
      .pubCall (.publish fun _ => 7) :: List.replicate 5 .pub, .subCall 1 .tryRecv :: List.replicate 3 (.sub 1),
      .subCall 1 .tryRecv :: List.replicate 4 (.sub 1)]) (by decide +kernel)
  obtain ⟨hm, hcur, hval, hpub, hidle⟩ := of_decide_eq_true hp
  have hps : ∀ p, w.producers p = .idle := ((reach_sane hw (by rw [hm]; decide)).written.single nofun).2
  obtain ⟨u, v, _, hcur', hlast, hretried, hrecv, hwith, hgated⟩ := blocking_receives_agree hw (by rw [hm]; decide)
    (idle_of_not_pubBusy hpub) hps (idle_of_isIdle hidle) (by rw [hm, hcur]; decide)
  have hu : (u.subs 0).cursor = 2 := by
    rw [hcur', hm, hcur]
    rfl
  refine ⟨w, u, v, hw, hm, hcur, hu, hlast, hretried, hrecv, hwith, hgated [1] (by decide) (fun j hj => ?_) nofun⟩
  obtain rfl := List.mem_singleton.mp hj
  rw [hu, hval]

/-! ## Where they disagree -/

/-- A call that comes to a point which no step leads out of has no end. -/
theorem not_runsTo {call : SubCall} {P : World n → Prop} {k : Nat} {w1 x : World n}
    (hcall : step cfg w (.subCall i call) = some w1) (hrun : run (step cfg) w1 (List.replicate k (.sub i)) = some x)
    (hbusy : ∀ x, P x → busy (x.subs i) = true) (hstep : ∀ x y, step cfg x (.sub i) = some y → P x → P y)
    (hx : P x) : ¬ RunsTo cfg i call w u := by
  rintro ⟨w1', hw1, hends⟩
  rw [hcall] at hw1
  obtain rfl := Option.some.inj hw1
  exact (hends.after (fun _ => step_of_not_busy) hrun).not_of_busy hbusy hstep hx

/-- In `recv`, on a slot whose stamp is below the one it waits for. -/
structure Spinning (w : World 1) : Prop where
  pc : ∃ bare, (w.subs 0).pc = .read (.recv bare) .stamp
  cursor : (w.subs 0).cursor = 1
  stamp : (w.ring.slots 1).stamp = 0

theorem Spinning.step {w w' : World 1} (h : step Config.smallLossy w (.sub 0) = some w') (hw : Spinning w) :
    Spinning w' := by
  obtain ⟨bare, hpc⟩ := hw.pc
  obtain ⟨⟨t, s⟩, hs, rfl⟩ := Option.map_eq_some_iff.mp h
  have hslot : Config.smallLossy.slot 1 = 1 := by decide +kernel
  have hread : (w.ring.slots 1).readStep 1 .stamp = .inr (.other 0) := by
    simp only [Slot.readStep, hw.stamp]
    rfl
  simp only [Subscriber.step, hpc, hw.cursor, hslot, hread] at hs
  cases hs
  have hdone : ¬ done (w.subs 0).cursor ≤ 0 := by
    rw [hw.cursor]
    decide
  refine ⟨⟨bare - 1, ?_⟩, ?_, hw.stamp⟩
  · rw [setSub_self, Subscriber.onTryRead, if_neg hdone]
    rfl
  · rw [setSub_self, Subscriber.onTryRead, if_neg hdone]
    exact hw.cursor

/-- At the barrier of `recv_gated` over the subscriber's own tracker. -/
def atOwnGate : SubPc 1 → Bool
  | .gate (.recvGated [0]) [0] min => min == u64Max
  | _ => false

theorem gate_of_atOwnGate {pc : SubPc 1} (h : atOwnGate pc = true) : pc = .gate (.recvGated [0]) [0] u64Max := by
  unfold atOwnGate at h
  split at h
  · rw [beq_iff_eq.mp h]
  · cases h

/-- In `recv_gated` behind its own tracker, which has come down to the cursor. -/
structure Waiting (w : World 1) : Prop where
  pc : (w.subs 0).pc = .gate (.recvGated [0]) [0] u64Max ∨ (w.subs 0).pc = .gate (.recvGated [0]) [] 1
  cursor : (w.subs 0).cursor = 1
  value : w.trackers.value 0 = 1

theorem Waiting.step {w w' : World 1} (h : step Config.smallLossy w (.sub 0) = some w') (hw : Waiting w) :
    Waiting w' := by
  obtain ⟨⟨t, s⟩, hs, rfl⟩ := Option.map_eq_some_iff.mp h
  rcases hw.pc with hpc | hpc
  · simp only [Subscriber.step, hpc, hw.value] at hs
    cases hs
    exact ⟨Or.inr (by rw [setSub_self]; rfl), by rw [setSub_self]; exact hw.cursor, hw.value⟩
  · simp only [Subscriber.step, hpc, hw.cursor, Nat.le_refl, ↓reduceIte] at hs
    cases hs
    exact ⟨Or.inl (by rw [setSub_self]; rfl), by rw [setSub_self]; exact hw.cursor, hw.value⟩

theorem Spinning.busy (w : World 1) (h : Spinning w) : busy (w.subs 0) = true := by
  obtain ⟨bare, hpc⟩ := h.pc
  unfold Solo.busy
  rw [hpc]

theorem Waiting.busy (w : World 1) (h : Waiting w) : busy (w.subs 0) = true := by
  unfold Solo.busy
  rcases h.pc with hpc | hpc <;> rw [hpc]

/-- After `2 ^ 63` messages the stamp of the last one has wrapped to that of an empty slot. -/
theorem recv_spins : ∃ w : World 1, Reach Config.smallLossy w ∧ w.publisher.pc = .idle ∧
    (∀ p, w.producers p = .idle) ∧ (w.subs 0).pc = .idle ∧ (w.subs 0).cursor < messages w ∧
    ∀ u, ¬ RunsTo Config.smallLossy 0 .recv w u := by
  obtain ⟨w0, hw0, hp⟩ := Reachable.of_run_any (step Config.smallLossy) (World.new 1)
    (fun w => decide (w.publisher.seq = 1 ∧ messages w = 1 ∧ (w.subs 0).cursor = 1 ∧ pubBusy w.publisher = false ∧
      isIdle (w.subs 0).pc = true))
    (List.flatten [.pubCall (.publish fun _ => 5) :: List.replicate 5 .pub, [.subscribe 0 .subscribe, .sub 0]])
    (by decide +kernel)
  obtain ⟨hseq, hm, hcur, hpub, hidle⟩ := of_decide_eq_true hp
  have halone : Alone Config.smallLossy w0 := ⟨idle_of_not_pubBusy hpub, nofun, fun h => absurd rfl h⟩
  obtain ⟨w1, hw1, ha, hlater⟩ := publish_many
    (R := fun u => Reach Config.smallLossy u ∧ ∀ p, u.producers p = .idle) (fun _ => 5)
    (fun u ha hu => ⟨reach_afterPublish ha.unchecked ha.idle hu.1, hu.2⟩) halone (by rw [hseq]; decide)
    ⟨hw0, ((reach_sane hw0 (by rw [hm]; decide)).written.single nofun).2⟩ (2 ^ 63 - 2)
  have hseq1 : w1.publisher.seq = 2 ^ 63 - 1 := by
    rw [hlater.seq, hseq]
    decide
  obtain ⟨l, hlen, hlog⟩ := hlater.log
  have hsub : (afterPublish Config.smallLossy w1 fun _ => 5).subs 0 = w0.subs 0 := by
    rw [afterPublish_subs, hlater.subs]
  have hslots : ((afterPublish Config.smallLossy w1 fun _ => 5).ring.slots 1).stamp = 0 := by
    have hslot : Config.smallLossy.slot (2 ^ 63 - 1) = 1 := by decide +kernel
    rw [afterPublish_slots, hseq1, hslot, Function.update_self]
    decide
  have hcall : step Config.smallLossy (afterPublish Config.smallLossy w1 fun _ => 5) (.subCall 0 .recv) = some
      ((afterPublish Config.smallLossy w1 fun _ => 5).setSub 0 ((w0.subs 0).poll (.recv 64))) := by
    simp only [step, hsub, (call_of_idle (idle_of_isIdle hidle)).2.1, Option.map_some]
  refine ⟨_, reach_afterPublish (v := fun _ => 5) ha.unchecked ha.idle hw1.1, rfl, hw1.2, ?_, ?_, fun u =>
    not_runsTo (k := 0) hcall rfl Spinning.busy (fun _ _ => Spinning.step) ⟨⟨64, ?_⟩, ?_, hslots⟩⟩
  · rw [hsub, idle_of_isIdle hidle]
  · rw [hsub, hcur]
    change 1 < (w1.ring.log ++ [_]).length
    rw [List.length_append, hlog, List.length_append, hlen, List.length_singleton]
    omega
  · rw [setSub_self]
    rfl
  · rw [setSub_self]
    exact hcur

/-- A test for `Waiting`. -/
def waits (w : World 1) : Bool :=
  decide (w.trackers.value 0 = 1 ∧ (w.subs 0).cursor = 1 ∧ atOwnGate (w.subs 0).pc = true)

/-- `latest` has moved the cursor back without its tracker. The jump of the cursor in
`recv_gated` brings the tracker back as well, and the barrier over it is never past again. -/
theorem own_tracker_waits : ∃ w u : World 1, Reach Config.smallLossy w ∧ w.publisher.pc = .idle ∧
    (∀ p, w.producers p = .idle) ∧ (w.subs 0).pc = .idle ∧ (w.subs 0).cursor < messages w ∧
    Retried Config.smallLossy 0 w u ∧ (u.subs 0).cursor ≤ w.trackers.value 0 ∧
    ∀ u', ¬ RunsTo Config.smallLossy 0 (.recvGated [0]) w u' := by
  obtain ⟨w, hw, hp⟩ := Reachable.of_run_any (step Config.smallLossy) (World.new 1)
    (fun w => decide (messages w = 3 ∧ (w.subs 0).cursor = 0 ∧ w.trackers.value 0 = 2 ∧
      pubBusy w.publisher = false ∧ isIdle (w.subs 0).pc = true) &&
      (run (step Config.smallLossy) w (.subCall 0 (.recvGated [0]) :: List.replicate 5 (.sub 0))).any waits)
    (List.flatten [[.subscribe 0 .tracked, .sub 0], .pubCall (.publish fun _ => 5) :: List.replicate 5 .pub,
      .pubCall (.publish fun _ => 6) :: List.replicate 4 .pub, .subCall 0 .tryRecv :: List.replicate 4 (.sub 0),
      .subCall 0 .tryRecv :: List.replicate 4 (.sub 0), [.subCall 0 .latest, .sub 0, .pub],
      .pubCall (.publish fun _ => 7) :: List.replicate 2 .pub, [.sub 0], List.replicate 3 .pub]) (by decide +kernel)
  rw [Bool.and_eq_true, Option.any_eq_true] at hp
  obtain ⟨hrest, x, hx, hwait⟩ := hp
  obtain ⟨hm, hcur, hval, hpub, hidle⟩ := of_decide_eq_true hrest
  obtain ⟨hval', hcur', hgate⟩ := of_decide_eq_true hwait
  obtain ⟨w1, hcall, hx⟩ := Option.bind_eq_some_iff.mp hx
  have hps : ∀ p, w.producers p = .idle := ((reach_sane hw (by rw [hm]; decide)).written.single nofun).2
  obtain ⟨u, _, _, hcuru, _, hretried, _⟩ := blocking_receives_agree hw (by rw [hm]; decide)
    (idle_of_not_pubBusy hpub) hps (idle_of_isIdle hidle) (by rw [hm, hcur]; decide)
  refine ⟨w, u, hw, idle_of_not_pubBusy hpub, hps, idle_of_isIdle hidle, by rw [hm, hcur]; decide, hretried, ?_,
    fun u' => not_runsTo hcall hx Waiting.busy (fun _ _ => Waiting.step)
      ⟨Or.inl (gate_of_atOwnGate hgate), hcur', hval'⟩⟩
  rw [hcuru, hm, hcur, hval]
  decide

/-- Two blocking receives that never return. -/
theorem blocking_receives_stuck :
    (∃ w : World 1, Reach Config.smallLossy w ∧ w.publisher.pc = .idle ∧ (∀ p, w.producers p = .idle) ∧
      (w.subs 0).pc = .idle ∧ (w.subs 0).cursor < messages w ∧ ∀ u, ¬ RunsTo Config.smallLossy 0 .recv w u) ∧
    ∃ w u : World 1, Reach Config.smallLossy w ∧ w.publisher.pc = .idle ∧ (∀ p, w.producers p = .idle) ∧
      (w.subs 0).pc = .idle ∧ (w.subs 0).cursor < messages w ∧ Retried Config.smallLossy 0 w u ∧
      (u.subs 0).cursor ≤ w.trackers.value 0 ∧ ∀ u', ¬ RunsTo Config.smallLossy 0 (.recvGated [0]) w u' :=
  ⟨recv_spins, own_tracker_waits⟩

end PhotonRing.Blocking
