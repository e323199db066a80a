import PhotonRing.Channel.Tracked
import PhotonRing.Channel.Delivery
import PhotonRing.Channel.Unattended
import Mathlib.Logic.Relation

/-!
# Dependency barriers

A gated receive looks at the trackers of its upstreams first and reads its slot
afterwards. A tracker beyond a message means that the upstream has received it or was told
that it lost it. The second happens only to a message that has been overwritten, and then
the gated receive does not find it either.
-/
namespace PhotonRing.Barrier

open Lib Reader World Unattended

variable {n : Nat} {cfg : Config} {r : Ring n} {t t' : Trackers} {i u q : Nat} {s s' : Subscriber n}
  {subs subs' : Nat → Subscriber n} {w w' : World n} {a : Act n}

/-- The upstreams that a receive is gated by. -/
def barrierOf : Caller n → Option (List Nat)
  | .tryRecvGated us => some us
  | .recvGated us => some us
  | _ => none

/-- Who waits for the outcome of the receive in progress. -/
def callerOf : SubPc n → Option (Caller n)
  | .gate c _ _ => some c
  | .read c _ => some c
  | .head c => some c
  | .commit c _ => some c
  | _ => none

def Received (s : Subscriber n) (q : Nat) : Prop := ∃ buf, Event.received q buf ∈ s.events

/-- Upstream `u` is beyond `q`, and has received it unless it started later. -/
structure Cleared (t : Trackers) (subs : Nat → Subscriber n) (q u : Nat) : Prop where
  passed : q < t.value u
  received : (subs u).start ≤ q → Received (subs u) q

/-- What a subscriber knows of its upstreams at each point of a gated receive. An upstream
that has called `latest` is not promised to have received anything. -/
def PcOk (t : Trackers) (subs : Nat → Subscriber n) (cursor : Nat) : SubPc n → Prop
  | .gate c todo min => ∀ us, barrierOf c = some us → ∀ u ∈ us, (subs u).latestUsed = false →
      u ∈ todo ∨ min ≤ t.value u
  | .read c _ => ∀ us, barrierOf c = some us → ∀ u ∈ us, (subs u).latestUsed = false → cursor < t.value u
  | .commit c (.ok _) => ∀ us, barrierOf c = some us → ∀ u ∈ us, (subs u).latestUsed = false →
      Cleared t subs (cursor - 1) u
  | _ => True

/-! ## Upstreams -/

/-- A message still held by its slot that an upstream's tracker has passed was received by
that upstream, unless it started later. -/
theorem received_of_passed (hs : Reader.Ok cfg r s) (ht : Tracked.Ok t u s) (hu : s.latestUsed = false)
    (hheld : r.stampAt cfg q = 2 * q + 2) (hpast : q < t.value u) (hstart : s.start ≤ q) : Received s q := by
  have htr : s.tracker = true := by
    cases htr : s.tracker with
    | true => rfl
    | false => rw [ht.untracked htr] at hpast; exact absurd hpast (Nat.not_lt_zero q)
  rw [ht.tracked htr hu] at hpast
  obtain ⟨k, ⟨hlo, hhi⟩, _⟩ := (hs.tiles hu).existsUnique hstart hpast
  have hmem : s.events.get k ∈ s.events := List.get_mem _ _
  have hev := hs.events _ hmem
  cases he : s.events.get k with
  | received seq buf =>
    rw [he] at hlo hhi hmem
    obtain rfl : seq = q := by
      change seq ≤ q at hlo
      change q < seq + 1 at hhi
      omega
    exact ⟨buf, hmem⟩
  | skipped old new =>
    -- what was reported lost had been overwritten, and stays so
    rw [he] at hlo hhi hev
    have hover : 2 * (q + cfg.capacity) + 2 ≤ r.stampAt cfg q := hev q hlo hhi
    have := cfg.two_le
    omega

/-- What a step does to an upstream. -/
structure Onward (t t' : Trackers) (subs subs' : Nat → Subscriber n) (u : Nat) : Prop where
  used : (subs' u).latestUsed = false → (subs u).latestUsed = false
  value : (subs' u).latestUsed = false → t.value u ≤ t'.value u
  start : Created (stage (subs u).pc) → (subs' u).start = (subs u).start
  events : ∀ e ∈ (subs u).events, e ∈ (subs' u).events

theorem step_onward (h : step cfg w a = some w') (hl : messages w < seqLimit) (hs : Sane cfg w)
    (ht : Tracked.Ok w.trackers u (w.subs u)) : Onward w.trackers w'.trackers w.subs w'.subs u := by
  obtain ⟨_, hmono⟩ := Tracked.step_ok h hl hs ht
  refine ⟨fun hu => (hmono hu).1, fun hu => (hmono hu).2, fun hc => ?_, fun e he => ?_⟩
  · rcases step_reader h u with hsame | hch
    · rw [hsame]
    · exact (hch.created hc).2
  · rcases step_reader h u with hsame | hch
    · rw [hsame]
      exact he
    · exact hch.events he

/-- Upstreams only move on, so that what a subscriber knows of them stays true. -/
theorem Cleared.mono (h : Cleared t subs q u) (ho : Onward t t' subs subs' u) (ht : Tracked.Ok t u (subs u))
    (hu : (subs' u).latestUsed = false) : Cleared t' subs' q u := by
  refine ⟨h.passed.trans_le (ho.value hu), fun hstart => ?_⟩
  have hcr : Created (stage (subs u).pc) := by
    by_contra hn
    have hpast := h.passed
    rw [ht.untracked (ht.fresh hn)] at hpast
    exact absurd hpast (Nat.not_lt_zero q)
  rw [ho.start hcr] at hstart
  obtain ⟨buf, hbuf⟩ := h.received hstart
  exact ⟨buf, ho.events _ hbuf⟩

theorem PcOk.mono {cursor : Nat} {pc : SubPc n} (h : PcOk t subs cursor pc)
    (ho : ∀ u, Onward t t' subs subs' u) (ht : ∀ u, Tracked.Ok t u (subs u)) : PcOk t' subs' cursor pc := by
  cases pc with
  | gate c todo min =>
    intro us hc u hu hused
    exact (h us hc u hu ((ho u).used hused)).imp_right (fun hle => hle.trans ((ho u).value hused))
  | read c pc =>
    intro us hc u hu hused
    exact (h us hc u hu ((ho u).used hused)).trans_le ((ho u).value hused)
  | commit c res =>
    cases res with
    | ok buf =>
      intro us hc u hu hused
      exact (h us hc u hu ((ho u).used hused)).mono (ho u) (ht u) hused
    | _ => trivial
  | _ => trivial

/-! ## The gated subscriber -/

/-- No gated receive is in progress. -/
def Free (pc : SubPc n) : Prop := ∀ c, callerOf pc = some c → barrierOf c = none

theorem Free.pcOk {cursor : Nat} {pc : SubPc n} (h : Free pc) : PcOk t subs cursor pc := by
  have hno {c : Caller n} {us : List Nat} (hc : callerOf pc = some c) (hb : barrierOf c = some us) : False := by
    rw [h c hc] at hb
    cases hb
  cases pc with
  | gate c todo min => exact fun us hc => (hno rfl hc).elim
  | read c pc => exact fun us hc => (hno rfl hc).elim
  | commit c res => cases res <;> first | trivial | exact fun us hc => (hno rfl hc).elim
  | _ => trivial

theorem free_of_none {pc : SubPc n} (h : callerOf pc = none) : Free pc := fun c hc => by rw [h] at hc; cases hc

theorem endBatch_free (s : Subscriber n) (b : Batch) : Free (s.endBatch b).pc := by
  unfold Subscriber.endBatch
  split <;> exact free_of_none rfl

theorem nextInBatch_free (s : Subscriber n) (b : Batch) : Free (s.nextInBatch b).pc := by
  unfold Subscriber.nextInBatch
  split
  · intro c hc
    cases hc
    rfl
  · exact endBatch_free s b

theorem poll_free {c : Caller n} (hc : barrierOf c = none) (s : Subscriber n) : Free (s.poll c).pc := by
  intro c' h
  cases h
  exact hc

/-- A receive returns to its caller: a gated one is over, or looks at the barrier again. -/
theorem resume_gated (s : Subscriber n) (res : Recv n) (c : Caller n) :
    Free (s.resume res c).pc ∨ ∃ us, c = .recvGated us ∧ s.resume res c = s.gate c us := by
  cases c with
  | recvGated us =>
    cases res with
    | ok buf => exact Or.inl (free_of_none rfl)
    | _ => exact Or.inr ⟨us, rfl, rfl⟩
  | recvBatch left filled again =>
    left
    cases res <;> simp only [Subscriber.resume] <;>
      first | exact free_of_none rfl | (split <;> first | exact free_of_none rfl | exact poll_free rfl s)
  | drainBatch b =>
    left
    cases res with
    | ok buf =>
      exact Subscriber.handle_cases (P := fun u => Free u.pc) (fun _ => free_of_none rfl) fun _ => nextInBatch_free _ _
    | empty => exact endBatch_free s b
    | lagged k => exact nextInBatch_free s b
  | _ => left; cases res <;> first | exact free_of_none rfl | exact poll_free rfl s

/-- A barrier that is looked at from the start. -/
theorem gate_ok {cursor : Nat} (c : Caller n) (us : List Nat) (hc : ∀ vs, barrierOf c = some vs → vs = us) :
    PcOk t subs cursor (s.gate c us).pc := by
  intro vs hb u hu _
  exact Or.inl (hc vs hb ▸ hu)

theorem resume_ok {cursor : Nat} (s : Subscriber n) (res : Recv n) (c : Caller n) :
    PcOk t subs cursor (s.resume res c).pc := by
  rcases resume_gated s res c with hf | ⟨us, rfl, he⟩
  · exact hf.pcOk
  · rw [he]
    exact gate_ok _ us (fun vs hb => (Option.some.inj hb).symm)

/-- A read that did not deliver. -/
theorem onTryRead_ok {cursor : Nat} {c : Caller n} {res : TryRead n} (hres : ∀ buf, res ≠ .value buf)
    (s : Subscriber n) : PcOk t subs cursor (s.onTryRead c res).pc := by
  by_cases hc : ThroughReadSlot c
  · exact onTryRead_cases (P := fun u => PcOk t subs cursor u.pc) hc (fun buf he => absurd he (hres buf))
      (resume_ok s .empty c) trivial
  · cases res with
    | value buf => exact absurd rfl (hres buf)
    | torn =>
      cases c with
      | recv bare => exact (poll_free rfl s).pcOk
      | recvWith iter => exact (poll_free rfl s).pcOk
      | _ => exact absurd trivial hc
    | other st =>
      cases c with
      | recv bare => simp only [Subscriber.onTryRead]; split_ifs <;> exact (poll_free rfl s).pcOk
      | recvWith iter => simp only [Subscriber.onTryRead]; split_ifs <;> exact (poll_free rfl s).pcOk
      | _ => exact absurd trivial hc

/-- A step of a subscriber, against its upstreams as they are. -/
theorem own_ok (hs : Reader.Ok cfg r s) (hl : r.log.length < seqLimit) (h : PcOk t subs s.cursor s.pc)
    (hclear : ∀ u, (subs u).latestUsed = false → s.cursor < t.value u → r.stampAt cfg s.cursor = 2 * s.cursor + 2 →
      (subs u).start ≤ s.cursor → Received (subs u) s.cursor)
    (hstep : s.step cfg r t i = some (t', s')) : PcOk t subs s'.cursor s'.pc := by
  cases Subscriber.step_moves hstep with
  | @gateNext c v vs m hp =>
    rw [hp] at h
    intro us hc u hu hused
    rcases h us hc u hu hused with hm | hle
    · rcases List.mem_cons.mp hm with rfl | hm
      · right
        split_ifs <;> omega
      · exact Or.inl hm
    · right
      split_ifs <;> omega
  | @gateClosed c m _ _ => exact resume_ok s .empty c
  | gateOpen hp hlt =>
    rw [hp] at h
    intro us hc u hu hused
    rcases h us hc u hu hused with hm | hle
    · cases hm
    · change s.cursor < t.value u
      omega
  | reading hp _ =>
    rw [hp] at h
    exact h
  | @read c pc res hp hres =>
    rw [hp] at h
    by_cases hval : ∃ buf, res = .value buf
    · obtain ⟨buf, rfl⟩ := hval
      have hcur := hs.cursor_lt hl
      have hword : u64 (s.cursor + 1) - 1 = s.cursor := by
        unfold seqLimit at hcur
        rw [u64_of_lt (by omega)]
        omega
      intro us hc u hu hused
      dsimp only [Subscriber.onTryRead]
      rw [hword]
      exact ⟨h us hc u hu hused, hclear u hused (h us hc u hu hused) (hs.value_stamp hl hp hres).1⟩
    · exact onTryRead_ok (fun buf he => hval ⟨buf, he⟩) s
  | @head c _ =>
    exact Subscriber.onHead_cases (P := fun u => PcOk t subs u.cursor u.pc) (resume_ok s .empty c)
      (fun _ _ _ => trivial)
  | @commit c res _ => cases res <;> exact resume_ok _ _ c
  | latestHead _ _ => exact fun us hc => by cases hc
  | loadPending _ =>
    exact Subscriber.onPending_cases (P := fun u => PcOk t subs u.cursor u.pc) (fun _ => (endBatch_free s _).pcOk)
      (fun _ => (poll_free rfl s).pcOk)
  | _ => trivial

/-- A call of a subscriber. -/
theorem call_ok {c : SubCall} {cursor : Nat} (h : s.call c = some s') : PcOk t subs cursor s'.pc := by
  cases (Subscriber.call_begins h).2 with
  | tryRecvGated u us => exact gate_ok _ _ (fun vs hb => (Option.some.inj hb).symm)
  | recvGated u us => exact gate_ok _ _ (fun vs hb => (Option.some.inj hb).symm)
  | latest | pending | recvNothing | consume => trivial
  | tryRecv | recv | recvWith | recvBatch | drain => exact (poll_free rfl s).pcOk

/-! ## Along a run -/

structure Ok (cfg : Config) (w : World n) : Prop where
  sane : Sane cfg w
  tracked : ∀ i, Tracked.Ok w.trackers i (w.subs i)
  gates : ∀ i, PcOk w.trackers w.subs (w.subs i).cursor (w.subs i).pc

theorem ok_new (cfg : Config) : Ok cfg (World.new n) where
  sane := ⟨written_new cfg, fun _ => ok_absent cfg _⟩
  tracked := fun _ => ⟨fun _ => rfl, fun _ => rfl, fun h => by cases h⟩
  gates := fun _ => trivial

theorem step_ok (h : step cfg w a = some w') (hl : messages w' < seqLimit) (hw : Ok cfg w) : Ok cfg w' := by
  have hl0 : messages w < seqLimit := (step_log_le h).trans_lt hl
  obtain ⟨hs, ht, hg⟩ := hw
  refine ⟨step_sane h hl hs, fun i => (Tracked.step_ok h hl0 hs (ht i)).1, fun i => ?_⟩
  refine PcOk.mono ?_ (fun u => step_onward h hl0 hs (ht u)) ht
  cases step_subs h i with
  | other he => rw [he]; exact hg i
  | subscribe he _ =>
    obtain ⟨_, pc, hpc, he⟩ := subscribe_pc he
    rw [he]
    rcases hpc with rfl | rfl <;> trivial
  | call he _ => exact call_ok he
  | step he =>
    exact own_ok (hs.readers i) hl0 (hg i)
      (fun u hu hpast hheld hstart => received_of_passed (hs.readers u) (ht u) hu hheld hpast hstart) he
  | drop he _ => obtain ⟨_, he | he⟩ := drop_pc he <;> rw [he] <;> trivial
  | shutdown he _ => rw [he]; exact hg i

theorem reach_ok (h : Reach cfg w) (hl : messages w < seqLimit) : Ok cfg w :=
  Reachable.invariant_below messages seqLimit (fun _ _ _ hs => step_log_le hs) (ok_new cfg)
    (fun _ _ _ hs hlt hw => step_ok hs hlt hw) h hl

/-! ## Chains of barriers -/

/-- The calls of a subscriber that receives through the barrier over `us` only. -/
def through (us : List Nat) : SubCall → Bool
  | .tryRecvGated vs => decide (vs = us)
  | .recvGated vs => decide (vs = us)
  | .pending => true
  | _ => false

def obeys (g : Nat → Option (List Nat)) : Act n → Bool
  | .subCall i c =>
    match g i with
    | some us => through us c
    | none => true
  | _ => true

/-- The steps of a channel on which subscriber `i` receives through the barrier over `us`
only, if `g i` is `some us`, and by any operation otherwise. -/
def gatedStep (cfg : Config) (g : Nat → Option (List Nat)) (w : World n) (a : Act n) : Option (World n) :=
  if obeys g a then step cfg w a else none

variable {g : Nat → Option (List Nat)} {us : List Nat}

theorem gated_step (h : gatedStep cfg g w a = some w') : obeys g a = true ∧ step cfg w a = some w' := by
  unfold gatedStep at h
  split at h
  · exact ⟨‹_›, h⟩
  · cases h

/-- The program points of a subscriber that receives through the barrier over `us` only. -/
def Only (us : List Nat) : SubPc n → Prop
  | .gate c _ _ => barrierOf c = some us
  | .read c _ => barrierOf c = some us
  | .head c => barrierOf c = some us
  | .commit c _ => barrierOf c = some us
  | .latestHead => False
  | .checkShutdown _ _ => False
  | .loadPending _ _ _ => False
  | _ => True

theorem resume_only {c : Caller n} (hc : barrierOf c = some us) (res : Recv n) : Only us (s.resume res c).pc := by
  cases c with
  | tryRecvGated vs => trivial
  | recvGated vs => cases res <;> trivial
  | _ => cases hc

/-- A gated receive looks at its slot through `read_slot`. -/
theorem throughReadSlot_of_barrier {c : Caller n} (hc : barrierOf c = some us) : ThroughReadSlot c := by
  cases c with
  | recv bare => cases hc
  | recvWith iter => cases hc
  | _ => trivial

theorem onTryRead_only {c : Caller n} (hc : barrierOf c = some us) (res : TryRead n) :
    Only us (s.onTryRead c res).pc := by
  exact onTryRead_cases (P := fun u => Only us u.pc) (throughReadSlot_of_barrier hc) (fun _ _ => hc)
    (resume_only hc .empty) hc

theorem own_only (h : Only us s.pc) (hstep : s.step cfg r t i = some (t', s')) : Only us s'.pc := by
  cases Subscriber.step_moves hstep with
  | gateNext hp | gateOpen hp _ | reading hp _ =>
    rw [hp] at h
    exact h
  | gateClosed hp _ =>
    rw [hp] at h
    exact resume_only h .empty
  | read hp _ =>
    rw [hp] at h
    exact onTryRead_only h _
  | head hp =>
    rw [hp] at h
    exact Subscriber.onHead_cases (P := fun u => Only us u.pc) (resume_only h .empty) (fun _ _ _ => h)
  | @commit c res hp =>
    rw [hp] at h
    cases res <;> exact resume_only h _
  | latestNone hp _ | latestHead hp _ | checkDrain hp _ | checkStop hp _ | checkGo hp _ | loadPending hp =>
    rw [hp] at h
    exact h.elim
  | _ => trivial

theorem call_only {c : SubCall} (h : s.call c = some s') (hc : through us c = true) : Only us s'.pc := by
  cases (Subscriber.call_begins h).2 with
  | tryRecvGated u vs => exact congrArg some (of_decide_eq_true hc)
  | recvGated u vs => exact congrArg some (of_decide_eq_true hc)
  | pending => trivial
  | _ => cases hc

/-- A new entry of the history is the outcome that was about to be counted. -/
theorem received_of_change (h : Change cfg r s s') (hq : Received s' q) :
    Received s q ∨ ∃ c buf, s.pc = .commit c (.ok buf) ∧ q = s.cursor - 1 := by
  obtain ⟨buf, hq⟩ := hq
  cases h with
  | wait _ hb _ _ _ => rw [(Book.mk.inj hb).2.2.2] at hq; exact Or.inl ⟨buf, hq⟩
  | join _ _ _ hb _ _ _ => rw [(Book.mk.inj hb).2.2.2] at hq; exact Or.inl ⟨buf, hq⟩
  | @commit c res hp =>
    cases res with
    | empty =>
      rw [Subscriber.onCommit, (Book.mk.inj (resume_local s .empty c).1.book).2.2.2] at hq
      exact Or.inl ⟨buf, hq⟩
    | ok b =>
      rw [Subscriber.onCommit, (Book.mk.inj (resume_local _ _ c).1.book).2.2.2] at hq
      rcases List.mem_append.mp hq with hq | hq
      · exact Or.inl ⟨buf, hq⟩
      · cases List.mem_singleton.mp hq
        exact Or.inr ⟨c, buf, hp, rfl⟩
    | lagged k =>
      rw [Subscriber.onCommit, (Book.mk.inj (resume_local _ _ c).1.book).2.2.2] at hq
      rcases List.mem_append.mp hq with hq | hq
      · exact Or.inl ⟨buf, hq⟩
      · cases List.mem_singleton.mp hq
  | _ => exact Or.inl ⟨buf, hq⟩

/-- A subscriber behind a barrier has received only what its upstreams are done with. -/
structure Behind (us : List Nat) (t : Trackers) (subs : Nat → Subscriber n) (s : Subscriber n) : Prop where
  only : Only us s.pc
  cleared : ∀ q, Received s q → ∀ u ∈ us, (subs u).latestUsed = false → Cleared t subs q u

theorem step_behind (h : gatedStep cfg g w a = some w') (hl : messages w' < seqLimit) (hw : Ok cfg w)
    (hg : g i = some us) (hi : Behind us w.trackers w.subs (w.subs i)) :
    Behind us w'.trackers w'.subs (w'.subs i) := by
  obtain ⟨hob, h⟩ := gated_step h
  have hl0 : messages w < seqLimit := (step_log_le h).trans_lt hl
  refine ⟨?_, fun q hq u hu hused => ?_⟩
  · cases step_subs h i with
    | other he => rw [he]; exact hi.only
    | subscribe he _ =>
      obtain ⟨_, pc, hpc, he⟩ := subscribe_pc he
      rw [he]
      rcases hpc with rfl | rfl <;> trivial
    | call he _ =>
      simp only [obeys, hg] at hob
      exact call_only he hob
    | step he => exact own_only hi.only he
    | drop he _ => obtain ⟨_, he | he⟩ := drop_pc he <;> rw [he] <;> trivial
    | shutdown he _ => rw [he]; exact hi.only
  · have ho := step_onward h hl0 hw.sane (hw.tracked u)
    refine Cleared.mono ?_ ho (hw.tracked u) hused
    rcases step_reader h i with he | hc
    · rw [he] at hq
      exact hi.cleared q hq u hu (ho.used hused)
    · rcases received_of_change hc hq with hq | ⟨c, buf, hpc, rfl⟩
      · exact hi.cleared q hq u hu (ho.used hused)
      · have hb := hi.only
        have hgate := hw.gates i
        rw [hpc] at hb hgate
        exact hgate us hb u hu (ho.used hused)

theorem reach_behind (h : Reachable (gatedStep cfg g) (World.new n) w) (hl : messages w < seqLimit) :
    Ok cfg w ∧ ∀ i us, g i = some us → Behind us w.trackers w.subs (w.subs i) :=
  Reachable.invariant_below
    (P := fun w => Ok cfg w ∧ ∀ i us, g i = some us → Behind us w.trackers w.subs (w.subs i))
    messages seqLimit (fun _ _ _ hs => step_log_le (gated_step hs).2)
    ⟨ok_new cfg, fun _ _ _ => ⟨trivial, fun _ hq => by obtain ⟨_, hq⟩ := hq; cases hq⟩⟩
    (fun _ _ _ hs hlt hw => ⟨step_ok (gated_step hs).2 hlt hw.1,
      fun i us hg => step_behind hs hlt hw.1 hg (hw.2 i us hg)⟩) h hl

/-- `u` is an upstream of `d` that has to have received message `q` first. -/
def Link (g : Nat → Option (List Nat)) (subs : Nat → Subscriber n) (q u d : Nat) : Prop :=
  ∃ us, g d = some us ∧ u ∈ us ∧ (subs u).latestUsed = false ∧ (subs u).start ≤ q

/-- The one step that ends a gated receive with a message. -/
theorem gated_returns {c : Caller n} {buf : Buf n} (hstep : s.step cfg r t i = some (t', s'))
    (hc : callerOf s.pc = some c) (hb : barrierOf c = some us) (hidle : s'.pc = .idle)
    (hlast : s'.last = some (.recv (.ok buf))) : s.pc = .commit c (.ok buf) ∧ s'.cursor = s.cursor := by
  have hempty (hidle : (s.resume .empty c).pc = .idle) (hlast : (s.resume .empty c).last = some (.recv (.ok buf))) :
      False := by
    cases c with
    | tryRecvGated vs => cases hlast
    | recvGated vs => cases hidle
    | _ => cases hb
  cases Subscriber.step_moves hstep with
  | gateNext _ | gateOpen _ _ | reading _ _ => cases hidle
  | @gateClosed c' m hp _ =>
    rw [hp] at hc
    obtain rfl : c' = c := Option.some.inj hc
    exact (hempty hidle hlast).elim
  | @read c' pc res hp _ =>
    rw [hp] at hc
    obtain rfl : c' = c := Option.some.inj hc
    have hno : (s.onTryRead c' res).pc = .idle → (s.onTryRead c' res).last = some (.recv (.ok buf)) → False :=
      onTryRead_cases (P := fun u => u.pc = .idle → u.last = some (.recv (.ok buf)) → False)
        (throughReadSlot_of_barrier hb) (fun _ _ hidle => by cases hidle) hempty (fun hidle => by cases hidle)
    exact (hno hidle hlast).elim
  | @head c' hp =>
    rw [hp] at hc
    obtain rfl : c' = c := Option.some.inj hc
    have hno : (s.onHead cfg c' r.cursor).pc = .idle → (s.onHead cfg c' r.cursor).last = some (.recv (.ok buf)) →
        False :=
      Subscriber.onHead_cases (P := fun u => u.pc = .idle → u.last = some (.recv (.ok buf)) → False) hempty
        (fun _ _ _ hidle => by cases hidle)
    exact (hno hidle hlast).elim
  | @commit c' res hp =>
    rw [hp] at hc
    obtain rfl : c' = c := Option.some.inj hc
    refine ⟨?_, (onCommit_counted s c' res).cursor⟩
    cases c' with
    | tryRecvGated vs =>
      cases res <;> cases hlast
      exact hp
    | recvGated vs =>
      cases res with
      | ok b => cases hlast; exact hp
      | _ => cases hidle
    | _ => cases hb
  | takeLock hp _ | join hp _ _ | bare hp _ | tracked hp _ | history hp _ | bareHistory hp _ | lockPush hp _ | push hp
  | latestNone hp _ | latestHead hp _ | pending hp | checkDrain hp _ | checkStop hp _ | checkGo hp _ | loadPending hp
  | dropLock hp _ | dropRetain hp | dropArc hp =>
    rw [hp] at hc
    cases hc

/-- On every channel, in every run (with `g` nowhere defined: in any run at all): when a
gated receive returns the message with sequence `q`, every upstream of its barrier that
never called `latest` and started no later has received that message. If subscribers
receive through barriers only, as `g` says, the same holds along chains of barriers. -/
theorem barrier_order (h : Reachable (gatedStep cfg g) (World.new n) w) (hl : messages w < seqLimit) :
    (∀ d c us buf w', callerOf (w.subs d).pc = some c → barrierOf c = some us →
      step cfg w (.sub d) = some w' → (w'.subs d).pc = .idle → (w'.subs d).last = some (.recv (.ok buf)) →
      0 < (w'.subs d).cursor ∧
      (∃ v, w.ring.log[(w'.subs d).cursor - 1]? = some v ∧ buf = bytesOf v) ∧
      ∀ u ∈ us, (w.subs u).latestUsed = false → (w.subs u).start ≤ (w'.subs d).cursor - 1 →
        Received (w.subs u) ((w'.subs d).cursor - 1)) ∧
    ∀ q u d, Received (w.subs d) q → Relation.TransGen (Link g w.subs q) u d → Received (w.subs u) q := by
  obtain ⟨hw, hbehind⟩ := reach_behind h hl
  refine ⟨fun d c us buf w' hc hb hstep hidle hlast => ?_, fun q u d hd hchain => ?_⟩
  · obtain ⟨⟨t', s'⟩, hst, rfl⟩ := Option.map_eq_some_iff.mp hstep
    rw [setSub_self] at hidle hlast ⊢
    obtain ⟨hpc, hcur⟩ := gated_returns hst hc hb hidle hlast
    have hstage := (hw.sane.readers d).stage
    have hgate := hw.gates d
    rw [hpc] at hstage hgate
    obtain ⟨hpos, v, hv, hbuf⟩ := hstage
    rw [hcur]
    exact ⟨hpos, ⟨v, hv, hbuf⟩, fun u hu hused hstart => (hgate us hb u hu hused).received hstart⟩
  · have hone (u d : Nat) (hlink : Link g w.subs q u d) (hd : Received (w.subs d) q) : Received (w.subs u) q := by
      obtain ⟨us, hg, hu, hused, hstart⟩ := hlink
      exact ((hbehind d us hg).cleared q hd u hu hused).received hstart
    induction hchain with
    | single hlink => exact hone _ _ hlink hd
    | tail _ hlink ih => exact ih (hone _ _ hlink hd)

/-- Three subscribers in a row: what the last one has received the first one has too. -/
theorem barrier_order_chain :
    ∃ w : World 1, Reachable (gatedStep Config.smallLossy fun d => if d = 0 then none else some [d - 1])
      (World.new 1) w ∧ Received (w.subs 2) 0 ∧ Received (w.subs 0) 0 := by
  obtain ⟨w, hr, hp⟩ := Reachable.of_run_any
    (gatedStep Config.smallLossy fun d => if d = 0 then none else some [d - 1]) (World.new 1)
    (fun w => decide (messages w < seqLimit ∧ (w.subs 0).latestUsed = false ∧ (w.subs 0).start = 0 ∧
      (w.subs 1).latestUsed = false ∧ (w.subs 1).start = 0 ∧ 0 ∈ receivedSeqs (w.subs 2).events))
    (List.flatten [[.subscribe 0 .tracked, .sub 0, .subscribe 1 .tracked, .sub 1, .subscribe 2 .subscribe, .sub 2],
      .pubCall (.publish fun _ => 7) :: List.replicate 5 .pub,
      .subCall 0 .tryRecv :: List.replicate 4 (.sub 0), .subCall 1 (.tryRecvGated [0]) :: List.replicate 6 (.sub 1),
      .subCall 2 (.recvGated [1]) :: List.replicate 6 (.sub 2)]) (by decide +kernel)
  obtain ⟨hl, hu0, hs0, hu1, hs1, hq⟩ := of_decide_eq_true hp
  have hlast : Received (w.subs 2) 0 := mem_receivedSeqs.mp hq
  refine ⟨w, hr, hlast, (barrier_order hr hl).2 0 0 2 hlast ?_⟩
  exact .tail (.single ⟨[0], rfl, by simp, hu0, hs0.le⟩) ⟨[1], rfl, by simp, hu1, hs1.le⟩

/-- A barrier whose upstream is beyond the message lets the read begin. -/
theorem gate_run {w : World 1} (hpc : (w.subs 1).pc = .idle) (hcur : (w.subs 1).cursor = 0)
    (hval : w.trackers.value 0 = 1) :
    run (step Config.smallLossy) w [.subCall 1 (.tryRecvGated [0]), .sub 1, .sub 1] =
      some (w.setSub 1 ((w.subs 1).poll (.tryRecvGated [0]))) := by
  have hmax : 1 < u64Max := by decide
  simp [run, step, Subscriber.call, hpc, Subscriber.gate, Subscriber.step, hval, hmax, hcur, Subscriber.poll, setSub]

/-- The read of a slot that carries the stamp it looks for, up to the count. -/
theorem read_run {w : World 1} {buf : Buf 1} {c : Caller 1} (hpc : (w.subs 1).pc = .read c .stamp)
    (hcur : (w.subs 1).cursor = 0) (hslot : w.ring.slots 0 = ⟨done 0, buf⟩) :
    run (step Config.smallLossy) w [.sub 1, .sub 1, .sub 1] =
      some (w.setSub 1 { w.subs 1 with cursor := 1, pc := .commit c (.ok buf) }) := by
  have hidx : Config.smallLossy.slot 0 = 0 := by decide +kernel
  have hword : u64 1 = 1 := by decide
  have hwidth : stripeWidth 1 = 1 := rfl
  have hload : loadPayload (uninit 1) buf 0 = buf := by
    funext j
    exact if_pos ⟨Nat.zero_le _, j.isLt⟩
  simp [run, step, hpc, Subscriber.step, hcur, Slot.readStep, hidx, hslot, Subscriber.onTryRead, hword, setSub,
    hwidth, hload]

/-- Both together. -/
theorem gated_read {w : World 1} {buf : Buf 1} (hpc : (w.subs 1).pc = .idle) (hcur : (w.subs 1).cursor = 0)
    (hval : w.trackers.value 0 = 1) (hslot : w.ring.slots 0 = ⟨done 0, buf⟩) :
    ∃ w', Reachable (step Config.smallLossy) w w' ∧ w'.subs 0 = w.subs 0 ∧ (w'.subs 1).cursor = 1 ∧
      (w'.subs 1).pc = .commit (.tryRecvGated [0]) (.ok buf) := by
  have hgate := Reachable.start.of_run (gate_run hpc hcur hval)
  have hread := read_run (w := w.setSub 1 ((w.subs 1).poll (.tryRecvGated [0]))) (by rw [setSub_self]; rfl)
    (by rw [setSub_self]; exact hcur) hslot
  refine ⟨_, hgate.of_run hread, ?_, ?_, ?_⟩
  · rw [setSub_ne _ _ (by decide), setSub_ne _ _ (by decide)]
  · rw [setSub_self]
  · rw [setSub_self]

/-- The count, with which the receive returns. -/
theorem gated_return {w : World 1} {us : List Nat} {buf : Buf 1}
    (hpc : (w.subs 1).pc = .commit (.tryRecvGated us) (.ok buf)) :
    ∃ w', step Config.smallLossy w (.sub 1) = some w' ∧ (w'.subs 1).pc = .idle ∧
      (w'.subs 1).last = some (.recv (.ok buf)) ∧ (w'.subs 1).cursor = (w.subs 1).cursor := by
  simp only [step, Subscriber.step, hpc, Option.map_some, Option.some.injEq, exists_eq_left', setSub_self]
  exact ⟨rfl, rfl, rfl⟩

/-- The bound on the messages is needed. The stamps of a slot start over after `2 ^ 63`
messages: a downstream that is still at the first message takes a much later one for it,
after the upstream has been told that it lost the first one. -/
theorem barrier_passes_unread : ∃ w w' : World 1, Reach Config.smallLossy w ∧
    callerOf (w.subs 1).pc = some (.tryRecvGated [0]) ∧ step Config.smallLossy w (.sub 1) = some w' ∧
    (w'.subs 1).pc = .idle ∧ (∃ buf, (w'.subs 1).last = some (.recv (.ok buf))) ∧ (w'.subs 1).cursor - 1 = 0 ∧
    (w.subs 0).tracker = true ∧ (w.subs 0).latestUsed = false ∧ (w.subs 0).start = 0 ∧ ¬ Received (w.subs 0) 0 := by
  obtain ⟨u, hu, hp⟩ := Reachable.of_run_any (step Config.smallLossy) (World.new 1)
    (fun u => decide (u.publisher.seq = 3 ∧ u.trackers.value 0 = 1 ∧ (u.subs 0).tracker = true ∧
        (u.subs 0).latestUsed = false ∧ (u.subs 0).start = 0 ∧ receivedSeqs (u.subs 0).events = [] ∧
        (u.subs 1).cursor = 0 ∧ Solo.pubBusy u.publisher = false ∧ isIdle (u.subs 1).pc = true))
    (List.flatten [[.subscribe 0 .tracked, .sub 0, .subscribe 1 .subscribe, .sub 1],
      List.flatten (List.replicate 3 (.pubCall (.publish fun _ => 7) :: List.replicate 5 .pub)),
      .subCall 0 .tryRecv :: List.replicate 3 (.sub 0)]) (by decide +kernel)
  obtain ⟨hseq, hval, htracker, hlat, hstart, hnone, hcur, hidle, hdown⟩ := of_decide_eq_true hp
  have hsub : (u.subs 1).pc = .idle := idle_of_isIdle hdown
  have halone : Alone Config.smallLossy u := ⟨Solo.idle_of_not_pubBusy hidle, nofun, fun hk => absurd rfl hk⟩
  obtain ⟨v, hv, ha, hlater⟩ := publish_many (fun _ => 7)
    (fun u ha hu => reach_afterPublish ha.unchecked ha.idle hu) halone (by rw [hseq]; decide) hu (2 ^ 63 - 3)
  have hlast : v.publisher.seq = 2 ^ 63 := by
    rw [hlater.seq, hseq]
    decide
  have hw : Reach Config.smallLossy (afterPublish Config.smallLossy v fun _ => 9) :=
    reach_afterPublish ha.unchecked ha.idle hv
  have hslot : (afterPublish Config.smallLossy v fun _ => 9).ring.slots 0 = ⟨done 0, bytesOf fun _ => 9⟩ := by
    rw [afterPublish_slots, hlast, show Config.smallLossy.slot (2 ^ 63) = 0 by decide +kernel,
      show done (2 ^ 63) = done 0 by decide, Function.update_self]
  have hsubs : (afterPublish Config.smallLossy v fun _ => 9).subs = u.subs := hlater.subs
  have htrackers : (afterPublish Config.smallLossy v fun _ => 9).trackers = u.trackers := hlater.trackers
  generalize afterPublish Config.smallLossy v (fun _ => 9) = x at hw hslot hsubs htrackers
  obtain ⟨w, hreads, hup, hone, hpc⟩ := gated_read (by rw [hsubs]; exact hsub) (by rw [hsubs]; exact hcur)
    (by rw [htrackers]; exact hval) hslot
  obtain ⟨w', hstep, hidle', hret, hsame⟩ := gated_return hpc
  refine ⟨w, w', hw.trans hreads, by rw [hpc]; rfl, hstep, hidle', ⟨_, hret⟩, by rw [hsame, hone], ?_⟩
  rw [hup, hsubs]
  refine ⟨htracker, hlat, hstart, fun hr => ?_⟩
  have hmem := mem_receivedSeqs.mpr hr
  rw [hnone] at hmem
  cases hmem

end PhotonRing.Barrier
