import PhotonRing.Lib.CatchUp
import PhotonRing.Lib.Progress
import PhotonRing.Channel.Barrier

/-!
# A subscriber on a ring at rest

Nothing is written any more, but messages may still wait for a subscriber. An attempt that
it began before may fail. One that it begins now either finds the message of its position
or learns that it was passed, and skips: its tracker moves either way.
-/
namespace PhotonRing.KeepUp

open Lib Reader World Barrier

variable {n : Nat} {cfg : Config} {r : Ring n} {t t' : Trackers} {i v : Nat} {s s' : Subscriber n}
  {upstream : Nat → Prop}

/-! ## A ring at rest -/

/-- A later message than `v` is complete in the slot of `v`, and the head shows it. -/
structure Passed (cfg : Config) (r : Ring n) (v : Nat) : Prop where
  stamp : 2 * v + 2 < r.stampAt cfg v
  even : r.stampAt cfg v % 2 = 0
  head : r.cursor ≠ u64Max
  lapped : v + cfg.capacity ≤ r.cursor

/-- Every published message is in its slot or has been passed. -/
def AtRest (cfg : Config) (r : Ring n) : Prop :=
  ∀ v < r.log.length, v < startOf r.cursor ∧ (r.stampAt cfg v = 2 * v + 2 ∨ Passed cfg r v)

theorem atRest {seq : Nat} (h : SpWriter.Ok cfg r seq .quiet) (hseq : seq < seqLimit) : AtRest cfg r := by
  intro v hv
  have hlen : r.log.length = seq := h.length
  have hcur := h.cursor
  have hstart : startOf r.cursor = seq := by
    rw [hcur]
    exact startOf_expectedCursor (by unfold seqLimit at hseq; omega)
  refine ⟨by omega, ?_⟩
  have hst := h.stamped v hv
  rcases h.origin v with h0 | ⟨q, hq, ⟨hq', hlt⟩ | ⟨_, _, w, off, hph⟩⟩
  · omega
  · by_cases he : q = v
    · exact Or.inl (he ▸ hq')
    · have hlap : v + cfg.capacity ≤ q := lap_le hq.symm (by omega)
      have hhead : r.cursor = seq - 1 := by
        rw [hcur, expectedCursor, if_neg (by omega)]
      refine Or.inr ⟨by omega, by omega, ?_, by omega⟩
      unfold seqLimit at hseq
      unfold u64Max
      omega
  · cases hph

/-! ## What a subscriber does to get its next message -/

/-- The program points of a subscriber that is after its next message, and waits for nobody
but `upstream`. -/
def Receiving (upstream : Nat → Prop) : SubPc n → Prop
  | .idle => True
  | .gate c _ _ => ∃ us, barrierOf c = some us ∧ ∀ u ∈ us, upstream u
  | .read c _ => c ≠ .latest
  | .head c => c ≠ .latest
  | .commit c _ => c ≠ .latest
  | .checkShutdown _ _ => True
  | .loadPending _ _ _ => True
  | _ => False

deriving instance DecidableEq for Batch, Caller

instance [DecidablePred upstream] : DecidablePred (Receiving (n := n) upstream)
  | .idle => inferInstanceAs (Decidable True)
  | .gate c _ _ => inferInstanceAs (Decidable (∃ us, us ∈ barrierOf c ∧ ∀ u ∈ us, upstream u))
  | .read c _ => inferInstanceAs (Decidable (c ≠ .latest))
  | .head c => inferInstanceAs (Decidable (c ≠ .latest))
  | .commit c _ => inferInstanceAs (Decidable (c ≠ .latest))
  | .checkShutdown _ _ => inferInstanceAs (Decidable True)
  | .loadPending _ _ _ => inferInstanceAs (Decidable True)
  | .absent | .lock _ | .loadHead _ | .lockPush _ | .push _ | .latestHead | .pending | .exited | .dropLock
  | .dropRetain | .dropArc | .dropped => inferInstanceAs (Decidable False)

/-- An attempt begins: at the barrier, if there is one, or at the stamp. -/
def Afresh : SubPc n → Prop
  | .gate c todo min => barrierOf c = some todo ∧ min = u64Max
  | .read _ .stamp => True
  | _ => False

/-! ## The attempt in progress -/

/-- Own steps until the attempt in progress is over and the next one begins. -/
def restLeft : SubPc n → Nat
  | .idle => 3
  | .checkShutdown _ _ => 2
  | .loadPending _ _ _ => 1
  | .gate _ todo _ => todo.length + 4
  | .read _ (.load off _) => n - off + 5
  | .head _ => 4
  | _ => 0

/-- `read_slot` has found nothing: the call is over, or the next attempt begins. -/
theorem resume_rest {c : Caller n} (hc : c ≠ .latest) (s : Subscriber n) :
    Afresh (s.resume .empty c).pc ∨ (s.resume .empty c).pc = .exited ∨ restLeft (s.resume .empty c).pc ≤ 3 := by
  cases c with
  | latest => exact absurd rfl hc
  | recvSlow => exact Or.inl trivial
  | recvWithSlow iter => exact Or.inl trivial
  | recvGated us => exact Or.inl ⟨rfl, rfl⟩
  | drainBatch b =>
    by_cases hf : b.final
    · exact Or.inr (Or.inl (by simp [Subscriber.resume, Subscriber.endBatch, hf]))
    · exact Or.inr (Or.inr (by simp [Subscriber.resume, Subscriber.endBatch, hf, restLeft]))
  | _ => exact Or.inr (Or.inr (Nat.le_refl 3))

/-- Whatever a subscriber is in the middle of, its own steps bring it to the next attempt. -/
theorem step_rest (h : s.step cfg r t i = some (t', s')) (hs : Receiving upstream s.pc) (hs' : Receiving upstream s'.pc)
    (hnot : ¬ Afresh s.pc) (hahead : stage s.pc = .ready → s.cursor < startOf r.cursor) :
    (∃ c res, s.pc = .commit c res) ∨ Afresh s'.pc ∨ restLeft s'.pc < restLeft s.pc := by
  have hempty {c : Caller n} (hc : c ≠ .latest) (hleft : 3 < restLeft s.pc)
      (hs' : Receiving upstream (s.resume .empty c).pc) : (∃ c res, s.pc = .commit c res) ∨
        Afresh (s.resume .empty c).pc ∨ restLeft (s.resume .empty c).pc < restLeft s.pc := by
    rcases resume_rest hc s with hf | he | hle
    · exact Or.inr (Or.inl hf)
    · rw [he] at hs'
      exact hs'.elim
    · exact Or.inr (Or.inr (hle.trans_lt hleft))
  cases Subscriber.step_moves h with
  | @gateNext c u us min hpc =>
    rw [hpc]
    exact Or.inr (Or.inr (by simp [restLeft]))
  | @gateClosed c min hpc _ =>
    have hc : c ≠ .latest := by
      rintro rfl
      rw [hpc] at hs
      obtain ⟨us, hus, _⟩ := hs
      cases hus
    exact hempty hc (by rw [hpc]; exact Nat.lt_succ_self 3) hs'
  | gateOpen hpc _ => exact Or.inr (Or.inl trivial)
  | @reading c pc pc' hpc hread =>
    rw [hpc] at hnot ⊢
    cases pc with
    | stamp => exact absurd trivial hnot
    | load off buf =>
      simp only [Slot.readStep] at hread
      split_ifs at hread with hlt
      obtain rfl := Sum.inl.inj hread
      have := stripeWidth_pos (n - off)
      exact Or.inr (Or.inr (by simp only [restLeft]; omega))
  | @read c pc res hpc _ =>
    rw [hpc] at hs hnot
    cases pc with
    | stamp => exact absurd trivial hnot
    | load off buf =>
      have hleft : 4 < restLeft s.pc := by rw [hpc]; simp only [restLeft]; omega
      generalize hu : s.onTryRead c res = u at hs'
      have hafter := hu ▸ onTryRead_after s c res
      cases hafter with
      | value _ => exact Or.inr (Or.inr (Nat.zero_lt_of_lt hleft))
      | again _ _ => exact Or.inr (Or.inl trivial)
      | empty => exact hempty hs (by omega) hs'
      | passed => exact Or.inr (Or.inr hleft)
  | @head c hpc =>
    rw [hpc] at hs
    have hleft : 3 < restLeft s.pc := by rw [hpc]; exact Nat.lt_succ_self 3
    revert hs'
    refine Subscriber.onHead_cases (P := fun u => Receiving upstream u.pc → _ ∨ Afresh u.pc ∨ restLeft u.pc < _)
      (hempty hs hleft) (fun _ _ _ _ => Or.inr (Or.inr (Nat.zero_lt_of_lt hleft)))
  | commit hpc => exact Or.inl ⟨_, _, hpc⟩
  | checkDrain hpc _ | checkGo hpc _ =>
    rw [hpc]
    exact Or.inr (Or.inr (by simp [restLeft]))
  | checkStop hpc _ => exact hs'.elim
  | @loadPending policy idle final hpc =>
    have hlt := hahead (by rw [hpc]; rfl)
    refine Subscriber.onPending_cases (P := fun u => _ ∨ Afresh u.pc ∨ restLeft u.pc < _) (fun h0 => ?_)
      (fun _ => Or.inr (Or.inl trivial))
    unfold pendingOf at h0
    unfold startOf at hlt
    have := cfg.two_le
    have := u64_le (r.cursor + 1)
    split_ifs at h0 hlt <;> omega
  | _ hpc =>
    rw [hpc] at hs
    exact hs.elim

/-! ## The next attempt -/

/-- The attempt at position `v` of a subscriber began when all its upstreams were beyond `v`. -/
inductive Near (cfg : Config) (r : Ring n) (v : Nat) (upstream : Nat → Prop) : SubPc n → Prop where
  | gate {c : Caller n} {todo : List Nat} {min : Nat} (hmin : v < min) (htodo : ∀ u ∈ todo, upstream u) :
      Near cfg r v upstream (.gate c todo min)
  | stamp {c : Caller n} : Near cfg r v upstream (.read c .stamp)
  | load {c : Caller n} {off : Nat} {buf : Buf n} (hst : r.stampAt cfg v = 2 * v + 2) :
      Near cfg r v upstream (.read c (.load off buf))
  | head {c : Caller n} (hp : Passed cfg r v) : Near cfg r v upstream (.head c)
  | commit {c : Caller n} {res : Recv n} : Near cfg r v upstream (.commit c res)

/-- Own steps until its outcome is counted. The fast paths of `recv` and `recv_with` look at a
slot that was overwritten once more. -/
def nearLeft : SubPc n → Nat
  | .gate _ todo _ => todo.length + n + 8
  | .read (.recv _) .stamp => n + 7
  | .read (.recvWith _) .stamp => n + 7
  | .read _ .stamp => n + 6
  | .read _ (.load off _) => n - off + 4
  | .head _ => 3
  | .commit _ _ => 2
  | _ => 0

theorem nearLeft_stamp (c : Caller n) :
    n + 6 ≤ nearLeft (.read c .stamp) ∧ nearLeft (.read c .stamp : SubPc n) ≤ n + 7 := by
  cases c <;> simp [nearLeft]

/-- The slot was overwritten: the slow paths go on to the lag, the fast ones become slow. -/
theorem onTryRead_passed (hlt : s.cursor < seqLimit) (hp : Passed cfg r s.cursor) (c : Caller n) :
    Near cfg r s.cursor upstream (s.onTryRead c (.other (r.stampAt cfg s.cursor))).pc ∧
      nearLeft (s.onTryRead c (.other (r.stampAt cfg s.cursor))).pc < nearLeft (.read c .stamp : SubPc n) := by
  have hst := hp.stamp
  have heven := hp.even
  by_cases hc : ThroughReadSlot c
  · have hleft := (nearLeft_stamp c).1
    rw [onTryRead_other hc, if_neg (by omega), if_neg (by rw [done_eq hlt]; omega)]
    exact ⟨.head hp, by simp only [nearLeft] at hleft ⊢; omega⟩
  · cases c with
    | recv bare =>
      rw [Subscriber.onTryRead, if_pos (by rw [done_eq hlt]; omega)]
      exact ⟨.stamp, Nat.lt_succ_self _⟩
    | recvWith iter =>
      rw [Subscriber.onTryRead, if_pos (by rw [done_eq hlt]; omega)]
      exact ⟨.stamp, Nat.lt_succ_self _⟩
    | _ => exact absurd trivial hc

/-- Nothing fails any more: the message is read, or its loss is found out. -/
theorem step_near (h : s.step cfg r t i = some (t', s')) (hs : Near cfg r v upstream s.pc)
    (hcur : stage s.pc = .ready ∨ (∃ off buf, stage s.pc = .loading off buf) → s.cursor = v) (hv : v < seqLimit)
    (hslot : r.stampAt cfg v = 2 * v + 2 ∨ Passed cfg r v) (hup : ∀ u, upstream u → v < t.value u) :
    (∃ c res, s.pc = .commit c res) ∨ Near cfg r v upstream s'.pc ∧ nearLeft s'.pc < nearLeft s.pc := by
  cases Subscriber.step_moves h with
  | @gateNext c u us min hpc =>
    rw [hpc] at hs ⊢
    cases hs with
    | gate hmin htodo =>
      have := hup u (htodo u List.mem_cons_self)
      refine Or.inr ⟨.gate ?_ fun u' hu' => htodo u' (List.mem_cons_of_mem u hu'), by simp [nearLeft]⟩
      split_ifs <;> assumption
  | @gateClosed c min hpc hle =>
    have hc : s.cursor = v := hcur (Or.inl (by rw [hpc]; rfl))
    rw [hpc] at hs
    cases hs
    omega
  | @gateOpen c min hpc _ =>
    rw [hpc]
    exact Or.inr ⟨.stamp, by have := (nearLeft_stamp c).2; simp only [Subscriber.poll, nearLeft] at this ⊢; omega⟩
  | @reading c pc pc' hpc hread =>
    have hc : s.cursor = v := hcur (by rw [hpc]; cases pc; exacts [Or.inl rfl, Or.inr ⟨_, _, rfl⟩])
    subst hc
    rw [cfg.slot_eq_of_lt hv] at hread
    rw [hpc] at hs ⊢
    cases pc with
    | stamp =>
      simp only [Slot.readStep] at hread
      split_ifs at hread with hst
      obtain rfl := Sum.inl.inj hread
      rw [done_eq hv] at hst
      have := (nearLeft_stamp c).1
      exact Or.inr ⟨.load hst, by simp only [nearLeft] at this ⊢; omega⟩
    | load off buf =>
      simp only [Slot.readStep] at hread
      split_ifs at hread with hlt
      obtain rfl := Sum.inl.inj hread
      have := stripeWidth_pos (n - off)
      cases hs with
      | load hst => exact Or.inr ⟨.load hst, by simp only [nearLeft]; omega⟩
  | @read c pc res hpc hread =>
    have hc : s.cursor = v := hcur (by rw [hpc]; cases pc; exacts [Or.inl rfl, Or.inr ⟨_, _, rfl⟩])
    subst hc
    rw [cfg.slot_eq_of_lt hv] at hread
    rw [hpc] at hs ⊢
    cases pc with
    | stamp =>
      simp only [Slot.readStep, done_eq hv] at hread
      have hp : Passed cfg r s.cursor := hslot.resolve_left fun he => by
        unfold Ring.stampAt at he
        rw [if_pos he] at hread
        cases hread
      have heven : r.stampAt cfg s.cursor % 2 = 0 := hp.even
      have hne : ¬ r.stampAt cfg s.cursor = 2 * s.cursor + 2 := by have := hp.stamp; omega
      unfold Ring.stampAt at heven hne
      rw [if_neg hne, if_neg (by omega)] at hread
      obtain rfl := Sum.inr.inj hread
      exact Or.inr (onTryRead_passed hv hp c)
    | load off buf =>
      cases hs with
      | load hst =>
        unfold Ring.stampAt at hst
        simp only [Slot.readStep, done_eq hv] at hread
        split_ifs at hread with hlt
        obtain rfl := Sum.inr.inj hread
        exact Or.inr ⟨.commit, by simp only [Subscriber.onTryRead, nearLeft]; omega⟩
  | @head c hpc =>
    have hc : s.cursor = v := hcur (Or.inl (by rw [hpc]; rfl))
    subst hc
    rw [hpc] at hs ⊢
    cases hs with
    | head hp =>
      have := hp.lapped
      have := cfg.two_le
      rw [Subscriber.onHead, if_neg (by have := hp.head; omega), if_pos ⟨by omega, by omega⟩]
      exact Or.inr ⟨.commit, Nat.lt_succ_self 2⟩
  | commit hpc => exact Or.inl ⟨_, _, hpc⟩
  | _ hpc =>
    rw [hpc] at hs
    cases hs

/-! ## Along an execution -/

variable {w w' : World n} {a : Act n}

/-- How a subscriber that keeps receiving moves: by its own step, by a call, or not at all. -/
theorem moves (h : World.step cfg w a = some w') (hs : Receiving upstream (w.subs i).pc)
    (hs' : Receiving upstream (w'.subs i).pc) :
    (a = .sub i ∧ (w.subs i).step cfg w.ring w.trackers i = some (w'.trackers, w'.subs i)) ∨
    (a ≠ .sub i ∧ (w'.subs i).pc = (w.subs i).pc) ∨
    (a ≠ .sub i ∧ (w.subs i).pc = .idle ∧ (Afresh (w'.subs i).pc ∨ restLeft (w'.subs i).pc = 2)) := by
  by_cases ha : a = .sub i
  · subst ha
    obtain ⟨⟨t, s⟩, hst, rfl⟩ := Option.map_eq_some_iff.mp h
    exact Or.inl ⟨rfl, by rw [setSub_self]; exact hst⟩
  · right
    cases step_subs h i with
    | other hsame => exact Or.inl ⟨ha, by rw [hsame]⟩
    | subscribe hsub _ =>
      rw [(subscribe_pc hsub).1] at hs
      exact hs.elim
    | step _ => exact absurd rfl ha
    | drop hdrop _ =>
      obtain ⟨_, he | he⟩ := drop_pc hdrop <;> rw [he] at hs' <;> exact hs'.elim
    | shutdown he _ => exact Or.inl ⟨ha, by rw [he]; rfl⟩
    | call hcall _ =>
      obtain ⟨hidle, hbegins⟩ := Subscriber.call_begins hcall
      revert hs' hbegins
      generalize w'.subs i = s'
      intro hs' hbegins
      cases hbegins with
      | latest => exact hs'.elim
      | pending => exact hs'.elim
      | recvNothing => exact Or.inl ⟨ha, hidle.symm⟩
      | consume policy => exact Or.inr ⟨ha, hidle, Or.inr rfl⟩
      | tryRecvGated u us => exact Or.inr ⟨ha, hidle, Or.inl ⟨rfl, rfl⟩⟩
      | recvGated u us => exact Or.inr ⟨ha, hidle, Or.inl ⟨rfl, rfl⟩⟩
      | _ => exact Or.inr ⟨ha, hidle, Or.inl trivial⟩

theorem Receiving.created {pc : SubPc n} (h : Receiving upstream pc) : Created (stage pc) := by
  cases pc with
  | read c pc => cases pc <;> trivial
  | absent | lock _ | loadHead _ | lockPush _ | push _ => exact h.elim
  | _ => trivial

/-- The tracker moves when an outcome is counted, and then it moves forward. -/
theorem step_value (h : s.step cfg r t i = some (t', s')) (hr : Reader.Ok cfg r s) (hl : r.log.length < seqLimit)
    (ht : Tracked.Ok t i s) (hs : Receiving upstream s.pc) (htr : s.tracker = true) (hused : s.latestUsed = false) :
    ((∃ c res, s.pc = .commit c res) → t.value i < t'.value i) ∧
      ((¬ ∃ c res, s.pc = .commit c res) → t'.value i = t.value i) := by
  constructor
  · rintro ⟨c, res, hpc⟩
    have hval := ht.tracked htr hused
    have hst := hr.stage
    rw [hpc] at hval hst
    simp only [Subscriber.step, hpc, htr, ↓reduceIte] at h
    obtain ⟨rfl, _⟩ := Prod.mk.inj (Option.some.inj h)
    change t.value i < Function.update t.value i s.cursor i
    rw [hval, Function.update_self]
    cases res with
    | ok buf =>
      have : 0 < s.cursor := hst.1
      simp only [stage, settled]
      omega
    | empty => exact hst.elim
    | lagged k =>
      obtain ⟨hk, hle, _⟩ : 0 < k ∧ k ≤ s.cursor ∧ _ := hst
      simp only [stage, settled]
      omega
  · intro hnot
    cases Tracked.step_follow (hr.cursor_lt hl) h with
    | keep hval _ _ _ => rw [hval]
    | create hn _ => exact absurd hs.created hn
    | commit hpc _ => exact absurd ⟨_, _, hpc⟩ hnot

/-- A subscriber with a tracker that keeps receiving: as long as an announced message waits for
it, its thread gets another turn. -/
structure Member (e : Execution (World.step (n := n) cfg)) (i : Nat) (upstream : Nat → Prop) : Prop where
  tracker : ∀ k, ((e.state k).subs i).tracker = true
  unused : ∀ k, ((e.state k).subs i).latestUsed = false
  receiving : ∀ k, Receiving upstream ((e.state k).subs i).pc
  turns : ∀ k, (e.state k).trackers.value i < startOf (e.state k).ring.cursor → ∃ m ≥ k, e.act m = .sub i

section Member

variable {e : Execution (World.step (n := n) cfg)} {k : Nat}

/-- An execution that keeps within the stamps. -/
structure Bounds (e : Execution (World.step (n := n) cfg)) : Prop where
  ok : ∀ k, Barrier.Ok cfg (e.state k)
  limit : ∀ k, messages (e.state k) < seqLimit

theorem Bounds.of_reach (h0 : Reach cfg (e.state 0)) (hl : ∀ k, messages (e.state k) < seqLimit) : Bounds e :=
  ⟨fun k => Barrier.reach_ok (e.reachable h0 k) (hl k), hl⟩

theorem Member.value (h : Member e i upstream) (hb : Bounds e) (m : Nat) :
    (e.state m).trackers.value i = settled ((e.state m).subs i).cursor (stage ((e.state m).subs i).pc) :=
  ((hb.ok m).tracked i).tracked (h.tracker m) (h.unused m)

theorem Member.cursor (h : Member e i upstream) (hb : Bounds e) {m : Nat}
    (hst : stage ((e.state m).subs i).pc = .ready ∨ ∃ off buf, stage ((e.state m).subs i).pc = .loading off buf) :
    ((e.state m).subs i).cursor = (e.state m).trackers.value i := by
  rw [h.value hb m]
  rcases hst with hst | ⟨off, buf, hst⟩ <;> rw [hst] <;> rfl

theorem Member.value_le (h : Member e i upstream) (hb : Bounds e) (m : Nat) :
    (e.state m).trackers.value i ≤ (e.state (m + 1)).trackers.value i :=
  ((Tracked.step_ok (e.next m) (hb.limit m) (hb.ok m).sane ((hb.ok m).tracked i)).2 (h.unused (m + 1))).2

/-- What happens to a member between two points in time, as long as its tracker stands still. -/
theorem Member.next (h : Member e i upstream) (hb : Bounds e) (m : Nat)
    (hstay : ¬ (e.state m).trackers.value i < (e.state (m + 1)).trackers.value i) :
    (e.act m = .sub i ∧ (¬ ∃ c res, ((e.state m).subs i).pc = .commit c res) ∧ ((e.state m).subs i).step cfg
      (e.state m).ring (e.state m).trackers i = some ((e.state (m + 1)).trackers, (e.state (m + 1)).subs i)) ∨
    (e.act m ≠ .sub i ∧ ((e.state (m + 1)).subs i).pc = ((e.state m).subs i).pc) ∨
    (e.act m ≠ .sub i ∧ ((e.state m).subs i).pc = .idle ∧
      (Afresh ((e.state (m + 1)).subs i).pc ∨ restLeft ((e.state (m + 1)).subs i).pc = 2)) := by
  rcases moves (e.next m) (h.receiving m) (h.receiving (m + 1)) with ⟨ha, hst⟩ | hm
  · refine Or.inl ⟨ha, fun hc => hstay ?_, hst⟩
    exact (step_value hst ((hb.ok m).sane.readers i) (hb.limit m) ((hb.ok m).tracked i) (h.receiving m)
      (h.tracker m) (h.unused m)).1 hc
  · exact Or.inr hm

/-- From some point on the ring is at rest. -/
structure RestsFrom (e : Execution (World.step (n := n) cfg)) (k : Nat) (r : Ring n) : Prop where
  ring : ∀ m ≥ k, (e.state m).ring = r
  rest : AtRest cfg r

theorem Member.turn (h : Member e i upstream) (hrest : RestsFrom e k r) {m : Nat} (hm : m ≥ k)
    (hlt : (e.state m).trackers.value i < r.log.length) : ∃ m' ≥ m, e.act m' = .sub i := by
  apply h.turns
  rw [hrest.ring m hm]
  exact (hrest.rest _ hlt).1

/-- A member for which a message waits begins another attempt, unless the one in progress succeeds. -/
theorem Member.begins (h : Member e i upstream) (hb : Bounds e) (hrest : RestsFrom e k r)
    (hlt : (e.state k).trackers.value i < r.log.length) :
    ∃ m ≥ k, (e.state k).trackers.value i < (e.state m).trackers.value i ∨
      (e.state m).trackers.value i = (e.state k).trackers.value i ∧ Afresh ((e.state m).subs i).pc := by
  generalize hv : (e.state k).trackers.value i = v at hlt
  have hkeeps {m : Nat} (hm : (e.state m).trackers.value i = v)
      (hstay : ¬ v < (e.state (m + 1)).trackers.value i) : (e.state (m + 1)).trackers.value i = v := by
    have := h.value_le hb m
    omega
  by_cases hnow : Afresh ((e.state k).subs i).pc
  · exact ⟨k, Nat.le_refl k, Or.inr ⟨hv, hnow⟩⟩
  refine eventually_of_rank
    (fun m => e.act m = .sub i ∨ ((e.state m).subs i).pc = .idle ∧ ((e.state (m + 1)).subs i).pc ≠ .idle)
    (fun m => (e.state m).trackers.value i = v ∧ ¬ Afresh ((e.state m).subs i).pc)
    (fun m => v < (e.state m).trackers.value i ∨ (e.state m).trackers.value i = v ∧ Afresh ((e.state m).subs i).pc)
    (fun m => restLeft ((e.state m).subs i).pc) ?_ ?_ ?_ ⟨hv, hnow⟩
  · intro j hj hwaits
    obtain ⟨m, hm, ha⟩ := h.turn hrest hj (by rw [(hwaits j (Nat.le_refl j)).1]; exact hlt)
    exact ⟨m, hm, Or.inl ha⟩
  · rintro m hm ⟨hval, hnot⟩ hown
    by_cases hmove : v < (e.state (m + 1)).trackers.value i
    · exact Or.inl (Or.inl hmove)
    · have hval' := hkeeps hval hmove
      have hleft : Afresh ((e.state (m + 1)).subs i).pc ∨
          restLeft ((e.state (m + 1)).subs i).pc < restLeft ((e.state m).subs i).pc := by
        rcases h.next hb m (by rw [hval]; exact hmove) with ⟨_, hnc, hst⟩ | ⟨ha, hsame⟩ | ⟨_, hidle, hcall⟩
        · rw [hrest.ring m hm] at hst
          refine (step_rest hst (h.receiving m) (h.receiving (m + 1)) hnot fun hready => ?_).resolve_left hnc
          rw [h.cursor hb (Or.inl hready), hval]
          exact (hrest.rest v hlt).1
        · rcases hown with ha' | ⟨hidle, hne⟩
          · exact absurd ha' ha
          · exact absurd (hsame.trans hidle) hne
        · rw [hidle]
          exact hcall.imp_right fun h2 => h2.trans_lt (Nat.lt_succ_self 2)
      by_cases hf : Afresh ((e.state (m + 1)).subs i).pc
      · exact Or.inl (Or.inr ⟨hval', hf⟩)
      · exact Or.inr ⟨⟨hval', hf⟩, hleft.resolve_left hf⟩
  · rintro m hm ⟨hval, hnot⟩ hown
    obtain ⟨ha, hidle⟩ := not_or.mp hown
    by_cases hmove : v < (e.state (m + 1)).trackers.value i
    · exact Or.inl (Or.inl hmove)
    · rcases h.next hb m (by rw [hval]; exact hmove) with ⟨ha', _, _⟩ | ⟨_, hsame⟩ | ⟨_, hpc, hcall⟩
      · exact absurd ha' ha
      · rw [hsame]
        exact Or.inr ⟨⟨hkeeps hval hmove, hnot⟩, Nat.le_refl _⟩
      · refine absurd ⟨hpc, fun hpc' => ?_⟩ hidle
        rw [hpc'] at hcall
        rcases hcall with hf | h2
        · exact hf
        · cases h2

/-- An attempt that begins when the upstreams are beyond the member moves its tracker. -/
theorem Member.succeeds (h : Member e i upstream) (hb : Bounds e) (hrest : RestsFrom e k r)
    (hlt : (e.state k).trackers.value i < r.log.length) (hnow : Afresh ((e.state k).subs i).pc)
    (hup : ∀ u, upstream u → ∀ m ≥ k, (e.state k).trackers.value i < (e.state m).trackers.value u) :
    ∃ m ≥ k, (e.state k).trackers.value i < (e.state m).trackers.value i := by
  generalize hv : (e.state k).trackers.value i = v at hlt hup
  have hlimit : v < seqLimit := by
    have := hb.limit k
    unfold messages at this
    rw [hrest.ring k (Nat.le_refl k)] at this
    omega
  let up (u : Nat) : Prop := ∀ m ≥ k, v < (e.state m).trackers.value u
  have hnear : Near cfg r v up ((e.state k).subs i).pc := by
    have hrec := h.receiving k
    revert hnow hrec
    generalize ((e.state k).subs i).pc = pc
    intro hnow hrec
    cases pc with
    | gate c todo min =>
      obtain ⟨hc, rfl⟩ := hnow
      obtain ⟨us, hus, hall⟩ := hrec
      rw [hc] at hus
      obtain rfl := Option.some.inj hus
      exact .gate (by unfold seqLimit at hlimit; unfold u64Max; omega) fun u hu => hup u (hall u hu)
    | read c pc =>
      cases pc with
      | stamp => exact .stamp
      | load off buf => exact hnow.elim
    | _ => exact hnow.elim
  refine eventually_of_rank (fun m => e.act m = .sub i)
    (fun m => (e.state m).trackers.value i = v ∧ Near cfg r v up ((e.state m).subs i).pc)
    (fun m => v < (e.state m).trackers.value i) (fun m => nearLeft ((e.state m).subs i).pc) ?_ ?_ ?_ ⟨hv, hnear⟩
  · intro j hj hwaits
    exact h.turn hrest hj (by rw [(hwaits j (Nat.le_refl j)).1]; exact hlt)
  · rintro m hm ⟨hval, hnear⟩ ha
    by_cases hmove : v < (e.state (m + 1)).trackers.value i
    · exact Or.inl hmove
    · have hle := h.value_le hb m
      rcases h.next hb m (by rw [hval]; exact hmove) with ⟨_, hnc, hst⟩ | ⟨ha', _⟩ | ⟨ha', _⟩
      · rw [hrest.ring m hm] at hst
        refine Or.inr ⟨⟨by omega, ?_⟩, ?_⟩
        all_goals
          obtain ⟨hnear', hleft⟩ := (step_near hst hnear (fun hstage => (h.cursor hb hstage).trans hval) hlimit
            (hrest.rest v hlt).2 fun u hu => hu m hm).resolve_left hnc
          assumption
      · exact absurd ha ha'
      · exact absurd ha ha'
  · rintro m hm ⟨hval, hnear⟩ ha
    by_cases hmove : v < (e.state (m + 1)).trackers.value i
    · exact Or.inl hmove
    · have hle := h.value_le hb m
      rcases h.next hb m (by rw [hval]; exact hmove) with ⟨ha', _⟩ | ⟨_, hsame⟩ | ⟨_, hidle, _⟩
      · exact absurd ha' ha
      · rw [hsame]
        exact Or.inr ⟨⟨by omega, hnear⟩, Nat.le_refl _⟩
      · rw [hidle] at hnear
        cases hnear

/-- A member whose upstreams have all messages gets the next one, or learns that it lost it. -/
theorem Member.advances (h : Member e i upstream) (hb : Bounds e) (hrest : RestsFrom e k r)
    (hlt : (e.state k).trackers.value i < r.log.length)
    (hup : ∀ u, upstream u → ∀ m ≥ k, r.log.length ≤ (e.state m).trackers.value u) :
    ∃ m ≥ k, (e.state k).trackers.value i < (e.state m).trackers.value i := by
  obtain ⟨j, hj, hmove | ⟨hval, hnow⟩⟩ := h.begins hb hrest hlt
  · exact ⟨j, hj, hmove⟩
  · rw [← hval] at hlt ⊢
    obtain ⟨m, hm, hmove⟩ := h.succeeds hb ⟨fun m hm => hrest.ring m (hj.trans hm), hrest.rest⟩ hlt hnow
      fun u hu m hm => hlt.trans_le (hup u hu m (hj.trans hm))
    exact ⟨m, hj.trans hm, hmove⟩

/-- Once nothing is published any more, the members of a group whose barriers have no cycle
have all messages at some point, and then for ever. -/
theorem members_catch_up {members : Finset Nat} {rank : Nat → Nat}
    (h : ∀ i ∈ members, Member e i fun u => u ∈ members ∧ rank u < rank i) (hb : Bounds e) (hrest : RestsFrom e k r) :
    ∀ᶠ m in Filter.atTop, ∀ i ∈ members, r.log.length ≤ (e.state m).trackers.value i := by
  have hmono : ∀ i ∈ members, Monotone fun m => (e.state m).trackers.value i :=
    fun i hi => monotone_nat_of_le_succ ((h i hi).value_le hb)
  refine catch_up (k := k) members rank hmono fun i hi j hj hlt hlower => ?_
  exact (h i hi).advances hb ⟨fun m hm => hrest.ring m (hj.trans hm), hrest.rest⟩ hlt
    fun u hu m hm => hlower u hu.1 hu.2 m hm

end Member

end PhotonRing.KeepUp
