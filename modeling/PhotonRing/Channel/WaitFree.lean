import PhotonRing.Lib.Progress
import PhotonRing.Channel.ReadSide

/-!
# Receives that wait for nobody

`try_recv`, `try_recv_gated`, `recv_batch` and `pending` return within a number of
their own steps that is known when they are called, whatever all other threads do
meanwhile: they take no lock and a slot that changes under them ends their attempt.
`drain` and `latest` try again after a lag. A lag moves the cursor forward, so the
messages published during the call pay for it.
-/
namespace PhotonRing.WaitFree

open Lib Lib.Seqlock Reader

variable {n : Nat} {cfg : Config} {r : Ring n} {t t' : Trackers} {i : Nat} {s s' : Subscriber n}

deriving instance DecidableEq for PubCall, SubCall, Act

/-- Subscriber `i` is inside a call. -/
def inCall (i : Nat) (w : World n) : Bool :=
  match (w.subs i).pc with
  | .idle => false
  | _ => true

/-- Own steps of one attempt, from where its read stands to the outcome. -/
def readLeft : ReadPc n → Nat
  | .stamp => n + 4
  | .load off _ => n - off + 3

/-! ## Calls without a retry of unknown length -/

/-- The callers that try a number of times that does not depend on the writers. -/
def Alone : Caller n → Prop
  | .tryRecv => True
  | .tryRecvGated _ => True
  | .recvBatch _ _ _ => True
  | _ => False

/-- Own steps of the attempts that may follow the one in progress. -/
def spare : Caller n → Nat
  | .recvBatch left _ again => (2 * left + if again then 0 else 1) * (n + 4)
  | _ => 0

def AloneAt : SubPc n → Prop
  | .gate c _ _ => ∃ us, c = .tryRecvGated us
  | .read c _ => Alone c
  | .head c => Alone c
  | .commit c _ => Alone c
  | .pending => True
  | _ => False

/-- Own steps until the call returns, at most. -/
def stepsLeft : SubPc n → Nat
  | .gate _ todo _ => todo.length + n + 5
  | .read c pc => readLeft pc + spare c
  | .head c => 2 + spare c
  | .commit c _ => 1 + spare c
  | .pending => 1
  | _ => 0

/-- `read_slot` returns: the call is over, or another attempt is within the bound. -/
theorem resume_left {c : Caller n} (hc : Alone c) (s : Subscriber n) (res : Recv n) :
    (s.resume res c).pc = .idle ∨
      AloneAt (s.resume res c).pc ∧ stepsLeft (s.resume res c).pc < 1 + spare c := by
  cases c with
  | tryRecv => exact Or.inl rfl
  | tryRecvGated us => exact Or.inl rfl
  | recvBatch left filled again =>
    cases res with
    | ok buf =>
      simp only [Subscriber.resume]
      split_ifs with hleft
      · exact Or.inl rfl
      · refine Or.inr ⟨trivial, ?_⟩
        obtain ⟨m, rfl⟩ : ∃ m, left = m + 2 := ⟨left - 2, by omega⟩
        have hle : (2 * (m + 2 - 1) + 1) * (n + 4) + (n + 4) ≤ (2 * (m + 2) + if again then 0 else 1) * (n + 4) := by
          rw [← Nat.succ_mul]
          exact Nat.mul_le_mul_right _ (by omega)
        simp only [Subscriber.poll, stepsLeft, readLeft, spare, Bool.false_eq_true, ↓reduceIte]
        exact by omega
    | empty => exact Or.inl rfl
    | lagged skipped =>
      cases again with
      | true => exact Or.inl rfl
      | false =>
        refine Or.inr ⟨trivial, ?_⟩
        simp only [Subscriber.resume, Subscriber.poll, stepsLeft, readLeft, spare, Bool.false_eq_true, ↓reduceIte,
          Nat.add_zero, Nat.succ_mul]
        omega
  | _ => exact hc.elim

theorem readStep_left {slot : Slot n} {seq : Nat} {pc pc' : ReadPc n} (h : slot.readStep seq pc = .inl pc') :
    readLeft pc' < readLeft pc := by
  cases pc with
  | stamp =>
    simp only [Slot.readStep] at h
    split_ifs at h
    obtain rfl := Sum.inl.inj h
    simp only [readLeft]
    omega
  | load off buf =>
    simp only [Slot.readStep] at h
    split_ifs at h with hlt
    obtain rfl := Sum.inl.inj h
    have := stripeWidth_pos (n - off)
    simp only [readLeft]
    omega

theorem readLeft_pos (pc : ReadPc n) : 2 < readLeft pc := by
  cases pc <;> simp only [readLeft] <;> omega

/-- Each own step brings the call nearer to its return. -/
theorem step_left (h : s.step cfg r t i = some (t', s')) (ha : AloneAt s.pc) :
    s'.pc = .idle ∨ AloneAt s'.pc ∧ stepsLeft s'.pc < stepsLeft s.pc := by
  have hresume {c : Caller n} (hc : Alone c) {res : Recv n} {left : Nat} (hleft : 1 + spare c ≤ left)
      (u : Subscriber n) : (u.resume res c).pc = .idle ∨
        AloneAt (u.resume res c).pc ∧ stepsLeft (u.resume res c).pc < left :=
    (resume_left hc u res).imp_right fun h => ⟨h.1, h.2.trans_le hleft⟩
  cases Subscriber.step_moves h with
  | @gateNext c u us min hpc =>
    rw [hpc] at ha ⊢
    refine Or.inr ⟨ha, ?_⟩
    simp only [stepsLeft, List.length_cons]
    omega
  | @gateClosed c min hpc hle =>
    rw [hpc] at ha
    obtain ⟨us, rfl⟩ := ha
    exact Or.inl rfl
  | @gateOpen c min hpc hlt =>
    rw [hpc] at ha ⊢
    obtain ⟨us, rfl⟩ := ha
    refine Or.inr ⟨trivial, ?_⟩
    simp [Subscriber.poll, stepsLeft, readLeft, spare]
  | @reading c pc pc' hpc hread =>
    rw [hpc] at ha ⊢
    exact Or.inr ⟨ha, Nat.add_lt_add_right (readStep_left hread) _⟩
  | @read c pc res hpc hread =>
    rw [hpc] at ha ⊢
    have hc : Alone c := ha
    have hpos := readLeft_pos pc
    have hthrough : ThroughReadSlot c := by cases c <;> trivial
    refine onTryRead_cases (P := fun u => u.pc = .idle ∨ AloneAt u.pc ∧ stepsLeft u.pc < stepsLeft (.read c pc))
      hthrough (fun buf _ => Or.inr ⟨hc, ?_⟩) (hresume hc ?_ s) (Or.inr ⟨hc, ?_⟩)
    all_goals simp only [stepsLeft]; omega
  | @head c hpc =>
    rw [hpc] at ha ⊢
    have hc : Alone c := ha
    refine Subscriber.onHead_cases (P := fun u => u.pc = .idle ∨ AloneAt u.pc ∧ stepsLeft u.pc < stepsLeft (.head c))
      (hresume hc ?_ s) (fun _ _ _ => Or.inr ⟨hc, ?_⟩)
    all_goals simp only [stepsLeft]; omega
  | @commit c res hpc =>
    rw [hpc] at ha ⊢
    cases res <;> exact hresume ha (Nat.le_refl _) _
  | pending hpc => exact Or.inl rfl
  | _ hpc => rw [hpc] at ha; exact ha.elim

/-- A read at any point finds its slot in some state, and goes on. -/
theorem step_of_alone (ha : AloneAt s.pc) : ∃ x, s.step cfg r t i = some x := by
  unfold Subscriber.step
  cases hpc : s.pc with
  | gate c todo min =>
    cases todo with
    | nil => dsimp only; split_ifs <;> exact ⟨_, rfl⟩
    | cons u us => exact ⟨_, rfl⟩
  | read c pc => dsimp only; split <;> exact ⟨_, rfl⟩
  | head c => exact ⟨_, rfl⟩
  | commit c res => exact ⟨_, rfl⟩
  | pending => exact ⟨_, rfl⟩
  | _ => rw [hpc] at ha; exact ha.elim

theorem stepsLeft_pos {pc : SubPc n} (h : AloneAt pc) : 0 < stepsLeft pc := by
  cases pc with
  | read c rp =>
    have := readLeft_pos rp
    simp only [stepsLeft]
    omega
  | gate c todo min => exact Nat.succ_pos _
  | head c => simp only [stepsLeft]; omega
  | commit c res => simp only [stepsLeft]; omega
  | pending => exact Nat.one_pos
  | _ => exact h.elim

/-- How many own steps a call takes at most, for the calls that have such a bound. -/
def ownSteps (n : Nat) : SubCall → Option Nat
  | .tryRecv => some (n + 4)
  | .tryRecvGated us => some (us.length + n + 5)
  | .recvBatch len => some ((2 * len + 2) * (n + 4))
  | .pending => some 1
  | _ => none

theorem call_left {c : SubCall} {bound : Nat} (hc : ownSteps n c = some bound) (h : s.call c = some s') :
    s'.pc = .idle ∨ AloneAt s'.pc ∧ stepsLeft s'.pc ≤ bound := by
  obtain ⟨hidle, hbegins⟩ := Subscriber.call_begins h
  cases hbegins with
  | tryRecv =>
    cases hc
    exact Or.inr ⟨trivial, Nat.le_refl _⟩
  | pending =>
    cases hc
    exact Or.inr ⟨trivial, Nat.le_refl _⟩
  | recvNothing => exact Or.inl rfl
  | recvBatch len =>
    cases hc
    refine Or.inr ⟨trivial, ?_⟩
    simp only [Subscriber.poll, stepsLeft, readLeft, spare, Bool.false_eq_true, ↓reduceIte, Nat.succ_mul]
    omega
  | tryRecvGated u us =>
    cases hc
    exact Or.inr ⟨⟨_, rfl⟩, Nat.le_refl _⟩
  | _ => cases hc

/-- Inside a call only its own steps move the subscriber's program point. -/
theorem step_pc {w w' : World n} {a : Act n} (h : World.step cfg w a = some w') (hin : inCall i w = true)
    (hpc : (w.subs i).pc ≠ .absent ∧ (w.subs i).pc ≠ .exited) :
    a = .sub i ∧ (w.subs i).step cfg w.ring w.trackers i = some (w'.trackers, w'.subs i) ∨
      a ≠ .sub i ∧ (w'.subs i).pc = (w.subs i).pc := by
  have hidle : (w.subs i).pc ≠ .idle := by
    intro hidle
    unfold inCall at hin
    rw [hidle] at hin
    cases hin
  cases World.step_subs h i with
  | @other a hs =>
    by_cases ha : a = .sub i
    · subst ha
      obtain ⟨⟨t, s⟩, hst, rfl⟩ := Option.map_eq_some_iff.mp h
      exact Or.inl ⟨rfl, by rw [World.setSub_self]; exact hst⟩
    · exact Or.inr ⟨ha, by rw [hs]⟩
  | subscribe hs _ => exact absurd (World.subscribe_pc hs).1 hpc.1
  | call hs _ => exact absurd (Subscriber.call_begins hs).1 hidle
  | step hs => exact Or.inl ⟨rfl, hs⟩
  | drop hs _ => exact ((World.drop_pc hs).1.elim hidle hpc.2).elim
  | shutdown hs _ => exact Or.inr ⟨nofun, by rw [hs]; rfl⟩

theorem AloneAt.ne {pc : SubPc n} (h : AloneAt pc) : pc ≠ .absent ∧ pc ≠ .exited :=
  ⟨fun he => by rw [he] at h; exact h, fun he => by rw [he] at h; exact h⟩

/-- What a label does to the bound of subscriber `i`. -/
theorem step_bound {w w' : World n} {a : Act n} (ha : AloneAt (w.subs i).pc) (hin : inCall i w = true)
    (h : World.step cfg w a = some w') (hin' : inCall i w' = true) : AloneAt (w'.subs i).pc ∧
      (a = .sub i → stepsLeft (w'.subs i).pc < stepsLeft (w.subs i).pc) ∧
      (a ≠ .sub i → stepsLeft (w'.subs i).pc = stepsLeft (w.subs i).pc) := by
  rcases step_pc h hin ha.ne with ⟨he, hs⟩ | ⟨he, hs⟩
  · rcases step_left hs ha with hidle | ⟨ha', hlt⟩
    · unfold inCall at hin'
      rw [hidle] at hin'
      cases hin'
    · exact ⟨ha', fun _ => hlt, fun hne => absurd he hne⟩
  · rw [hs]
    exact ⟨ha, fun he' => absurd he' he, fun _ => rfl⟩

/-- These receives are wait-free: from any state of the channel and in any interleaving, such a
call can always go on, and it returns within its bound of own steps. -/
theorem receives_wait_free {w w₁ w₂ : World n} {c : SubCall} {bound : Nat} (hc : ownSteps n c = some bound)
    (hcall : World.step cfg w (.subCall i c) = some w₁) {as : List (Act n)}
    (hrun : run (during (inCall i) (World.step cfg)) w₁ as = some w₂) (hbusy : inCall i w₂ = true) :
    as.count (.sub i) < bound ∧ ∃ w₃, World.step cfg w₂ (.sub i) = some w₃ := by
  obtain ⟨s, hs, rfl⟩ := Option.map_eq_some_iff.mp hcall
  rcases call_left hc hs with hidle | ⟨ha, hle⟩
  · -- nothing to receive into: the call has returned already
    have hdone : inCall i (w.setSub i s) = false := by
      unfold inCall
      rw [World.setSub_self, hidle]
    cases as with
    | nil =>
      cases hrun
      rw [hdone] at hbusy
      cases hbusy
    | cons a as => simp [run, during, hdone] at hrun
  · have hbound := count_add_rank_le (fun w : World n => stepsLeft (w.subs i).pc) (fun _ => 0) hrun hbusy
      (I := fun w : World n => AloneAt (w.subs i).pc) (G := fun _ => True) (fun _ _ _ _ h => h) trivial
      (fun u a v hu _ hin hstep hin' => (step_bound hu hin hstep hin').1)
      (fun u v hu _ hin hstep hin' => Nat.succ_le_of_lt ((step_bound hu hin hstep hin').2.1 rfl))
      (fun u a v hu _ hin hne hstep hin' => ((step_bound hu hin hstep hin').2.2 hne).le)
      (by rw [World.setSub_self]; exact ha)
    obtain ⟨ha₂, hcount⟩ := hbound
    rw [World.setSub_self] at hcount
    have hpos := stepsLeft_pos ha₂
    obtain ⟨⟨t, u⟩, hu⟩ : ∃ x, (w₂.subs i).step cfg w₂.ring w₂.trackers i = some x := step_of_alone ha₂
    refine ⟨by omega, { w₂ with trackers := t }.setSub i u, ?_⟩
    simp only [World.step, hu, Option.map_some]

/-- A `try_recv` of a published message while the next one is being written. -/
theorem receives_wait_free_between : ∃ w w₁ w₂ : World 1,
    World.step Config.smallLossy w (.subCall 0 .tryRecv) = some w₁ ∧
    run (during (inCall 0) (World.step Config.smallLossy)) w₁ [.pub, .sub 0, .pub, .sub 0] = some w₂ ∧
    ∃ w₃, World.step Config.smallLossy w₂ (.sub 0) = some w₃ := by
  have hrun : ((run (World.step Config.smallLossy) (World.new 1)
      ([.subscribe 0 .subscribe, .sub 0, .pubCall (.publish fun _ => 7)] ++ List.replicate 5 .pub ++
        [.pubCall (.publish fun _ => 8)])).any fun w =>
      (World.step Config.smallLossy w (.subCall 0 .tryRecv)).any fun w₁ =>
        (run (during (inCall 0) (World.step Config.smallLossy)) w₁ [.pub, .sub 0, .pub, .sub 0]).any
          fun w₂ => inCall 0 w₂) = true := by decide +kernel
  obtain ⟨w, _, hrest⟩ := (Option.any_eq_true _ _).mp hrun
  obtain ⟨w₁, hcall, hrest⟩ := (Option.any_eq_true _ _).mp hrest
  obtain ⟨w₂, hduring, hbusy⟩ := (Option.any_eq_true _ _).mp hrest
  exact ⟨w, w₁, w₂, hcall, hduring, (receives_wait_free rfl hcall hduring hbusy).2⟩

/-! ## Calls that try again after a lag -/

def Retry : Caller n → Prop
  | .drain => True
  | .latest => True
  | _ => False

/-- The head, or where it will first be. -/
def headOf (r : Ring n) : Nat := if r.cursor = u64Max then 0 else r.cursor

def RetryAt (r : Ring n) (s : Subscriber n) : Prop :=
  match s.pc with
  | .read c _ => Retry c
  | .head c => Retry c
  | .commit .latest (.lagged _) => s.cursor ≤ headOf r
  | .commit c _ => Retry c
  | .latestHead => True
  | _ => False

/-- Own steps until the call returns, at most, if nothing more is published: an attempt for
every message that is left to be lapped. -/
def retryLeft (r : Ring n) (s : Subscriber n) : Nat :=
  match s.pc with
  | .read _ pc => readLeft pc + (r.log.length - s.cursor) * (n + 5)
  | .head _ => 2 + (r.log.length - s.cursor) * (n + 5)
  | .commit _ (.lagged _) => n + 6 + (r.log.length - s.cursor) * (n + 5)
  | .commit _ _ => 1
  | .latestHead => n + 5 + (r.log.length - headOf r) * (n + 5)
  | _ => 0

theorem headOf_lt (hr : r.Ok cfg) (hmax : r.cursor ≠ u64Max) : headOf r = r.cursor ∧ headOf r < r.log.length := by
  unfold headOf
  rw [if_neg hmax]
  exact ⟨rfl, hr.cursor_lt hmax⟩

theorem headOf_le {r' : Ring n} (hg : r.Grows r') : headOf r ≤ headOf r' := by
  unfold headOf
  by_cases hc : r.cursor = u64Max
  · rw [if_pos hc]
    exact Nat.zero_le _
  · obtain ⟨hc', hle⟩ := hg.cursor hc
    rw [if_neg hc, if_neg hc']
    exact hle

/-- A lag of at least one message pays for another attempt. -/
theorem lag_pays {len old new k : Nat} (hlt : old < new) (hle : new ≤ len) : (len - new) * k + k ≤ (len - old) * k := by
  rw [← Nat.succ_mul]
  exact Nat.mul_le_mul_right k (by omega)

theorem step_retry (hr : r.Ok cfg) (h : s.step cfg r t i = some (t', s')) (ha : RetryAt r s) :
    s'.pc = .idle ∨ RetryAt r s' ∧ retryLeft r s' < retryLeft r s := by
  have hempty {c : Caller n} (hc : Retry c) (u : Subscriber n) : (u.resume .empty c).pc = .idle := by
    cases c <;> first | rfl | exact hc.elim
  unfold RetryAt at ha
  cases Subscriber.step_moves h with
  | @reading c pc pc' hpc hread =>
    rw [hpc] at ha
    refine Or.inr ⟨ha, ?_⟩
    simp only [retryLeft, hpc]
    exact Nat.add_lt_add_right (readStep_left hread) _
  | @read c pc res hpc hread =>
    rw [hpc] at ha
    have hc : Retry c := ha
    have hpos := readLeft_pos pc
    have hthrough : ThroughReadSlot c := by cases c <;> trivial
    refine onTryRead_cases (P := fun u => u.pc = .idle ∨ RetryAt r u ∧ retryLeft r u < retryLeft r s)
      hthrough (fun buf _ => Or.inr ⟨?_, ?_⟩) (Or.inl (hempty hc s)) (Or.inr ⟨hc, ?_⟩)
    · cases c <;> trivial
    · simp only [retryLeft, hpc]
      omega
    · simp only [retryLeft, hpc]
      omega
  | @head c hpc =>
    rw [hpc] at ha
    have hc : Retry c := ha
    refine Subscriber.onHead_cases (P := fun u => u.pc = .idle ∨ RetryAt r u ∧ retryLeft r u < retryLeft r s)
      (Or.inl (hempty hc s)) (fun hmax hcap hlt => Or.inr ⟨?_, ?_⟩)
    · obtain ⟨hhead, -⟩ := headOf_lt hr hmax
      have := cfg.two_le
      cases c with
      | latest =>
        change r.cursor - cfg.capacity + 1 ≤ headOf r
        omega
      | drain => trivial
      | _ => exact hc.elim
    · obtain ⟨hhead, hlen⟩ := headOf_lt hr hmax
      have := cfg.two_le
      have hpays := lag_pays (k := n + 5) hlt (show r.cursor - cfg.capacity + 1 ≤ r.log.length by omega)
      simp only [retryLeft, hpc]
      omega
  | @commit c res hpc =>
    rw [hpc] at ha
    cases res with
    | ok buf =>
      left
      cases c <;> first | rfl | exact ha.elim
    | empty =>
      left
      cases c <;> first | rfl | exact ha.elim
    | lagged skipped =>
      right
      cases c with
      | drain =>
        refine ⟨trivial, ?_⟩
        simp only [retryLeft, hpc, Subscriber.onCommit, Subscriber.resume, Subscriber.poll, readLeft]
        omega
      | latest =>
        have hle : s.cursor ≤ headOf r := ha
        refine ⟨trivial, ?_⟩
        have hmul : (r.log.length - headOf r) * (n + 5) ≤ (r.log.length - s.cursor) * (n + 5) :=
          Nat.mul_le_mul_right _ (by omega)
        simp only [retryLeft, hpc, Subscriber.onCommit, Subscriber.resume]
        omega
      | _ => exact ha.elim
  | latestNone hpc _ => exact Or.inl rfl
  | latestHead hpc hsome =>
    obtain ⟨hhead, -⟩ := headOf_lt hr hsome
    refine Or.inr ⟨trivial, ?_⟩
    simp only [retryLeft, hpc, readLeft, hhead]
    omega
  | _ hpc => rw [hpc] at ha; exact ha.elim

/-- What the writers add to the bound is one attempt for every message. -/
theorem retry_mono {r' : Ring n} (hg : r.Grows r') (hpc : s'.pc = s.pc) (hcur : s'.cursor = s.cursor)
    (ha : RetryAt r s) : RetryAt r' s' ∧
      retryLeft r' s' + r.log.length * (n + 5) ≤ retryLeft r s + r'.log.length * (n + 5) := by
  have hlen := hg.log_le
  have hhead := headOf_le hg
  have hmul {a b c d : Nat} (hle : a + b ≤ c + d) : a * (n + 5) + b * (n + 5) ≤ c * (n + 5) + d * (n + 5) := by
    rw [← Nat.add_mul, ← Nat.add_mul]
    exact Nat.mul_le_mul_right _ hle
  have hown := hmul (show (r'.log.length - s.cursor) + r.log.length ≤
    (r.log.length - s.cursor) + r'.log.length by omega)
  have hlatest := hmul (show (r'.log.length - headOf r') + r.log.length ≤
    (r.log.length - headOf r) + r'.log.length by omega)
  have hbare : r.log.length * (n + 5) ≤ r'.log.length * (n + 5) := Nat.mul_le_mul_right _ hlen
  unfold RetryAt retryLeft at *
  rw [hpc, hcur]
  cases hs : s.pc with
  | commit c res =>
    rw [hs] at ha
    cases res with
    | lagged skipped =>
      dsimp only
      refine ⟨?_, by omega⟩
      cases c <;> first | exact ha | exact Nat.le_trans ha hhead
    | ok buf =>
      dsimp only
      refine ⟨?_, by omega⟩
      cases c <;> exact ha
    | empty =>
      dsimp only
      refine ⟨?_, by omega⟩
      cases c <;> exact ha
  | read c pc => rw [hs] at ha; exact ⟨ha, by dsimp only; omega⟩
  | head c => rw [hs] at ha; exact ⟨ha, by dsimp only; omega⟩
  | latestHead => exact ⟨trivial, by dsimp only; omega⟩
  | _ => rw [hs] at ha; exact ha.elim

theorem step_of_retry (ha : RetryAt r s) : ∃ x, s.step cfg r t i = some x := by
  unfold RetryAt at ha
  unfold Subscriber.step
  cases hpc : s.pc with
  | read c pc => dsimp only; split <;> exact ⟨_, rfl⟩
  | head c => exact ⟨_, rfl⟩
  | commit c res => exact ⟨_, rfl⟩
  | latestHead => dsimp only; split_ifs <;> exact ⟨_, rfl⟩
  | _ => rw [hpc] at ha; exact ha.elim

theorem retryLeft_pos (ha : RetryAt r s) : 0 < retryLeft r s := by
  unfold RetryAt at ha
  unfold retryLeft
  cases hpc : s.pc with
  | read c pc => have := readLeft_pos pc; dsimp only; omega
  | head c => dsimp only; omega
  | commit c res => cases res <;> dsimp only <;> omega
  | latestHead => dsimp only; omega
  | _ => rw [hpc] at ha; exact ha.elim

/-- The calls that a lag makes start again, and the position from which they count: the cursor,
or the head that `latest` goes to. -/
def retryFrom (w : World n) (i : Nat) : SubCall → Option Nat
  | .drain => some (w.subs i).cursor
  | .latest => some (headOf w.ring)
  | _ => none

theorem call_retry {c : SubCall} {w : World n} {base : Nat} (hc : retryFrom w i c = some base)
    (h : (w.subs i).call c = some s') : RetryAt w.ring s' ∧
      retryLeft w.ring s' ≤ n + 5 + (w.ring.log.length - base) * (n + 5) := by
  obtain ⟨hidle, hbegins⟩ := Subscriber.call_begins h
  cases hbegins with
  | drain =>
    cases hc
    refine ⟨trivial, ?_⟩
    simp only [retryLeft, Subscriber.poll, readLeft]
    omega
  | latest =>
    cases hc
    exact ⟨trivial, Nat.le_refl _⟩
  | _ => cases hc

theorem RetryAt.ne (h : RetryAt r s) : s.pc ≠ .absent ∧ s.pc ≠ .exited := by
  unfold RetryAt at h
  exact ⟨fun he => by rw [he] at h; exact h, fun he => by rw [he] at h; exact h⟩

/-- What a label does to the bound of subscriber `i`. -/
theorem step_credit {w w' : World n} {a : Act n} (hs : World.Sane cfg w) (hl : World.messages w' < seqLimit)
    (ha : RetryAt w.ring (w.subs i)) (hin : inCall i w = true) (h : World.step cfg w a = some w')
    (hin' : inCall i w' = true) : RetryAt w'.ring (w'.subs i) ∧
      (a = .sub i → retryLeft w'.ring (w'.subs i) + 1 + World.messages w * (n + 5) ≤
        retryLeft w.ring (w.subs i) + World.messages w' * (n + 5)) ∧
      (a ≠ .sub i → retryLeft w'.ring (w'.subs i) + World.messages w * (n + 5) ≤
        retryLeft w.ring (w.subs i) + World.messages w' * (n + 5)) := by
  obtain ⟨_, hg⟩ := World.step_written h hl hs.written
  rcases step_pc h hin ha.ne with ⟨he, hst⟩ | ⟨he, hpc⟩
  · subst he
    rcases step_retry hs.written.ring hst ha with hidle | ⟨ha', hlt⟩
    · unfold inCall at hin'
      rw [hidle] at hin'
      cases hin'
    · obtain ⟨ha'', hle⟩ := retry_mono hg rfl rfl ha'
      refine ⟨ha'', fun _ => ?_, fun hne => absurd rfl hne⟩
      unfold World.messages
      omega
  · have hcur : (w'.subs i).cursor = (w.subs i).cursor := by
      cases World.step_subs h i with
      | other hs => rw [hs]
      | subscribe hs _ => exact absurd (World.subscribe_pc hs).1 ha.ne.1
      | call hs _ => exact (World.call_idle hs).2.2.1
      | step _ => exact absurd rfl he
      | drop hs _ => exact ((World.drop_pc hs).2.elim (fun h => by rw [h]) (fun h => by rw [h]))
      | shutdown hs _ => rw [hs]; rfl
    obtain ⟨ha', hle⟩ := retry_mono hg hpc hcur ha
    exact ⟨ha', fun he' => absurd he' he, fun _ => hle⟩

/-- A drain and a `latest` are lock-free: such a call can always go on, and it makes no more steps
than one attempt and another one for every message between its base and the end of the history. -/
theorem retries_lock_free {w w₁ w₂ : World n} (h : World.Reach cfg w) {c : SubCall} {base : Nat}
    (hc : retryFrom w i c = some base) (hcall : World.step cfg w (.subCall i c) = some w₁) {as : List (Act n)}
    (hrun : run (during (inCall i) (World.step cfg)) w₁ as = some w₂) (hbusy : inCall i w₂ = true)
    (hl : World.messages w₂ < seqLimit) :
    as.count (.sub i) < (World.messages w₂ - base + 1) * (n + 5) ∧ ∃ w₃, World.step cfg w₂ (.sub i) = some w₃ := by
  have hback : ∀ (u : World n) (a : Act n) (v : World n), World.step cfg u a = some v →
      World.messages v < seqLimit → World.messages u < seqLimit :=
    fun _ _ _ hs hlt => (World.step_log_le hs).trans_lt hlt
  have hl₁ : World.messages w₁ < seqLimit := run_during_back hback hrun hl
  have hs₁ : World.Sane cfg w₁ := World.reach_sane (h.next hcall) hl₁
  have hs : World.Sane cfg w := World.reach_sane h (hback _ _ _ hcall hl₁)
  obtain ⟨s, hcalled, rfl⟩ := Option.map_eq_some_iff.mp hcall
  obtain ⟨ha, hle⟩ := call_retry hc hcalled
  have hbound := count_add_rank_le (fun w : World n => retryLeft w.ring (w.subs i))
    (fun w : World n => World.messages w * (n + 5)) hrun hbusy
    (I := fun w : World n => World.Sane cfg w ∧ RetryAt w.ring (w.subs i)) (G := fun w => World.messages w < seqLimit)
    hback hl
    (fun u a v hu hlt hin hstep hin' =>
      ⟨World.step_sane hstep hlt hu.1, (step_credit hu.1 hlt hu.2 hin hstep hin').1⟩)
    (fun u v hu hlt hin hstep hin' => (step_credit hu.1 hlt hu.2 hin hstep hin').2.1 rfl)
    (fun u a v hu hlt hin hne hstep hin' => (step_credit hu.1 hlt hu.2 hin hstep hin').2.2 hne)
    ⟨hs₁, by rw [World.setSub_self]; exact ha⟩
  obtain ⟨⟨hs₂, ha₂⟩, hcount⟩ := hbound
  change as.count (.sub i) + retryLeft w₂.ring (w₂.subs i) + World.messages w * (n + 5) ≤
    retryLeft w.ring ((w.setSub i s).subs i) + World.messages w₂ * (n + 5) at hcount
  rw [World.setSub_self] at hcount
  change retryLeft w.ring s ≤ n + 5 + (World.messages w - base) * (n + 5) at hle
  have hbase : base ≤ World.messages w := by
    cases c with
    | drain =>
      cases hc
      exact (hs.readers i).cursor_le
    | latest =>
      cases hc
      by_cases hmax : w.ring.cursor = u64Max
      · unfold headOf
        rw [if_pos hmax]
        exact Nat.zero_le _
      · exact (headOf_lt hs.written.ring hmax).2.le
    | _ => cases hc
  have hgrow : World.messages w ≤ World.messages w₂ := by
    change World.messages (w.setSub i s) ≤ World.messages w₂
    refine run_during_back (G := fun u => World.messages u ≤ World.messages w₂) (fun u a v hstep hle => ?_) hrun
      (Nat.le_refl _)
    exact (World.step_log_le hstep).trans hle
  have hsum : (World.messages w - base) * (n + 5) + World.messages w₂ * (n + 5) =
      (World.messages w₂ - base) * (n + 5) + World.messages w * (n + 5) := by
    rw [← Nat.add_mul, ← Nat.add_mul]
    congr 1
    omega
  have hpos := retryLeft_pos ha₂
  obtain ⟨⟨t, u⟩, hu⟩ : ∃ x, (w₂.subs i).step cfg w₂.ring w₂.trackers i = some x := step_of_retry ha₂
  refine ⟨?_, { w₂ with trackers := t }.setSub i u, ?_⟩
  · rw [Nat.succ_mul]
    omega
  · simp only [World.step, hu, Option.map_some]

/-- A drain that begins one message behind the window and is lapped once more. -/
theorem retries_lock_free_lapped : ∃ w w₁ w₂ : World 1, World.Reach Config.smallLossy w ∧
    World.step Config.smallLossy w (.subCall 0 .drain) = some w₁ ∧
    run (during (inCall 0) (World.step Config.smallLossy)) w₁
      (List.replicate 3 (.sub 0) ++ List.replicate 5 .pub ++ [.sub 0]) = some w₂ ∧
    ∃ w₃, World.step Config.smallLossy w₂ (.sub 0) = some w₃ := by
  have hrun : ((run (World.step Config.smallLossy) (World.new 1)
      (List.flatten [[.subscribe 0 .subscribe, .sub 0],
        List.flatten (List.replicate 3 (.pubCall (.publish fun _ => 7) :: List.replicate 5 .pub)),
        [.pubCall (.publish fun _ => 8)]])).any fun w =>
      (World.step Config.smallLossy w (.subCall 0 .drain)).any fun w₁ =>
        (run (during (inCall 0) (World.step Config.smallLossy)) w₁
          (List.replicate 3 (.sub 0) ++ List.replicate 5 .pub ++ [.sub 0])).any
          fun w₂ => inCall 0 w₂ && decide (World.messages w₂ < seqLimit)) = true := by decide +kernel
  obtain ⟨w, hw, hrest⟩ := (Option.any_eq_true _ _).mp hrun
  obtain ⟨w₁, hcall, hrest⟩ := (Option.any_eq_true _ _).mp hrest
  obtain ⟨w₂, hduring, hbusy⟩ := (Option.any_eq_true _ _).mp hrest
  obtain ⟨hbusy, hl⟩ := (Bool.and_eq_true _ _).mp hbusy
  have hr : World.Reach Config.smallLossy w := Reachable.start.of_run hw
  exact ⟨w, w₁, w₂, hr, hcall, hduring, (retries_lock_free hr rfl hcall hduring hbusy (of_decide_eq_true hl)).2⟩

/-! ## Publishing on a lossy channel -/

/-- The publisher is inside a call. -/
def publishing (w : World n) : Bool :=
  match w.publisher.pc with
  | .idle => false
  | _ => true

/-- How many own steps a call of the publisher takes at most, if it need not look for room. -/
def pubSteps (n : Nat) : PubCall n → Nat
  | .publish _ => n + 4
  | .tryPublish _ => n + 4
  | .publishWith _ => n + 5
  | .publishBatch vs => vs.length * (n + 4)

/-- The program points of a publisher that takes no lock. -/
def FreeAt : PubPc n → Prop
  | .room c => 0 < pubSteps n c
  | .closure _ => True
  | .write _ _ _ => True
  | .cursor _ => True
  | _ => False

def pubLeft : PubPc n → Nat
  | .room c => pubSteps n c
  | .closure _ => n + 4
  | .write _ rest .begin => n + 3 + rest.length * (n + 4)
  | .write _ rest (.store off) => n - off + 2 + rest.length * (n + 4)
  | .cursor rest => 1 + rest.length * (n + 4)
  | _ => 0

theorem enter_left (p : Publisher n) (c : PubCall n) :
    (p.enter c).pc = .idle ∨ FreeAt (p.enter c).pc ∧ pubLeft (p.enter c).pc < pubSteps n c := by
  cases c with
  | publishBatch vs =>
    cases vs with
    | nil => exact Or.inl rfl
    | cons v vs =>
      refine Or.inr ⟨trivial, ?_⟩
      simp only [Publisher.enter, pubLeft, pubSteps, List.length_cons, Nat.succ_mul]
      omega
  | _ =>
    refine Or.inr ⟨trivial, ?_⟩
    simp [Publisher.enter, pubLeft, pubSteps]

theorem pub_left {r' : Ring n} {p p' : Publisher n} (hk : cfg.kind = .lossy)
    (h : p.step cfg r t = some (r', t', p')) (ha : FreeAt p.pc) :
    p'.pc = .idle ∨ FreeAt p'.pc ∧ pubLeft p'.pc < pubLeft p.pc := by
  unfold Publisher.step at h
  cases hpc : p.pc with
  | room c =>
    simp only [hpc, hk] at h
    cases h
    exact enter_left p c
  | closure f =>
    simp only [hpc] at h
    cases f with
    | none =>
      cases h
      exact Or.inl rfl
    | some v =>
      cases h
      refine Or.inr ⟨trivial, ?_⟩
      simp [pubLeft]
  | write v rest wp =>
    simp only [hpc] at h
    right
    cases wp with
    | begin =>
      cases h
      refine ⟨trivial, ?_⟩
      simp only [pubLeft]
      omega
    | store off =>
      simp only [Slot.writeStep] at h
      split_ifs at h with hlt
      · cases h
        have := stripeWidth_pos (n - off)
        refine ⟨trivial, ?_⟩
        simp only [pubLeft]
        omega
      · cases h
        refine ⟨trivial, ?_⟩
        simp only [pubLeft]
        omega
  | cursor rest =>
    simp only [hpc] at h
    cases rest with
    | nil =>
      cases h
      exact Or.inl rfl
    | cons v vs =>
      cases h
      refine Or.inr ⟨Nat.mul_pos (Nat.succ_pos _) (Nat.succ_pos _), ?_⟩
      simp only [pubLeft, pubSteps]
      omega
  | _ => rw [hpc] at ha; exact ha.elim

theorem pub_of_free {p : Publisher n} (ha : FreeAt p.pc) : ∃ x, p.step cfg r t = some x := by
  unfold Publisher.step
  cases hpc : p.pc with
  | room c => dsimp only; split <;> (try split_ifs) <;> exact ⟨_, rfl⟩
  | closure f => cases f <;> exact ⟨_, rfl⟩
  | write v rest wp => dsimp only; split <;> exact ⟨_, rfl⟩
  | cursor rest => cases rest <;> exact ⟨_, rfl⟩
  | _ => rw [hpc] at ha; exact ha.elim

theorem pubLeft_pos {pc : PubPc n} (h : FreeAt pc) : 0 < pubLeft pc := by
  cases pc with
  | room c => exact h
  | closure f => exact Nat.succ_pos _
  | write v rest wp => cases wp <;> simp only [pubLeft] <;> omega
  | cursor rest => simp only [pubLeft]; omega
  | _ => exact h.elim

theorem pubCall_left {p p' : Publisher n} {c : PubCall n} (h : p.call c = some p') :
    p'.pc = .idle ∨ FreeAt p'.pc ∧ pubLeft p'.pc = pubSteps n c := by
  have hroom (hpos : 0 < pubSteps n c) : some { p with pc := .room c } = some p' →
      p'.pc = .idle ∨ FreeAt p'.pc ∧ pubLeft p'.pc = pubSteps n c := by
    rintro ⟨⟩
    exact Or.inr ⟨hpos, rfl⟩
  unfold Publisher.call at h
  cases hpc : p.pc with
  | idle =>
    rw [hpc] at h
    cases c with
    | publishBatch vs =>
      cases vs with
      | nil =>
        cases h
        exact Or.inl rfl
      | cons v vs => exact hroom (Nat.mul_pos (Nat.succ_pos _) (Nat.succ_pos _)) h
    | _ => exact hroom (Nat.succ_pos _) h
  | _ =>
    rw [hpc] at h
    cases h

/-- What a label does to the bound of the publisher. -/
theorem step_free {w w' : World n} {a : Act n} (hk : cfg.kind = .lossy) (ha : FreeAt w.publisher.pc)
    (h : World.step cfg w a = some w') (hin' : publishing w' = true) : FreeAt w'.publisher.pc ∧
      (a = .pub → pubLeft w'.publisher.pc < pubLeft w.publisher.pc) ∧
      (a ≠ .pub → pubLeft w'.publisher.pc = pubLeft w.publisher.pc) := by
  by_cases he : a = .pub
  · subst he
    obtain ⟨⟨r, t, p⟩, hp, rfl⟩ := Option.map_eq_some_iff.mp h
    rcases pub_left hk hp ha with hidle | ⟨ha', hlt⟩
    · change (match p.pc with | .idle => false | _ => true) = true at hin'
      rw [hidle] at hin'
      cases hin'
    · exact ⟨ha', fun _ => hlt, fun hne => absurd rfl hne⟩
  · have hsame : w'.publisher = w.publisher := by
      rcases World.step_writers h with ⟨_, hp, _⟩ | ⟨c, p, _, _, hp, rfl⟩ | ⟨r, t, p, hpub, _, _⟩ |
        ⟨p, c, pc, _, _, _, rfl⟩ | ⟨p, r, pc, _, _, rfl⟩
      · exact hp
      · rw [(World.pubCall_quiet hp).2.2.1] at ha
        exact ha.elim
      · exact absurd hpub he
      · rfl
      · rfl
    rw [hsame]
    exact ⟨ha, fun hpub => absurd hpub he, fun _ => rfl⟩

/-- On a lossy channel the publisher waits for nobody: every call, be it a batch or one whose
closure panics, can always go on and returns within its bound of own steps. -/
theorem publishes_wait_free {w w₁ w₂ : World n} {c : PubCall n} (hk : cfg.kind = .lossy)
    (hcall : World.step cfg w (.pubCall c) = some w₁) {as : List (Act n)}
    (hrun : run (during publishing (World.step cfg)) w₁ as = some w₂) (hbusy : publishing w₂ = true) :
    as.count .pub < pubSteps n c ∧ ∃ w₃, World.step cfg w₂ .pub = some w₃ := by
  have hp : w.publisher.call c = some w₁.publisher := by
    simp only [World.step, hk, reduceCtorEq, ↓reduceIte] at hcall
    obtain ⟨p, hp, rfl⟩ := Option.map_eq_some_iff.mp hcall
    exact hp
  rcases pubCall_left hp with hidle | ⟨ha, hle⟩
  · -- an empty batch has returned already
    have hdone : publishing w₁ = false := by
      unfold publishing
      rw [hidle]
    cases as with
    | nil =>
      cases hrun
      rw [hdone] at hbusy
      cases hbusy
    | cons a as => simp [run, during, hdone] at hrun
  · have hbound := count_add_rank_le (fun w : World n => pubLeft w.publisher.pc) (fun _ => 0) hrun hbusy
      (I := fun w : World n => FreeAt w.publisher.pc) (G := fun _ => True) (fun _ _ _ _ h => h) trivial
      (fun u a v hu _ _ hstep hin' => (step_free hk hu hstep hin').1)
      (fun u v hu _ _ hstep hin' => Nat.succ_le_of_lt ((step_free hk hu hstep hin').2.1 rfl))
      (fun u a v hu _ _ hne hstep hin' => ((step_free hk hu hstep hin').2.2 hne).le) ha
    obtain ⟨ha₂, hcount⟩ := hbound
    have hpos := pubLeft_pos ha₂
    obtain ⟨⟨r, t, p⟩, hu⟩ : ∃ x, w₂.publisher.step cfg w₂.ring w₂.trackers = some x := pub_of_free ha₂
    refine ⟨by omega, { w₂ with ring := r, trackers := t, publisher := p }, ?_⟩
    simp only [World.step, hu, Option.map_some]

/-- A batch of two messages with a reader in between. -/
theorem publishes_wait_free_batch : ∃ w₁ w₂ : World 1,
    World.step Config.smallLossy (World.new 1) (.pubCall (.publishBatch [fun _ => 7, fun _ => 8])) = some w₁ ∧
    run (during publishing (World.step Config.smallLossy)) w₁
      (List.replicate 4 .pub ++ [.subscribe 0 .subscribe, .sub 0] ++ List.replicate 3 .pub) = some w₂ ∧
    ∃ w₃, World.step Config.smallLossy w₂ .pub = some w₃ := by
  have hrun : ((World.step Config.smallLossy (World.new 1)
      (.pubCall (.publishBatch [fun _ => 7, fun _ => 8]))).any fun w₁ =>
        (run (during publishing (World.step Config.smallLossy)) w₁
          (List.replicate 4 .pub ++ [.subscribe 0 .subscribe, .sub 0] ++ List.replicate 3 .pub)).any
          fun w₂ => publishing w₂) = true := by decide +kernel
  obtain ⟨w₁, hcall, hrest⟩ := (Option.any_eq_true _ _).mp hrun
  obtain ⟨w₂, hduring, hbusy⟩ := (Option.any_eq_true _ _).mp hrest
  exact ⟨w₁, w₂, hcall, hduring, (publishes_wait_free rfl hcall hduring hbusy).2⟩

end PhotonRing.WaitFree
