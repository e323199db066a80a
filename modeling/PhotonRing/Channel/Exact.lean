import PhotonRing.Channel.Unattended
import PhotonRing.Channel.Bounded
import PhotonRing.Channel.Position

/-!
# The backpressure decision is exact

On a bounded channel whose operations do not overlap, `try_publish` decides as a
publisher would that scans all trackers on every call. The cached minimum it trusts
instead may stem from subscribers that are gone and may predate others, but it is
never ahead of a live tracked subscriber.
-/
namespace PhotonRing.Exact

open Lib Reader World Solo Unattended Position Bounded

variable {n wm : Nat} {cfg : Config} {r : Ring n} {t t' : Trackers} {i : Nat} {s s' : Subscriber n}
  {p : Publisher n} {w w' : World n} {v : Value n}

/-! ## Whole operations -/

/-- The operations. A `DependencyBarrier` holds a clone of a tracker. -/
inductive Op (n : Nat) where
  | tryPublish (v : Value n)
  | subscribe (i : Nat)
  | subscribeTracked (i : Nat)
  | subscribeLossy (i : Nat)
  | receive (i : Nat) (c : SubCall)
  | drop (i : Nat)
  | cloneTracker (i : Nat)
  | dropClone (i : Nat)

namespace Op

/-- The label with which an operation begins. -/
def first : Op n → Act n
  | tryPublish v => .pubCall (.tryPublish v)
  | subscribe i => .subscribe i .subscribe
  | subscribeTracked i => .subscribe i .tracked
  | subscribeLossy i => .subscribe i .lossy
  | receive i c => .subCall i c
  | drop i => .drop i
  | cloneTracker i => .cloneTracker i
  | dropClone i => .dropClone i

/-- The subscriber whose operation it is. -/
def sub : Op n → Option Nat
  | tryPublish _ => none
  | subscribe i => some i
  | subscribeTracked i => some i
  | subscribeLossy i => some i
  | receive i _ => some i
  | drop i => some i
  | cloneTracker i => some i
  | dropClone i => some i

end Op

/-- No operation of the subscriber is in progress. -/
def atRest : SubPc n → Bool
  | .absent => true
  | .idle => true
  | .dropped => true
  | _ => false

/-- The label of the thread's steps, and whether it has come to the end of its call. -/
def own : Option Nat → Act n
  | none => .pub
  | some i => .sub i

def hasReturned (w : World n) : Option Nat → Bool
  | none => !pubBusy w.publisher
  | some i => atRest (w.subs i).pc

/-- One whole operation: it begins, and its thread makes `k` steps, which end it. -/
def wholeStep (cfg : Config) (w : World n) (x : Op n × Nat) : Option (World n) :=
  (run (step cfg) w (x.1.first :: List.replicate x.2 (own x.1.sub))).filter fun w' => hasReturned w' x.1.sub

theorem wholeStep_eq {op : Op n} {k : Nat} (h : wholeStep cfg w (op, k) = some w') :
    ∃ w₁, step cfg w op.first = some w₁ ∧ run (step cfg) w₁ (List.replicate k (own op.sub)) = some w' ∧
      hasReturned w' op.sub = true := by
  obtain ⟨hrun, hover⟩ := Option.filter_eq_some_iff.mp h
  obtain ⟨w₁, h₁, hrest⟩ := Option.bind_eq_some_iff.mp hrun
  exact ⟨w₁, h₁, hrest, hover⟩

/-- A live subscriber that the publisher has to wait for. -/
def Live (s : Subscriber n) : Prop := s.pc = .idle ∧ s.tracker = true

/-- `has_room` of a publisher that scans the trackers on every call. -/
def rescanHasRoom (cfg : Config) (t : Trackers) (seq : Nat) : Bool :=
  match ((t.registered.filter fun i => 0 < t.strong i).map t.value).min? with
  | some slowest => decide (seq < slowest + cfg.effective)
  | none => true

/-! ## The publisher's call -/

/-- The minimum that a scan of `todo` goes on to compute. -/
def scanMin (value : Nat → Nat) : Nat → List Nat → Nat
  | min, [] => min
  | min, i :: todo => scanMin value (if value i < min then value i else min) todo

theorem scanMin_le (value : Nat → Nat) (min : Nat) (todo : List Nat) : scanMin value min todo ≤ min := by
  induction todo generalizing min with
  | nil => exact Nat.le_refl _
  | cons i todo ih =>
    refine (ih _).trans ?_
    split_ifs <;> omega

theorem scanMin_le_value (value : Nat → Nat) (min : Nat) {todo : List Nat} (hi : i ∈ todo) :
    scanMin value min todo ≤ value i := by
  induction todo generalizing min with
  | nil => cases hi
  | cons j todo ih =>
    rcases List.mem_cons.mp hi with rfl | hi
    · refine (scanMin_le value _ todo).trans ?_
      split_ifs <;> omega
    · exact ih _ hi

theorem scanMin_mem (value : Nat → Nat) (min : Nat) (todo : List Nat) :
    scanMin value min todo = min ∨ ∃ i ∈ todo, scanMin value min todo = value i := by
  induction todo generalizing min with
  | nil => exact Or.inl rfl
  | cons j todo ih =>
    rcases ih (if value j < min then value j else min) with he | ⟨i, hi, he⟩
    · rw [scanMin, he]
      split_ifs
      · exact Or.inr ⟨j, List.mem_cons_self, rfl⟩
      · exact Or.inl rfl
    · exact Or.inr ⟨i, List.mem_cons_of_mem j hi, he⟩

/-- `slowest` is the least registered position. -/
def Slowest (t : Trackers) (slowest : Nat) : Prop :=
  (∃ i ∈ t.registered, t.value i = slowest) ∧ ∀ i ∈ t.registered, slowest ≤ t.value i

theorem slowest_scanMin {limit : Nat} (hne : t.registered ≠ []) (hval : ∀ i ∈ t.registered, t.value i ≤ limit) :
    Slowest t (scanMin t.value limit t.registered) := by
  refine ⟨?_, fun i hi => scanMin_le_value t.value limit hi⟩
  obtain ⟨j, hj⟩ := List.exists_mem_of_ne_nil _ hne
  rcases scanMin_mem t.value limit t.registered with he | ⟨i, hi, he⟩
  · have hle := scanMin_le_value t.value limit hj
    rw [he] at hle ⊢
    exact ⟨j, hj, Nat.le_antisymm (hval j hj) hle⟩
  · exact ⟨i, hi, he.symm⟩

abbrev PubEnds (cfg : Config) (Q : Ring n × Trackers × Publisher n → Prop) (r : Ring n) (t : Trackers)
    (p : Publisher n) : Prop := Ends (fun x => pubBusy x.2.2) (pubStep cfg) Q (r, t, p)

/-- A scan in which every tracker has its subscriber keeps them all. -/
theorem scan_ends {Q : Ring n × Trackers × Publisher n → Prop} {c : PubCall n} {todo kept : List Nat}
    {min : Nat} {live : Bool} (hlive : ∀ i ∈ todo, 0 < t.strong i)
    (hend : PubEnds cfg Q r t
      { p with pc := .scan c [] (kept ++ todo) (scanMin t.value min todo) (live || !todo.isEmpty) }) :
    PubEnds cfg Q r t { p with pc := .scan c todo kept min live } := by
  induction todo generalizing kept min live with
  | nil => simpa [scanMin] using hend
  | cons i todo ih =>
    refine .step (t := (r, t, { p with pc := .loadTracker c i todo kept min live })) rfl ?_
      (.step rfl rfl (ih (fun j hj => hlive j (List.mem_cons_of_mem i hj)) ?_))
    · simp only [pubStep, Publisher.step, hlive i List.mem_cons_self, ↓reduceIte]
    · simpa [scanMin] using hend

/-- What a `try_publish` that found the trackers `t` returns and leaves behind. -/
inductive Decided (cfg : Config) (v : Value n) (r : Ring n) (t : Trackers) (p : Publisher n) :
    Ring n × Trackers × Publisher n → Prop where
  | full {slowest : Nat} (hs : Slowest t slowest) (hle : slowest + cfg.effective ≤ p.seq) :
      Decided cfg v r t p
        (r, t, { p with cachedSlowest := slowest, pc := .idle, last := some (.full v) })
  | ok {r' : Ring n} {cached : Nat} (hlog : r'.log = r.log ++ [v]) (hcur : r'.cursor = p.seq)
      (hroom : (cached = p.cachedSlowest ∧ (p.seq < cached + cfg.effective ∨ t.registered = [])) ∨
        (Slowest t cached ∧ p.seq < cached + cfg.effective)) :
      Decided cfg v r t p
        (r', t, { p with seq := p.seq + 1, cachedSlowest := cached, pc := .idle, last := some .ok })

theorem write_decided {cached : Nat} (hseq : p.seq < seqLimit)
    (hroom : (cached = p.cachedSlowest ∧ (p.seq < cached + cfg.effective ∨ t.registered = [])) ∨
      (Slowest t cached ∧ p.seq < cached + cfg.effective)) :
    PubEnds cfg (Decided cfg v r t p) r t { p with cachedSlowest := cached, pc := .write v [] .begin } := by
  unfold seqLimit at hseq
  have hword : u64 (p.seq + 1) = p.seq + 1 := u64_of_lt (by omega)
  refine write_ends (p := { p with cachedSlowest := cached }) trivial (.step rfl rfl (.done rfl ?_))
  rw [hword]
  exact .ok rfl rfl hroom

/-- `try_publish` on a bounded channel comes to a decision. -/
theorem tryPublish_ends (hk : cfg.kind = .bounded wm) (hcap : cfg.capacity ≤ 2 ^ 63) (hfree : t.locked = false)
    (hlive : ∀ i ∈ t.registered, 0 < t.strong i) (hval : ∀ i ∈ t.registered, t.value i ≤ p.seq)
    (hcached : p.cachedSlowest ≤ p.seq) (hseq : p.seq < seqLimit) :
    PubEnds cfg (Decided cfg v r t p) r t { p with pc := .room (.tryPublish v) } := by
  have heff : cfg.effective ≤ 2 ^ 63 := cfg.effective_le.trans hcap
  have hword {m : Nat} (hm : m ≤ p.seq) : u64 (m + cfg.effective) = m + cfg.effective := by
    unfold seqLimit at hseq
    exact u64_of_lt (by omega)
  by_cases hfast : p.cachedSlowest + cfg.effective ≤ p.seq
  · have hunlock (t₁ : Trackers) (h₁ : t₁ = { t with locked := true }) :
        { t₁ with locked := false, registered := t.registered } = t := by
      subst h₁
      rw [← hfree]
    refine .step (t := (r, t, { p with pc := .lock (.tryPublish v) })) rfl ?_
      (.step (t := (r, { t with locked := true },
        { p with pc := .scan (.tryPublish v) t.registered [] u64Max false })) rfl ?_ (scan_ends hlive ?_))
    · simp only [pubStep, Publisher.step, hk, hword hcached, hfast, ↓reduceIte]
    · simp only [pubStep, Publisher.step, hfree, Bool.false_eq_true, ↓reduceIte]
    · by_cases hne : t.registered = []
      · refine .step (t := (r, t, { p with pc := .write v [] .begin })) rfl ?_
          (write_decided hseq (Or.inl ⟨rfl, Or.inr hne⟩))
        simp only [pubStep, Publisher.step, hne, List.isEmpty_nil, Bool.not_true, Bool.or_self,
          Bool.false_eq_true, ↓reduceIte, List.append_nil, Publisher.enter]
        rw [← hne, hunlock _ rfl]
      · have hslow : Slowest t (scanMin t.value u64Max t.registered) :=
          slowest_scanMin hne (fun i hi => (hval i hi).trans (by unfold seqLimit at hseq; unfold u64Max; omega))
        obtain ⟨i, hi, he⟩ := hslow.1
        have hmin : scanMin t.value u64Max t.registered ≤ p.seq := he ▸ hval i hi
        have hflag : (false || !t.registered.isEmpty) = true := by simp [hne]
        by_cases hfull : scanMin t.value u64Max t.registered + cfg.effective ≤ p.seq
        · refine .step rfl ?_ (.done rfl (.full hslow hfull))
          simp only [pubStep, Publisher.step, hflag, hword hmin, hfull, ↓reduceIte, Publisher.full]
          rw [List.nil_append, hunlock _ rfl]
        · refine .step rfl ?_ (write_decided hseq (Or.inr ⟨hslow, by omega⟩))
          simp only [pubStep, Publisher.step, hflag, hword hmin, hfull, ↓reduceIte, Publisher.enter]
          rw [List.nil_append, hunlock _ rfl]
  · refine .step (t := (r, t, { p with pc := .write v [] .begin })) rfl ?_
      (write_decided hseq (Or.inl ⟨rfl, Or.inl (by omega)⟩))
    simp only [pubStep, Publisher.step, hk, hword hcached, hfast, ↓reduceIte, Publisher.enter]

/-! ## The subscribers' operations -/

/-- On a quiet ring `latest` reads at the head and nowhere else. -/
def AtHead (r : Ring n) (s : Subscriber n) : Prop :=
  match s.pc with
  | .read .latest _ => r.cursor ≠ u64Max ∧ s.cursor = r.cursor
  | .head .latest => False
  | .gate .latest _ _ => False
  | _ => True

theorem atHead_poll {c : Caller n} (hc : c ≠ .latest) : AtHead r (s.poll c) := by
  cases c <;> first | exact trivial | exact absurd rfl hc

theorem atHead_endBatch (s : Subscriber n) (b : Batch) : AtHead r (s.endBatch b) := by
  unfold Subscriber.endBatch
  split_ifs <;> exact trivial

theorem atHead_nextInBatch (s : Subscriber n) (b : Batch) : AtHead r (s.nextInBatch b) := by
  unfold Subscriber.nextInBatch
  split_ifs
  · exact trivial
  · exact atHead_endBatch s b

theorem atHead_resume (s : Subscriber n) (res : Recv n) (c : Caller n) : AtHead r (s.resume res c) := by
  cases c with
  | recvBatch left filled again =>
    cases res <;> simp only [Subscriber.resume] <;> (try split_ifs) <;> exact trivial
  | drainBatch b =>
    cases res with
    | ok buf => exact Subscriber.handle_cases (P := AtHead r) (fun _ => trivial) fun _ => atHead_nextInBatch _ _
    | empty => exact atHead_endBatch _ _
    | lagged k => exact atHead_nextInBatch _ _
  | _ => cases res <;> exact trivial

/-- The slot at the head of a quiet ring holds the last message. -/
theorem stamp_at_head (hq : Quiet cfg r) (hl : r.log.length < seqLimit) (hmax : r.cursor ≠ u64Max) :
    (r.slots (cfg.slot r.cursor)).stamp = done r.cursor := by
  have hlt := hq.ok.cursor_lt hmax
  have hhead := hq.head (by omega)
  have hcap := cfg.two_le
  have hheld := hq.held hlt (by omega)
  rw [cfg.slot_eq_of_lt (hlt.trans hl), done_eq (hlt.trans hl)]
  exact hheld

/-- A subscriber that runs alone meets the condition of every `latest`. -/
theorem latestOk_of_atHead (hq : Quiet cfg r) (hl : r.log.length < seqLimit) (hc : s.cursor ≤ r.log.length)
    (h : AtHead r s) : latestOk cfg r s = true := by
  unfold AtHead at h
  unfold latestOk
  split
  · rename_i hp
    refine decide_eq_true ?_
    by_cases h0 : r.log.length = 0
    · exact Or.inl (by rw [hq.cursor, h0]; rfl)
    · have := hq.head (by omega)
      exact Or.inr (by omega)
  · rename_i hp
    rw [hp] at h
    rw [h.2]
    exact decide_eq_true (Or.inl (stamp_at_head hq hl h.1))
  · rename_i hp
    rw [hp] at h
    rw [h.2]
    exact decide_eq_true (stamp_at_head hq hl h.1)
  · rename_i hp
    rw [hp] at h
    exact h.elim
  · rfl

theorem atHead_afterRead {c : Caller n} {res : TryRead n} (hc : c ≠ .latest) (h : AfterRead s c res s') :
    AtHead r s' := by
  cases h with
  | value _ => exact trivial
  | again hlat _ => exact atHead_poll hlat
  | empty => exact atHead_resume s .empty c
  | passed => cases c <;> first | exact trivial | exact absurd rfl hc

theorem step_atHead (hq : Quiet cfg r) (hl : r.log.length < seqLimit) (h : AtHead r s)
    (hs : s.step cfg r t i = some (t', s')) : AtHead r s' := by
  unfold AtHead at h
  cases Subscriber.step_moves hs with
  | @gateNext c u us m hp =>
    rw [hp] at h
    cases c <;> first | exact trivial | exact h.elim
  | @gateClosed c m _ _ => exact atHead_resume s .empty c
  | gateOpen hp _ =>
    rw [hp] at h
    exact atHead_poll (by rintro rfl; exact h)
  | @reading c pc pc' hp hread =>
    rw [hp] at h
    by_cases hlat : c = .latest
    · subst hlat
      exact h
    · cases c <;> first | exact trivial | exact absurd rfl hlat
  | @read c pc res hp hread =>
    rw [hp] at h
    by_cases hlat : c = .latest
    · subst hlat
      obtain ⟨hmax, hcur⟩ := h
      have hst := stamp_at_head hq hl hmax
      rw [← hcur] at hst
      cases pc with
      | stamp =>
        simp only [Slot.readStep, hst, ↓reduceIte] at hread
        cases hread
      | load off buf =>
        by_cases hoff : off < n
        · simp only [Slot.readStep, hoff, ↓reduceIte] at hread
          cases hread
        · simp only [Slot.readStep, hoff, hst, ↓reduceIte] at hread
          cases hread
          exact trivial
    · exact atHead_afterRead hlat (onTryRead_after s c res)
  | @head c _ => exact Subscriber.onHead_cases (atHead_resume s .empty c) (fun _ _ _ => trivial)
  | @commit c res _ => cases res <;> exact atHead_resume _ _ _
  | latestHead _ hsome => exact ⟨hsome, rfl⟩
  | loadPending _ => exact Subscriber.onPending_cases (fun _ => atHead_endBatch s _) (fun _ => trivial)
  | _ => exact trivial

theorem moved_step {u : World n} (h : step cfg (moved w i t s) (.sub i) = some u) :
    ∃ t' s', s.step cfg w.ring t i = some (t', s') ∧ u = moved w i t' s' := by
  obtain ⟨⟨t', s'⟩, hst, rfl⟩ := Option.map_eq_some_iff.mp h
  rw [moved_self] at hst
  refine ⟨t', s', hst, ?_⟩
  simp only [moved, setSub, Function.update_idem]

/-- What every step of a subscriber preserves holds after any number of them. -/
theorem sub_run {P : Trackers → Subscriber n → Prop}
    (hstep : ∀ t s t' s', P t s → s.step cfg w.ring t i = some (t', s') → P t' s') {k : Nat} {u : World n}
    (h : run (step cfg) (moved w i t s) (List.replicate k (.sub i)) = some u) (h0 : P t s) :
    ∃ t' s', u = moved w i t' s' ∧ P t' s' := by
  induction k generalizing t s with
  | zero => exact ⟨t, s, (Option.some.inj h).symm, h0⟩
  | succ k ih =>
    obtain ⟨u₁, h₁, hrest⟩ := Option.bind_eq_some_iff.mp h
    obtain ⟨t₁, s₁, hst, rfl⟩ := moved_step h₁
    exact ih hrest (hstep t s t₁ s₁ h0 hst)

/-- A subscriber that runs alone on a quiet ring makes careful steps. -/
theorem careful_run {w₀ u : World n} {k : Nat} (h₀ : Reachable (carefulStep cfg) (World.new n) w₀)
    (hq : Quiet cfg w.ring) (hl : messages w < seqLimit)
    (hc : Reachable (carefulStep cfg) w₀ (moved w i t s)) (hat : AtHead w.ring s)
    (h : run (step cfg) (moved w i t s) (List.replicate k (.sub i)) = some u) :
    Reachable (carefulStep cfg) w₀ u := by
  let P (t : Trackers) (s : Subscriber n) : Prop :=
    Reachable (carefulStep cfg) w₀ (moved w i t s) ∧ AtHead w.ring s
  have hstep (t : Trackers) (s : Subscriber n) (t' : Trackers) (s' : Subscriber n) (hP : P t s)
      (hst : s.step cfg w.ring t i = some (t', s')) : P t' s' := by
    obtain ⟨hc, hat⟩ := hP
    have hreader := (reach_kept (h₀.trans hc) hl).1.readers i
    rw [moved_self] at hreader
    refine ⟨hc.next (a := .sub i) ?_, step_atHead hq hl hat hst⟩
    have hok : latestOk cfg w.ring ((moved w i t s).subs i) = true := by
      rw [moved_self]
      exact latestOk_of_atHead hq hl hreader.cursor_le hat
    unfold carefulStep
    dsimp only
    refine (if_pos hok).trans (Option.map_eq_some_iff.mpr ⟨(t', s'), ?_, ?_⟩)
    · rw [moved_self]
      exact hst
    · simp only [moved, setSub, Function.update_idem]
  obtain ⟨t', s', rfl, hc', _⟩ := sub_run hstep h ⟨hc, hat⟩
  exact hc'

/-! ## Between the operations -/

/-- The publisher's cache is not ahead of subscriber `i`, which it finds in the list. -/
structure Gated (cfg : Config) (t : Trackers) (p : Publisher n) (i : Nat) (s : Subscriber n) : Prop where
  listed : i ∈ t.registered
  alive : 0 < t.strong i
  value : t.value i = s.cursor
  cached_le : p.cachedSlowest ≤ s.cursor
  seq_le : p.seq ≤ s.cursor + cfg.effective

structure Rest (cfg : Config) (w : World n) : Prop where
  careful : Reachable (carefulStep cfg) (World.new n) w
  publisher : w.publisher.pc = .idle
  subs : ∀ i, atRest (w.subs i).pc = true
  free : w.trackers.locked = false
  cached_le : w.publisher.cachedSlowest ≤ w.publisher.seq
  listed : ∀ i ∈ w.trackers.registered, Live (w.subs i)
  gated : ∀ i, Live (w.subs i) → Gated cfg w.trackers w.publisher i (w.subs i)

theorem rest_new (cfg : Config) : Rest cfg (World.new n) where
  careful := .start
  publisher := rfl
  subs := fun _ => rfl
  free := rfl
  cached_le := Nat.le_refl _
  listed := fun _ hi => (by cases hi)
  gated := fun _ hi => (by cases hi.1)

theorem Rest.sane (h : Rest cfg w) (hl : messages w < seqLimit) : Sane cfg w := (reach_kept h.careful hl).1

theorem Rest.quiet (h : Rest cfg w) (hk : cfg.kind = .bounded wm) (hl : messages w < seqLimit) :
    Quiet cfg w.ring ∧ w.ring.log.length = w.publisher.seq := by
  have hwritten := (h.sane hl).written
  obtain ⟨hok, hidle⟩ := hwritten.single (kind_ne_mpmc hk)
  have hlen := hok.length
  rw [h.publisher] at hlen
  exact ⟨quiet_of_idle hwritten h.publisher hidle, hlen⟩

/-- One subscriber has moved, with what that does to the trackers. -/
theorem Rest.withSub (h : Rest cfg w) (hc : Reachable (carefulStep cfg) (World.new n) (moved w i t s))
    (hrest : atRest s.pc = true) (hfree : t.locked = false)
    (hothers : ∀ j, j ≠ i → t.value j = w.trackers.value j ∧ t.strong j = w.trackers.strong j ∧
      (j ∈ t.registered ↔ j ∈ w.trackers.registered))
    (hlisted : i ∈ t.registered → Live s) (hgated : Live s → Gated cfg t w.publisher i s) :
    Rest cfg (moved w i t s) := by
  refine ⟨hc, h.publisher, fun j => ?_, hfree, h.cached_le, fun j hj => ?_, fun j hj => ?_⟩
  · by_cases hji : j = i
    · rw [hji, moved_self]
      exact hrest
    · rw [moved_ne w t s hji]
      exact h.subs j
  · by_cases hji : j = i
    · subst hji
      rw [moved_self]
      exact hlisted hj
    · rw [moved_ne w t s hji]
      exact h.listed j ((hothers j hji).2.2.mp hj)
  · by_cases hji : j = i
    · subst hji
      rw [moved_self] at hj ⊢
      exact hgated hj
    · rw [moved_ne w t s hji] at hj ⊢
      obtain ⟨h1, h2, h3, h4, h5⟩ := h.gated j hj
      obtain ⟨hval, hstr, hreg⟩ := hothers j hji
      exact ⟨hreg.mpr h1, h2.trans_eq hstr.symm, hval.trans h3, h4, h5⟩

/-- A subscriber's operation begins: `latest` has not loaded the head yet. -/
theorem call_atHead {c : SubCall} (h : s.call c = some s') : AtHead r s' := by
  cases (Subscriber.call_begins h).2 <;> exact trivial

theorem careful_first {a : Act n} (h : step cfg w a = some w') (ha : ∀ i, a ≠ .sub i) :
    carefulStep cfg w a = some w' := by
  cases a <;> first | exact h | exact absurd rfl (ha _)

/-- Any receive leaves the subscriber where it was or further on, and its tracker there. -/
theorem Rest.receive {c : SubCall} {k : Nat} (h : Rest cfg w) (hk : cfg.kind = .bounded wm)
    (hl : messages w < seqLimit) (hstep : wholeStep cfg w (.receive i c, k) = some w') : Rest cfg w' := by
  obtain ⟨w₁, h₁, hrun, hover⟩ := wholeStep_eq hstep
  obtain ⟨s₁, hcall, rfl⟩ := Option.map_eq_some_iff.mp h₁
  obtain ⟨hidle, _, _, htr₁⟩ := call_idle hcall
  obtain ⟨hq, _⟩ := h.quiet hk hl
  have hfirst : Reachable (carefulStep cfg) w (moved w i w.trackers s₁) :=
    Reachable.start.next (careful_first h₁ (fun _ ha => by cases ha))
  have hcareful := careful_run h.careful hq hl hfirst (call_atHead hcall) hrun
  let P (t : Trackers) (s : Subscriber n) : Prop :=
    seat s.pc = .seated ∧ s.tracker = (w.subs i).tracker ∧ t.registered = w.trackers.registered ∧
      t.strong = w.trackers.strong ∧ t.locked = w.trackers.locked ∧ ∀ j, j ≠ i → t.value j = w.trackers.value j
  have hkeep (t : Trackers) (s : Subscriber n) (t' : Trackers) (s' : Subscriber n) (hP : P t s)
      (hst : s.step cfg w.ring t i = some (t', s')) : P t' s' := by
    obtain ⟨hseat, htr, hreg, hstr, hlock, hval⟩ := hP
    obtain ⟨hseat', htr', rfl | ⟨_, rfl⟩⟩ := step_seated hseat hst
    · exact ⟨hseat', htr'.trans htr, hreg, hstr, hlock, hval⟩
    · exact ⟨hseat', htr'.trans htr, hreg, hstr, hlock, fun j hj => (Function.update_of_ne hj ..).trans (hval j hj)⟩
  obtain ⟨t, s, rfl, hseat, htr, hreg, hstr, hlock, hval⟩ :=
    sub_run hkeep hrun ⟨call_seated hcall, htr₁, rfl, rfl, rfl, fun _ _ => rfl⟩
  have hover' : atRest ((moved w i t s).subs i).pc = true := hover
  rw [moved_self] at hover'
  have hpc : s.pc = .idle := by
    revert hover' hseat
    cases s.pc <;> simp [atRest, seat]
  -- the position from before the operation is kept
  have hkept₀ : Kept (w.subs i).cursor w.trackers i (w.subs i) := by
    have hcr := (reach_kept h.careful hl).2 i (by rw [hidle]; trivial)
    exact ⟨hcr.created, Nat.le_add_right _ _, hcr.tracker⟩
  have hkept := kept_along h.careful hkept₀ hcareful hl
  rw [moved_self] at hkept
  have hfloor : (w.subs i).cursor ≤ s.cursor := by
    have := hkept.floor
    rw [hpc] at this
    exact this
  refine h.withSub (h.careful.trans hcareful) hover' (hlock.trans h.free)
    (fun j hj => ⟨hval j hj, by rw [hstr], by rw [hreg]⟩) (fun hi => ?_) (fun hlive => ?_)
  · exact ⟨hpc, htr.trans (h.listed i (hreg ▸ hi)).2⟩
  · obtain ⟨h1, h2, _, h4, h5⟩ := h.gated i ⟨hidle, htr ▸ hlive.2⟩
    have hv := hkept.tracker hlive.2 (by rw [hpc]; exact fun hf => hf)
    rw [hpc] at hv
    exact ⟨hreg ▸ h1, by rw [hstr]; exact h2, hv, h4.trans hfloor, by omega⟩

/-- The program points of a `subscribe` call that registers at `seq`, with the trackers. -/
inductive Joining (t : Trackers) (i seq : Nat) (s : Subscriber n) (k : SubscribeKind) :
    Trackers → Subscriber n → Prop where
  | lock : Joining t i seq s k t { s with pc := .lock k }
  | head : Joining t i seq s k { t with locked := true } { s with pc := .loadHead k }
  | push : Joining t i seq s k { t with locked := true } { s with pc := .push seq }
  | done : Joining t i seq s k
      { t with
        locked := false
        registered := t.registered ++ [i]
        value := Function.update t.value i seq
        strong := Function.update t.strong i 1 }
      (s.created seq true)

theorem Joining.step {t₀ : Trackers} {s₀ : Subscriber n} {seq : Nat} {k : SubscribeKind}
    (hk : cfg.kind = .bounded wm) (hkind : k = .subscribe ∨ k = .tracked) (hstart : startOf r.cursor = seq)
    (hfree : t₀.locked = false) (h : Joining t₀ i seq s₀ k t s) (hs : s.step cfg r t i = some (t', s')) :
    Joining t₀ i seq s₀ k t' s' := by
  cases h with
  | lock =>
    simp only [Subscriber.step, hfree, Bool.false_eq_true, ↓reduceIte] at hs
    cases hs
    exact .head
  | head =>
    rcases hkind with rfl | rfl <;> simp only [Subscriber.step, hk, hstart] at hs <;> cases hs <;> exact .push
  | push =>
    simp only [Subscriber.step] at hs
    cases hs
    exact .done
  | done =>
    simp only [Subscriber.step, Subscriber.created] at hs
    cases hs

theorem Rest.startOf_eq (h : Rest cfg w) (hk : cfg.kind = .bounded wm) (hl : messages w < seqLimit) :
    startOf w.ring.cursor = w.publisher.seq := by
  obtain ⟨hq, hlen⟩ := h.quiet hk hl
  unfold messages seqLimit at hl
  rw [hq.cursor, hlen, startOf_expectedCursor (by omega)]

/-- `subscribe` and `subscribe_tracked` register at the publisher's position. -/
theorem Rest.subscribe {kind : SubscribeKind} {k : Nat} (h : Rest cfg w) (hk : cfg.kind = .bounded wm)
    (hl : messages w < seqLimit) (hkind : kind = .subscribe ∨ kind = .tracked) {w₁ : World n}
    (h₁ : step cfg w (.subscribe i kind) = some w₁)
    (hrun : run (step cfg) w₁ (List.replicate k (.sub i)) = some w') (hover : atRest (w'.subs i).pc = true) :
    Rest cfg w' := by
  obtain ⟨s₁, hsub, rfl⟩ := Option.map_eq_some_iff.mp h₁
  obtain ⟨hq, hlen⟩ := h.quiet hk hl
  have habsent := (subscribe_pc hsub).1
  have hs₁ : s₁ = { { w.subs i with kind := kind } with pc := .lock kind } := by
    rcases hkind with rfl | rfl <;> simp only [Subscriber.subscribe, habsent, hk] at hsub <;>
      exact (Option.some.inj hsub).symm
  subst hs₁
  have hfirst : Reachable (carefulStep cfg) w (moved w i w.trackers { w.subs i with pc := .lock kind, kind := kind }) :=
    Reachable.start.next (careful_first h₁ (fun _ ha => by cases ha))
  have hcareful := careful_run h.careful hq hl hfirst trivial hrun
  obtain ⟨t, s, rfl, hjoin⟩ := sub_run
    (fun _ _ _ _ => Joining.step hk hkind (h.startOf_eq hk hl) h.free) hrun .lock
  rw [moved_self] at hover
  have hnot : i ∉ w.trackers.registered := fun hi => by
    have := (h.listed i hi).1
    rw [habsent] at this
    cases this
  cases hjoin with
  | lock => cases hover
  | head => cases hover
  | push => cases hover
  | done =>
    refine h.withSub (h.careful.trans hcareful) rfl rfl (fun j hj => ⟨Function.update_of_ne hj ..,
      Function.update_of_ne hj .., by simp [hj]⟩) (fun _ => ⟨rfl, rfl⟩) (fun _ => ?_)
    refine ⟨by simp, by simp, Function.update_self .., h.cached_le, ?_⟩
    exact Nat.le_add_right _ _

/-- `subscribe_lossy` registers nothing. -/
theorem Rest.subscribeLossy {k : Nat} (h : Rest cfg w) (hk : cfg.kind = .bounded wm)
    (hl : messages w < seqLimit) (hstep : wholeStep cfg w (.subscribeLossy i, k) = some w') : Rest cfg w' := by
  obtain ⟨w₁, h₁, hrun, hover⟩ := wholeStep_eq hstep
  obtain ⟨s₁, hsub, rfl⟩ := Option.map_eq_some_iff.mp h₁
  obtain ⟨hq, hlen⟩ := h.quiet hk hl
  have habsent := (subscribe_pc hsub).1
  obtain rfl : s₁ = { w.subs i with pc := .loadHead .lossy, kind := .lossy } := by
    simp only [Subscriber.subscribe, habsent, hk] at hsub
    exact (Option.some.inj hsub).symm
  have hfirst : Reachable (carefulStep cfg) w
      (moved w i w.trackers { w.subs i with pc := .loadHead .lossy, kind := .lossy }) :=
    Reachable.start.next (careful_first h₁ (fun _ ha => by cases ha))
  have hcareful := careful_run h.careful hq hl hfirst trivial hrun
  let P (t : Trackers) (s : Subscriber n) : Prop := t = w.trackers ∧
    (s.pc = .loadHead .lossy ∨ (s.pc = .idle ∧ s.tracker = false))
  have hkeep (t : Trackers) (s : Subscriber n) (t' : Trackers) (s' : Subscriber n) (hP : P t s)
      (hst : s.step cfg w.ring t i = some (t', s')) : P t' s' := by
    obtain ⟨rfl, hpc | ⟨hpc, _⟩⟩ := hP <;> simp only [Subscriber.step, hpc] at hst <;> cases hst
    exact ⟨rfl, Or.inr ⟨rfl, rfl⟩⟩
  obtain ⟨t, s, rfl, rfl, hpc⟩ := sub_run hkeep hrun ⟨rfl, Or.inl rfl⟩
  have hover' : atRest ((moved w i w.trackers s).subs i).pc = true := hover
  rw [moved_self] at hover'
  obtain ⟨hpc, htr⟩ : s.pc = .idle ∧ s.tracker = false :=
    hpc.resolve_left (fun hpc => by rw [hpc] at hover'; cases hover')
  refine h.withSub (h.careful.trans hcareful) hover' h.free (fun j _ => ⟨rfl, rfl, Iff.rfl⟩) (fun hi => ?_)
    (fun hlive => ?_)
  · have := (h.listed i hi).1
    rw [habsent] at this
    cases this
  · have := hlive.2
    rw [htr] at this
    cases this

/-- The program points of a drop, with the trackers. A subscriber without a tracker has only
its reference to give up. -/
inductive Leaving (t : Trackers) (i : Nat) (s : Subscriber n) : Trackers → Subscriber n → Prop where
  | lock (htr : s.tracker = true) : Leaving t i s t { s with pc := .dropLock }
  | retain (htr : s.tracker = true) : Leaving t i s { t with locked := true } { s with pc := .dropRetain }
  | arc {t' : Trackers} (hvalue : t'.value = t.value) (hstrong : t'.strong = t.strong) (hfree : t'.locked = false)
      (hreg : t'.registered = if s.tracker then t.registered.filter (· ≠ i) else t.registered) :
      Leaving t i s t' { s with pc := .dropArc }
  | done {t' : Trackers} (hvalue : t'.value = t.value) (hfree : t'.locked = false)
      (hstrong : ∀ j, j ≠ i → t'.strong j = t.strong j)
      (hreg : t'.registered = if s.tracker then t.registered.filter (· ≠ i) else t.registered) :
      Leaving t i s t' { s with pc := .dropped }

theorem Leaving.step {t₀ : Trackers} {s₀ : Subscriber n} (hfree : t₀.locked = false)
    (h : Leaving t₀ i s₀ t s) (hs : s.step cfg r t i = some (t', s')) : Leaving t₀ i s₀ t' s' := by
  cases h with
  | lock htr =>
    simp only [Subscriber.step, hfree, Bool.false_eq_true, ↓reduceIte] at hs
    cases hs
    exact .retain htr
  | retain htr =>
    simp only [Subscriber.step] at hs
    cases hs
    refine .arc rfl rfl rfl ?_
    rw [if_pos htr]
  | arc hvalue hstrong hfree hreg =>
    simp only [Subscriber.step] at hs
    cases hs
    split_ifs
    · exact .done hvalue hfree (fun j hj => (Function.update_of_ne hj ..).trans (by rw [hstrong])) hreg
    · exact .done hvalue hfree (fun j _ => by rw [hstrong]) hreg
  | done hvalue hfree hstrong hreg =>
    simp only [Subscriber.step] at hs
    cases hs

theorem drop_leaving (hk : cfg.kind = .bounded wm) (hfree : t.locked = false) (h : s.drop cfg = some s') :
    Leaving t i s t s' := by
  unfold Subscriber.drop at h
  dsimp only at h
  rw [hk] at h
  have hlock (htr : s.tracker = true) : Leaving t i s t { s with pc := .dropLock } := .lock htr
  have harc (htr : s.tracker ≠ true) : Leaving t i s t { s with pc := .dropArc } :=
    .arc rfl rfl hfree (by rw [if_neg htr])
  split at h <;> cases h
  · split
    · exact hlock ‹_›
    · rename_i hne
      exact harc (fun htr => hne wm rfl htr)
  · split
    · exact hlock ‹_›
    · rename_i hne
      exact harc (fun htr => hne wm rfl htr)

/-- A drop unregisters the subscriber, whoever else holds its tracker. -/
theorem Rest.drop {k : Nat} (h : Rest cfg w) (hk : cfg.kind = .bounded wm)
    (hl : messages w < seqLimit) (hstep : wholeStep cfg w (.drop i, k) = some w') : Rest cfg w' := by
  obtain ⟨w₁, h₁, hrun, hover⟩ := wholeStep_eq hstep
  obtain ⟨s₁, hdrop, rfl⟩ := Option.map_eq_some_iff.mp h₁
  obtain ⟨hq, hlen⟩ := h.quiet hk hl
  have hfirst : Reachable (carefulStep cfg) w (moved w i w.trackers s₁) :=
    Reachable.start.next (careful_first h₁ (fun _ ha => by cases ha))
  have hat : AtHead w.ring s₁ := by obtain ⟨_, rfl | rfl⟩ := drop_pc hdrop <;> exact trivial
  have hcareful := careful_run h.careful hq hl hfirst hat hrun
  have hleave : Leaving w.trackers i (w.subs i) w.trackers s₁ := drop_leaving hk h.free hdrop
  obtain ⟨t, s, rfl, hleave⟩ := sub_run (fun _ _ _ _ => Leaving.step h.free) hrun hleave
  have hover' : atRest ((moved w i t s).subs i).pc = true := hover
  rw [moved_self] at hover'
  cases hleave with
  | lock => cases hover'
  | retain => cases hover'
  | arc => cases hover'
  | done hvalue hfree hstrong hreg =>
    refine h.withSub (h.careful.trans hcareful) rfl hfree (fun j hj => ⟨by rw [hvalue], hstrong j hj, ?_⟩)
      (fun hi => ?_) (fun hlive => by cases hlive.1)
    · rw [hreg]
      split_ifs
      · simp [hj]
      · exact Iff.rfl
    · exfalso
      rw [hreg] at hi
      split_ifs at hi with htr
      · simp at hi
      · exact htr (h.listed i hi).2

/-- Only references that are not the subscriber's own come and go. -/
theorem Rest.strong {strong : Nat → Nat} (h : Rest cfg w)
    (hc : Reachable (carefulStep cfg) (World.new n) { w with trackers := { w.trackers with strong := strong } })
    (hstr : ∀ j, Live (w.subs j) → 0 < w.trackers.strong j → 0 < strong j) :
    Rest cfg { w with trackers := { w.trackers with strong := strong } } := by
  refine ⟨hc, h.publisher, h.subs, h.free, h.cached_le, h.listed, fun j hj => ?_⟩
  obtain ⟨h1, h2, h3, h4, h5⟩ := h.gated j hj
  exact ⟨h1, hstr j hj h2, h3, h4, h5⟩

theorem careful_labels {as : List (Act n)} (has : ∀ a ∈ as, ∀ i, a ≠ .sub i) (h : run (step cfg) w as = some w') :
    Reachable (carefulStep cfg) w w' := by
  induction as generalizing w with
  | nil =>
    obtain rfl := Option.some.inj h
    exact .start
  | cons a as ih =>
    obtain ⟨w₁, h₁, hrest⟩ := Option.bind_eq_some_iff.mp h
    have hfirst := careful_first h₁ (has a List.mem_cons_self)
    exact (Reachable.start.next hfirst).trans (ih (fun b hb => has b (List.mem_cons_of_mem a hb)) hrest)

theorem Rest.value_le (h : Rest cfg w) (hk : cfg.kind = .bounded wm) (hl : messages w < seqLimit)
    (hi : i ∈ w.trackers.registered) : w.trackers.value i ≤ w.publisher.seq := by
  rw [(h.gated i (h.listed i hi)).value, ← (h.quiet hk hl).2]
  exact ((h.sane hl).readers i).cursor_le

/-- `try_publish` returns, with a decision. -/
theorem Rest.tryPublish (h : Rest cfg w) (hk : cfg.kind = .bounded wm) (hcap : cfg.capacity ≤ 2 ^ 63)
    (hl : messages w < seqLimit) (v : Value n) :
    (∃ k w', wholeStep cfg w (.tryPublish v, k) = some w') ∧
      ∀ k w', wholeStep cfg w (.tryPublish v, k) = some w' →
        ∃ x, w' = published w x ∧ Decided cfg v w.ring w.trackers w.publisher x := by
  let p : Publisher n := { w.publisher with pc := .room (.tryPublish v) }
  have hseq : w.publisher.seq < seqLimit := by rw [← (h.quiet hk hl).2]; exact hl
  have hends : PubEnds cfg (Decided cfg v w.ring w.trackers w.publisher) w.ring w.trackers p :=
    tryPublish_ends hk hcap h.free (fun i hi => (h.gated i (h.listed i hi)).alive)
      (fun i hi => h.value_le hk hl hi) h.cached_le hseq
  have hsolo := published_ends w hends
  have hcall : step cfg w (.pubCall (.tryPublish v)) = some (published w (w.ring, w.trackers, p)) :=
    call_room (kind_ne_mpmc hk) h.publisher (Or.inr rfl)
  refine ⟨?_, fun k w' hw => ?_⟩
  · obtain ⟨k, u, hrun, hidle, _⟩ := hsolo.replicate
    refine ⟨k, u, Option.filter_eq_some_iff.mpr ⟨run_cons hcall hrun, ?_⟩⟩
    simp [hasReturned, Op.sub, hidle]
  · obtain ⟨w₁, h₁, hrun, hover⟩ := wholeStep_eq hw
    obtain rfl := Option.some.inj (hcall.symm.trans h₁)
    refine hsolo.of_run (fun u hu => ?_) hrun (by simpa [hasReturned, Op.sub] using hover)
    have hidle : u.publisher.pc = .idle := by
      revert hu
      unfold pubBusy
      split
      · exact fun _ => ‹_›
      · exact fun hu => by cases hu
    simp only [step, Publisher.step, hidle, Option.map_none]

/-- Whatever it decides, the cache it leaves is not ahead of a live subscriber. -/
theorem Rest.decided {x : Ring n × Trackers × Publisher n} (h : Rest cfg w) (hk : cfg.kind = .bounded wm)
    (hl : messages w < seqLimit) (hd : Decided cfg v w.ring w.trackers w.publisher x)
    (hc : Reachable (carefulStep cfg) (World.new n) (published w x)) : Rest cfg (published w x) := by
  have hslow {m : Nat} (hs : Slowest w.trackers m) : m ≤ w.publisher.seq ∧
      ∀ i, Live (w.subs i) → m ≤ (w.subs i).cursor := by
    obtain ⟨⟨i, hi, he⟩, hle⟩ := hs
    refine ⟨he ▸ h.value_le hk hl hi, fun j hj => ?_⟩
    have hg := h.gated j hj
    exact (hle j hg.listed).trans_eq hg.value
  cases hd with
  | full hs hle =>
    obtain ⟨hm, hmin⟩ := hslow hs
    refine ⟨hc, rfl, h.subs, h.free, hm, h.listed, fun i hi => ?_⟩
    obtain ⟨h1, h2, h3, _, h5⟩ := h.gated i hi
    exact ⟨h1, h2, h3, hmin i hi, h5⟩
  | @ok r' cached hlog hcur hroom =>
    have hboth (i : Nat) (hi : Live (w.subs i)) : cached ≤ (w.subs i).cursor ∧
        w.publisher.seq + 1 ≤ (w.subs i).cursor + cfg.effective := by
      have hg := h.gated i hi
      rcases hroom with ⟨rfl, hlt | hnil⟩ | ⟨hs, hlt⟩
      · have := hg.cached_le
        exact ⟨this, by omega⟩
      · have := hg.listed
        rw [hnil] at this
        cases this
      · have := (hslow hs).2 i hi
        exact ⟨this, by omega⟩
    refine ⟨hc, rfl, h.subs, h.free, ?_, h.listed, fun i hi => ?_⟩
    · rcases hroom with ⟨rfl, _⟩ | ⟨hs, _⟩
      · exact h.cached_le.trans (Nat.le_succ _)
      · exact (hslow hs).1.trans (Nat.le_succ _)
    · obtain ⟨h1, h2, h3, _, _⟩ := h.gated i hi
      obtain ⟨h4, h5⟩ := hboth i hi
      exact ⟨h1, h2, h3, h4, h5⟩

theorem not_busy_of_atRest (h : atRest s.pc = true) : busy s = false := by
  revert h
  unfold busy
  cases s.pc <;> simp [atRest]

/-- A subscriber at rest makes no step. -/
theorem run_at_rest {k : Nat} (hrun : run (step cfg) w (List.replicate k (.sub i)) = some w')
    (hat : atRest (w.subs i).pc = true) : w' = w := by
  cases k with
  | zero => exact (Option.some.inj hrun).symm
  | succ k =>
    rw [List.replicate_succ, run, step_of_not_busy (not_busy_of_atRest hat)] at hrun
    cases hrun

theorem step_rest (hk : cfg.kind = .bounded wm) (hcap : cfg.capacity ≤ 2 ^ 63) (hl : messages w < seqLimit)
    (h : Rest cfg w) {x : Op n × Nat} (hs : wholeStep cfg w x = some w') : Rest cfg w' := by
  obtain ⟨op, k⟩ := x
  obtain ⟨w₁, h₁, hrun, hover⟩ := wholeStep_eq hs
  cases op with
  | tryPublish v =>
    obtain ⟨x, rfl, hd⟩ := (h.tryPublish hk hcap hl v).2 k w' hs
    refine h.decided hk hl hd (h.careful.trans ?_)
    refine (Reachable.start.next (careful_first h₁ (fun _ ha => by cases ha))).trans (careful_labels ?_ hrun)
    intro a hmem i he
    rw [List.eq_of_mem_replicate hmem] at he
    cases he
  | subscribe i => exact h.subscribe hk hl (Or.inl rfl) h₁ hrun hover
  | subscribeTracked i => exact h.subscribe hk hl (Or.inr rfl) h₁ hrun hover
  | subscribeLossy i => exact h.subscribeLossy hk hl hs
  | receive i c => exact h.receive hk hl hs
  | drop i => exact h.drop hk hl hs
  | cloneTracker i =>
    have hc := h.careful.next (careful_first h₁ (fun _ ha => by cases ha))
    simp only [Op.first, step] at h₁
    split_ifs at h₁
    cases h₁
    rw [run_at_rest (i := i) hrun (h.subs i)]
    refine h.strong hc (fun j _ hpos => ?_)
    by_cases hj : j = i
    · rw [hj, Function.update_self]
      exact Nat.succ_pos _
    · rwa [Function.update_of_ne hj]
  | dropClone i =>
    have hc := h.careful.next (careful_first h₁ (fun _ ha => by cases ha))
    simp only [Op.first, step] at h₁
    split_ifs at h₁ with hcond
    cases h₁
    rw [run_at_rest (i := i) hrun (h.subs i)]
    refine h.strong hc (fun j hlive hpos => ?_)
    by_cases hj : j = i
    · subst hj
      rw [Function.update_self]
      rw [hlive.1] at hcond
      have : 1 < w.trackers.strong j := by simpa using hcond
      omega
    · rwa [Function.update_of_ne hj]

theorem wholeStep_reach {x : Op n × Nat} (h : wholeStep cfg w x = some w') : Reachable (step cfg) w w' :=
  Reachable.start.of_run (Option.filter_eq_some_iff.mp h).1

theorem reach_rest (hk : cfg.kind = .bounded wm) (hcap : cfg.capacity ≤ 2 ^ 63)
    (h : Reachable (wholeStep cfg) (World.new n) w) (hl : messages w < seqLimit) : Rest cfg w := by
  have hmono (s : World n) (x : Op n × Nat) (t : World n) (hs : wholeStep cfg s x = some t) :
      messages s ≤ messages t := (wholeStep_reach hs).le_of_mono (fun _ _ _ => step_log_le)
  exact Reachable.invariant_below messages seqLimit hmono (rest_new cfg)
    (fun s x t hs hlt hP => step_rest hk hcap ((hmono s x t hs).trans_lt hlt) hP hs) h hl

/-! ## The decision -/

/-- The subscriber has the publisher's whole headroom before it. -/
def Gating (cfg : Config) (w : World n) (i : Nat) : Prop :=
  Live (w.subs i) ∧ cfg.effective ≤ w.publisher.seq - (w.subs i).cursor

theorem Rest.gating_of_slowest {m : Nat} (h : Rest cfg w) (hs : Slowest w.trackers m)
    (hle : m + cfg.effective ≤ w.publisher.seq) : ∃ i, Gating cfg w i := by
  obtain ⟨⟨i, hi, rfl⟩, _⟩ := hs
  have hlive := h.listed i hi
  have hval := (h.gated i hlive).value
  exact ⟨i, hlive, by omega⟩

theorem not_gating {m : Nat} (hm : ∀ i, Live (w.subs i) → m ≤ (w.subs i).cursor)
    (hlt : w.publisher.seq < m + cfg.effective) : ¬ ∃ i, Gating cfg w i := by
  rintro ⟨i, hlive, hle⟩
  have := hm i hlive
  have := cfg.effective_pos
  omega

theorem Rest.slowest_le {m : Nat} (h : Rest cfg w) (hs : Slowest w.trackers m) (hi : Live (w.subs i)) :
    m ≤ (w.subs i).cursor := by
  have hg := h.gated i hi
  exact (hs.2 i hg.listed).trans_eq hg.value

theorem Rest.not_live (h : Rest cfg w) (hnil : w.trackers.registered = []) : ¬ Live (w.subs i) := by
  intro hi
  have := (h.gated i hi).listed
  rw [hnil] at this
  cases this

/-- The decision, whichever way it was taken, is that of the live subscribers' positions. -/
theorem Rest.decided_iff {x : Ring n × Trackers × Publisher n} (h : Rest cfg w)
    (hd : Decided cfg v w.ring w.trackers w.publisher x) :
    x.2.2.last = some (.full v) ↔ ∃ i, Gating cfg w i := by
  cases hd with
  | full hs hle => exact iff_of_true rfl (h.gating_of_slowest hs hle)
  | ok hlog hcur hroom =>
    refine iff_of_false (fun hf => by cases hf) ?_
    rcases hroom with ⟨rfl, hlt | hnil⟩ | ⟨hs, hlt⟩
    · exact not_gating (fun i hi => (h.gated i hi).cached_le) hlt
    · exact fun ⟨i, hlive, _⟩ => h.not_live hnil hlive
    · exact not_gating (fun i hi => h.slowest_le hs hi) hlt

/-- So is that of a full scan. -/
theorem Rest.rescan_iff (h : Rest cfg w) :
    rescanHasRoom cfg w.trackers w.publisher.seq = false ↔ ∃ i, Gating cfg w i := by
  have hall : w.trackers.registered.filter (fun i => 0 < w.trackers.strong i) = w.trackers.registered :=
    List.filter_eq_self.mpr (fun i hi => decide_eq_true (h.gated i (h.listed i hi)).alive)
  unfold rescanHasRoom
  rw [hall]
  cases hm : (w.trackers.registered.map w.trackers.value).min? with
  | none =>
    have hnil : w.trackers.registered = [] := List.map_eq_nil_iff.mp (List.min?_eq_none_iff.mp hm)
    exact iff_of_false (fun hf => by cases hf) (fun ⟨i, hlive, _⟩ => h.not_live hnil hlive)
  | some m =>
    obtain ⟨hmem, hle⟩ := List.min?_eq_some_iff.mp hm
    obtain ⟨i, hi, he⟩ := List.mem_map.mp hmem
    have hs : Slowest w.trackers m := ⟨⟨i, hi, he⟩, fun j hj => hle _ (List.mem_map_of_mem hj)⟩
    simp only [decide_eq_false_iff_not, Nat.not_lt]
    refine ⟨h.gating_of_slowest hs, fun hg => ?_⟩
    by_contra hlt
    exact not_gating (fun i hi => h.slowest_le hs hi) (Nat.lt_of_not_le hlt) hg

/-- The next `try_recv` of a subscriber that holds the publisher back gives it a message. -/
theorem Rest.tryRecv (h : Rest cfg w) (hk : cfg.kind = .bounded wm) (hl : messages w < seqLimit)
    (hg : Gating cfg w i) :
    (∃ k w', wholeStep cfg w (.receive i .tryRecv, k) = some w') ∧
      ∀ k w', wholeStep cfg w (.receive i .tryRecv, k) = some w' → ∃ v,
        w.ring.log[(w.subs i).cursor]? = some v ∧ (w'.subs i).last = some (.recv (.ok (bytesOf v))) := by
  obtain ⟨hlive, hle⟩ := hg
  obtain ⟨hq, hlen⟩ := h.quiet hk hl
  have heff := cfg.effective_pos
  have heff' := cfg.effective_le
  have hseq := (h.gated i hlive).seq_le
  have hlt : (w.subs i).cursor < w.ring.log.length := by omega
  have hrecv : LogSpec.recvAt cfg.capacity w.ring.log (w.subs i).cursor
      = (.ok (bytesOf w.ring.log[(w.subs i).cursor]), (w.subs i).cursor + 1) := by
    simp only [LogSpec.recvAt, List.getElem?_eq_getElem hlt]
    rw [if_neg (by omega)]
  have hends := tryRecv_ends (i := i) (t := w.trackers) (s := w.subs i) hq hl hlt.le
  rw [hrecv] at hends
  have hsolo := moved_ends hends
  have hcall : step cfg w (.subCall i .tryRecv) = some (moved w i w.trackers ((w.subs i).poll .tryRecv)) := by
    simp only [step, Subscriber.call, hlive.1, Option.map_some]
    rfl
  refine ⟨?_, fun k w' hw => ⟨_, List.getElem?_eq_getElem hlt, ?_⟩⟩
  · obtain ⟨k, u, hrun, _, x, rfl, hidle, _⟩ := hsolo.replicate
    refine ⟨k, _, Option.filter_eq_some_iff.mpr ⟨run_cons hcall hrun, ?_⟩⟩
    change atRest ((moved w i x.1 x.2).subs i).pc = true
    rw [moved_self, hidle]
    rfl
  · obtain ⟨w₁, h₁, hrun, hover⟩ := wholeStep_eq hw
    obtain rfl := Option.some.inj (hcall.symm.trans h₁)
    obtain ⟨x, rfl, _, _, hlast⟩ := hsolo.of_run (fun _ => step_of_not_busy) hrun (not_busy_of_atRest hover)
    rw [moved_self]
    exact hlast

/-- On a bounded channel whose operations do not overlap, `try_publish` returns. It returns
`Full` if and only if some live tracked subscriber has `capacity - watermark` messages or
more before it, which is what a scan on every call would decide. On `Full` nothing has
changed but the cache, and the next `try_recv` of the slowest live tracked subscriber
returns a message. Otherwise the value is appended, and nobody's position has moved. -/
theorem try_publish_exact (hk : cfg.kind = .bounded wm) (hcap : cfg.capacity ≤ 2 ^ 63)
    (h : Reachable (wholeStep cfg) (World.new n) w) (hl : messages w < seqLimit) (v : Value n) :
    (∃ k w', wholeStep cfg w (.tryPublish v, k) = some w') ∧
      ∀ k w', wholeStep cfg w (.tryPublish v, k) = some w' →
        (w'.publisher.last = some (.full v) ↔
          ∃ i, Live (w.subs i) ∧ cfg.capacity - wm ≤ w.publisher.seq - (w.subs i).cursor) ∧
        (w'.publisher.last = some (.full v) ↔ rescanHasRoom cfg w.trackers w.publisher.seq = false) ∧
        (w'.publisher.last = some (.full v) →
          w'.publisher.seq = w.publisher.seq ∧ w'.ring = w.ring ∧ w'.trackers = w.trackers ∧ w'.subs = w.subs ∧
          ∀ i, Live (w.subs i) → (∀ j, Live (w.subs j) → (w.subs i).cursor ≤ (w.subs j).cursor) →
            (∃ k₂ w₂, wholeStep cfg w' (.receive i .tryRecv, k₂) = some w₂) ∧
            ∀ k₂ w₂, wholeStep cfg w' (.receive i .tryRecv, k₂) = some w₂ → ∃ u,
              w.ring.log[(w.subs i).cursor]? = some u ∧ (w₂.subs i).last = some (.recv (.ok (bytesOf u)))) ∧
        (w'.publisher.last ≠ some (.full v) →
          w'.publisher.last = some .ok ∧ w'.publisher.seq = w.publisher.seq + 1 ∧
          w'.ring.log = w.ring.log ++ [v] ∧ w'.ring.cursor = w.publisher.seq ∧
          w'.trackers = w.trackers ∧ w'.subs = w.subs) ∧
        ((∀ i, ¬ Live (w.subs i)) → w'.publisher.last = some .ok) := by
  have hrest := reach_rest hk hcap h hl
  have hroom : cfg.effective = cfg.capacity - wm := by
    unfold Config.effective
    rw [hk]
  obtain ⟨hret, hall⟩ := hrest.tryPublish hk hcap hl v
  refine ⟨hret, fun k w' hw => ?_⟩
  have hrest' := step_rest hk hcap hl hrest hw
  obtain ⟨x, rfl, hd⟩ := hall k w' hw
  have hiff := hrest.decided_iff hd
  have hgate : (∃ i, Gating cfg w i) ↔
      ∃ i, Live (w.subs i) ∧ cfg.capacity - wm ≤ w.publisher.seq - (w.subs i).cursor := by
    unfold Gating
    rw [hroom]
  refine ⟨hiff.trans hgate, hiff.trans hrest.rescan_iff.symm, fun hfull => ?_, fun hne => ?_, fun hnone => ?_⟩
  · obtain ⟨j, hj, hgap⟩ := hiff.mp hfull
    cases hd with
    | ok _ _ _ => cases hfull
    | full hs hle =>
      refine ⟨rfl, rfl, rfl, rfl, fun i hi hmin => ?_⟩
      have hij := hmin j hj
      exact hrest'.tryRecv hk hl ⟨hi, hgap.trans (Nat.sub_le_sub_left hij _)⟩
  · cases hd with
    | full _ _ => exact absurd rfl hne
    | ok hlog hcur _ => exact ⟨rfl, rfl, hlog, hcur, rfl, rfl⟩
  · cases hd with
    | full hs hle =>
      obtain ⟨i, hi, _⟩ := hrest.gating_of_slowest hs hle
      exact absurd hi (hnone i)
    | ok _ _ _ => rfl

/-- A subscriber is gone although its tracker is still held, and another one has a full ring
before it. -/
theorem try_publish_exact_full : ∃ w w' : World 1, Reachable (wholeStep Config.smallBounded) (World.new 1) w ∧
    (∃ k, wholeStep Config.smallBounded w (.tryPublish fun _ => 9, k) = some w') ∧
    w.trackers.strong 0 = 1 ∧ w'.publisher.last = some (.full fun _ => 9) ∧ w'.ring = w.ring ∧
    w'.subs = w.subs := by
  obtain ⟨w, hr, hp⟩ := Reachable.of_run_any (wholeStep Config.smallBounded) (World.new 1)
    (fun w => decide (messages w < seqLimit ∧ w.trackers.strong 0 = 1 ∧ resting (w.subs 1).pc = true ∧
      atRest (w.subs 1).pc = true ∧ (w.subs 1).tracker = true ∧ w.publisher.seq = 2 ∧ (w.subs 1).cursor = 0))
    [(.subscribeTracked 0, 3), (.subscribe 1, 3), (.tryPublish fun _ => 7, 5), (.receive 0 .tryRecv, 4),
      (.cloneTracker 0, 0), (.drop 0, 3), (.tryPublish fun _ => 8, 5)] (by decide +kernel)
  obtain ⟨hl, hstr, hrest, hat, htr, hseq, hcur⟩ := of_decide_eq_true hp
  have hlive : Live (w.subs 1) := by
    refine ⟨?_, htr⟩
    revert hrest hat
    cases (w.subs 1).pc <;> simp [resting, atRest]
  obtain ⟨⟨k, w', hw⟩, hall⟩ := try_publish_exact rfl (by decide) hr hl (fun _ => 9)
  obtain ⟨hiff, _, hfull, _⟩ := hall k w' hw
  have hlast := hiff.mpr ⟨1, hlive, by rw [hseq, hcur]; decide⟩
  obtain ⟨_, hring, _, hsubs, _⟩ := hfull hlast
  exact ⟨w, w', hr, ⟨k, hw⟩, hstr, hlast, hring, hsubs⟩

/-- A `try_publish` that finds room is a whole operation. -/
theorem reach_tryPublish (h : Reachable (wholeStep cfg) (World.new n) w) (ha : Alone cfg w) (v : Value n) :
    Reachable (wholeStep cfg) (World.new n) (afterPublish cfg w v) := by
  obtain ⟨k, hrun⟩ := publish_run ha.idle ha.unchecked (Or.inr (rfl : PubCall.tryPublish v = .tryPublish v))
  exact h.next (a := (.tryPublish v, k)) (Option.filter_eq_some_iff.mpr ⟨hrun, rfl⟩)

/-- The bound on the messages is needed. Before the message with sequence `u64::MAX`, a
subscriber registers at the head; the sum of its position and the capacity wraps, and the
publisher is told that the ring is full. -/
theorem full_at_last_sequence : ∃ w w' : World 1, Reachable (wholeStep Config.smallBounded) (World.new 1) w ∧
    (∃ k, wholeStep Config.smallBounded w (.tryPublish fun _ => 9, k) = some w') ∧
    w'.publisher.last = some (.full fun _ => 9) ∧
    ¬ ∃ i, Live (w.subs i) ∧ Config.smallBounded.capacity - 0 ≤ w.publisher.seq - (w.subs i).cursor := by
  have hnew : Alone Config.smallBounded (World.new 1) := ⟨rfl, nofun, fun _ => ⟨rfl, rfl⟩⟩
  obtain ⟨u, hu, ha, hlater⟩ := publish_many (fun _ => 9) (fun u ha hu => reach_tryPublish hu ha fun _ => 9)
    hnew (by decide) .start u64Max
  have hseq : u.publisher.seq = u64Max := hlater.seq.trans (by decide)
  have hstart : startOf u.ring.cursor = u64Max := by
    rw [hlater.cursor (u64Max - 1) (by decide)]
    decide
  have hjoin : run (step Config.smallBounded) u (.subscribe 0 .subscribe :: List.replicate 3 (.sub 0)) = _ :=
    subscribe_run rfl (congrArg Subscriber.pc (congrFun hlater.subs 0)) (congrArg Trackers.locked hlater.trackers)
  rw [hstart] at hjoin
  have hwhole : wholeStep Config.smallBounded u (.subscribe 0, 3) = some (joined u 0 .subscribe u64Max) :=
    Option.filter_eq_some_iff.mpr ⟨hjoin, by simp only [hasReturned, Op.sub, joined_self]; rfl⟩
  have hfull : run (step Config.smallBounded) (joined u 0 .subscribe u64Max)
      (.pubCall (.tryPublish fun _ => 9) :: List.replicate 5 .pub) = some { joined u 0 .subscribe u64Max with
        publisher := { u.publisher with cachedSlowest := u64Max, last := some (.full fun _ => 9) } } := by
    have hkind : Config.smallBounded.kind = .bounded 0 := rfl
    have hcheck : u64 Config.smallBounded.effective ≤ u64Max := by decide
    have hwrap : u64 (u64Max + Config.smallBounded.effective) ≤ u64Max := by decide
    simp [run, step, joined, setSub, hlater.trackers, hlater.cached, ha.idle, hseq, Publisher.call, Publisher.step,
      World.new, Trackers.new, Publisher.new, Publisher.full, hkind, hcheck, hwrap]
  refine ⟨_, _, hu.next hwhole, ⟨5, Option.filter_eq_some_iff.mpr ⟨hfull, ?_⟩⟩, rfl, ?_⟩
  · simp only [hasReturned, Op.sub, pubBusy, ha.idle, Bool.not_false]
  · rintro ⟨i, hlive, hle⟩
    have hcap : Config.smallBounded.capacity = 2 := rfl
    have hseq' : (joined u 0 .subscribe u64Max).publisher.seq = u64Max := hseq
    by_cases hi : i = 0
    · rw [hi, joined_self, hseq', hcap] at hle
      change 2 ≤ u64Max - u64Max at hle
      omega
    · have hgone : (joined u 0 .subscribe u64Max).subs i = Subscriber.absent 1 := by
        unfold joined
        rw [setSub_ne _ _ hi]
        exact congrFun hlater.subs i
      rw [hgone] at hlive
      cases hlive.1

end PhotonRing.Exact
