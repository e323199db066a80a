import PhotonRing.Channel.ReadSide

/-!
# `recv_batch` against `drain`

Both loops ask `try_recv` for one result after another. `Drain::next` asks again after every
lag. `recv_batch` asks once more for the same slot of its buffer and gives up when the answer
is a second lag. They deliver the same on a sequence of results exactly when no lag in it
follows another one.
-/
namespace PhotonRing.RecvBatch

open Lib Reader World

variable {n : Nat} {cfg : Config} {r : Ring n} {t t' : Trackers} {i len : Nat} {s s' : Subscriber n}
  {w w' w1 : World n} {a : Act n} {c : Caller n} {rs rest : List (Recv n)} {old buf b : List (Buf n)}

/-! ## The two loops on a sequence of results -/

/-- `recv_batch` on a buffer, when its calls of `try_recv` return exactly these results: the
buffer afterwards and the count. -/
def recvBatch : List (Buf n) → List (Recv n) → Option (List (Buf n) × Nat)
  | [], [] => some ([], 0)
  | _ :: buf, .ok value :: rs => (recvBatch buf rs).map fun (buf, count) => (value :: buf, count + 1)
  | slot :: buf, [.empty] => some (slot :: buf, 0)
  | _ :: buf, .lagged _ :: .ok value :: rs => (recvBatch buf rs).map fun (buf, count) => (value :: buf, count + 1)
  | slot :: buf, [.lagged _, .empty] => some (slot :: buf, 0)
  | slot :: buf, [.lagged _, .lagged _] => some (slot :: buf, 0)
  | _, _ => none

/-- What `drain().take(len)` yields on a sequence of results. -/
def drainTake : Nat → List (Recv n) → List (Buf n)
  | 0, _ => []
  | _, [] => []
  | len + 1, .ok value :: rs => value :: drainTake len rs
  | _, .empty :: _ => []
  | len + 1, .lagged _ :: rs => drainTake (len + 1) rs

/-- Two successive results are lags. -/
def lagTwice : List (Recv n) → Bool
  | .lagged _ :: .lagged _ :: _ => true
  | _ :: rs => lagTwice rs
  | [] => false

/-- `recv_batch` fills the front of its buffer with what it counts, and agrees with `drain`
on every sequence that goes on from its results unless a lag followed a lag. -/
structure Agrees (buf : List (Buf n)) (rs : List (Recv n)) (filled : List (Buf n)) : Prop where
  length_le : filled.length ≤ buf.length
  drained : (∀ more, drainTake buf.length (rs ++ more) = filled) ↔ lagTwice rs = false
  emptied : lagTwice rs = false → filled.length < buf.length → ∃ front, rs = front ++ [.empty]

theorem Agrees.ok {slot value : Buf n} {filled : List (Buf n)} (h : Agrees buf rs filled) :
    Agrees (slot :: buf) (.ok value :: rs) (value :: filled) where
  length_le := Nat.succ_le_succ h.length_le
  drained := by
    have hlag : lagTwice (.ok value :: rs) = lagTwice rs := by cases rs <;> rfl
    rw [hlag, ← h.drained]
    refine forall_congr' fun more => ?_
    change value :: drainTake buf.length (rs ++ more) = value :: filled ↔ _
    rw [List.cons.injEq]
    exact and_iff_right rfl
  emptied := by
    have hlag : lagTwice (.ok value :: rs) = lagTwice rs := by cases rs <;> rfl
    rw [hlag]
    intro hnone hlt
    obtain ⟨front, rfl⟩ := h.emptied hnone (Nat.lt_of_succ_lt_succ hlt)
    exact ⟨.ok value :: front, rfl⟩

/-- One lag changes nothing for either loop. -/
theorem Agrees.lag {slot value : Buf n} {k : Nat} {filled : List (Buf n)}
    (h : Agrees (slot :: buf) (.ok value :: rs) filled) :
    Agrees (slot :: buf) (.lagged k :: .ok value :: rs) filled where
  length_le := h.length_le
  drained := h.drained
  emptied := by
    intro hnone hlt
    obtain ⟨front, hfront⟩ := h.emptied hnone hlt
    exact ⟨.lagged k :: front, by rw [hfront]; rfl⟩

theorem Agrees.empty {slot : Buf n} (pre : List (Recv n)) (hpre : pre = [] ∨ ∃ k, pre = [.lagged k]) :
    Agrees (slot :: buf) (pre ++ [.empty]) [] where
  length_le := Nat.zero_le _
  drained := by
    rcases hpre with rfl | ⟨k, rfl⟩
    · exact ⟨fun _ => rfl, fun _ _ => rfl⟩
    · exact ⟨fun _ => rfl, fun _ _ => rfl⟩
  emptied := fun _ _ => ⟨pre, rfl⟩

/-- After a second lag `drain` would go on. -/
theorem Agrees.twice {slot : Buf n} {j k : Nat} : Agrees (slot :: buf) [.lagged j, .lagged k] [] where
  length_le := Nat.zero_le _
  drained := by
    refine ⟨fun h => ?_, fun h => by cases h⟩
    have hnext := h [.ok slot]
    cases hnext
  emptied := fun h => by cases h

/-- The outcome of `recv_batch` on any sequence of results. -/
theorem recvBatch_agrees {count : Nat} (h : recvBatch buf rs = some (b, count)) :
    ∃ filled, b = filled ++ buf.drop filled.length ∧ count = filled.length ∧ Agrees buf rs filled := by
  induction buf, rs using recvBatch.induct generalizing b count with
  | case1 =>
    cases h
    refine ⟨[], rfl, rfl, Nat.le_refl 0, ⟨fun _ => rfl, fun _ more => ?_⟩, fun _ hlt => absurd hlt (Nat.lt_irrefl 0)⟩
    simp only [List.length_nil, drainTake]
  | case2 slot buf value rs ih =>
    obtain ⟨⟨b', count'⟩, hrest, he⟩ := Option.map_eq_some_iff.mp h
    cases he
    obtain ⟨filled, rfl, rfl, hagrees⟩ := ih hrest
    exact ⟨value :: filled, rfl, rfl, hagrees.ok⟩
  | case3 slot buf =>
    cases h
    exact ⟨[], rfl, rfl, .empty [] (Or.inl rfl)⟩
  | case4 slot buf k value rs ih =>
    obtain ⟨⟨b', count'⟩, hrest, he⟩ := Option.map_eq_some_iff.mp h
    cases he
    obtain ⟨filled, rfl, rfl, hagrees⟩ := ih hrest
    exact ⟨value :: filled, rfl, rfl, hagrees.ok.lag⟩
  | case5 slot buf k =>
    cases h
    exact ⟨[], rfl, rfl, .empty [.lagged k] (Or.inr ⟨k, rfl⟩)⟩
  | case6 slot buf j k =>
    cases h
    exact ⟨[], rfl, rfl, .twice⟩
  | case7 buf rs h1 h2 h3 h4 h5 h6 =>
    rw [recvBatch] at h
    · cases h
    all_goals assumption

/-! ## The results of a call -/

/-- What `read_slot` returns to its caller in a step of the subscriber, if it returns. -/
def reported (cfg : Config) (r : Ring n) (s : Subscriber n) : Option (Recv n) :=
  match s.pc with
  | .read _ pc =>
    match (r.slots (cfg.slot s.cursor)).readStep s.cursor pc with
    | .inr .torn => some .empty
    | .inr (.other stamp) =>
      if stamp % 2 ≠ 0 then some .empty else if stamp < done s.cursor then some .empty else none
    | _ => none
  | .head _ =>
    if r.cursor = u64Max ∨ r.cursor < s.cursor then some .empty
    else if cfg.capacity ≤ r.cursor ∧ s.cursor < r.cursor - cfg.capacity + 1 then none
    else some .empty
  | .commit _ res => some res
  | _ => none

/-- The results that a step adds to those of subscriber `i`'s call. -/
def reportedBy (cfg : Config) (i : Nat) (w : World n) : Act n → List (Recv n)
  | .sub j => if j = i then (reported cfg w.ring (w.subs i)).toList else []
  | _ => []

/-- The channel while subscriber `i` is inside a call, with the results its `try_recv`s have
returned. -/
def resultsStep (cfg : Config) (i : Nat) (x : World n × List (Recv n)) (a : Act n) :
    Option (World n × List (Recv n)) :=
  if insideCall i a then (step cfg x.1 a).map fun w' => (w', x.2 ++ reportedBy cfg i x.1 a) else none

/-- Inside `read_slot`, on behalf of `c`. -/
def AtSlot (c : Caller n) (pc : SubPc n) : Prop :=
  (∃ p, pc = .read c p) ∨ pc = .head c ∨ ∃ res, pc = .commit c res

def okCount : Recv n → Nat
  | .ok _ => 1
  | _ => 0

/-- A step inside `read_slot`: it goes on, or returns its result to the caller and has
counted it. -/
theorem slot_step (hc : ThroughReadSlot c) (hpc : AtSlot c s.pc) (hstep : s.step cfg r t i = some (t', s')) :
    (reported cfg r s = none ∧ AtSlot c s'.pc ∧ s'.totalReceived = s.totalReceived) ∨
      ∃ (res : Recv n) (s0 : Subscriber n), reported cfg r s = some res ∧ s' = s0.resume res c ∧
        u64 s0.totalReceived = u64 (s.totalReceived + okCount res) := by
  obtain ⟨p, hpc⟩ | hpc | ⟨res, hpc⟩ := hpc
  · simp only [Subscriber.step, hpc] at hstep
    simp only [reported, hpc]
    cases hrs : (r.slots (cfg.slot s.cursor)).readStep s.cursor p with
    | inl p' =>
      rw [hrs] at hstep
      cases hstep
      exact Or.inl ⟨rfl, Or.inl ⟨p', rfl⟩, rfl⟩
    | inr res =>
      rw [hrs] at hstep
      cases hstep
      cases res with
      | value v => exact Or.inl ⟨rfl, Or.inr (Or.inr ⟨_, rfl⟩), rfl⟩
      | torn =>
        exact Or.inr ⟨.empty, s, rfl, onTryRead_torn hc, rfl⟩
      | other stamp =>
        rw [onTryRead_other hc]
        dsimp only
        split_ifs
        · exact Or.inr ⟨.empty, s, rfl, rfl, rfl⟩
        · exact Or.inr ⟨.empty, s, rfl, rfl, rfl⟩
        · exact Or.inl ⟨rfl, Or.inr (Or.inl rfl), rfl⟩
  · simp only [Subscriber.step, hpc, Subscriber.onHead] at hstep
    simp only [reported, hpc]
    split_ifs at hstep ⊢
    · cases hstep
      exact Or.inr ⟨.empty, s, rfl, rfl, rfl⟩
    · cases hstep
      exact Or.inl ⟨rfl, Or.inr (Or.inr ⟨_, rfl⟩), rfl⟩
    · cases hstep
      exact Or.inr ⟨.empty, s, rfl, rfl, rfl⟩
  · simp only [Subscriber.step, hpc] at hstep
    simp only [reported, hpc]
    cases hstep
    refine Or.inr ⟨res, ?_⟩
    cases res with
    | ok v => exact ⟨_, rfl, rfl, Nat.mod_mod _ _⟩
    | empty => exact ⟨_, rfl, rfl, rfl⟩
    | lagged k => exact ⟨_, rfl, rfl, rfl⟩

/-! ## Along a call -/

/-- The results the loop has taken for the slot it is at: a lag before the retry. -/
def Retried (again : Bool) (pre : List (Recv n)) : Prop :=
  again = false ∧ pre = [] ∨ again = true ∧ ∃ k, pre = [.lagged k]

theorem recvBatch_ok {again : Bool} {pre : List (Recv n)} {slot value : Buf n} (h : Retried again pre) :
    recvBatch (slot :: buf) (pre ++ .ok value :: rest) =
      (recvBatch buf rest).map fun (buf, count) => (value :: buf, count + 1) := by
  rcases h with ⟨_, rfl⟩ | ⟨_, k, rfl⟩
  · rfl
  · rfl

theorem recvBatch_empty {again : Bool} {pre : List (Recv n)} {slot : Buf n} (h : Retried again pre) :
    recvBatch (slot :: buf) (pre ++ [.empty]) = some (slot :: buf, 0) := by
  rcases h with ⟨_, rfl⟩ | ⟨_, k, rfl⟩
  · rfl
  · rfl

/-- How far the call has come on the results so far: `filled` is in the buffer, and what
follows decides the rest of it. -/
inductive Filling (old : List (Buf n)) (before : Nat) (rs : List (Recv n)) (s : Subscriber n) : Prop where
  | running {left : Nat} {filled pre : List _} {again : Bool} (hpc : AtSlot (.recvBatch left filled again) s.pc)
      (hpos : 0 < left) (hlen : filled.length + left = old.length) (hpre : Retried again pre)
      (hrest : ∀ rest, recvBatch old (rs ++ rest) = (recvBatch (old.drop filled.length) (pre ++ rest)).map
        fun (b, count) => (filled ++ b, filled.length + count))
      (hcount : u64 s.totalReceived = u64 (before + filled.length))
  | returned {filled : List _} (hpc : s.pc = .idle) (hlast : s.last = some (.batch filled))
      (hres : recvBatch old rs = some (filled ++ old.drop filled.length, filled.length))
      (hcount : u64 s.totalReceived = u64 (before + filled.length))

theorem Filling.created {before : Nat} (h : Filling old before rs s) : s.pc ≠ .absent := by
  intro hp
  cases h with
  | running hpc _ _ _ _ _ => obtain ⟨p, hpc⟩ | hpc | ⟨res, hpc⟩ := hpc <;> rw [hpc] at hp <;> cases hp
  | returned hpc _ _ _ =>
    rw [hpc] at hp
    cases hp

/-- `read_slot` returns to the loop. -/
theorem filling_resume {before left : Nat} {filled pre : List _} {again : Bool} {res : Recv n} {s0 : Subscriber n}
    (hpos : 0 < left) (hlen : filled.length + left = old.length) (hpre : Retried again pre)
    (hrest : ∀ rest, recvBatch old (rs ++ rest) = (recvBatch (old.drop filled.length) (pre ++ rest)).map
      fun (b, count) => (filled ++ b, filled.length + count))
    (hcount : u64 s0.totalReceived = u64 (before + filled.length + okCount res)) :
    Filling old before (rs ++ [res]) (s0.resume res (.recvBatch left filled again)) := by
  have hlt : filled.length < old.length := by omega
  have hslot : old.drop filled.length = old[filled.length] :: old.drop (filled.length + 1) :=
    List.drop_eq_getElem_cons hlt
  have hnext : ∀ rest, recvBatch old (rs ++ [res] ++ rest) =
      (recvBatch (old[filled.length] :: old.drop (filled.length + 1)) (pre ++ res :: rest)).map
        fun (b, count) => (filled ++ b, filled.length + count) := by
    intro rest
    rw [List.append_assoc, ← hslot]
    exact hrest (res :: rest)
  have hnow := hnext []
  rw [List.append_nil] at hnow
  cases res with
  | empty =>
    refine .returned rfl rfl ?_ hcount
    rw [hnow, recvBatch_empty hpre, hslot]
    rfl
  | lagged k =>
    rcases hpre with ⟨rfl, rfl⟩ | ⟨rfl, j, rfl⟩
    · exact .running (Or.inl ⟨.stamp, rfl⟩) hpos hlen (Or.inr ⟨rfl, k, rfl⟩)
        (fun rest => by rw [hnext rest, hslot]; rfl) hcount
    · refine .returned rfl rfl ?_ hcount
      rw [hnow, hslot]
      rfl
  | ok value =>
    have hgrown : (filled ++ [value]).length = filled.length + 1 := List.length_append
    have hcount' : u64 s0.totalReceived = u64 (before + (filled ++ [value]).length) := by
      rw [hcount, hgrown, Nat.add_assoc]
      rfl
    have hmore : ∀ rest, recvBatch old (rs ++ [.ok value] ++ rest) =
        (recvBatch (old.drop (filled ++ [value]).length) ([] ++ rest)).map
          fun (b, count) => (filled ++ [value] ++ b, (filled ++ [value]).length + count) := by
      intro rest
      rw [hnext rest, recvBatch_ok hpre, Option.map_map, hgrown]
      refine congrArg (Option.map · _) (funext fun x => ?_)
      change (filled ++ value :: x.1, filled.length + (x.2 + 1)) = (filled ++ [value] ++ x.1, filled.length + 1 + x.2)
      rw [List.append_assoc, List.singleton_append, Nat.add_comm x.2 1, Nat.add_assoc]
    simp only [Subscriber.resume]
    by_cases hlast : left ≤ 1
    · rw [if_pos hlast]
      refine .returned rfl rfl ?_ hcount'
      have hfull := hmore []
      have hnil : old.drop (filled ++ [value]).length = [] := List.drop_eq_nil_of_le (by omega)
      rw [List.append_nil, hnil] at hfull
      rw [hfull, hnil]
      rfl
    · rw [if_neg hlast]
      exact .running (Or.inl ⟨.stamp, rfl⟩) (by omega) (by omega) (Or.inl ⟨rfl, rfl⟩) hmore hcount'

theorem reportedBy_other (h : a ≠ .sub i) : reportedBy cfg i w a = [] := by
  cases a with
  | sub j =>
    have hj : ¬ j = i := fun he => h (he ▸ rfl)
    exact if_neg hj
  | _ => rfl

theorem Filling.step {before : Nat} {x x' : World n × List (Recv n)} (h : Filling old before x.2 (x.1.subs i))
    (hstep : resultsStep cfg i x a = some x') : Filling old before x'.2 (x'.1.subs i) := by
  unfold resultsStep at hstep
  obtain ⟨hin, hstep⟩ := Option.ite_none_right_eq_some.mp hstep
  obtain ⟨w', hst, rfl⟩ := Option.map_eq_some_iff.mp hstep
  dsimp only
  obtain ⟨rfl, hsub⟩ | ⟨ha, shutdown, owed, he⟩ := step_inside hst hin h.created
  · rw [reportedBy, if_pos rfl]
    cases h with
    | running hpc hpos hlen hpre hrest hcount =>
      obtain ⟨hnone, hpc', hsame⟩ | ⟨res, s0, hsome, hres, hgrow⟩ := slot_step (c := .recvBatch _ _ _) trivial hpc hsub
      · rw [hnone, Option.toList_none, List.append_nil]
        exact .running hpc' hpos hlen hpre hrest (hsame ▸ hcount)
      · rw [hsome, Option.toList_some, hres]
        refine filling_resume hpos hlen hpre hrest (hgrow.trans ?_)
        exact Nat.ModEq.add_right (okCount res) hcount
    | returned hpc _ _ _ =>
      simp only [Subscriber.step, hpc] at hsub
      cases hsub
  · rw [reportedBy_other ha, List.append_nil, he]
    cases h with
    | running hpc hpos hlen hpre hrest hcount => exact .running hpc hpos hlen hpre hrest hcount
    | returned hpc hlast hres hcount => exact .returned hpc hlast hres hcount

/-- The call begins at the front of the buffer. -/
theorem filling_call {w0 : World n} (hcall : step cfg w0 (.subCall i (.recvBatch len)) = some w1)
    (hlen : old.length = len) :
    Filling old (w0.subs i).totalReceived [] (w1.subs i) := by
  obtain ⟨s1, hs1, rfl⟩ := Option.map_eq_some_iff.mp hcall
  rw [setSub_self]
  unfold Subscriber.call at hs1
  split at hs1
  · cases len with
    | zero =>
      cases hs1
      obtain rfl := List.length_eq_zero_iff.mp hlen
      exact .returned rfl rfl rfl rfl
    | succ len =>
      cases hs1
      have hfront : Retried (n := n) false [] := Or.inl ⟨rfl, rfl⟩
      refine .running (Or.inl ⟨.stamp, rfl⟩) (Nat.succ_pos len) ?_ hfront (fun rest => ?_) rfl
      · rw [List.length_nil, Nat.zero_add, hlen]
      · rw [List.length_nil, List.drop_zero, List.nil_append]
        cases recvBatch old rest with
        | none => rfl
        | some x => exact congrArg some (Prod.ext rfl (Nat.zero_add x.2).symm)
  · cases hs1

/-- On every kind of channel and in every interleaving, on the results that the call's
`try_recv`s returned: `recv_batch` fills the front of the buffer, leaves the rest, returns
the count and adds it to `total_received`. It delivers what `drain().take(len)` yields on
every sequence that begins with these results, and stops early only after an `Empty`,
exactly when no lag followed a lag. -/
theorem recv_batch_eq_drain_iff {w0 : World n} (hcall : step cfg w0 (.subCall i (.recvBatch len)) = some w1)
    (hrun : Reachable (resultsStep cfg i) (w1, []) (w, rs)) (hidle : (w.subs i).pc = .idle)
    (hlen : old.length = len) :
    ∃ filled, (w.subs i).last = some (.batch filled) ∧
      recvBatch old rs = some (filled ++ old.drop filled.length, filled.length) ∧
      u64 (w.subs i).totalReceived = u64 ((w0.subs i).totalReceived + filled.length) ∧
      (((∀ more, drainTake len (rs ++ more) = filled) ∧ (filled.length < len → ∃ front, rs = front ++ [.empty])) ↔
        lagTwice rs = false) := by
  have hfilling : Filling old (w0.subs i).totalReceived rs (w.subs i) :=
    hrun.invariant (P := fun x => Filling old (w0.subs i).totalReceived x.2 (x.1.subs i)) (filling_call hcall hlen)
      fun _ _ _ _ hstep h => h.step hstep
  cases hfilling with
  | running hpc _ _ _ _ _ => obtain ⟨p, hpc⟩ | hpc | ⟨res, hpc⟩ := hpc <;> rw [hpc] at hidle <;> cases hidle
  | @returned filled _ hlast hres hcount =>
    refine ⟨filled, hlast, hres, hcount, ?_⟩
    obtain ⟨filled', hbuf, hlength, hagrees⟩ := recvBatch_agrees hres
    obtain rfl := List.append_inj_left hbuf hlength
    rw [← hlen]
    exact ⟨fun h => hagrees.drained.mp h.1, fun h => ⟨hagrees.drained.mpr h, hagrees.emptied h⟩⟩

/-- The number of messages a finished `recv_batch` returned. -/
def batchCount (s : Subscriber n) : Option Nat :=
  match s.pc, s.last with
  | .idle, some (.batch filled) => some filled.length
  | _, _ => none

theorem batchCount_idle {s : Subscriber n} {k : Nat} (h : batchCount s = some k) :
    s.pc = .idle ∧ ∃ filled, s.last = some (.batch filled) ∧ filled.length = k := by
  unfold batchCount at h
  split at h
  · rename_i hpc hlast
    exact ⟨hpc, _, hlast, Option.some.inj h⟩
  · cases h

/-- The kind of a result, with the lag. -/
def kindOf : Recv n → Option Nat
  | .ok _ => none
  | .empty => some 0
  | .lagged k => some k

def outline (rs : List (Recv n)) : List (Option Nat) := rs.map kindOf

theorem lagged_of_kind {x : Recv n} {k : Nat} (h : kindOf x = some (k + 1)) : x = .lagged (k + 1) := by
  cases x with
  | lagged j => rw [Option.some.inj h]
  | empty => cases Option.some.inj h
  | ok v => cases h

/-- A run to a call and through it that passes an executable test. -/
theorem of_run_results (cfg : Config) (i : Nat) (p : World n → World n → List (Recv n) → Bool)
    (as : List (Act n)) (a : Act n) (bs : List (Act n))
    (h : ((run (step cfg) (World.new n) as).any fun w0 => (step cfg w0 a).any fun w1 =>
      (run (resultsStep cfg i) (w1, []) bs).any fun x => p w0 x.1 x.2) = true) :
    ∃ w0 w1 w rs, Reach cfg w0 ∧ step cfg w0 a = some w1 ∧ Reachable (resultsStep cfg i) (w1, []) (w, rs) ∧
      p w0 w rs = true := by
  obtain ⟨w0, h0, h⟩ := (Option.any_eq_true _ _).mp h
  obtain ⟨w1, h1, h⟩ := (Option.any_eq_true _ _).mp h
  obtain ⟨⟨w, rs⟩, hrun, hp⟩ := (Option.any_eq_true _ _).mp h
  exact ⟨w0, w1, w, rs, Reachable.start.of_run h0, h1, Reachable.start.of_run hrun, hp⟩

/-- A batch into three slots that begins with a lag. -/
theorem recv_batch_eq_drain_lagged :
    ∃ (w0 w1 w : World 1) (rs : List (Recv 1)) (filled : List (Buf 1)), Reach Config.smallLossy w0 ∧
      step Config.smallLossy w0 (.subCall 0 (.recvBatch 3)) = some w1 ∧
      Reachable (resultsStep Config.smallLossy 0) (w1, []) (w, rs) ∧
      outline rs = [some 1, none, none, some 0] ∧ (w.subs 0).last = some (.batch filled) ∧ filled.length = 2 ∧
      ∀ more, drainTake 3 (rs ++ more) = filled := by
  obtain ⟨w0, w1, w, rs, h0, h1, h, hp⟩ := of_run_results Config.smallLossy 0
    (fun (_ w : World 1) rs => decide (batchCount (w.subs 0) = some 2 ∧ outline rs = [some 1, none, none, some 0] ∧
      lagTwice rs = false))
    (List.flatten [[.subscribe 0 .subscribe, .sub 0], .pubCall (.publish fun _ => 5) :: List.replicate 5 .pub,
      .pubCall (.publish fun _ => 6) :: List.replicate 5 .pub,
      .pubCall (.publish fun _ => 7) :: List.replicate 5 .pub]) (.subCall 0 (.recvBatch 3))
    (List.replicate 12 (.sub 0)) (by decide +kernel)
  obtain ⟨hcount, houtline, hlag⟩ := of_decide_eq_true hp
  obtain ⟨hidle, filled, hlast, hlength⟩ := batchCount_idle hcount
  have hlen : (List.replicate 3 (uninit 1)).length = 3 := rfl
  obtain ⟨filled', hlast', _, _, hiff⟩ := recv_batch_eq_drain_iff h1 h hidle hlen
  obtain rfl : filled = filled' := by
    rw [hlast] at hlast'
    exact Ret.batch.inj (Option.some.inj hlast')
  exact ⟨w0, w1, w, rs, filled, h0, h1, h, houtline, hlast, hlength, (hiff.mpr hlag).1⟩

/-- The publisher overwrites the oldest message between the jump of the cursor and the
retry: `recv_batch` returns nothing although no `try_recv` reported `Empty` and `drain`,
asked with the same results, would go on to the next message. -/
theorem recv_batch_gives_up :
    ∃ (w0 w1 w : World 1) (rs : List (Recv 1)), Reach Config.smallLossy w0 ∧
      step Config.smallLossy w0 (.subCall 0 (.recvBatch 1)) = some w1 ∧
      Reachable (resultsStep Config.smallLossy 0) (w1, []) (w, rs) ∧ (w.subs 0).pc = .idle ∧
      (w.subs 0).last = some (.batch []) ∧ outline rs = [some 1, some 1] ∧ messages w = 4 ∧ (w.subs 0).cursor = 2 ∧
      ∀ value, drainTake 1 (rs ++ [.ok value]) = [value] := by
  obtain ⟨w0, w1, w, rs, h0, h1, h, hp⟩ := of_run_results Config.smallLossy 0
    (fun (_ w : World 1) rs => decide (batchCount (w.subs 0) = some 0 ∧ outline rs = [some 1, some 1] ∧ messages w = 4 ∧
      (w.subs 0).cursor = 2))
    (List.flatten [[.subscribe 0 .subscribe, .sub 0], .pubCall (.publish fun _ => 5) :: List.replicate 5 .pub,
      .pubCall (.publish fun _ => 6) :: List.replicate 5 .pub,
      .pubCall (.publish fun _ => 7) :: List.replicate 5 .pub]) (.subCall 0 (.recvBatch 1))
    (List.flatten [List.replicate 3 (.sub 0), .pubCall (.publish fun _ => 8) :: List.replicate 5 .pub,
      List.replicate 3 (.sub 0)]) (by decide +kernel)
  obtain ⟨hcount, houtline, hm, hcur⟩ := of_decide_eq_true hp
  obtain ⟨hidle, filled, hlast, hlength⟩ := batchCount_idle hcount
  obtain rfl := List.length_eq_zero_iff.mp hlength
  refine ⟨w0, w1, w, rs, h0, h1, h, hidle, hlast, houtline, hm, hcur, fun value => ?_⟩
  obtain ⟨x, rs', rfl, hx, hrest⟩ := List.map_eq_cons_iff.mp houtline
  obtain ⟨y, rs'', rfl, hy, hnil⟩ := List.map_eq_cons_iff.mp hrest
  rw [List.map_eq_nil_iff.mp hnil, lagged_of_kind hx, lagged_of_kind hy]
  rfl

end PhotonRing.RecvBatch
