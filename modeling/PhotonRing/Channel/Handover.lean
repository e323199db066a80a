import PhotonRing.Channel.ReadSide
import PhotonRing.Channel.Delivery

/-!
# What a receive returns is what the history says

Counting an outcome, adding it to the history and handing it to the caller are one step
of the model. Whatever a subscriber has returned since, or given to its handler, is
therefore read off the end of its history.
-/
namespace PhotonRing.Handover

open Lib World

variable {n : Nat} {cfg : Config} {r : Ring n} {t t' : Trackers} {i : Nat} {s s' : Subscriber n}
  {w w' : World n} {a : Act n} {es : List (Event n)} {c : Caller n} {b : Batch}

/-- The events that an outcome adds to the history. -/
def outcome (cursor : Nat) : Recv n → List (Event n)
  | .ok buf => [.received (cursor - 1) buf]
  | .empty => []
  | .lagged skipped => [.skipped (cursor - skipped) cursor]

/-- The history ends with what was returned. -/
def Recorded (es : List (Event n)) (cursor : Nat) : Ret n → Prop
  | .recv res => outcome cursor res <:+ es
  | .latest (some buf) => outcome cursor (.ok buf) <:+ es
  | .latest none => True
  | .batch filled => filled <:+ receivedBufs es
  | .pending _ => True

/-- What a batch has been filled with so far. -/
def Collected (es : List (Event n)) : Caller n → Prop
  | .recvBatch _ filled _ => filled <:+ receivedBufs es
  | _ => True

/-- The same for the caller at a program point. -/
def Carried (es : List (Event n)) : SubPc n → Prop
  | .gate c _ _ => Collected es c
  | .read c _ => Collected es c
  | .head c => Collected es c
  | .commit c _ => Collected es c
  | _ => True

/-- Every buffer that the handler was called with has been received. -/
def Handled (es : List (Event n)) (handled : List (Buf n × Nat × Bool)) : Prop :=
  (handled.map Prod.fst).Sublist (receivedBufs es)

structure Ok (s : Subscriber n) : Prop where
  blank : Reader.Created (Reader.stage s.pc) ∨ s.last = none
  recorded : s.pc = .idle → ∀ ret, s.last = some ret → Recorded s.events s.cursor ret
  carried : Carried s.events s.pc
  handled : Handled s.events s.handled

theorem ok_absent (n : Nat) : Ok (Subscriber.absent n) where
  blank := Or.inr rfl
  recorded := fun h => by cases h
  carried := trivial
  handled := .slnil

/-! ## Passing an outcome on -/

theorem finish_ok {ret : Ret n} (hret : Recorded s.events s.cursor ret) (hh : Handled s.events s.handled) :
    Ok (s.finish ret) where
  blank := Or.inl trivial
  recorded := fun _ ret' h => by
    cases h
    exact hret
  carried := trivial
  handled := hh

/-- The operation goes on at another program point. -/
theorem goto_ok {pc : SubPc n} (hcreated : Reader.Created (Reader.stage pc)) (hidle : pc ≠ .idle)
    (hc : Carried s.events pc) (hh : Handled s.events s.handled) : Ok { s with pc := pc } where
  blank := Or.inl hcreated
  recorded := fun h => absurd h hidle
  carried := hc
  handled := hh

theorem poll_ok (hc : Collected s.events c) (hh : Handled s.events s.handled) : Ok (s.poll c) :=
  goto_ok trivial (fun h => by cases h) hc hh

theorem gate_ok {us : List Nat} (hc : Collected s.events c) (hh : Handled s.events s.handled) : Ok (s.gate c us) :=
  goto_ok trivial (fun h => by cases h) hc hh

theorem endBatch_ok (hh : Handled s.events s.handled) : Ok (s.endBatch b) := by
  unfold Subscriber.endBatch
  split
  · exact goto_ok trivial (fun h => by cases h) trivial hh
  · exact goto_ok trivial (fun h => by cases h) trivial hh

theorem nextInBatch_ok (hh : Handled s.events s.handled) : Ok (s.nextInBatch b) := by
  unfold Subscriber.nextInBatch
  split_ifs
  · exact poll_ok trivial hh
  · exact endBatch_ok hh

theorem Handled.append (h : Handled es s.handled) (es' : List (Event n)) : Handled (es ++ es') s.handled := by
  unfold Handled at *
  rw [receivedBufs_append]
  exact h.trans (List.sublist_append_left _ _)

theorem handle_ok {cursor : Nat} {buf : Buf n} (he : s.events = es ++ outcome cursor (.ok buf))
    (hh : Handled es s.handled) : Ok (s.handle b buf) := by
  have hgrown (x : Nat × Bool) : Handled s.events (s.handled ++ [(buf, x)]) := by
    unfold Handled
    rw [he, receivedBufs_append, List.map_append]
    exact List.Sublist.append hh (List.Sublist.refl _)
  refine Subscriber.handle_cases (P := Ok) (fun _ => ?_) (fun _ => nextInBatch_ok (hgrown _))
  exact ⟨Or.inl trivial, fun h => (by cases h), trivial, hgrown _⟩

/-- `read_slot` hands on the outcome that has just been added to the history. -/
theorem resume_ok {res : Recv n} (he : s.events = es ++ outcome s.cursor res) (hc : Collected es c)
    (hh : Handled es s.handled) : Ok (s.resume res c) := by
  have hh' : Handled s.events s.handled := he ▸ hh.append _
  have hret : Recorded s.events s.cursor (.recv res) := ⟨es, he.symm⟩
  cases c with
  | latest =>
    cases res with
    | ok buf => exact finish_ok hret hh'
    | empty => exact finish_ok trivial hh'
    | lagged skipped => exact goto_ok trivial (fun h => by cases h) trivial hh'
  | recvBatch left filled again =>
    have hbufs : receivedBufs s.events = receivedBufs es ++ receivedBufs (outcome s.cursor res) := by
      rw [he, receivedBufs_append]
    have hfilled : filled ++ receivedBufs (outcome s.cursor res) <:+ receivedBufs s.events := by
      obtain ⟨bufs, hbufs'⟩ := hc
      exact ⟨bufs, by rw [hbufs, ← hbufs', List.append_assoc]⟩
    cases res with
    | ok buf =>
      simp only [Subscriber.resume]
      split_ifs
      · exact finish_ok hfilled hh'
      · exact poll_ok hfilled hh'
    | empty =>
      rw [show receivedBufs (outcome s.cursor .empty) = [] from rfl, List.append_nil] at hfilled
      exact finish_ok hfilled hh'
    | lagged skipped =>
      rw [show receivedBufs (outcome s.cursor (.lagged skipped)) = [] from rfl, List.append_nil] at hfilled
      simp only [Subscriber.resume]
      split_ifs
      · exact finish_ok hfilled hh'
      · exact poll_ok hfilled hh'
  | drain =>
    cases res with
    | lagged skipped => exact poll_ok trivial hh'
    | _ => exact finish_ok hret hh'
  | recvSlow | recvWithSlow _ =>
    cases res with
    | ok buf => exact finish_ok hret hh'
    | _ => exact poll_ok trivial hh'
  | recvGated us =>
    cases res with
    | ok buf => exact finish_ok hret hh'
    | _ => exact gate_ok trivial hh'
  | drainBatch b =>
    cases res with
    | ok buf => exact handle_ok he hh
    | empty => exact endBatch_ok hh'
    | lagged skipped => exact nextInBatch_ok hh'
  | _ => exact finish_ok hret hh'

theorem resume_empty_ok (hc : Collected s.events c) (hh : Handled s.events s.handled) : Ok (s.resume .empty c) :=
  resume_ok (List.append_nil _).symm hc hh

theorem onCommit_ok (hc : Collected s.events c) (hh : Handled s.events s.handled) (res : Recv n) :
    Ok (s.onCommit c res) := by
  cases res with
  | ok buf =>
    have he : s.events ++ [Event.received (s.cursor - 1) buf] = s.events ++ outcome s.cursor (.ok buf) := rfl
    exact resume_ok he hc hh
  | lagged skipped =>
    have he : s.events ++ [Event.skipped (s.cursor - skipped) s.cursor] =
        s.events ++ outcome s.cursor (.lagged skipped) := rfl
    exact resume_ok he hc hh
  | empty => exact resume_empty_ok hc hh

theorem onTryRead_ok {pc : ReadPc n} (h : Ok s) (hpc : s.pc = .read c pc) (res : TryRead n) :
    Ok (s.onTryRead c res) := by
  have hc : Collected s.events c := by
    have := h.carried
    rwa [hpc] at this
  have hvalue (buf : Buf n) : Ok { s with cursor := u64 (s.cursor + 1), pc := .commit c (.ok buf) } :=
    ⟨Or.inl trivial, fun h => (by cases h), hc, h.handled⟩
  by_cases hslot : Reader.ThroughReadSlot c
  · exact Reader.onTryRead_cases hslot (fun buf _ => hvalue buf) (resume_empty_ok hc h.handled)
      (goto_ok trivial (fun h => by cases h) hc h.handled)
  · cases c with
    | recv bare =>
      cases res with
      | value buf => exact hvalue buf
      | torn => exact poll_ok trivial h.handled
      | other stamp =>
        simp only [Subscriber.onTryRead]
        split_ifs <;> exact poll_ok trivial h.handled
    | recvWith iter =>
      cases res with
      | value buf => exact hvalue buf
      | torn => exact poll_ok trivial h.handled
      | other stamp =>
        simp only [Subscriber.onTryRead]
        split_ifs <;> exact poll_ok trivial h.handled
    | _ => exact absurd trivial hslot

/-! ## Every step -/

theorem step_ok (h : Ok s) (hs : s.step cfg r t i = some (t', s')) : Ok s' := by
  have hcarried := h.carried
  have hh := h.handled
  have hjoining {pc : SubPc n} (hfresh : ¬ Reader.Created (Reader.stage s.pc)) (hidle : pc ≠ .idle)
      (hc : Carried s.events pc) : Ok { s with pc := pc } :=
    ⟨Or.inr (h.blank.resolve_left hfresh), fun hpc => absurd hpc hidle, hc, hh⟩
  have hcreated {start : Nat} {tracker : Bool} (hfresh : ¬ Reader.Created (Reader.stage s.pc)) :
      Ok (s.created start tracker) := by
    have hnone : s.last = none := h.blank.resolve_left hfresh
    exact ⟨Or.inl trivial, fun _ ret hret => (by cases hnone.symm.trans hret), trivial, hh⟩
  cases Subscriber.step_moves hs with
  | takeLock hp _ => exact hjoining (by rw [hp]; exact id) (fun h => by cases h) trivial
  | join hp _ _ => exact hjoining (by rw [hp]; exact id) (fun h => by cases h) trivial
  | history hp _ => exact hjoining (by rw [hp]; exact id) (fun h => by cases h) trivial
  | lockPush hp _ => exact hjoining (by rw [hp]; exact id) (fun h => by cases h) trivial
  | bare hp _ => exact hcreated (by rw [hp]; exact id)
  | tracked hp _ => exact hcreated (by rw [hp]; exact id)
  | bareHistory hp _ => exact hcreated (by rw [hp]; exact id)
  | push hp => exact hcreated (by rw [hp]; exact id)
  | gateNext hp =>
    rw [hp] at hcarried
    exact goto_ok trivial (fun h => by cases h) hcarried hh
  | gateClosed hp _ =>
    rw [hp] at hcarried
    exact resume_empty_ok hcarried hh
  | gateOpen hp _ =>
    rw [hp] at hcarried
    exact poll_ok hcarried hh
  | @reading _ _ pc' hp _ =>
    rw [hp] at hcarried
    exact goto_ok (by cases pc' <;> trivial) (fun h => by cases h) hcarried hh
  | read hp _ => exact onTryRead_ok h hp _
  | head hp =>
    rw [hp] at hcarried
    exact Subscriber.onHead_cases (resume_empty_ok hcarried hh)
      (fun _ _ _ => ⟨Or.inl trivial, fun h => (by cases h), hcarried, hh⟩)
  | commit hp =>
    rw [hp] at hcarried
    exact onCommit_ok hcarried hh _
  | latestNone _ _ => exact finish_ok trivial hh
  | latestHead _ _ => exact ⟨Or.inl trivial, fun h => (by cases h), trivial, hh⟩
  | pending _ => exact finish_ok trivial hh
  | loadPending _ =>
    exact Subscriber.onPending_cases (fun _ => endBatch_ok hh) (fun _ => poll_ok trivial hh)
  | _ => exact goto_ok trivial (fun h => by cases h) trivial hh

theorem call_ok {op : SubCall} (h : Ok s) (hs : s.call op = some s') : Ok s' := by
  have hh := h.handled
  obtain ⟨_, hbegins⟩ := Subscriber.call_begins hs
  cases hbegins with
  | latest => exact ⟨Or.inl trivial, fun h => (by cases h), trivial, hh⟩
  | pending => exact goto_ok trivial (fun h => by cases h) trivial hh
  | recvNothing => exact finish_ok (List.nil_suffix) hh
  | recvBatch len => exact poll_ok (List.nil_suffix) hh
  | tryRecvGated u us => exact gate_ok trivial hh
  | recvGated u us => exact gate_ok trivial hh
  | consume policy panicAt => exact ⟨Or.inl trivial, fun h => (by cases h), trivial, hh⟩
  | _ => exact poll_ok trivial hh

/-- In every run, what a subscriber's last operation returned is how its history ends: a
received buffer with its sequence, a reported loss with its bounds, the buffers of a
batch. What its handler was called with it has received, in that order. -/
theorem reach_ok (h : Reach cfg w) (i : Nat) : Ok (w.subs i) := by
  refine h.invariant (P := fun w => Ok (w.subs i)) (ok_absent n) (fun w a w' _ hs ih => ?_)
  cases step_subs hs i with
  | other hsub => exact hsub ▸ ih
  | subscribe hsub _ =>
    obtain ⟨hp, pc, hpc, he⟩ := subscribe_pc hsub
    have hnone : (w.subs i).last = none := ih.blank.resolve_left (by rw [hp]; exact id)
    rw [he]
    rcases hpc with rfl | rfl <;> exact ⟨Or.inr hnone, fun h => (by cases h), trivial, ih.handled⟩
  | call hsub _ => exact call_ok ih hsub
  | step hsub => exact step_ok ih hsub
  | drop hsub _ =>
    rcases (drop_pc hsub).2 with he | he <;> rw [he] <;> exact goto_ok trivial (fun h => by cases h) trivial ih.handled
  | shutdown hsub _ =>
    rw [hsub]
    exact ⟨ih.blank, ih.recorded, ih.carried, ih.handled⟩

end PhotonRing.Handover
