import Mathlib.Order.Filter.AtTopBot.Basic
import PhotonRing.Channel.Blocking

/-!
# Polling a subscriber from an async task

A poll of `AsyncSubscriber` makes calls of the subscriber it wraps, `try_recv` at most as often
as its spin budget says, and wakes its own task before it returns `Pending`. The calls of a poll
run alone, one after the other.
-/
namespace PhotonRing

open Lib World Solo Filter

variable {n : Nat} {cfg : Config} {i fuel : Nat} {w u : World n}

/-- `core::task::Poll`. -/
inductive Poll (α : Type) where
  | ready (value : α)
  | pending

/-- The wrapped subscriber is subscriber `inner` of the channel. -/
structure AsyncSubscriber where
  inner : Nat
  spinBudget : UInt32

/-- The channel, and how often the waker of the polling task has been called. -/
structure Task (n : Nat) where
  channel : World n
  wakes : Nat

namespace AsyncSubscriber

/-- `new`, with `DEFAULT_SPIN_BUDGET`. -/
def new (sub : Nat) : AsyncSubscriber := ⟨sub, 64⟩

def withSpinBudget (sub : Nat) (budget : UInt32) : AsyncSubscriber := ⟨sub, budget⟩

def setSpinBudget (a : AsyncSubscriber) (budget : UInt32) : AsyncSubscriber := { a with spinBudget := budget }

/-- A call of subscriber `i`, run alone, with what it returns. -/
def call (cfg : Config) (fuel i : Nat) (c : SubCall) (w : World n) : Option (World n × Ret n) :=
  (step cfg w (.subCall i c)).bind fun w₁ =>
    (runWhile (fun w => busy (w.subs i)) (fun w => step cfg w (.sub i)) fuel w₁).bind fun w₂ =>
      (w₂.subs i).last.map fun r => (w₂, r)

/-- The loop of `poll_recv`. -/
def spin (cfg : Config) (fuel i : Nat) : Nat → Task n → Option (Task n × Poll (Buf n))
  | 0, x => some ({ x with wakes := x.wakes + 1 }, .pending)
  | budget + 1, x =>
    match call cfg fuel i .tryRecv x.channel with
    | some (w, .recv (.ok value)) => some ({ x with channel := w }, .ready value)
    | some (w, .recv _) => spin cfg fuel i budget { x with channel := w }
    | _ => none

def pollRecv (cfg : Config) (fuel : Nat) (a : AsyncSubscriber) (x : Task n) : Option (Task n × Poll (Buf n)) :=
  spin cfg fuel a.inner a.spinBudget.toNat x

/-- What `recv_batch` has written to the front of its buffer. -/
def fill (buf filled : List (Buf n)) : List (Buf n) := filled ++ buf.drop filled.length

/-- The loop of `poll_recv_batch`. -/
def spinBatch (cfg : Config) (fuel i : Nat) (buf : List (Buf n)) :
    Nat → Task n → Option (Task n × List (Buf n) × Poll Nat)
  | 0, x => some ({ x with wakes := x.wakes + 1 }, buf, .pending)
  | budget + 1, x =>
    match call cfg fuel i .tryRecv x.channel with
    | some (w, .recv (.ok value)) =>
      match call cfg fuel i (.recvBatch buf.tail.length) w with
      | some (w, .batch filled) =>
        some ({ x with channel := w }, value :: fill buf.tail filled, .ready (1 + filled.length))
      | _ => none
    | some (w, .recv _) => spinBatch cfg fuel i buf budget { x with channel := w }
    | _ => none

def pollRecvBatch (cfg : Config) (fuel : Nat) (a : AsyncSubscriber) (buf : List (Buf n)) (x : Task n) :
    Option (Task n × List (Buf n) × Poll Nat) :=
  if buf.isEmpty then some (x, buf, .ready 0)
  else
    match call cfg fuel a.inner (.recvBatch buf.length) x.channel with
    | some (w, .batch filled) =>
      if 0 < filled.length then some ({ x with channel := w }, fill buf filled, .ready filled.length)
      else spinBatch cfg fuel a.inner (fill buf filled) a.spinBudget.toNat { x with channel := w }
    | _ => none

/-! ## The calls of a poll -/

/-- No publish is in progress, and subscriber `i` rests at position `q`. -/
structure At (cfg : Config) (i q : Nat) (w : World n) : Prop where
  quiet : Quiet cfg w.ring
  limit : messages w < seqLimit
  idle : (w.subs i).pc = .idle
  cursor : (w.subs i).cursor = q

/-- How many messages a result carries. -/
def countOf : Ret n → Nat
  | .recv (.ok _) => 1
  | .batch filled => filled.length
  | _ => 0

/-- A call that found `s0` has returned `ret` and left the subscriber at `q`. -/
structure Left (s0 : Subscriber n) (ret : Ret n) (q : Nat) (s : Subscriber n) : Prop where
  idle : s.pc = .idle
  last : s.last = some ret
  cursor : s.cursor = q
  received : countOf ret = 0 → s.totalReceived = s0.totalReceived

/-- Subscriber `i`'s call returns `ret` and leaves it at `q`. -/
structure Returns (cfg : Config) (i : Nat) (c : SubCall) (ret : Ret n) (q : Nat) (w u : World n) : Prop where
  run : Blocking.RunsTo cfg i c w u
  ring : u.ring = w.ring
  left : Left (w.subs i) ret q (u.subs i)

/-- With enough fuel the call comes to its end. -/
theorem Returns.call {c : SubCall} {ret : Ret n} {q : Nat} (h : Returns cfg i c ret q w u) :
    ∀ᶠ fuel in atTop, call cfg fuel i c w = some (u, ret) := by
  obtain ⟨w1, hw1, hends⟩ := h.run
  obtain ⟨u', rfl, fuel, hrun⟩ := hends.runWhile
  refine eventually_atTop.mpr ⟨fuel, fun k hk => ?_⟩
  simp only [AsyncSubscriber.call, hw1, Option.bind_some, hrun k hk, h.left.last, Option.map_some]

section Calls

variable {m q : Nat} {c : SubCall} {v : Value n} {ret : Ret n}

theorem Returns.rest (hr : Returns cfg i c ret q w u) (h : At cfg i m w) : At cfg i q u where
  quiet := hr.ring ▸ h.quiet
  limit := (messages_congr hr.ring).trans_lt h.limit
  idle := hr.left.idle
  cursor := hr.left.cursor

theorem returns_of_ends {s0 : Subscriber n} (hcall : (w.subs i).call c = some s0)
    (hends : Ends (fun x => busy x.2) (subStep cfg w.ring i) (fun x => Left (w.subs i) ret q x.2) (w.trackers, s0)) :
    ∃ u, Returns cfg i c ret q w u := by
  obtain ⟨x, hleft, heq⟩ := hends.ends_eq
  exact ⟨_, Blocking.runsTo_of_ends hcall heq, rfl, by rw [Unattended.moved_self]; exact hleft⟩

theorem At.tryRecv_ok (h : At cfg i m w) (hv : w.ring.log[m]? = some v) (hold : messages w ≤ m + cfg.capacity) :
    ∃ u, Returns cfg i .tryRecv (.recv (.ok (bytesOf v))) (m + 1) w u := by
  obtain rfl := h.cursor
  exact returns_of_ends (Blocking.call_of_idle h.idle).1
    (ok_ends h.quiet h.limit hv hold (.done rfl ⟨rfl, rfl, rfl, nofun⟩))

theorem At.tryRecv_lagged (h : At cfg i m w) (hlt : m + cfg.capacity < messages w) :
    ∃ u k, Returns cfg i .tryRecv (.recv (.lagged k)) (messages w - cfg.capacity) w u := by
  obtain rfl := h.cursor
  have hnew : messages w = messages w - cfg.capacity + cfg.capacity := by omega
  obtain ⟨u, hu⟩ := returns_of_ends (Blocking.call_of_idle h.idle).1
    (lagged_ends h.quiet h.limit trivial hnew (by omega) (.done rfl ⟨rfl, rfl, rfl, fun _ => rfl⟩))
  exact ⟨u, _, hu⟩

theorem At.tryRecv_empty (h : At cfg i (messages w) w) :
    ∃ u, Returns cfg i .tryRecv (.recv .empty) (messages w) w u :=
  returns_of_ends (Blocking.call_of_idle h.idle).1
    (empty_ends h.quiet trivial (h.cursor.trans_lt h.limit) h.cursor.ge (.done rfl ⟨rfl, rfl, h.cursor, fun _ => rfl⟩))

theorem drain_call {s : Subscriber n} (h : s.pc = .idle) : s.call .drain = some (s.poll .drain) := by
  simp only [Subscriber.call, h]

/-- `Drain::next` where there is something left. -/
theorem At.drain_some (h : At cfg i m w) (hv : w.ring.log[max m (messages w - cfg.capacity)]? = some v) :
    ∃ u, Returns cfg i .drain (.recv (.ok (bytesOf v))) (max m (messages w - cfg.capacity) + 1) w u := by
  obtain rfl := h.cursor
  have hcur : (Blocking.caughtUp cfg w.ring i (w.trackers, w.subs i)).2.cursor =
      max (w.subs i).cursor (messages w - cfg.capacity) := Blocking.caughtUp_cursor ..
  refine returns_of_ends (drain_call h.idle) ((Blocking.slow_ends h.quiet h.limit (by rw [hcur, hv])
    (Or.inr (Or.inr rfl))).mono ?_)
  rintro x rfl
  exact ⟨rfl, rfl, congrArg (· + 1) hcur, nofun⟩

theorem At.drain_none (h : At cfg i (messages w) w) : ∃ u, Returns cfg i .drain (.recv .empty) (messages w) w u :=
  returns_of_ends (drain_call h.idle)
    (empty_ends h.quiet trivial (h.cursor.trans_lt h.limit) h.cursor.ge (.done rfl ⟨rfl, rfl, h.cursor, fun _ => rfl⟩))

/-- The messages from position `q` on. -/
def valuesFrom (w : World n) (q : Nat) : List (Buf n) := (w.ring.log.drop q).map bytesOf

theorem valuesFrom_cons (hv : w.ring.log[q]? = some v) : valuesFrom w q = bytesOf v :: valuesFrom w (q + 1) := by
  obtain ⟨hlt, rfl⟩ := List.getElem?_eq_some_iff.mp hv
  rw [valuesFrom, List.drop_eq_getElem_cons hlt]
  rfl

theorem valuesFrom_end : valuesFrom w (messages w) = [] := by
  rw [valuesFrom, messages, List.drop_length]
  rfl

theorem valuesFrom_length : (valuesFrom w q).length = messages w - q := by
  rw [valuesFrom, List.length_map, List.length_drop]
  rfl

theorem valuesFrom_congr (h : u.ring = w.ring) : valuesFrom u q = valuesFrom w q := by
  rw [valuesFrom, h]
  rfl

/-- The oldest message at or after `m` that the ring retains. -/
theorem exists_oldest (cfg : Config) (hlt : m < messages w) :
    ∃ v, w.ring.log[max m (messages w - cfg.capacity)]? = some v := by
  have hcap := cfg.capacity_pos
  have hlast : max m (messages w - cfg.capacity) < messages w := by omega
  exact ⟨_, List.getElem?_eq_getElem hlast⟩

/-- The loop of `recv_batch` once nothing more can be lost. -/
theorem batch_ends {s0 : Subscriber n} {t : Trackers} {s : Subscriber n} {left : Nat} {filled : List (Buf n)}
    {again : Bool} (hq : Quiet cfg w.ring) (hl : messages w < seqLimit) (hpos : 0 < left)
    (hle : s.cursor ≤ messages w) (hold : messages w ≤ s.cursor + cfg.capacity)
    (hrec : filled = [] → s.totalReceived = s0.totalReceived) :
    Ends (fun x => busy x.2) (subStep cfg w.ring i) (fun x => Left s0
      (.batch (filled ++ (valuesFrom w s.cursor).take left))
        (s.cursor + ((valuesFrom w s.cursor).take left).length) x.2)
      (t, s.poll (.recvBatch left filled again)) := by
  induction left generalizing t s filled again with
  | zero => exact absurd hpos (Nat.lt_irrefl 0)
  | succ left ih =>
    rcases Nat.lt_or_ge s.cursor (messages w) with hlt | hge
    · obtain ⟨v, hv⟩ : ∃ v, w.ring.log[s.cursor]? = some v := ⟨_, List.getElem?_eq_getElem hlt⟩
      refine ok_ends hq hl hv hold ?_
      have htake : (valuesFrom w s.cursor).take (left + 1) = bytesOf v :: (valuesFrom w (s.cursor + 1)).take left := by
        rw [valuesFrom_cons hv, List.take_succ_cons]
      have hcount : s.cursor + (bytesOf v :: (valuesFrom w (s.cursor + 1)).take left).length =
          s.cursor + 1 + ((valuesFrom w (s.cursor + 1)).take left).length := by
        rw [List.length_cons]
        omega
      have hresume : (taken s (bytesOf v)).resume (.ok (bytesOf v)) (.recvBatch (left + 1) filled again) =
          if left + 1 ≤ 1 then (taken s (bytesOf v)).finish (.batch (filled ++ [bytesOf v]))
          else (taken s (bytesOf v)).poll (.recvBatch left (filled ++ [bytesOf v]) false) := rfl
      rw [htake, hcount, hresume]
      split_ifs with hlast
      · obtain rfl : left = 0 := by omega
        exact .done rfl ⟨rfl, rfl, rfl, fun hc => by simp [countOf] at hc⟩
      · have hold' : messages w ≤ (taken s (bytesOf v)).cursor + cfg.capacity := by
          change messages w ≤ s.cursor + 1 + cfg.capacity
          omega
        have hnext : Ends (fun x => busy x.2) (subStep cfg w.ring i) (fun x => Left s0
            (.batch (filled ++ [bytesOf v] ++ (valuesFrom w (s.cursor + 1)).take left))
            (s.cursor + 1 + ((valuesFrom w (s.cursor + 1)).take left).length) x.2) (stored t i (taken s (bytesOf v)),
              (taken s (bytesOf v)).poll (.recvBatch left (filled ++ [bytesOf v]) false)) :=
          @ih _ (taken s (bytesOf v)) _ _ (by omega) hlt hold' fun hc => by simp at hc
        rw [List.append_assoc, List.singleton_append] at hnext
        exact hnext
    · obtain he : s.cursor = messages w := by omega
      have hnil : (valuesFrom w s.cursor).take (left + 1) = [] := by rw [he, valuesFrom_end, List.take_nil]
      rw [hnil, List.append_nil]
      exact empty_ends hq trivial (hle.trans_lt hl) hge
        (.done rfl ⟨rfl, rfl, rfl, fun hc => hrec (List.length_eq_zero_iff.mp hc)⟩)

/-- `recv_batch` with room for at least one message. -/
theorem At.recvBatch {len : Nat} (h : At cfg i m w) (hlen : 0 < len) (hle : m ≤ messages w)
    (hq : q = max m (messages w - cfg.capacity)) : ∃ u, Returns cfg i (.recvBatch len)
      (.batch ((valuesFrom w q).take len)) (q + ((valuesFrom w q).take len).length) w u := by
  obtain rfl := h.cursor
  obtain ⟨len, rfl⟩ : ∃ k, len = k + 1 := ⟨len - 1, by omega⟩
  have hcall : (w.subs i).call (.recvBatch (len + 1)) = some ((w.subs i).poll (.recvBatch (len + 1) [] false)) := by
    simp only [Subscriber.call, h.idle]
  have hloop (t : Trackers) (s : Subscriber n) (again : Bool) (hs : s.totalReceived = (w.subs i).totalReceived)
      (hcur : s.cursor = q) (hle : q ≤ messages w) (hold : messages w ≤ q + cfg.capacity) :
      Ends (fun x => busy x.2) (subStep cfg w.ring i) (fun x => Left (w.subs i)
        (.batch ([] ++ (valuesFrom w q).take (len + 1))) (q + ((valuesFrom w q).take (len + 1)).length) x.2)
        (t, s.poll (.recvBatch (len + 1) [] again)) := by
    subst hcur
    exact batch_ends h.quiet h.limit hlen hle hold fun _ => hs
  by_cases hold : messages w ≤ (w.subs i).cursor + cfg.capacity
  · rw [Nat.max_eq_left (by omega)] at hq
    exact returns_of_ends hcall (hloop _ _ false rfl hq.symm (hq ▸ hle) (hq ▸ hold))
  · rw [Nat.max_eq_right (by omega)] at hq
    have hnew : messages w = q + cfg.capacity := by omega
    exact returns_of_ends hcall (lagged_ends h.quiet h.limit trivial hnew (by omega)
      (hloop _ (jumped (w.subs i) q) true rfl rfl (by omega) hnew.le))

end Calls

/-! ## The loops of a poll -/

section Loops

variable {m : Nat} {v : Value n}

theorem spin_ok (h : At cfg i m w) (hv : w.ring.log[m]? = some v) (hold : messages w ≤ m + cfg.capacity)
    (budget wakes : Nat) :
    ∃ u, ∀ᶠ fuel in atTop, spin cfg fuel i (budget + 1) ⟨w, wakes⟩ = some (⟨u, wakes⟩, .ready (bytesOf v)) := by
  obtain ⟨u, hu⟩ := h.tryRecv_ok hv hold
  refine ⟨u, hu.call.mono fun fuel hcall => ?_⟩
  simp only [spin, hcall]

/-- A loop that calls `try_recv` until its budget is spent finds nothing. -/
theorem loop_empty {β : Type} (loop : Nat → Nat → Task n → Option β) (out : Task n → β)
    (hzero : ∀ fuel x, loop fuel 0 x = some (out { x with wakes := x.wakes + 1 }))
    (hsucc : ∀ fuel budget wakes w u, call cfg fuel i .tryRecv w = some (u, .recv .empty) →
      loop fuel (budget + 1) ⟨w, wakes⟩ = loop fuel budget ⟨u, wakes⟩)
    (h : At cfg i (messages w) w) (budget wakes : Nat) : ∃ u, u.ring = w.ring ∧
      (u.subs i).totalReceived = (w.subs i).totalReceived ∧
      ∀ᶠ fuel in atTop, loop fuel budget ⟨w, wakes⟩ = some (out ⟨u, wakes + 1⟩) := by
  induction budget generalizing w with
  | zero => exact ⟨w, rfl, rfl, .of_forall fun fuel => hzero fuel _⟩
  | succ budget ih =>
    obtain ⟨u, hu⟩ := h.tryRecv_empty
    obtain ⟨u', hring, hrec, hloop⟩ := ih (messages_congr hu.ring ▸ hu.rest h)
    refine ⟨u', hring.trans hu.ring, hrec.trans (hu.left.received rfl), ?_⟩
    filter_upwards [hu.call, hloop] with fuel hcall hrest
    rw [hsucc fuel budget wakes w u hcall, hrest]

theorem spin_empty (h : At cfg i (messages w) w) (budget wakes : Nat) : ∃ u, u.ring = w.ring ∧
    (u.subs i).totalReceived = (w.subs i).totalReceived ∧
    ∀ᶠ fuel in atTop, spin cfg fuel i budget ⟨w, wakes⟩ = some (⟨u, wakes + 1⟩, .pending) := by
  apply loop_empty (fun fuel => spin cfg fuel i) (fun x => (x, .pending)) (h := h)
  · intro fuel x
    rfl
  · intro fuel budget wakes w u hcall
    simp only [spin, hcall]

theorem spinBatch_empty (h : At cfg i (messages w) w) (buf : List (Buf n)) (budget wakes : Nat) : ∃ u, u.ring = w.ring ∧
    (u.subs i).totalReceived = (w.subs i).totalReceived ∧
    ∀ᶠ fuel in atTop, spinBatch cfg fuel i buf budget ⟨w, wakes⟩ = some (⟨u, wakes + 1⟩, buf, .pending) := by
  apply loop_empty (fun fuel => spinBatch cfg fuel i buf) (fun x => (x, buf, .pending)) (h := h)
  · intro fuel x
    rfl
  · intro fuel budget wakes w u hcall
    simp only [spinBatch, hcall]

/-- A `try_recv` of the loop that only moves the cursor. -/
theorem spin_lagged (h : At cfg i m w) (hlt : m + cfg.capacity < messages w) : ∃ u, u.ring = w.ring ∧
    At cfg i (messages w - cfg.capacity) u ∧ (u.subs i).totalReceived = (w.subs i).totalReceived ∧
    ∀ budget wakes, ∀ᶠ fuel in atTop, spin cfg fuel i (budget + 1) ⟨w, wakes⟩ = spin cfg fuel i budget ⟨u, wakes⟩ := by
  obtain ⟨u, k, hu⟩ := h.tryRecv_lagged hlt
  refine ⟨u, hu.ring, hu.rest h, hu.left.received rfl, fun budget wakes => hu.call.mono fun fuel hcall => ?_⟩
  simp only [spin, hcall]

end Loops

/-! ## What a poll delivers -/

/-- What `drain` yields, one `next` after the other up to its end. -/
inductive Drained (cfg : Config) (i : Nat) : World n → List (Buf n) → Prop where
  | done {w u : World n} (hrun : Blocking.RunsTo cfg i .drain w u)
      (hlast : (u.subs i).last = some (.recv .empty)) : Drained cfg i w []
  | next {w u : World n} {buf : Buf n} {bufs : List (Buf n)} (hrun : Blocking.RunsTo cfg i .drain w u)
      (hlast : (u.subs i).last = some (.recv (.ok buf))) (hnext : Drained cfg i u bufs) : Drained cfg i w (buf :: bufs)

/-- `drain` yields the messages that the ring has retained. -/
theorem At.drained {m : Nat} (h : At cfg i m w) (hle : m ≤ messages w) :
    Drained cfg i w (valuesFrom w (max m (messages w - cfg.capacity))) := by
  have hcap := cfg.capacity_pos
  obtain ⟨k, hk⟩ : ∃ k, messages w - m = k := ⟨_, rfl⟩
  induction k using Nat.strong_induction_on generalizing w m with
  | _ k ih =>
    rcases Nat.lt_or_ge m (messages w) with hlt | hge
    · obtain ⟨v, hv⟩ := exists_oldest cfg hlt
      obtain ⟨u, hu⟩ := h.drain_some hv
      have hm := messages_congr hu.ring
      have hnext := ih (messages u - (max m (messages w - cfg.capacity) + 1)) (by omega) (hu.rest h) (by omega) rfl
      rw [valuesFrom_cons hv]
      rw [hm, Nat.max_eq_left (by omega), valuesFrom_congr hu.ring] at hnext
      exact .next hu.run hu.left.last hnext
    · obtain rfl : m = messages w := by omega
      obtain ⟨u, hu⟩ := h.drain_none
      rw [Nat.max_eq_left (Nat.sub_le ..), valuesFrom_end]
      exact .done hu.run hu.left.last

/-- A poll receives `buf`, or it returns `Pending` and the next poll receives it. -/
def ReadyByTwo (cfg : Config) (fuel : Nat) (a : AsyncSubscriber) (x : Task n) (buf : Buf n) : Prop :=
  (∃ u, pollRecv cfg fuel a x = some (⟨u, x.wakes⟩, .ready buf)) ∨
    ∃ w u, pollRecv cfg fuel a x = some (⟨w, x.wakes + 1⟩, .pending) ∧
      pollRecv cfg fuel a ⟨w, x.wakes + 1⟩ = some (⟨u, x.wakes + 1⟩, .ready buf)

/-- A poll that returned `Pending` has received nothing and has woken its task. -/
def PendingOk (i : Nat) (x x' : Task n) : Prop :=
  (x'.channel.subs i).totalReceived = (x.channel.subs i).totalReceived ∧ x'.wakes = x.wakes + 1

/-- The polls of `a` deliver what the ring holds. -/
structure Delivers (cfg : Config) (a : AsyncSubscriber) (w : World n) : Prop where
  recv : (w.subs a.inner).cursor < messages w → ∃ buf bufs, Drained cfg a.inner w (buf :: bufs) ∧
    ∀ wakes, ∀ᶠ fuel in atTop, ReadyByTwo cfg fuel a ⟨w, wakes⟩ buf
  recvBatch : (w.subs a.inner).cursor < messages w → ∃ bufs, Drained cfg a.inner w bufs ∧
    bufs.length = min (messages w - (w.subs a.inner).cursor) cfg.capacity ∧
    ∀ buf wakes, buf ≠ [] → ∃ u, ∀ᶠ fuel in atTop, pollRecvBatch cfg fuel a buf ⟨w, wakes⟩ =
      some (⟨u, wakes⟩, fill buf (bufs.take buf.length), .ready (min buf.length bufs.length))
  recvPending : ∀ wakes, ∃ x res, (∀ᶠ fuel in atTop, pollRecv cfg fuel a ⟨w, wakes⟩ = some (x, res)) ∧
    (res = .pending → PendingOk a.inner ⟨w, wakes⟩ x)
  recvBatchPending : ∀ buf wakes, ∃ x buf' res,
    (∀ᶠ fuel in atTop, pollRecvBatch cfg fuel a buf ⟨w, wakes⟩ = some (x, buf', res)) ∧
    (res = .pending → PendingOk a.inner ⟨w, wakes⟩ x)

section Polls

variable {a : AsyncSubscriber} {m : Nat} {v : Value n} {buf : List (Buf n)}

/-- With a budget a poll receives the oldest message retained, or it ends just after the lag. -/
theorem spin_some (h : At cfg i m w) (hv : w.ring.log[max m (messages w - cfg.capacity)]? = some v) (k wakes : Nat) :
    (∃ u, ∀ᶠ fuel in atTop, spin cfg fuel i (k + 1) ⟨w, wakes⟩ = some (⟨u, wakes⟩, .ready (bytesOf v))) ∨
      ∃ w' u, (w'.subs i).totalReceived = (w.subs i).totalReceived ∧
        (∀ᶠ fuel in atTop, spin cfg fuel i (k + 1) ⟨w, wakes⟩ = some (⟨w', wakes + 1⟩, .pending)) ∧
        ∀ᶠ fuel in atTop, spin cfg fuel i (k + 1) ⟨w', wakes + 1⟩ = some (⟨u, wakes + 1⟩, .ready (bytesOf v)) := by
  by_cases hold : messages w ≤ m + cfg.capacity
  · rw [Nat.max_eq_left (by omega)] at hv
    exact Or.inl (spin_ok h hv hold k wakes)
  · rw [Nat.max_eq_right (by omega)] at hv
    obtain ⟨w', hring, h', hrec, hlag⟩ := spin_lagged h (by omega)
    have hold' : messages w' ≤ messages w - cfg.capacity + cfg.capacity := by
      have hm := messages_congr hring
      omega
    rw [← hring] at hv
    cases k with
    | zero =>
      obtain ⟨u, hu⟩ := spin_ok h' hv hold' 0 (wakes + 1)
      exact Or.inr ⟨w', u, hrec, hlag 0 wakes, hu⟩
    | succ k =>
      obtain ⟨u, hu⟩ := spin_ok h' hv hold' k wakes
      refine Or.inl ⟨u, ?_⟩
      filter_upwards [hlag (k + 1) wakes, hu] with fuel hfirst hsecond
      exact hfirst.trans hsecond

theorem exists_budget (hbudget : a.spinBudget ≠ 0) : ∃ k, a.spinBudget.toNat = k + 1 :=
  Nat.exists_eq_succ_of_ne_zero fun h0 => hbudget (UInt32.toNat_inj.mp h0)

theorem pollRecv_two (h : At cfg a.inner m w) (hv : w.ring.log[max m (messages w - cfg.capacity)]? = some v)
    (hbudget : a.spinBudget ≠ 0) (wakes : Nat) :
    ∀ᶠ fuel in atTop, ReadyByTwo cfg fuel a ⟨w, wakes⟩ (bytesOf v) := by
  obtain ⟨k, hk⟩ := exists_budget hbudget
  unfold ReadyByTwo pollRecv
  rw [hk]
  rcases spin_some h hv k wakes with ⟨u, hu⟩ | ⟨w', u, _, hfirst, hsecond⟩
  · exact hu.mono fun fuel hspin => Or.inl ⟨u, hspin⟩
  · filter_upwards [hfirst, hsecond] with fuel h1 h2
    exact Or.inr ⟨w', u, h1, h2⟩

/-- Without one no poll ever looks at the ring. -/
theorem pollRecv_zero (hbudget : a.spinBudget = 0) (fuel : Nat) (x : Task n) :
    pollRecv cfg fuel a x = some ({ x with wakes := x.wakes + 1 }, .pending) := by
  unfold pollRecv
  rw [hbudget]
  rfl

theorem pollRecv_pending (h : At cfg a.inner m w) (hle : m ≤ messages w) (wakes : Nat) : ∃ x res,
    (∀ᶠ fuel in atTop, pollRecv cfg fuel a ⟨w, wakes⟩ = some (x, res)) ∧
      (res = .pending → PendingOk a.inner ⟨w, wakes⟩ x) := by
  have hcap := cfg.capacity_pos
  by_cases hbudget : a.spinBudget = 0
  · exact ⟨_, _, .of_forall fun fuel => pollRecv_zero hbudget fuel _, fun _ => ⟨rfl, rfl⟩⟩
  · obtain ⟨k, hk⟩ := exists_budget hbudget
    unfold pollRecv
    rw [hk]
    rcases Nat.lt_or_ge m (messages w) with hlt | hge
    · obtain ⟨v, hv⟩ := exists_oldest cfg hlt
      rcases spin_some h hv k wakes with ⟨u, hu⟩ | ⟨w', u, hrec, hfirst, _⟩
      · exact ⟨_, _, hu, nofun⟩
      · exact ⟨_, _, hfirst, fun _ => ⟨hrec, rfl⟩⟩
    · obtain rfl : m = messages w := by omega
      obtain ⟨u, _, hrec, hspin⟩ := spin_empty h (k + 1) wakes
      exact ⟨_, _, hspin, fun _ => ⟨hrec, rfl⟩⟩

/-- A batch takes the messages that the ring has retained, with any budget. -/
theorem pollRecvBatch_some (h : At cfg a.inner m w) (hlt : m < messages w) (hbuf : buf ≠ []) (wakes : Nat) :
    let bufs := valuesFrom w (max m (messages w - cfg.capacity))
    ∃ u, ∀ᶠ fuel in atTop, pollRecvBatch cfg fuel a buf ⟨w, wakes⟩ =
      some (⟨u, wakes⟩, fill buf (bufs.take buf.length), .ready (min buf.length bufs.length)) := by
  have hcap := cfg.capacity_pos
  have hpos : 0 < buf.length := List.length_pos_iff.mpr hbuf
  obtain ⟨u, hu⟩ := h.recvBatch hpos hlt.le rfl
  refine ⟨u, hu.call.mono fun fuel hcall => ?_⟩
  have hsome : 0 < min buf.length (valuesFrom w (max m (messages w - cfg.capacity))).length := by
    rw [valuesFrom_length]
    omega
  simp only [pollRecvBatch, List.isEmpty_iff, hbuf, hcall, List.length_take, hsome, ↓reduceIte]

theorem pollRecvBatch_pending (h : At cfg a.inner m w) (hle : m ≤ messages w) (buf : List (Buf n)) (wakes : Nat) :
    ∃ x buf' res, (∀ᶠ fuel in atTop, pollRecvBatch cfg fuel a buf ⟨w, wakes⟩ = some (x, buf', res)) ∧
      (res = .pending → PendingOk a.inner ⟨w, wakes⟩ x) := by
  by_cases hbuf : buf = []
  · subst hbuf
    exact ⟨_, _, _, .of_forall fun _ => rfl, nofun⟩
  · rcases Nat.lt_or_ge m (messages w) with hlt | hge
    · obtain ⟨u, hu⟩ := pollRecvBatch_some h hlt hbuf wakes
      exact ⟨_, _, _, hu, nofun⟩
    · obtain rfl : m = messages w := by omega
      obtain ⟨u, hu⟩ := h.recvBatch (List.length_pos_iff.mpr hbuf) hle (Nat.max_eq_left (Nat.sub_le ..)).symm
      rw [valuesFrom_end, List.take_nil] at hu
      obtain ⟨u', _, hrec, hspin⟩ :=
        spinBatch_empty (messages_congr hu.ring ▸ hu.rest h) (fill buf []) a.spinBudget.toNat wakes
      refine ⟨⟨u', wakes + 1⟩, fill buf [], .pending, ?_, fun _ => ⟨hrec.trans (hu.left.received rfl), rfl⟩⟩
      filter_upwards [hu.call, hspin] with fuel hcall hrest
      simp only [pollRecvBatch, List.isEmpty_iff, hbuf, hcall, hrest, List.length_nil, Nat.lt_irrefl, ↓reduceIte]

end Polls

/-- Nothing to receive, or nothing received for want of a budget. -/
theorem not_delivers {a : AsyncSubscriber} (hbudget : a.spinBudget = 0)
    (hlt : (w.subs a.inner).cursor < messages w) : ¬ Delivers cfg a w := by
  intro hd
  obtain ⟨buf, _, _, htwo⟩ := hd.recv hlt
  obtain ⟨fuel, hfuel⟩ := (htwo 0).exists
  rcases hfuel with ⟨u, hu⟩ | ⟨w', u, _, hu⟩ <;> rw [pollRecv_zero hbudget] at hu <;> cases hu

/-- Without a publish in progress the polls of an async subscriber deliver whatever the ring
holds exactly when its spin budget is not zero, unless there is nothing to deliver. -/
theorem delivers_iff {a : AsyncSubscriber} (h : Reach cfg w) (hl : messages w < seqLimit)
    (hpub : w.publisher.pc = .idle) (hps : ∀ p, w.producers p = .idle) (hidle : (w.subs a.inner).pc = .idle) :
    Delivers cfg a w ↔ a.spinBudget ≠ 0 ∨ (w.subs a.inner).cursor = messages w := by
  have hcap := cfg.capacity_pos
  have hsane := reach_sane h hl
  have hat : At cfg a.inner (w.subs a.inner).cursor w := ⟨quiet_of_idle hsane.written hpub hps, hl, hidle, rfl⟩
  have hle : (w.subs a.inner).cursor ≤ messages w := (hsane.readers a.inner).cursor_le
  constructor
  · intro hd
    by_contra hnot
    rw [not_or, not_not] at hnot
    exact not_delivers hnot.1 (by omega) hd
  · intro hcond
    refine ⟨fun hlt => ?_, fun hlt => ?_, pollRecv_pending hat hle, pollRecvBatch_pending hat hle⟩
    · obtain ⟨v, hv⟩ := exists_oldest cfg hlt
      have hdrained := hat.drained hle
      rw [valuesFrom_cons hv] at hdrained
      exact ⟨_, _, hdrained, pollRecv_two hat hv (hcond.resolve_right (by omega))⟩
    · refine ⟨_, hat.drained hle, ?_, fun buf wakes hbuf => pollRecvBatch_some hat hlt hbuf wakes⟩
      rw [valuesFrom_length]
      omega

/-- A subscriber that three messages have lapped on a ring of two slots. -/
theorem reach_lapped : ∃ w : World 1, Reach Config.smallLossy w ∧ messages w = 3 ∧ w.publisher.pc = .idle ∧
    (w.subs 0).pc = .idle ∧ (w.subs 0).cursor = 0 := by
  obtain ⟨w, hw, hp⟩ := Reachable.of_run_any (step Config.smallLossy) (World.new 1)
    (fun w => decide (messages w = 3 ∧ pubBusy w.publisher = false ∧ Unattended.isIdle (w.subs 0).pc = true ∧
      (w.subs 0).cursor = 0))
    (List.flatten [[.subscribe 0 .subscribe, .sub 0], .pubCall (.publish fun _ => 5) :: List.replicate 5 .pub,
      .pubCall (.publish fun _ => 6) :: List.replicate 5 .pub, .pubCall (.publish fun _ => 7) :: List.replicate 5 .pub])
    (by decide +kernel)
  obtain ⟨hm, hpub, hidle, hcur⟩ := of_decide_eq_true hp
  exact ⟨w, hw, hm, idle_of_not_pubBusy hpub, Unattended.idle_of_isIdle hidle, hcur⟩

/-- A budget of one, used up by the lag in the first poll. -/
theorem delivers_one : ∃ w : World 1, Reach Config.smallLossy w ∧ (w.subs 0).cursor = 0 ∧ messages w = 3 ∧
    Delivers Config.smallLossy (withSpinBudget 0 1) w := by
  obtain ⟨w, hw, hm, hpub, hidle, hcur⟩ := reach_lapped
  have hps : ∀ p, w.producers p = .idle := ((reach_sane hw (by rw [hm]; decide)).written.single nofun).2
  exact ⟨w, hw, hcur, hm, (delivers_iff (a := withSpinBudget 0 1) hw (by rw [hm]; decide) hpub hps hidle).mpr
    (Or.inl (by decide))⟩

/-- With a budget of zero every poll leaves the channel as it is and returns `Pending`. -/
theorem zero_budget_never_ready : ∃ w : World 1, Reach Config.smallLossy w ∧ w.publisher.pc = .idle ∧
    (∀ p, w.producers p = .idle) ∧ (w.subs 0).pc = .idle ∧ (w.subs 0).cursor = 0 ∧ messages w = 3 ∧
    (∀ fuel wakes, pollRecv Config.smallLossy fuel (withSpinBudget 0 0) ⟨w, wakes⟩ = some (⟨w, wakes + 1⟩, .pending)) ∧
    ¬ Delivers Config.smallLossy (withSpinBudget 0 0) w ∧
    ¬ Delivers Config.smallLossy ((new 0).setSpinBudget 0) w := by
  obtain ⟨w, hw, hm, hpub, hidle, hcur⟩ := reach_lapped
  have hps : ∀ p, w.producers p = .idle := ((reach_sane hw (by rw [hm]; decide)).written.single nofun).2
  have hnot : ¬ Delivers Config.smallLossy (withSpinBudget 0 0) w :=
    not_delivers rfl (by rw [hm]; change (w.subs 0).cursor < 3; omega)
  exact ⟨w, hw, hpub, hps, hidle, hcur, hm, fun fuel wakes => pollRecv_zero rfl fuel _, hnot, hnot⟩

end AsyncSubscriber

end PhotonRing
