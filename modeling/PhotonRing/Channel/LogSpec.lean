import PhotonRing.Channel.Subscriber

/-!
# The log that a channel stands for

A channel as its users see it when operations do not overlap: the list of all
published values, of which the last `c` are retained, and one position for each
subscriber. There are no slots, stamps or shared cursor.
-/
namespace PhotonRing.LogSpec

/-- The operations. `p` names the publisher that is used, `i` the subscriber; a
closure is given by the value it returns, or `none` if it panics. -/
inductive Op (n : Nat) where
  | publish (p : Nat) (v : Value n)
  | publishWith (p : Nat) (f : Option (Value n))
  | publishBatch (vs : List (Value n))
  | subscribe (i : Nat) (k : SubscribeKind)
  | tryRecv (i : Nat)
  | latest (i : Nat)
  | pending (i : Nat)
  | drop (i : Nat)

/-- What an operation returns. A new subscriber shows its cursor. -/
inductive Res (n : Nat) where
  | done
  | panicked
  | started (cursor : Nat)
  | recv (r : Recv n)
  | latest (v : Option (Buf n))
  | pending (count : Nat)

inductive Handle where
  | absent
  | live (q : Nat)
  | dropped

/-- The published values and the subscribers' positions. -/
structure Log (n : Nat) where
  log : List (Value n)
  handles : Nat → Handle

variable {n : Nat}

def Log.new (n : Nat) : Log n := ⟨[], fun _ => .absent⟩

/-- `try_recv` at position `q`: the result and the new position. -/
def recvAt (c : Nat) (log : List (Value n)) (q : Nat) : Recv n × Nat :=
  match log[q]? with
  | none => (.empty, q)
  | some v => if q < log.length - c then (.lagged (log.length - c - q), log.length - c)
      else (.ok (bytesOf v), q + 1)

/-- `latest` at position `q`. -/
def latestAt (log : List (Value n)) (q : Nat) : Option (Buf n) × Nat :=
  match log.getLast? with
  | none => (none, q)
  | some v => (some (bytesOf v), log.length)

/-- The position of a new subscriber. -/
def startAt (c : Nat) (log : List (Value n)) : SubscribeKind → Nat
  | .fromOldest => log.length - c
  | _ => log.length

namespace Log

def append (m : Log n) (vs : List (Value n)) : Log n := { m with log := m.log ++ vs }

def setHandle (m : Log n) (i : Nat) (h : Handle) : Log n :=
  { m with handles := Function.update m.handles i h }

/-- One operation. An operation on a subscriber that does not exist is refused. -/
def step (c : Nat) (m : Log n) : Op n → Option (Log n × Res n)
  | .publish _ v => some (m.append [v], .done)
  | .publishWith _ (some v) => some (m.append [v], .done)
  | .publishWith _ none => some (m, .panicked)
  | .publishBatch vs => some (m.append vs, .done)
  | .subscribe i k =>
    match m.handles i with
    | .absent => some (m.setHandle i (.live (startAt c m.log k)), .started (startAt c m.log k))
    | _ => none
  | .tryRecv i =>
    match m.handles i with
    | .live q => some (m.setHandle i (.live (recvAt c m.log q).2), .recv (recvAt c m.log q).1)
    | _ => none
  | .latest i =>
    match m.handles i with
    | .live q => some (m.setHandle i (.live (latestAt m.log q).2), .latest (latestAt m.log q).1)
    | _ => none
  | .pending i =>
    match m.handles i with
    | .live q => some (m, .pending (min (m.log.length - q) c))
    | _ => none
  | .drop i =>
    match m.handles i with
    | .live _ => some (m.setHandle i .dropped, .done)
    | _ => none

/-- A list of operations, with the list of their results. -/
def run (c : Nat) (m : Log n) : List (Op n) → Option (Log n × List (Res n))
  | [] => some (m, [])
  | op :: ops => (m.step c op).bind fun x => (x.1.run c ops).map fun y => (y.1, x.2 :: y.2)

/-- The log only grows. -/
theorem step_length_le {c : Nat} {m m' : Log n} {op : Op n} {res : Res n}
    (h : m.step c op = some (m', res)) : m.log.length ≤ m'.log.length := by
  cases op with
  | publish p v => cases h; simp [append]
  | publishWith p f => cases f <;> cases h <;> simp [append]
  | publishBatch vs => cases h; simp [append]
  | subscribe i k =>
    simp only [step] at h
    split at h <;> cases h
    exact Nat.le_refl _
  | tryRecv i =>
    simp only [step] at h
    split at h <;> cases h
    exact Nat.le_refl _
  | latest i =>
    simp only [step] at h
    split at h <;> cases h
    exact Nat.le_refl _
  | pending i =>
    simp only [step] at h
    split at h <;> cases h
    exact Nat.le_refl _
  | drop i =>
    simp only [step] at h
    split at h <;> cases h
    exact Nat.le_refl _

theorem run_length_le {c : Nat} {m m' : Log n} {ops : List (Op n)} {out : List (Res n)}
    (h : m.run c ops = some (m', out)) : m.log.length ≤ m'.log.length := by
  induction ops generalizing m m' out with
  | nil => cases h; exact Nat.le_refl _
  | cons op ops ih =>
    obtain ⟨⟨m₁, res⟩, hs, hrest⟩ := Option.bind_eq_some_iff.mp h
    obtain ⟨⟨m₂, out₂⟩, hr, he⟩ := Option.map_eq_some_iff.mp hrest
    cases he
    exact (step_length_le hs).trans (ih hr)

end Log

end PhotonRing.LogSpec
