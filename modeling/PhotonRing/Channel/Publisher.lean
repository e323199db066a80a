import PhotonRing.Ring

/-!
# The single-producer publisher

`Publisher` as a thread: its fields, the call it is in and how far it has got.
One step is one access to shared memory with the local work up to the next one.
The tracker scan holds the lock from `lock` to the last step of `scan`, and upgrades
and loads one tracker after the other, since subscribers keep storing theirs and
dropping them meanwhile.
-/
namespace PhotonRing

open Lib

/-- The calls of a `Publisher`. A closure is given by the value it returns, or
`none` if it panics. -/
inductive PubCall (n : Nat) where
  | publish (v : Value n)
  | tryPublish (v : Value n)
  | publishWith (f : Option (Value n))
  | publishBatch (vs : List (Value n))

/-- What the last finished call returned. -/
inductive PubResult (n : Nat) where
  | ok
  | full (v : Value n)
  | panicked

/-- Where a `Publisher` stands. `rest` holds the values a batch still has to publish. -/
inductive PubPc (n : Nat) where
  | idle
  | room (c : PubCall n)
  | lock (c : PubCall n)
  | scan (c : PubCall n) (todo kept : List Nat) (min : Nat) (live : Bool)
  | loadTracker (c : PubCall n) (i : Nat) (todo kept : List Nat) (min : Nat) (live : Bool)
  | closure (f : Option (Value n))
  | write (v : Value n) (rest : List (Value n)) (w : WritePc)
  | cursor (rest : List (Value n))

structure Publisher (n : Nat) where
  seq : Nat
  cachedSlowest : Nat
  pc : PubPc n
  last : Option (PubResult n)

namespace Publisher

variable {n : Nat}

/-- `make_publisher`. -/
def new (n : Nat) : Publisher n := ⟨0, 0, .idle, none⟩

/-- A call begins. Every call but an empty batch first looks for room. -/
def call (p : Publisher n) (c : PubCall n) : Option (Publisher n) :=
  match p.pc, c with
  | .idle, .publishBatch [] => some { p with last := some .ok }
  | .idle, c => some { p with pc := .room c }
  | _, _ => none

/-- The call goes on once `has_room` has returned true. -/
def enter (p : Publisher n) : PubCall n → Publisher n
  | .publish v => { p with pc := .write v [] .begin }
  | .tryPublish v => { p with pc := .write v [] .begin }
  | .publishWith f => { p with pc := .closure f }
  | .publishBatch [] => { p with pc := .idle, last := some .ok }
  | .publishBatch (v :: vs) => { p with pc := .write v vs .begin }

/-- `has_room` has returned false: `try_publish` gives up, the others spin. -/
def full (p : Publisher n) : PubCall n → Publisher n
  | .tryPublish v => { p with pc := .idle, last := some (.full v) }
  | c => { p with pc := .room c }

/-- One step of the call in progress. -/
def step (cfg : Config) (r : Ring n) (t : Trackers) (p : Publisher n) :
    Option (Ring n × Trackers × Publisher n) :=
  match p.pc with
  | .idle => none
  | .room c =>
    match cfg.kind with
    | .bounded _ =>
      if u64 (p.cachedSlowest + cfg.effective) ≤ p.seq then some (r, t, { p with pc := .lock c })
      else some (r, t, p.enter c)
    | _ => some (r, t, p.enter c)
  | .lock c =>
    if t.locked then none
    else some (r, { t with locked := true }, { p with pc := .scan c t.registered [] u64Max false })
  | .scan c (i :: todo) kept min live =>
    if 0 < t.strong i then some (r, t, { p with pc := .loadTracker c i todo kept min live })
    else some (r, t, { p with pc := .scan c todo kept min live })
  | .scan c [] kept min live =>
    let t' := { t with locked := false, registered := kept }
    if live then
      let p' := { p with cachedSlowest := min }
      if u64 (min + cfg.effective) ≤ p.seq then some (r, t', p'.full c) else some (r, t', p'.enter c)
    else some (r, t', p.enter c)
  | .loadTracker c i todo kept min _ =>
    let val := t.value i
    some (r, t, { p with pc := .scan c todo (kept ++ [i]) (if val < min then val else min) true })
  | .closure none => some (r, t, { p with pc := .idle, last := some .panicked })
  | .closure (some v) => some (r, t, { p with pc := .write v [] .begin })
  | .write v rest w =>
    let idx := cfg.slot p.seq
    let next := (r.slots idx).writeStep p.seq v w
    match next.2 with
    | some w' => some (r.setSlot idx next.1, t, { p with pc := .write v rest w' })
    | none => some ((r.setSlot idx next.1).append v, t, { p with pc := .cursor rest })
  | .cursor rest =>
    let p' := { p with seq := u64 (p.seq + 1) }
    match rest with
    | [] => some ({ r with cursor := p.seq, returned := List.range (p.seq + 1) }, t,
        { p' with pc := .idle, last := some .ok })
    | _ :: _ => some ({ r with cursor := p.seq }, t, { p' with pc := .room (.publishBatch rest) })

/-- The publisher stores to no tracker and holds none. -/
theorem step_trackers {cfg : Config} {r r' : Ring n} {t t' : Trackers} {p p' : Publisher n}
    (h : p.step cfg r t = some (r', t', p')) : t'.value = t.value ∧ t'.strong = t.strong := by
  unfold step at h
  split at h <;> (try dsimp only at h) <;> (try split at h) <;> (try split at h) <;> cases h <;> exact ⟨rfl, rfl⟩

end Publisher

end PhotonRing
