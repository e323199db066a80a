import PhotonRing.Ring
import Mathlib.Data.Fintype.Basic

/-!
# The multi-producer publisher

One `publish` or `publish_with` call of an `MpPublisher` clone, cut at every
access to shared memory: the claim, the lap wait, the slot write, the two
attempts on the cursor with the predecessor wait between them, and the catch-up
loop. `own` is the claimed sequence, `seq` the position of the catch-up loop.
-/
namespace PhotonRing

open Lib

/-- A call: the value, and whether a closure builds it after the sequence was claimed. -/
structure MpCall (n : Nat) where
  value : Value n
  closure : Bool
  deriving DecidableEq

inductive MpPc (n : Nat) where
  | idle
  | claim (c : MpCall n)
  | waitSlot (own : Nat) (c : MpCall n)
  | closure (own : Nat) (v : Value n)
  | write (own : Nat) (v : Value n) (w : WritePc)
  | cas (own : Nat)
  | waitPred (own : Nat)
  | recas (own : Nat)
  | reload (own : Nat)
  | catchNext (own seq : Nat)
  | catchStamp (own seq : Nat)
  | catchCas (own seq : Nat)
  deriving DecidableEq

namespace MpPc

variable {n : Nat}

def call : MpPc n → MpCall n → Option (MpPc n)
  | .idle, c => some (.claim c)
  | _, _ => none

/-- The call returns. -/
def ret (r : Ring n) (own : Nat) : Ring n × MpPc n := ({ r with returned := r.returned ++ [own] }, .idle)

/-- What follows `wait_for_slot`: the closure of `publish_with`, or the write. -/
def written (own : Nat) (c : MpCall n) : MpPc n :=
  if c.closure then .closure own c.value else .write own c.value .begin

/-- One step of the call in progress. A wait whose condition does not hold yet
loads the stamp and stays where it is. -/
def step (cfg : Config) (r : Ring n) : MpPc n → Option (Ring n × MpPc n)
  | .idle => none
  | .claim c =>
    some ({ r with nextSeq := u64 (r.nextSeq + 1) }.append c.value, .waitSlot r.nextSeq c)
  | .waitSlot own c =>
    if own < cfg.capacity then some (r, written own c)
    else if (r.slots (cfg.slot own)).stamp < u64 ((own - cfg.capacity) * 2 + 2) then
      some (r, .waitSlot own c)
    else some (r, written own c)
  | .closure own v => some (r, .write own v .begin)
  | .write own v w =>
    let next := (r.slots (cfg.slot own)).writeStep own v w
    match next.2 with
    | some w' => some (r.setSlot (cfg.slot own) next.1, .write own v w')
    | none => some (r.setSlot (cfg.slot own) next.1, .cas own)
  | .cas own =>
    if r.cursor = expectedCursor own then some ({ r with cursor := own }, .catchNext own own)
    else if 0 < own then some (r, .waitPred own)
    else some (r, .recas own)
  | .waitPred own =>
    if (r.slots (cfg.slot (own - 1))).stamp < u64 ((own - 1) * 2 + 2) then some (r, .waitPred own)
    else some (r, .recas own)
  | .recas own =>
    if r.cursor = expectedCursor own then some ({ r with cursor := own }, .reload own)
    else some (r, .reload own)
  | .reload own =>
    if r.cursor = own then some (r, .catchNext own own) else some (ret r own)
  | .catchNext own seq =>
    if r.nextSeq ≤ u64 (seq + 1) then some (ret r own) else some (r, .catchStamp own seq)
  | .catchStamp own seq =>
    if (r.slots (cfg.slot (u64 (seq + 1)))).stamp < u64 (u64 (seq + 1) * 2 + 2) then some (ret r own)
    else some (r, .catchCas own seq)
  | .catchCas own seq =>
    if r.cursor = seq then some ({ r with cursor := u64 (seq + 1) }, .catchNext own (u64 (seq + 1)))
    else some (ret r own)

end MpPc

end PhotonRing
