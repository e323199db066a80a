import PhotonRing.Lib.Lap
import PhotonRing.Lib.Seqlock

/-!
# Slots

A slot is a stamped cell of payload bytes. `Slot::write` and `Slot::try_read`
are cut at every access to shared memory: the stamp stores and loads, and each
stripe of the payload copy. A step of the write or read is one such access
together with the local work up to the next one.
-/
namespace PhotonRing

open Lib Lib.Seqlock

/-- A `Pod` payload of `n` bytes: every bit pattern is a value. -/
abbrev Value (n : Nat) := Fin n → UInt8

/-- Memory for a payload, `MaybeUninit<T>`: a byte that was never written is `none`. -/
abbrev Buf (n : Nat) := Fin n → Option UInt8

/-- The memory of an initialised payload. -/
def bytesOf {n : Nat} (v : Value n) : Buf n := fun i => some (v i)

def uninit (n : Nat) : Buf n := fun _ => none

abbrev Slot (n : Nat) := Cell (Fin n) UInt8

/-- `Slot::new`. -/
def Slot.new (n : Nat) : Slot n := ⟨0, uninit n⟩

/-- `seq * 2 + 1`: a write of `seq` is in progress. -/
def writing (seq : Nat) : Nat := u64 (seq * 2 + 1)

/-- `seq * 2 + 2`: the write of `seq` is complete. -/
def done (seq : Nat) : Nat := u64 (seq * 2 + 2)

/-- No more than this many messages go through a ring: the next stamp would wrap. -/
def seqLimit : Nat := 2 ^ 63 - 1

theorem writing_eq {seq : Nat} (h : seq < seqLimit) : writing seq = 2 * seq + 1 := by
  unfold seqLimit at h
  rw [writing, u64_of_lt (by omega)]
  omega

theorem done_eq {seq : Nat} (h : seq < seqLimit) : done seq = 2 * seq + 2 := by
  unfold seqLimit at h
  rw [done, u64_of_lt (by omega)]
  omega

/-! ## The striped copy -/

/-- The widest access that fits the bytes still to be copied. -/
def stripeWidth (left : Nat) : Nat :=
  if 8 ≤ left then 8 else if 4 ≤ left then 4 else if 2 ≤ left then 2 else 1

theorem stripeWidth_pos (left : Nat) : 0 < stripeWidth left := by
  unfold stripeWidth; split_ifs <;> omega

theorem stripeWidth_le {left : Nat} (h : 0 < left) : stripeWidth left ≤ left := by
  unfold stripeWidth; split_ifs <;> omega

/-- One access of the copy loop at offset `off`. -/
def copyStripe {n : Nat} (dst src : Buf n) (off : Nat) : Buf n := fun i =>
  if off ≤ i.val ∧ i.val < off + stripeWidth (n - off) then src i else dst i

/-- One iteration of `store_payload`. -/
def storePayload {n : Nat} (dst : Buf n) (src : Value n) (off : Nat) : Buf n :=
  copyStripe dst (bytesOf src) off

/-- One iteration of `load_payload`. -/
def loadPayload {n : Nat} (dst src : Buf n) (off : Nat) : Buf n := copyStripe dst src off

/-- A stripe extends the copied prefix and leaves the rest of the prefix alone. -/
theorem copyStripe_prefix {n : Nat} (dst src : Buf n) {off : Nat} (i : Fin n)
    (hi : i.val < off + stripeWidth (n - off)) :
    (i.val < off ∧ copyStripe dst src off i = dst i) ∨ copyStripe dst src off i = src i := by
  unfold copyStripe
  by_cases ho : off ≤ i.val
  · exact Or.inr (if_pos ⟨ho, hi⟩)
  · exact Or.inl ⟨by omega, if_neg (fun h => ho h.1)⟩

/-! ## The write protocol -/

/-- Where a `Slot::write` stands: before the odd stamp, or with the payload
stored up to `off`; at the full size the next access is the even stamp. -/
inductive WritePc where
  | begin
  | store (off : Nat)
  deriving DecidableEq, Repr

/-- One access of `Slot::write`. No continuation means that the write is complete. -/
def Slot.writeStep {n : Nat} (s : Slot n) (seq : Nat) (v : Value n) :
    WritePc → Slot n × Option WritePc
  | .begin => ({ s with stamp := writing seq }, some (.store 0))
  | .store off =>
    if off < n then
      ({ s with value := storePayload s.value v off }, some (.store (off + stripeWidth (n - off))))
    else
      ({ s with stamp := done seq }, none)

/-- What a writer at `pc` has put into the slot of `seq`; `prev` is the stamp it found. -/
def WriteOk {n : Nat} (s : Slot n) (seq prev : Nat) (v : Value n) : WritePc → Prop
  | .begin => s.stamp = prev
  | .store off => s.stamp = 2 * seq + 1 ∧ off ≤ n ∧ ∀ i : Fin n, i.val < off → s.value i = some (v i)

/-- The effect of one access of a write, with everything the later proofs need. -/
theorem writeStep_spec {n : Nat} {s : Slot n} {seq prev : Nat} {v : Value n} {pc : WritePc}
    (hseq : seq < seqLimit) (h : WriteOk s seq prev v pc) :
    (∃ off, (s.writeStep seq v pc).2 = some (.store off) ∧
      WriteOk (s.writeStep seq v pc).1 seq prev v (.store off)) ∨
    ((∃ off, pc = .store off) ∧ (s.writeStep seq v pc).2 = none ∧
      (s.writeStep seq v pc).1.stamp = 2 * seq + 2 ∧
      (s.writeStep seq v pc).1.value = bytesOf v) := by
  cases pc with
  | begin =>
    left
    exact ⟨0, rfl, writing_eq hseq, Nat.zero_le _, fun i hi => absurd hi (Nat.not_lt_zero _)⟩
  | store off =>
    obtain ⟨hst, hoff, hpre⟩ := h
    by_cases hlt : off < n
    · left
      have hw := stripeWidth_le (show 0 < n - off by omega)
      simp only [Slot.writeStep, hlt, ↓reduceIte]
      refine ⟨_, rfl, hst, by omega, fun i hi => ?_⟩
      rcases copyStripe_prefix s.value (bytesOf v) i hi with ⟨hi', he⟩ | he
      · exact he.trans (hpre i hi')
      · exact he
    · right
      simp only [Slot.writeStep, hlt, ↓reduceIte]
      refine ⟨⟨off, rfl⟩, trivial, done_eq hseq, ?_⟩
      funext i
      exact hpre i (lt_of_lt_of_le i.isLt (by omega))

/-- Every access of a write keeps the writer's rule. -/
theorem writeStep_evolves {n : Nat} {s : Slot n} {seq prev : Nat} {v : Value n} {pc : WritePc}
    (hseq : seq < seqLimit) (hprev : prev < 2 * seq + 1) (h : WriteOk s seq prev v pc) :
    Evolves s (s.writeStep seq v pc).1 := by
  cases pc with
  | begin =>
    apply Evolves.restamp
    have hs : s.stamp = prev := h
    change s.stamp < writing seq
    rw [writing_eq hseq, hs]
    exact hprev
  | store off =>
    obtain ⟨hst, -, -⟩ := h
    by_cases hlt : off < n
    · simp only [Slot.writeStep, hlt, ↓reduceIte]
      exact Evolves.store rfl (by omega)
    · simp only [Slot.writeStep, hlt, ↓reduceIte]
      apply Evolves.restamp
      change s.stamp < done seq
      rw [done_eq hseq, hst]
      omega

/-! ## The read protocol -/

/-- Where a `Slot::try_read` stands: before the first stamp load, or with the
payload loaded up to `off`; at the full size the next access is the second load. -/
inductive ReadPc (n : Nat) where
  | stamp
  | load (off : Nat) (buf : Buf n)

/-- What `Slot::try_read` returns: `Ok(Some(_))`, `Ok(None)` or `Err(stamp)`. -/
inductive TryRead (n : Nat) where
  | value (buf : Buf n)
  | torn
  | other (stamp : Nat)

/-- One access of `Slot::try_read`. -/
def Slot.readStep {n : Nat} (s : Slot n) (seq : Nat) : ReadPc n → ReadPc n ⊕ TryRead n
  | .stamp =>
    if s.stamp = done seq then .inl (.load 0 (uninit n))
    else if s.stamp % 2 ≠ 0 then .inr .torn
    else .inr (.other s.stamp)
  | .load off buf =>
    if off < n then
      .inl (.load (off + stripeWidth (n - off)) (loadPayload buf s.value off))
    else if s.stamp = done seq then .inr (.value buf)
    else .inr .torn

/-- A reader's claim on the slot it reads. -/
def ReadOk {n : Nat} (s : Slot n) (seq : Nat) : ReadPc n → Prop
  | .stamp => True
  | .load off buf => off ≤ n ∧ Reading s (2 * seq + 2) (fun i : Fin n => i.val < off) buf

theorem ReadOk.evolve {n : Nat} {s t : Slot n} {seq : Nat} {pc : ReadPc n}
    (h : ReadOk s seq pc) (hst : Evolves s t) : ReadOk t seq pc := by
  cases pc with
  | stamp => trivial
  | load off buf => exact ⟨h.1, h.2.evolve hst⟩

/-- The reader's own accesses keep its claim. -/
theorem readStep_ok {n : Nat} {s : Slot n} {seq : Nat} {pc pc' : ReadPc n}
    (hseq : seq < seqLimit) (h : ReadOk s seq pc) (hstep : s.readStep seq pc = .inl pc') :
    ReadOk s seq pc' := by
  cases pc with
  | stamp =>
    simp only [Slot.readStep] at hstep
    split_ifs at hstep with hs
    obtain rfl := Sum.inl.inj hstep
    rw [done_eq hseq] at hs
    exact ⟨Nat.zero_le _, Reading.begin (by omega) hs (fun i hi => absurd hi (Nat.not_lt_zero _)) _⟩
  | load off buf =>
    simp only [Slot.readStep] at hstep
    split_ifs at hstep with hlt
    obtain rfl := Sum.inl.inj hstep
    have hw := stripeWidth_le (show 0 < n - off by omega)
    refine ⟨by omega, h.2.load (fun i hi => ?_)⟩
    rcases copyStripe_prefix buf s.value i hi with ⟨hi', he⟩ | he
    · exact Or.inr ⟨hi', he⟩
    · exact Or.inl he

/-- A successful read returns the memory of a slot stamped with the sequence read. -/
theorem readStep_value {n : Nat} {s : Slot n} {seq : Nat} {pc : ReadPc n} {buf : Buf n}
    (hseq : seq < seqLimit) (h : ReadOk s seq pc) (hstep : s.readStep seq pc = .inr (.value buf)) :
    s.stamp = 2 * seq + 2 ∧ buf = s.value := by
  cases pc with
  | stamp =>
    simp only [Slot.readStep] at hstep
    split_ifs at hstep <;> simp at hstep
  | load off b =>
    simp only [Slot.readStep] at hstep
    split_ifs at hstep with hlt hs
    · obtain rfl : b = buf := by simpa using hstep
      rw [done_eq hseq] at hs
      exact ⟨hs, h.2.validate hs (fun i => lt_of_lt_of_le i.isLt (by omega))⟩
    · simp at hstep

end PhotonRing
