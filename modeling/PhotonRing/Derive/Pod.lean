import PhotonRing.Derive.Message

/-!
# `derive(Pod)` and the size assertions (`photon-ring-derive/src/lib.rs`)

Both macros emit an assertion that the size of a `#[repr(C)]` struct is the sum of its fields'
sizes. `derive_message` closes its struct with a pad first, whose length is a constant of the
emitted code. The fields may be of any types, aliases and user types included, so the constants
are functions of whatever layouts the compiler has for those.
-/
namespace PhotonRing.Derive

open Lib Lib.Layout

variable {fs : List Shape}

/-! ## The emitted constants -/

/-- `0usize + size_of::<F1>() + ..`. -/
def sumOf (fs : List Shape) : Nat := fs.foldl (fun sum f => sum + f.size) 0

/-- `let mut a = 1usize; { let f = align_of::<F1>(); if f > a { a = f; } } .. a`. -/
def alignOf (fs : List Shape) : Nat := fs.foldl (fun a f => if f.align > a then f.align else a) 1

/-- `__.._TAIL_PAD`. -/
def tailPadConst (fs : List Shape) : Nat := (alignOf fs - sumOf fs % alignOf fs) % alignOf fs

/-- The assertion of `derive_pod`. -/
def podSizeAssertion (fs : List Shape) : Bool := Layout.size fs == sumOf fs

/-- The wire struct of `derive_message`, with `_pad: [u8; TAIL_PAD]` last. -/
def wireStruct (fs : List Shape) : List Shape := fs ++ [Shape.bytes (tailPadConst fs)]

/-- The assertion of `derive_message`. -/
def messageSizeAssertion (fs : List Shape) : Bool := Layout.size (wireStruct fs) == sumOf fs + tailPadConst fs

theorem sumOf_eq (fs : List Shape) : sumOf fs = total fs := by
  have hfold : ∀ start, fs.foldl (fun sum f => sum + f.size) start = start + total fs := by
    induction fs with
    | nil => exact fun start => rfl
    | cons f fs ih =>
      intro start
      rw [List.foldl_cons, ih, total_cons, Nat.add_assoc]
  rw [sumOf, hfold, Nat.zero_add]

theorem alignOf_eq (fs : List Shape) : alignOf fs = maxAlign fs := by
  have hfold : ∀ start, 1 ≤ start →
      fs.foldl (fun a f => if f.align > a then f.align else a) start = max start (maxAlign fs) := by
    induction fs with
    | nil =>
      intro start hstart
      exact (Nat.max_eq_left hstart).symm
    | cons f fs ih =>
      intro start hstart
      have hstep : (if f.align > start then f.align else start) = max start f.align := by
        split_ifs <;> omega
      rw [List.foldl_cons, hstep, ih _ (by omega), maxAlign, Nat.max_assoc]
  rw [alignOf, hfold 1 (Nat.le_refl 1)]
  exact Nat.max_eq_right (maxAlign_pos fs)

theorem tailPadConst_eq (fs : List Shape) : tailPadConst fs = tailPad fs := by
  rw [tailPadConst, tailPad, sumOf_eq, alignOf_eq]

theorem podSizeAssertion_iff : podSizeAssertion fs = true ↔ NoPadding fs := by
  rw [podSizeAssertion, beq_iff_eq, sumOf_eq]
  exact noPadding_iff.symm

theorem messageSizeAssertion_iff_packed : messageSizeAssertion fs = true ↔ Packed 0 fs := by
  rw [messageSizeAssertion, beq_iff_eq, wireStruct, sumOf_eq, tailPadConst_eq]
  exact size_closed_iff

theorem messageSizeAssertion_iff : messageSizeAssertion fs = true ↔ NoPadding (wireStruct fs) := by
  rw [messageSizeAssertion_iff_packed, wireStruct, tailPadConst_eq]
  exact noPadding_closed_iff.symm

/-- Of two powers of two the smaller divides the larger. -/
theorem dvd_of_le_of_pow {a b : Nat} (ha : ∃ k, a = 2 ^ k) (hb : ∃ k, b = 2 ^ k) (h : a ≤ b) : a ∣ b := by
  obtain ⟨i, rfl⟩ := ha
  obtain ⟨j, rfl⟩ := hb
  exact Nat.pow_dvd_pow 2 ((Nat.pow_le_pow_iff_right (by decide)).mp h)

/-- Both assertions hold exactly when every byte of the struct belongs to a field. Where the
fields are emitted widest first, the pad is all that `derive_message` needs. -/
theorem size_assertions_exact (hpow : ∀ f ∈ fs, ∃ k, f.align = 2 ^ k) :
    (podSizeAssertion fs = true ↔ NoPadding fs) ∧ (messageSizeAssertion fs = true ↔ NoPadding (wireStruct fs)) ∧
      (fs.Pairwise (fun f g => g.align ≤ f.align) → messageSizeAssertion fs = true) := by
  refine ⟨podSizeAssertion_iff, messageSizeAssertion_iff, fun hdescending => ?_⟩
  have hdvd : fs.Pairwise fun f g => g.align ∣ f.align := by
    refine hdescending.imp_of_mem fun hf hg hle => ?_
    exact dvd_of_le_of_pow (hpow _ hg) (hpow _ hf) hle
  apply messageSizeAssertion_iff_packed.mpr
  apply (packed_descending hdvd).mpr
  intro f _
  exact Nat.dvd_zero f.align

/-- An `f64`, a `u32` and three bytes: a tail of one byte is missing. -/
def tick : List Shape := [(Ty.float .f64).shape word64, (Ty.int .u32).shape word64, Shape.bytes 3]

theorem size_assertions_exact_tick :
    (podSizeAssertion tick = true ↔ NoPadding tick) ∧ podSizeAssertion tick = false ∧
      messageSizeAssertion tick = true ∧ NoPadding (wireStruct tick) := by
  have hpow : ∀ f ∈ tick, ∃ k, f.align = 2 ^ k := by
    rw [tick, List.forall_mem_cons, List.forall_mem_cons, List.forall_mem_singleton]
    exact ⟨⟨3, rfl⟩, ⟨2, rfl⟩, ⟨0, rfl⟩⟩
  obtain ⟨hpod, hmessage, hclosed⟩ := size_assertions_exact hpow
  have hdescending : tick.Pairwise fun f g => g.align ≤ f.align := by
    simp [tick, Ty.shape, primitive, FloatTy.bytes, IntTy.bytes, Shape.bytes]
  exact ⟨hpod, by decide, hclosed hdescending, hmessage.mp (hclosed hdescending)⟩

/-! ## The macros -/

variable {τ : Type}

/-- The item `derive_pod` is applied to, by the types of its fields. -/
inductive PodData (τ : Type) where
  | namedStruct (types : List τ)
  | unnamedStruct (types : List τ)
  | unitStruct
  | notStruct

/-- `reprC` says that `C` was found among the arguments of a `repr` attribute. -/
structure PodInput (τ : Type) where
  reprC : Bool
  data : PodData τ

/-- The generated code: the types for which `_assert_pod` is instantiated, and those that the
assertion on the size sums. -/
structure PodImpl (τ : Type) where
  fieldAssertions : List τ
  fieldTypes : List τ

/-- `derive_pod`. -/
def derivePod (input : PodInput τ) : Except String (PodImpl τ) :=
  if input.reprC then
    match input.data with
    | .namedStruct types | .unnamedStruct types => .ok ⟨types, types⟩
    | .unitStruct => .ok ⟨[], []⟩
    | .notStruct => .error "Pod can only be derived for structs"
  else .error "Pod can only be derived for #[repr(C)] structs"

/-- The generated code compiles. -/
def PodImpl.accepted (shapeOf : τ → Shape) (isPod : τ → Bool) (d : PodImpl τ) : Bool :=
  d.fieldAssertions.all isPod && podSizeAssertion (d.fieldTypes.map shapeOf)

/-- `Pod` is implemented for a struct only if its fields are `Pod` and leave no byte out. -/
theorem derivePod_accepted_iff {input : PodInput τ} {d : PodImpl τ} (shapeOf : τ → Shape) (isPod : τ → Bool)
    (h : derivePod input = .ok d) :
    d.accepted shapeOf isPod = true ↔
      (∀ ty ∈ d.fieldTypes, isPod ty = true) ∧ NoPadding (d.fieldTypes.map shapeOf) := by
  have hsame : d.fieldAssertions = d.fieldTypes := by
    obtain ⟨reprC, data⟩ := input
    cases reprC with
    | false => cases h
    | true => cases data <;> cases h <;> rfl
  rw [PodImpl.accepted, Bool.and_eq_true, hsame, List.all_eq_true]
  exact and_congr_right fun _ => podSizeAssertion_iff

variable {target : Target} {d : Derived}

theorem Derived.layout_eq : d.layout target = wireStruct (d.shapes target) := by
  rw [Derived.layout, wireStruct, Derived.tailPad, tailPadConst_eq]

theorem Derived.sizeAssertion_eq : d.sizeAssertion target = messageSizeAssertion (d.shapes target) := by
  rw [Derived.sizeAssertion, Derived.layout_eq, messageSizeAssertion, Derived.tailPad, tailPadConst_eq, sumOf_eq]

/-- The wire struct of any generated code is accepted only without padding. -/
theorem Derived.accepted_iff :
    d.accepted target = true ↔
      ((∀ a ∈ d.assertions, a.holds target = true) ∧ NoPadding (d.layout target)) ∧ d.wireNames.Nodup := by
  rw [Derived.accepted, Bool.and_eq_true, Bool.and_eq_true, List.all_eq_true, Derived.sizeAssertion_eq,
    Derived.layout_eq, decide_eq_true_iff]
  exact and_congr_left fun _ => and_congr_right fun _ => messageSizeAssertion_iff

end PhotonRing.Derive
