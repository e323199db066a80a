import PhotonRing.Derive.Message
import Mathlib.Data.Nat.ModEq

/-!
# Padding of the wire struct

`align_rank` has no arm for `i8`, `i16` and `i32`, so these fields and arrays of them take
rank 0 and stand first, among the 128-bit fields and in declaration order. What follows a
rank-0 field therefore starts at the bytes of the small signed fields ahead of it, up to a
multiple of 16.
-/
namespace PhotonRing.Derive

open PhotonRing.Lib
open PhotonRing.Lib.Layout (Shape Packed)

/-- `i8`, `i16`, `i32` and arrays of them. -/
def Ty.isSmallSigned : Ty → Bool
  | .int .i8 | .int .i16 | .int .i32 => true
  | .array elem _ => elem.isSmallSigned
  | _ => false

/-- The alignment of the widest wire field of a supported type. -/
def Ty.wireAlign : Ty → Nat
  | .int t => t.bytes
  | .float t => t.bytes
  | .usize | .isize => 8
  | .option (.int .u128) | .option (.int .i128) => 16
  | .option (.float .f32) => 4
  | .option .bool => 1
  | .option _ => 8
  | .array elem _ => elem.wireAlign
  | .bool | .enum _ | .unit => 1

/-- The field goes before all fields that have a rank of their own. -/
def Field.isFirst (field : Field) : Bool := field.ty.isSmallSigned || field.ty.wireAlign == 16

variable (target : Target)

def Field.smallBytes (field : Field) : Nat := if field.ty.isSmallSigned then (field.ty.shape target).size else 0

/-- The bytes of the small signed fields. -/
def smallBytes (fields : List Field) : Nat := (fields.map (Field.smallBytes target)).sum

/-- Each field is aligned to the small signed bytes before it: those declared ahead of it for
a field that goes first, all of them for the others. -/
def AlignedFrom (all : Nat) : Nat → List Field → Prop
  | _, [] => True
  | ahead, field :: fields =>
    field.ty.wireAlign ∣ (if field.isFirst then ahead else all) ∧
      AlignedFrom all (ahead + field.smallBytes target) fields

/-- The condition for a layout without gaps. -/
def SmallSignedFit (fields : List Field) : Prop := AlignedFrom target (smallBytes target fields) 0 fields

/-- The wire names of a field: its own, or those of an `Option`'s value and presence flag. -/
def Field.wireNames (field : Field) : List String :=
  match field.ty with
  | .option _ => [field.name ++ "_value", field.name ++ "_has"]
  | _ => [field.name]

/-- No two wire fields have one name, and none that of the pad. -/
def NamesDiffer (fields : List Field) : Prop := (fields.flatMap Field.wireNames ++ ["_pad"]).Nodup

variable {target} {tokens : Ty → String} {field : Field} {fields : List Field} {part : Expansion}
  {parts : List Expansion} {ty inner : Ty} {w : WireField} {ahead all off : Nat}

instance decidableAlignedFrom (all : Nat) : (ahead : Nat) → (fields : List Field) →
    Decidable (AlignedFrom target all ahead fields)
  | _, [] => isTrue trivial
  | ahead, field :: fields =>
    have := decidableAlignedFrom all (ahead + field.smallBytes target) fields
    inferInstanceAs (Decidable (_ ∧ _))

instance (fields : List Field) : Decidable (SmallSignedFit target fields) :=
  inferInstanceAs (Decidable (AlignedFrom _ _ _ _))

instance (fields : List Field) : Decidable (NamesDiffer fields) := inferInstanceAs (Decidable (List.Nodup _))

/-! ## Ranks and alignments -/

/-- A rank above 0 is the alignment's own: 8, 4, 2 or 1. -/
def WireField.Ranked (target : Target) (w : WireField) : Prop :=
  w.rank ≠ 0 → (w.ty.shape target).align = 2 ^ (4 - w.rank)

theorem wireAlign_dvd (ty : Ty) : ty.wireAlign ∣ 16 := by
  induction ty with
  | int t => cases t <;> decide
  | float t => cases t <;> decide
  | usize | isize => exact Nat.dvd_mul_right 8 2
  | bool | enum _ | unit => exact Nat.one_dvd 16
  | array elem len ih => exact ih
  | option inner =>
    cases inner with
    | int t => cases t <;> decide
    | float t => cases t <;> decide
    | bool => decide
    | usize | isize | option _ | array _ _ | enum _ | unit => exact Nat.dvd_mul_right 8 2

theorem shape_align (hword : target.word = 8) (h : ty.isNumeric = true) : (ty.shape target).align = ty.wireAlign := by
  induction ty with
  | int t => rfl
  | float t => rfl
  | usize | isize => exact hword
  | array elem len ih => exact ih h
  | bool | option _ | enum _ | unit => cases h

theorem alignRank_eq_zero (h : ty.isNumeric = true) :
    alignRank ty = 0 ↔ (ty.isSmallSigned || ty.wireAlign == 16) = true := by
  induction ty with
  | int t => cases t <;> decide
  | float t => cases t <;> decide
  | usize | isize => decide
  | array elem len ih => exact ih h
  | bool | option _ | enum _ | unit => cases h

theorem wireAlign_of_alignRank (h : ty.isNumeric = true) (hrank : alignRank ty ≠ 0) :
    ty.wireAlign = 2 ^ (4 - alignRank ty) := by
  induction ty with
  | int t => revert hrank; cases t <;> decide
  | float t => cases t <;> decide
  | usize | isize => decide
  | array elem len ih => exact ih h hrank
  | bool | option _ | enum _ | unit => cases h

/-- The field's widest wire field and what may follow it, a presence flag. -/
structure Widest (target : Target) (field : Field) (w : WireField) (rest : List WireField) : Prop where
  align : (w.ty.shape target).align = field.ty.wireAlign
  first : w.rank = 0 ↔ field.isFirst = true
  ranked : w.Ranked target
  small : field.ty.isSmallSigned = true → w.ty = field.ty
  flags : ∀ r ∈ rest, r.ty = .int .u8 ∧ r.rank = 4

/-- A wire field of an integer type that the field's own type does not decide. -/
theorem int_widest (name : String) {t : IntTy} {rank : Nat} {rest : List WireField}
    (hsmall : field.ty.isSmallSigned = false) (halign : t.bytes = field.ty.wireAlign)
    (hfirst : rank = 0 ↔ t.bytes = 16) (hranked : rank ≠ 0 → t.bytes = 2 ^ (4 - rank))
    (hflags : ∀ r ∈ rest, r.ty = .int .u8 ∧ r.rank = 4) : Widest target field ⟨name, .int t, rank⟩ rest where
  align := halign
  first := by
    rw [Field.isFirst, hsmall, Bool.false_or, beq_iff_eq, ← halign]
    exact hfirst
  ranked := hranked
  small := fun h => by
    rw [hsmall] at h
    cases h
  flags := hflags

theorem flag_only (name : String) : ∀ r ∈ [WireField.mk name (.int .u8) 4], r.ty = .int .u8 ∧ r.rank = 4 := by
  intro r hr
  obtain rfl := List.mem_singleton.mp hr
  exact ⟨rfl, rfl⟩

/-- The value of an `Option` is as wide as its rank says. -/
theorem classifyOption_wire {wireTy : Ty} {conv back : Snippet} {isUsizeIsize : Bool} (h : inner.isScalar = true)
    (hkind : classifyOption inner = .option wireTy conv back isUsizeIsize) :
    ∃ t : IntTy, wireTy = .int t ∧ t.bytes = (Ty.option inner).wireAlign ∧
      (optionRank wireTy = 0 ↔ t.bytes = 16) ∧ (optionRank wireTy ≠ 0 → t.bytes = 2 ^ (4 - optionRank wireTy)) := by
  cases inner with
  | int t =>
    cases t <;>
    · cases hkind
      exact ⟨_, rfl, rfl, by decide, by decide⟩
  | float t =>
    cases t <;>
    · cases hkind
      exact ⟨_, rfl, rfl, by decide, by decide⟩
  | bool | usize | isize =>
    cases hkind
    exact ⟨_, rfl, rfl, by decide, by decide⟩
  | option _ | array _ _ | enum _ | unit => cases h

/-- What a supported field puts on the wire. -/
theorem Arm.widest (hword : target.word = 8) (h : Arm tokens field part) :
    ∃ w rest, part.wireFields = w :: rest ∧ Widest target field w rest := by
  cases h with
  | passthrough hnum =>
    refine ⟨_, [], rfl, shape_align hword hnum, alignRank_eq_zero hnum, ?_, fun _ => rfl, fun r hr => by cases hr⟩
    intro hrank
    exact (shape_align hword hnum).trans (wireAlign_of_alignRank hnum hrank)
  | bool hty =>
    refine ⟨_, [], rfl, int_widest _ ?_ ?_ (by decide) (by decide) (fun r hr => by cases hr)⟩
    · rw [hty]; rfl
    · rw [hty]; rfl
  | usize hty | isize hty =>
    refine ⟨_, [], rfl, int_widest _ ?_ ?_ (by decide) (by decide) (fun r hr => by cases hr)⟩
    · rw [hty]; rfl
    · rw [hty]; rfl
  | option hty hinner hkind =>
    obtain ⟨t, rfl, halign, hfirst, hranked⟩ := classifyOption_wire hinner hkind
    refine ⟨_, _, rfl, int_widest _ ?_ ?_ hfirst hranked (flag_only _)⟩
    · rw [hty]; rfl
    · rw [hty, halign]
  | enum hty hbytes =>
    refine ⟨_, [], rfl, int_widest _ ?_ ?_ (by decide) (by decide) (fun r hr => by cases hr)⟩
    · rw [hty]; rfl
    · rw [hty]; rfl

theorem Arm.assertions (h : Arm tokens field part) :
    ∀ a ∈ part.assertions, a.holds target = true := by
  intro a ha
  cases h with
  | passthrough hnum =>
    obtain rfl := List.mem_singleton.mp ha
    exact isPod_of_isNumeric hnum
  | bool _ | usize _ | isize _ | option _ _ _ => cases ha
  | enum hty hbytes =>
    obtain rfl := List.mem_singleton.mp ha
    rw [hty]
    exact beq_iff_eq.mpr hbytes

theorem wireNames_single (h : field.ty.isNumeric = true) : field.wireNames = [field.name] := by
  rw [Field.wireNames]
  cases hty : field.ty with
  | option _ =>
    rw [hty] at h
    cases h
  | _ => rfl

/-- A supported field's wire fields have the names that its type gives them. -/
theorem Arm.wireNames (h : Arm tokens field part) : part.wireFields.map WireField.name = field.wireNames := by
  cases h with
  | passthrough hnum => exact (wireNames_single hnum).symm
  | bool hty | usize hty | isize hty | option hty _ _ | enum hty _ =>
    rw [Field.wireNames, hty]
    rfl

/-! ## The fields of rank 0 -/

/-- The rank-0 wire fields, in declaration order. -/
def leading (parts : List Expansion) : List WireField :=
  (parts.flatMap Expansion.wireFields).filter fun w => w.rank == 0

def shapes (target : Target) (ws : List WireField) : List Shape := ws.map fun w => w.ty.shape target

theorem Widest.size_mod {rest : List WireField} (h : Widest target field w rest) (hfirst : field.isFirst = true) :
    (w.ty.shape target).size ≡ field.smallBytes target [MOD 16] := by
  cases hsmall : field.ty.isSmallSigned with
  | true =>
    rw [Field.smallBytes, if_pos hsmall, h.small hsmall]
  | false =>
    rw [Field.isFirst, hsmall, Bool.false_or, beq_iff_eq] at hfirst
    have hdvd := (w.ty.shape target).whole
    rw [h.align, hfirst] at hdvd
    rw [Field.smallBytes, hsmall, if_neg Bool.false_ne_true]
    exact (Nat.modEq_zero_iff_dvd).mpr hdvd

/-- Wire fields of other ranks, as far as the condition on the fields speaks of them. -/
def OthersAligned (target : Target) (all : Nat) (parts : List Expansion) : Prop :=
  ∀ w ∈ parts.flatMap Expansion.wireFields, w.rank ≠ 0 → (w.ty.shape target).align ∣ all

theorem flags_aligned {rest : List WireField} (h : Widest target field w rest) :
    ∀ r ∈ rest, r.rank ≠ 0 → (r.ty.shape target).align ∣ all := by
  intro r hr _
  rw [(h.flags r hr).1]
  exact Nat.one_dvd all

theorem leading_cons {rest : List WireField} (hpart : part.wireFields = w :: rest) (h : Widest target field w rest) :
    leading (part :: parts) = (if field.isFirst then [w] else []) ++ leading parts := by
  have hflags : rest.filter (fun r => r.rank == 0) = [] := by
    rw [List.filter_eq_nil_iff]
    intro r hr
    rw [(h.flags r hr).2]
    decide
  rw [leading, List.flatMap_cons, hpart, List.filter_append, List.filter_cons, hflags]
  by_cases hfirst : field.isFirst = true
  · rw [if_pos (beq_iff_eq.mpr (h.first.mpr hfirst)), if_pos hfirst]
    rfl
  · have hrank : ¬ (w.rank == 0) = true := fun hr => hfirst (h.first.mp (beq_iff_eq.mp hr))
    rw [if_neg hrank, if_neg hfirst]
    rfl

theorem othersAligned_cons {rest : List WireField} (hpart : part.wireFields = w :: rest)
    (h : Widest target field w rest) :
    OthersAligned target all (part :: parts) ↔
      (w.rank ≠ 0 → (w.ty.shape target).align ∣ all) ∧ OthersAligned target all parts := by
  unfold OthersAligned
  rw [List.flatMap_cons, hpart]
  constructor
  · intro hall
    exact ⟨hall w (List.mem_append_left _ List.mem_cons_self), fun v hv => hall v (List.mem_append_right _ hv)⟩
  · rintro ⟨hw, hparts⟩ v hv
    rcases List.mem_append.mp hv with hv | hv
    · rcases List.mem_cons.mp hv with rfl | hv
      · exact hw
      · exact flags_aligned h v hv
    · exact hparts v hv

/-- The rank-0 fields are packed and leave the others aligned exactly when each field is
aligned to the small signed bytes before it. -/
theorem packed_leading_iff (hword : target.word = 8) (h : List.Forall₂ (Arm tokens) fields parts)
    (hoff : off ≡ ahead [MOD 16]) :
    Packed off (shapes target (leading parts)) ∧ OthersAligned target all parts ↔
      AlignedFrom target all ahead fields := by
  induction h generalizing off ahead with
  | nil => exact ⟨fun _ => trivial, fun _ => ⟨trivial, fun w hw => by cases hw⟩⟩
  | cons harm _ ih =>
    rename_i field part fields parts _
    obtain ⟨w, rest, hpart, hw⟩ := harm.widest hword
    rw [leading_cons hpart hw, othersAligned_cons hpart hw, AlignedFrom]
    by_cases hfirst : field.isFirst = true
    · have hrank := hw.first.mpr hfirst
      have hnext : off + (w.ty.shape target).size ≡ ahead + field.smallBytes target [MOD 16] :=
        hoff.add (hw.size_mod hfirst)
      have hdvd : (w.ty.shape target).align ∣ off ↔ field.ty.wireAlign ∣ ahead := by
        rw [hw.align]
        exact hoff.dvd_iff (wireAlign_dvd field.ty)
      rw [if_pos hfirst, if_pos hfirst, ← ih hnext, ← hdvd]
      change (_ ∧ _) ∧ _ ↔ _
      constructor
      · rintro ⟨⟨hhere, hpacked⟩, _, hothers⟩
        exact ⟨hhere, hpacked, hothers⟩
      · rintro ⟨hhere, hpacked, hothers⟩
        exact ⟨⟨hhere, hpacked⟩, fun hne => absurd hrank hne, hothers⟩
    · have hrank : w.rank ≠ 0 := fun hr => hfirst (hw.first.mp hr)
      have hsmall : field.smallBytes target = 0 := by
        rw [Field.isFirst, Bool.or_eq_true, not_or] at hfirst
        rw [Field.smallBytes, if_neg hfirst.1]
      rw [if_neg hfirst, if_neg hfirst, List.nil_append, hsmall, Nat.add_zero, ← ih hoff, hw.align]
      constructor
      · rintro ⟨hpacked, hhere, hothers⟩
        exact ⟨hhere hrank, hpacked, hothers⟩
      · rintro ⟨hhere, hpacked, hothers⟩
        exact ⟨hpacked, fun _ => hhere, hothers⟩

/-- The rank-0 fields take the small signed bytes, up to a multiple of 16. -/
theorem total_leading (hword : target.word = 8) (h : List.Forall₂ (Arm tokens) fields parts) :
    Layout.total (shapes target (leading parts)) ≡ smallBytes target fields [MOD 16] := by
  induction h with
  | nil => exact Nat.ModEq.refl 0
  | cons harm _ ih =>
    rename_i field part fields parts _
    obtain ⟨w, rest, hpart, hw⟩ := harm.widest hword
    rw [leading_cons hpart hw, smallBytes, List.map_cons, List.sum_cons]
    by_cases hfirst : field.isFirst = true
    · rw [if_pos hfirst]
      change Layout.total (_ :: shapes target (leading parts)) ≡ _ [MOD 16]
      rw [Layout.total_cons]
      exact (hw.size_mod hfirst).add ih
    · have hsmall : field.smallBytes target = 0 := by
        rw [Field.isFirst, Bool.or_eq_true, not_or] at hfirst
        rw [Field.smallBytes, if_neg hfirst.1]
      rw [if_neg hfirst, List.nil_append, hsmall, Nat.zero_add]
      exact ih

theorem ranked_of_mem (hword : target.word = 8) (h : List.Forall₂ (Arm tokens) fields parts) :
    ∀ w ∈ parts.flatMap Expansion.wireFields, w.Ranked target := by
  induction h with
  | nil => exact fun w hw => by cases hw
  | cons harm _ ih =>
    obtain ⟨v, rest, hpart, hv⟩ := harm.widest hword
    intro w hw
    rw [List.flatMap_cons, hpart] at hw
    rcases List.mem_append.mp hw with hw | hw
    · rcases List.mem_cons.mp hw with rfl | hw
      · exact hv.ranked
      · obtain ⟨hty, hrank⟩ := hv.flags w hw
        intro _
        rw [hty, hrank]
        rfl
    · exact ih w hw

/-! ## The whole struct -/

/-- The emitted order is packed exactly under the condition on the small signed fields. -/
theorem packed_emit_iff (hword : target.word = 8) (h : List.Forall₂ (Arm tokens) fields parts) :
    Packed 0 ((emit parts).shapes target) ↔ SmallSignedFit target fields := by
  let sorted := sortByKey WireField.rank (parts.flatMap Expansion.wireFields)
  let others := sorted.filter fun w => !(w.rank == 0)
  have hsorted : sorted.Pairwise fun v w => v.rank ≤ w.rank := sortByKey_pairwise _ _
  have hsplit : sorted = leading parts ++ others := by
    rw [leading, ← filter_sortByKey]
    exact eq_zeros_append hsorted
  have hmem : ∀ w, w ∈ others ↔ w ∈ parts.flatMap Expansion.wireFields ∧ w.rank ≠ 0 := by
    intro w
    rw [List.mem_filter, mem_sortByKey, Bool.not_eq_true', beq_eq_false_iff_ne]
  have hdescending : (shapes target others).Pairwise fun f g => g.align ∣ f.align := by
    rw [shapes, List.pairwise_map]
    refine (hsorted.filter _).imp_of_mem ?_
    intro v w hv hw hle
    obtain ⟨hv, hv0⟩ := (hmem v).mp hv
    obtain ⟨hw, hw0⟩ := (hmem w).mp hw
    rw [ranked_of_mem hword h v hv hv0, ranked_of_mem hword h w hw hw0]
    exact pow_dvd_pow 2 (by omega)
  have hothers : (∀ f ∈ shapes target others, f.align ∣ Layout.total (shapes target (leading parts))) ↔
      OthersAligned target (smallBytes target fields) parts := by
    rw [shapes, List.forall_mem_map]
    have hdvd : ∀ w ∈ parts.flatMap Expansion.wireFields, w.rank ≠ 0 →
        ((w.ty.shape target).align ∣ Layout.total (shapes target (leading parts)) ↔
          (w.ty.shape target).align ∣ smallBytes target fields) := by
      intro w hw hrank
      refine (total_leading hword h).dvd_iff ?_
      rw [ranked_of_mem hword h w hw hrank]
      exact pow_dvd_pow 2 (Nat.sub_le 4 w.rank)
    constructor
    · intro hall w hw hrank
      exact (hdvd w hw hrank).mp (hall w ((hmem w).mpr ⟨hw, hrank⟩))
    · intro hall w hw
      obtain ⟨hw, hrank⟩ := (hmem w).mp hw
      exact (hdvd w hw hrank).mpr (hall w hw hrank)
  change Packed 0 (shapes target sorted) ↔ _
  rw [hsplit, shapes, List.map_append, Layout.packed_append, Nat.zero_add, SmallSignedFit,
    ← packed_leading_iff hword h (Nat.ModEq.refl 0), ← hothers]
  exact and_congr_right fun _ => Layout.packed_descending hdescending

theorem noPadding_emit_iff (hword : target.word = 8) (h : List.Forall₂ (Arm tokens) fields parts) :
    Layout.NoPadding ((emit parts).layout target) ↔ SmallSignedFit target fields :=
  Layout.noPadding_closed_iff.trans (packed_emit_iff hword h)

theorem assertions_emit (hword : target.word = 8) (h : List.Forall₂ (Arm tokens) fields parts) :
    (emit parts).assertions.all (Assertion.holds target) = true := by
  have hparts : ∀ a ∈ parts.flatMap Expansion.assertions, a.holds target = true := by
    induction h with
    | nil => exact fun a ha => by cases ha
    | cons harm _ ih =>
      intro a ha
      rw [List.flatMap_cons] at ha
      rcases List.mem_append.mp ha with ha | ha
      · exact harm.assertions a ha
      · exact ih a ha
  rw [List.all_eq_true]
  intro a ha
  rcases List.mem_append.mp ha with ha | ha
  · exact hparts a ha
  · split at ha
    · obtain rfl := List.mem_singleton.mp ha
      exact decide_eq_true hword.le
    · cases ha

/-- The wire struct declares the fields' wire names and the pad, in some order. -/
theorem wireNames_emit (h : List.Forall₂ (Arm tokens) fields parts) :
    List.Perm (emit parts).wireNames (fields.flatMap Field.wireNames ++ ["_pad"]) := by
  have hparts : (parts.flatMap Expansion.wireFields).map WireField.name = fields.flatMap Field.wireNames := by
    induction h with
    | nil => rfl
    | cons harm _ ih => rw [List.flatMap_cons, List.flatMap_cons, List.map_append, harm.wireNames, ih]
  rw [← hparts]
  exact ((sortByKey_perm _ _).map _).append_right _

theorem sizeAssertion_emit_iff (hword : target.word = 8) (h : List.Forall₂ (Arm tokens) fields parts) :
    (emit parts).sizeAssertion target = true ↔ SmallSignedFit target fields := by
  rw [Derived.sizeAssertion, beq_iff_eq]
  exact Layout.size_closed_iff.trans (packed_emit_iff hword h)

theorem accepted_emit_iff (hword : target.word = 8) (h : List.Forall₂ (Arm tokens) fields parts) :
    (emit parts).accepted target = true ↔ SmallSignedFit target fields ∧ NamesDiffer fields := by
  rw [Derived.accepted, assertions_emit hword h, Bool.true_and, Bool.and_eq_true, decide_eq_true_iff,
    sizeAssertion_emit_iff hword h, (wireNames_emit h).nodup_iff, NamesDiffer]

/-- The wire struct of supported fields has no padding, and its assertion on the size holds,
exactly when every field is aligned to the small signed bytes that the macro puts before it.
It is accepted when moreover its fields have names of their own. -/
theorem padding_free_iff (tokens : Ty → String) (target : Target) (hword : target.word = 8) (fields : List Field)
    (h : ∀ field ∈ fields, field.Supported) :
    ∃ d, deriveMessage tokens (.namedStruct fields) = .ok d ∧
      (Layout.NoPadding (d.layout target) ↔ SmallSignedFit target fields) ∧
      (d.sizeAssertion target = true ↔ SmallSignedFit target fields) ∧
      (d.accepted target = true ↔ SmallSignedFit target fields ∧ NamesDiffer fields) := by
  obtain ⟨parts, hderive, harms⟩ := deriveMessage_supported tokens h
  exact ⟨emit parts, hderive, noPadding_emit_iff hword harms, sizeAssertion_emit_iff hword harms,
    accepted_emit_iff hword harms⟩

/-- Two 32-bit signed fields fill the word before a 64-bit one. -/
def signedPair : List Field :=
  [⟨"id", .option (.int .u128), false⟩, ⟨"flag", .bool, false⟩, ⟨"x", .int .i32, false⟩, ⟨"y", .int .i32, false⟩,
    ⟨"at", .array (.array (.int .u64) 2) 3, false⟩]

theorem signedPair_padding_free :
    ∃ d, deriveMessage (fun _ => "") (.namedStruct signedPair) = .ok d ∧
      Layout.NoPadding (d.layout word64) ∧ d.accepted word64 = true := by
  have hfit : SmallSignedFit word64 signedPair := by decide
  have hnames : NamesDiffer signedPair := by decide
  obtain ⟨d, hderive, hlayout, _, haccepted⟩ :=
    padding_free_iff (fun _ => "") word64 rfl signedPair (supported_of_all rfl)
  exact ⟨d, hderive, hlayout.mpr hfit, haccepted.mpr ⟨hfit, hnames⟩⟩

/-- Without small signed fields there is nothing to ask. -/
theorem smallSignedFit_of_none (h : ∀ field ∈ fields, field.ty.isSmallSigned = false) :
    SmallSignedFit target fields := by
  have hbytes : ∀ field ∈ fields, field.smallBytes target = 0 := fun field hf => by
    rw [Field.smallBytes, h field hf, if_neg Bool.false_ne_true]
  have haligned : ∀ all, all = 0 → AlignedFrom target all 0 fields := by
    intro all hall
    clear h
    induction fields with
    | nil => trivial
    | cons field fields ih =>
      refine ⟨?_, ?_⟩
      · rw [hall, ite_self]
        exact Nat.dvd_zero _
      · rw [hbytes field List.mem_cons_self]
        exact ih fun g hg => hbytes g (List.mem_cons_of_mem _ hg)
  refine haligned _ ?_
  rw [smallBytes, List.map_congr_left hbytes, List.map_const', List.sum_replicate_nat, Nat.mul_zero]

/-- A 32-bit signed field before a 64-bit one. -/
def signedThenWord : List Field := [⟨"a", .int .i32, false⟩, ⟨"b", .int .u64, false⟩]

/-- Four bytes of the wire struct belong to no field and its assertion fails. -/
theorem signed_field_leaves_gap :
    (∀ field ∈ signedThenWord, field.Supported) ∧
      ∀ (tokens : Ty → String) (target : Target), target.word = 8 →
        ∃ d, deriveMessage tokens (.namedStruct signedThenWord) = .ok d ∧
          ¬ Layout.NoPadding (d.layout target) ∧ d.accepted target = false := by
  have hsupported : ∀ field ∈ signedThenWord, field.Supported := supported_of_all rfl
  refine ⟨hsupported, ?_⟩
  intro tokens target hword
  obtain ⟨parts, hderive, harms⟩ := deriveMessage_supported tokens hsupported
  have hgap : ¬ SmallSignedFit target signedThenWord := by
    intro h
    have hb : 8 ∣ 4 := h.2.1
    revert hb
    decide
  refine ⟨emit parts, hderive, ?_, ?_⟩
  · rw [noPadding_emit_iff hword harms]
    exact hgap
  · rw [← Bool.not_eq_true, accepted_emit_iff hword harms]
    exact fun h => hgap h.1

end PhotonRing.Derive
