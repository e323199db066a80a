import PhotonRing.Lib.IntCast
import PhotonRing.Lib.Layout
import PhotonRing.Lib.Ranked

/-!
# `derive(Message)` (`photon-ring-derive/src/lib.rs`)

The macro sees the tokens of a field's type: an array, a path whose last segment has a name,
or something else. It gives each field one or two fields of the wire struct, sorts those by
rank and closes the struct with a pad. What the compiler then makes of the generated items
(layout, assertions) is the second half of the file.
-/
namespace PhotonRing.Derive

open PhotonRing.Lib
open PhotonRing.Lib.Layout (Shape)

inductive IntTy where
  | u8 | u16 | u32 | u64 | u128 | i8 | i16 | i32 | i64 | i128
deriving DecidableEq, Repr

def IntTy.bytes : IntTy → Nat
  | .u8 | .i8 => 1
  | .u16 | .i16 => 2
  | .u32 | .i32 => 4
  | .u64 | .i64 => 8
  | .u128 | .i128 => 16

def IntTy.signed : IntTy → Bool
  | .u8 | .u16 | .u32 | .u64 | .u128 => false
  | .i8 | .i16 | .i32 | .i64 | .i128 => true

def IntTy.name : IntTy → String
  | .u8 => "u8" | .u16 => "u16" | .u32 => "u32" | .u64 => "u64" | .u128 => "u128"
  | .i8 => "i8" | .i16 => "i16" | .i32 => "i32" | .i64 => "i64" | .i128 => "i128"

def IntTy.width (t : IntTy) : Width := ⟨t.signed, 8 * t.bytes⟩

inductive FloatTy where
  | f32 | f64
deriving DecidableEq, Repr

def FloatTy.bytes : FloatTy → Nat
  | .f32 => 4
  | .f64 => 8

def FloatTy.name : FloatTy → String
  | .f32 => "f32"
  | .f64 => "f64"

/-- A fieldless enum with its representation. -/
structure EnumDecl where
  name : String
  repr : IntTy
  discriminants : List Int
  nodup : discriminants.Nodup
  fits : ∀ d ∈ discriminants, repr.width.InRange d

/-- Types a field may have. `unit` stands for those that are neither a path nor an array. -/
inductive Ty where
  | int (t : IntTy)
  | float (t : FloatTy)
  | bool
  | usize
  | isize
  | option (inner : Ty)
  | array (elem : Ty) (len : Nat)
  | enum (decl : EnumDecl)
  | unit

/-- `type_name`: the last segment of a path. -/
def typeName : Ty → Option String
  | .int t => some t.name
  | .float t => some t.name
  | .bool => some "bool"
  | .usize => some "usize"
  | .isize => some "isize"
  | .option _ => some "Option"
  | .enum decl => some decl.name
  | .array _ _ | .unit => none

/-- The first type in the angle brackets of the last segment. -/
def Ty.firstArgument : Ty → Option Ty
  | .option inner => some inner
  | _ => none

/-- `align_rank`. -/
def alignRank : Ty → Nat
  | .array elem _ => alignRank elem
  | ty =>
    match typeName ty with
    | some "u128" | some "i128" => 0
    | some "u64" | some "i64" | some "f64" | some "usize" | some "isize" => 1
    | some "u32" | some "f32" => 2
    | some "u16" => 3
    | some "u8" => 4
    | _ => 0

/-- The conversions of one value that the macro writes. -/
inductive Snippet where
  /-- `v` -/
  | same
  /-- `if v { 1 } else { 0 }` -/
  | bit
  /-- `v != 0` -/
  | nonzero
  /-- `v.to_bits()` -/
  | toBits
  /-- `f32::from_bits(v)`, `f64::from_bits(v)` -/
  | fromBits (t : FloatTy)
  /-- `v as ty` -/
  | cast (ty : Ty)
  /-- `transmute::<u8, ty>(v)` -/
  | transmute (ty : Ty)

inductive FieldKind where
  | passthrough
  | bool
  | usize
  | isize
  | option (wireTy : Ty) (toValue fromValue : Snippet) (isUsizeIsize : Bool)
  | enum
  | unsupported
  | unsupportedOption (name : String)

/-- The inner types of `Option` that `classify` knows by name. -/
def classifyOption (inner : Ty) : FieldKind :=
  let name := (typeName inner).getD ""
  match name with
  | "bool" => .option (.int .u8) .bit .nonzero false
  | "f32" => .option (.int .u32) .toBits (.fromBits .f32) false
  | "f64" => .option (.int .u64) .toBits (.fromBits .f64) false
  | "u128" => .option (.int .u128) .same .same false
  | "i128" => .option (.int .u128) (.cast (.int .u128)) (.cast (.int .i128)) false
  | "usize" => .option (.int .u64) (.cast (.int .u64)) (.cast .usize) true
  | "isize" => .option (.int .i64) (.cast (.int .i64)) (.cast .isize) true
  | "u8" | "u16" | "u32" | "u64" => .option (.int .u64) (.cast (.int .u64)) (.cast inner) false
  | "i8" | "i16" | "i32" | "i64" => .option (.int .i64) (.cast (.int .i64)) (.cast inner) false
  | name => .unsupportedOption name

/-- `classify`. -/
def classify (ty : Ty) : FieldKind :=
  match ty with
  | .array _ _ => .passthrough
  | _ =>
    match typeName ty with
    | none => .unsupported
    | some id =>
      match id with
      | "u8" | "u16" | "u32" | "u64" | "u128" | "i8" | "i16" | "i32" | "i64" | "i128" | "f32" | "f64" => .passthrough
      | "bool" => .bool
      | "usize" => .usize
      | "isize" => .isize
      | "Option" =>
        match ty.firstArgument with
        | some inner => classifyOption inner
        | none => .unsupportedOption ""
      | _ => .unsupported

/-- A named field; `asEnum` says that it has `#[photon(as_enum)]`. -/
structure Field where
  name : String
  ty : Ty
  asEnum : Bool

/-- A field of the wire struct, with its rank. -/
structure WireField where
  name : String
  ty : Ty
  rank : Nat

/-- Initialisers of the wire struct; they read fields of the domain struct. -/
inductive ToWire where
  /-- `src.f`, converted -/
  | value (field : String) (conv : Snippet)
  /-- `match src.f { Some(v) => .., None => 0 }` -/
  | optionValue (field : String) (conv : Snippet)
  /-- `if src.f.is_some() { 1 } else { 0 }` -/
  | optionHas (field : String)
  /-- `[0; len]` -/
  | zeros (len : Nat)

/-- Initialisers of the domain struct; they read fields of the wire struct. -/
inductive FromWire where
  /-- `src.f`, converted -/
  | value (field : String) (conv : Snippet)
  /-- `if src.f_has != 0 { let raw = src.f_value; Some(..) } else { None }` -/
  | option (hasField valueField : String) (conv : Snippet)

/-- Compile-time assertions of the generated code, with their message. -/
inductive Assertion where
  /-- `_assert_pod::<ty>()` -/
  | pod (ty : Ty)
  /-- `size_of::<ty>() == 1` -/
  | oneByte (ty : Ty) (message : String)
  /-- `size_of::<usize>() <= size_of::<u64>()` -/
  | usizeFits (message : String)

/-- What the loop over the fields pushes for one of them. -/
structure Expansion where
  wireFields : List WireField
  toWire : List (String × ToWire)
  fromWire : String × FromWire
  assertions : List Assertion
  isUsizeIsize : Bool
  isEnum : Bool

/-- The rank of the value of an `Option`, by the name of its wire type. -/
def optionRank (wireTy : Ty) : Nat :=
  match typeName wireTy with
  | some "u128" => 0
  | some "u32" => 2
  | some "u16" => 3
  | some "u8" => 4
  | _ => 1

variable (tokens : Ty → String)

/-- A field that keeps its name on the wire. -/
def Expansion.single (fname : String) (wireTy : Ty) (rank : Nat) (conv back : Snippet) (assertions : List Assertion)
    (isUsizeIsize isEnum : Bool) : Expansion :=
  { wireFields := [⟨fname, wireTy, rank⟩]
    toWire := [(fname, .value fname conv)]
    fromWire := (fname, .value fname back)
    assertions
    isUsizeIsize
    isEnum }

/-- A field that becomes a value and a presence flag. -/
def Expansion.pair (fname : String) (wireTy : Ty) (conv back : Snippet) (isUsizeIsize : Bool) : Expansion :=
  let valueField := fname ++ "_value"
  let hasField := fname ++ "_has"
  { wireFields := [⟨valueField, wireTy, optionRank wireTy⟩, ⟨hasField, .int .u8, 4⟩]
    toWire := [(valueField, .optionValue fname conv), (hasField, .optionHas fname)]
    fromWire := (fname, .option hasField valueField back)
    assertions := []
    isUsizeIsize
    isEnum := false }

/-- One round of the loop over the fields. `tokens` prints a type. -/
def expand (field : Field) : Except String Expansion :=
  let fname := field.name
  let fty := field.ty
  match (if field.asEnum then FieldKind.enum else classify fty) with
  | .passthrough => .ok (.single fname fty (alignRank fty) .same .same [.pod fty] false false)
  | .bool => .ok (.single fname (.int .u8) 4 .bit .nonzero [] false false)
  | .usize => .ok (.single fname (.int .u64) 1 (.cast (.int .u64)) (.cast .usize) [] true false)
  | .isize => .ok (.single fname (.int .i64) 1 (.cast (.int .i64)) (.cast .isize) [] true false)
  | .option wireTy toValue fromValue isUsizeIsize => .ok (.pair fname wireTy toValue fromValue isUsizeIsize)
  | .enum =>
    let msg := "Message derive: field `" ++ fname ++ "` has type `" ++ tokens fty ++
      "` which is not 1 byte. Enum fields must have #[repr(u8)]."
    .ok (.single fname (.int .u8) 4 (.cast (.int .u8)) (.transmute fty) [.oneByte fty msg] false true)
  | .unsupported =>
    .error ("Unsupported field type `" ++ tokens fty ++
      "`. Use #[photon(as_enum)] for #[repr(u8)] enum fields, or convert to a numeric type manually.")
  | .unsupportedOption inner =>
    .error ("Message derive: field `" ++ fname ++ "` has unsupported type `Option<" ++ inner ++
      ">`. Only Option<bool>, Option<integer>, Option<f32>, and Option<f64> are supported.")

/-- The item the macro is applied to. -/
inductive Data where
  | namedStruct (fields : List Field)
  | otherStruct
  | notStruct

/-- The generated code. -/
structure Derived where
  /-- Wire fields in the order they are emitted, without the pad. -/
  wireFields : List WireField
  toWire : List (String × ToWire)
  fromWire : List (String × FromWire)
  assertions : List Assertion
  /-- The way back is an unsafe method. -/
  hasEnumFields : Bool

/-- The items generated from what the fields gave. -/
def emit (parts : List Expansion) : Derived :=
  { wireFields := sortByKey WireField.rank (parts.flatMap Expansion.wireFields)
    toWire := parts.flatMap Expansion.toWire
    fromWire := parts.map Expansion.fromWire
    assertions := parts.flatMap Expansion.assertions ++
      if parts.any Expansion.isUsizeIsize then
        [.usizeFits "photon-ring Message derive requires usize to fit in u64"]
      else []
    hasEnumFields := parts.any Expansion.isEnum }

/-- `derive_message`. -/
def deriveMessage : Data → Except String Derived
  | .namedStruct fields => do
    let parts ← fields.mapM (expand tokens)
    .ok (emit parts)
  | .otherStruct => .error "Message can only be derived for structs with named fields"
  | .notStruct => .error "Message can only be derived for structs"

/-! ## What the compiler makes of it -/

/-- The bytes of a `usize`, and the layouts the language leaves to the compiler. -/
structure Target where
  word : Nat
  pos : 0 < word
  optionShape : Ty → Shape

/-- A 64-bit target. No wire field is an `Option`; the shape given is that of `Option<u64>`. -/
def word64 : Target := ⟨8, by decide, fun _ => ⟨16, 8, by decide, by decide⟩⟩

variable (target : Target)

/-- A primitive type is aligned to its size. -/
def primitive (bytes : Nat) (h : 0 < bytes) : Shape := ⟨bytes, bytes, h, Nat.dvd_refl bytes⟩

theorem IntTy.bytes_pos (t : IntTy) : 0 < t.bytes := by cases t <;> decide

theorem FloatTy.bytes_pos (t : FloatTy) : 0 < t.bytes := by cases t <;> decide

/-- `size_of` and `align_of`. -/
def Ty.shape : Ty → Shape
  | .int t => primitive t.bytes t.bytes_pos
  | .float t => primitive t.bytes t.bytes_pos
  | .bool => primitive 1 Nat.one_pos
  | .usize | .isize => primitive target.word target.pos
  | .option inner => target.optionShape inner
  | .array elem len =>
    ⟨len * elem.shape.size, elem.shape.align, elem.shape.pos, Nat.dvd_mul_left_of_dvd elem.shape.whole len⟩
  | .enum decl => primitive decl.repr.bytes decl.repr.bytes_pos
  | .unit => Shape.bytes 0

/-- The types with an `impl Pod` (`src/pod.rs`). -/
def Ty.isPod : Ty → Bool
  | .int _ | .float _ | .usize | .isize | .unit => true
  | .array elem _ => elem.isPod
  | .bool | .option _ | .enum _ => false

def Assertion.holds : Assertion → Bool
  | .pod ty => ty.isPod
  | .oneByte ty _ => (ty.shape target).size == 1
  | .usizeFits _ => decide (target.word ≤ 8)

def Derived.shapes (d : Derived) : List Shape := d.wireFields.map fun w => w.ty.shape target

/-- The constant `__.._TAIL_PAD`. -/
def Derived.tailPad (d : Derived) : Nat := Layout.tailPad (d.shapes target)

/-- The wire struct's fields, with `_pad: [u8; TAIL_PAD]` at the end. -/
def Derived.layout (d : Derived) : List Shape := d.shapes target ++ [Shape.bytes (d.tailPad target)]

/-- `size_of::<Wire>() == sum`. -/
def Derived.sizeAssertion (d : Derived) : Bool :=
  Layout.size (d.layout target) == Layout.total (d.shapes target) + d.tailPad target

/-- The names declared in the wire struct. -/
def Derived.wireNames (d : Derived) : List String := d.wireFields.map WireField.name ++ ["_pad"]

/-- Every emitted assertion holds and no field is declared twice. -/
def Derived.accepted (d : Derived) : Bool :=
  d.assertions.all (Assertion.holds target) && d.sizeAssertion target && decide d.wireNames.Nodup

/-! ## Supported fields -/

def Ty.isScalar : Ty → Bool
  | .int _ | .float _ | .bool | .usize | .isize => true
  | _ => false

/-- Primitive numerics and arrays of them. -/
def Ty.isNumeric : Ty → Bool
  | .int _ | .float _ | .usize | .isize => true
  | .array elem _ => elem.isNumeric
  | _ => false

def Ty.isSupported : Ty → Bool
  | .option inner => inner.isScalar
  | .array elem _ => elem.isNumeric
  | ty => ty.isScalar

/-- The fields the macro is documented for. -/
def Field.Supported (field : Field) : Prop :=
  if field.asEnum then ∃ decl : EnumDecl, field.ty = .enum decl ∧ decl.repr.bytes = 1
  else field.ty.isSupported = true

variable {tokens} {target} {field : Field} {fields : List Field} {ty inner wireTy : Ty} {part : Expansion}

theorem supported_of_all (h : (fields.all fun f => !f.asEnum && f.ty.isSupported) = true) :
    ∀ field ∈ fields, field.Supported := by
  intro field hf
  obtain ⟨hplain, hty⟩ := Bool.and_eq_true_iff.mp (List.all_eq_true.mp h field hf)
  rw [Bool.not_eq_true'] at hplain
  rw [Field.Supported, hplain, if_neg Bool.false_ne_true]
  exact hty

theorem IntTy.classify (t : IntTy) : classify (.int t) = .passthrough := by cases t <;> rfl

theorem FloatTy.classify (t : FloatTy) : classify (.float t) = .passthrough := by cases t <;> rfl

/-- The arms of the match that a supported field can take. -/
inductive Arm (tokens : Ty → String) (field : Field) : Expansion → Prop where
  | passthrough (h : field.ty.isNumeric = true) :
    Arm tokens field (.single field.name field.ty (alignRank field.ty) .same .same [.pod field.ty] false false)
  | bool (h : field.ty = .bool) : Arm tokens field (.single field.name (.int .u8) 4 .bit .nonzero [] false false)
  | usize (h : field.ty = .usize) :
    Arm tokens field (.single field.name (.int .u64) 1 (.cast (.int .u64)) (.cast .usize) [] true false)
  | isize (h : field.ty = .isize) :
    Arm tokens field (.single field.name (.int .i64) 1 (.cast (.int .i64)) (.cast .isize) [] true false)
  | option {inner wireTy : Ty} {conv back : Snippet} {isUsizeIsize : Bool} (h : field.ty = .option inner)
    (hinner : inner.isScalar = true) (hkind : classifyOption inner = .option wireTy conv back isUsizeIsize) :
    Arm tokens field (.pair field.name wireTy conv back isUsizeIsize)
  | enum {decl : EnumDecl} {msg : String} (h : field.ty = .enum decl) (hbytes : decl.repr.bytes = 1) :
    Arm tokens field (.single field.name (.int .u8) 4 (.cast (.int .u8)) (.transmute field.ty)
      [.oneByte field.ty msg] false true)

theorem classifyOption_scalar (h : inner.isScalar = true) :
    ∃ wireTy conv back isUsizeIsize, classifyOption inner = .option wireTy conv back isUsizeIsize := by
  cases inner with
  | int t => cases t <;> exact ⟨_, _, _, _, rfl⟩
  | float t => cases t <;> exact ⟨_, _, _, _, rfl⟩
  | bool | usize | isize => exact ⟨_, _, _, _, rfl⟩
  | option _ | array _ _ | enum _ | unit => cases h

theorem expand_supported (tokens : Ty → String) (h : field.Supported) :
    ∃ part, expand tokens field = .ok part ∧ Arm tokens field part := by
  obtain ⟨name, ty, asEnum⟩ := field
  cases asEnum with
  | true =>
    obtain ⟨decl, hty, hbytes⟩ := h
    exact ⟨_, rfl, .enum hty hbytes⟩
  | false =>
    change ty.isSupported = true at h
    cases ty with
    | int t => exact ⟨_, by simp only [expand, Bool.false_eq_true, if_false, t.classify], .passthrough rfl⟩
    | float t => exact ⟨_, by simp only [expand, Bool.false_eq_true, if_false, t.classify], .passthrough rfl⟩
    | array elem len => exact ⟨_, rfl, .passthrough h⟩
    | bool => exact ⟨_, rfl, .bool rfl⟩
    | usize => exact ⟨_, rfl, .usize rfl⟩
    | isize => exact ⟨_, rfl, .isize rfl⟩
    | option inner =>
      obtain ⟨wireTy, conv, back, isUsizeIsize, hkind⟩ := classifyOption_scalar h
      have hclassify : classify (.option inner) = .option wireTy conv back isUsizeIsize := hkind
      exact ⟨_, by simp only [expand, Bool.false_eq_true, if_false, hclassify], .option rfl h hkind⟩
    | enum _ | unit => cases h

/-- A struct of supported fields is expanded field by field. -/
theorem deriveMessage_supported (tokens : Ty → String) (h : ∀ field ∈ fields, field.Supported) :
    ∃ parts, deriveMessage tokens (.namedStruct fields) = .ok (emit parts) ∧
      List.Forall₂ (Arm tokens) fields parts := by
  have hparts : ∃ parts, fields.mapM (expand tokens) = .ok parts ∧ List.Forall₂ (Arm tokens) fields parts := by
    induction fields with
    | nil => exact ⟨[], rfl, .nil⟩
    | cons field fields ih =>
      obtain ⟨part, hpart, harm⟩ := expand_supported tokens (h field List.mem_cons_self)
      obtain ⟨parts, hparts, harms⟩ := ih fun g hg => h g (List.mem_cons_of_mem _ hg)
      refine ⟨part :: parts, ?_, .cons harm harms⟩
      rw [List.mapM_cons, hpart, hparts]
      rfl
  obtain ⟨parts, hparts, harms⟩ := hparts
  refine ⟨parts, ?_, harms⟩
  rw [deriveMessage, hparts]
  rfl

theorem isPod_of_isNumeric (h : ty.isNumeric = true) : ty.isPod = true := by
  induction ty with
  | int _ | float _ | usize | isize => rfl
  | array elem len ih => exact ih h
  | bool | option _ | enum _ | unit => cases h

end PhotonRing.Derive
