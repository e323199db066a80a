import PhotonRing.Derive.Message
import PhotonRing.Lib.Record

/-!
# Values of the domain and the wire struct

A value is read by the generated initialisers, field by field and by name; what the type
checker would refuse evaluates to `none`. A float is its bits.
-/
namespace PhotonRing.Derive

open PhotonRing.Lib

inductive Value where
  | int (n : Int)
  | float (bits : Nat)
  | bool (b : Bool)
  | none
  | some (v : Value)
  | array (vs : List Value)
  | variant (discriminant : Int)
  | unit

variable (target : Target)

/-- The integer types. -/
def Ty.width : Ty → Option Width
  | .int t => Option.some t.width
  | .usize => Option.some ⟨false, 8 * target.word⟩
  | .isize => Option.some ⟨true, 8 * target.word⟩
  | _ => Option.none

def HasType : Ty → Value → Prop
  | .int t, .int n => t.width.InRange n
  | .float t, .float bits => bits < 2 ^ (8 * t.bytes)
  | .bool, .bool _ => True
  | .usize, .int n => Width.InRange ⟨false, 8 * target.word⟩ n
  | .isize, .int n => Width.InRange ⟨true, 8 * target.word⟩ n
  | .option _, .none => True
  | .option inner, .some v => HasType inner v
  | .array elem len, .array vs => vs.length = len ∧ ∀ v ∈ vs, HasType elem v
  | .enum decl, .variant d => d ∈ decl.discriminants
  | .unit, .unit => True
  | _, _ => False

/-- The byte of a one-byte enum is its discriminant's. -/
def byteOf (d : Int) : Int := IntTy.u8.width.wrap d

def Snippet.eval : Snippet → Value → Option Value
  | .same, v => Option.some v
  | .bit, .bool b => Option.some (.int (if b then 1 else 0))
  | .nonzero, .int n => Option.some (.bool (decide (n ≠ 0)))
  | .toBits, .float bits => Option.some (.int bits)
  | .fromBits _, .int n => Option.some (.float n.toNat)
  | .cast ty, .int n => (ty.width target).map fun w => .int (w.wrap n)
  | .cast ty, .variant d => (ty.width target).map fun w => .int (w.wrap d)
  | .transmute (.enum decl), .int n => (decl.discriminants.find? fun d => byteOf d == n).map .variant
  | _, _ => Option.none

/-- The values of a struct's fields. -/
abbrev Fields := List (String × Value)

def ToWire.eval (src : Fields) : ToWire → Option Value
  | .value field conv => (src.lookup field).bind (conv.eval target)
  | .optionValue field conv =>
    match src.lookup field with
    | Option.some (.some v) => conv.eval target v
    | Option.some .none => Option.some (.int 0)
    | _ => Option.none
  | .optionHas field =>
    match src.lookup field with
    | Option.some (.some _) => Option.some (.int 1)
    | Option.some .none => Option.some (.int 0)
    | _ => Option.none
  | .zeros len => Option.some (.array (List.replicate len (.int 0)))

def FromWire.eval (src : Fields) : FromWire → Option Value
  | .value field conv => (src.lookup field).bind (conv.eval target)
  | .option hasField valueField conv =>
    match src.lookup hasField with
    | Option.some (.int has) =>
      if has ≠ 0 then ((src.lookup valueField).bind (conv.eval target)).map .some else Option.some .none
    | _ => Option.none

/-- The declaration of the wire struct. -/
def Derived.wireStruct (d : Derived) : List (String × Ty) :=
  d.wireFields.map (fun w => (w.name, w.ty)) ++ [("_pad", .array (.int .u8) (d.tailPad target))]

/-- The struct literal in `From<Name> for Wire`. -/
def Derived.wireInitialisers (d : Derived) : List (String × ToWire) :=
  d.toWire ++ [("_pad", .zeros (d.tailPad target))]

/-- `From<Name> for Wire`: each declared field takes the value of its initialiser. -/
def Derived.intoWire (d : Derived) (src : Fields) : Option Fields :=
  (d.wireStruct target).mapM fun s => do
    let init ← (d.wireInitialisers target).lookup s.1
    let v ← init.eval target src
    pure (s.1, v)

/-- `into_domain`, `From<Wire> for Name`. -/
def Derived.intoDomain (d : Derived) (src : Fields) : Option Fields :=
  d.fromWire.mapM fun init => do
    let v ← init.2.eval target src
    pure (init.1, v)

/-- A value of the domain struct. -/
structure Domain (fields : List Field) where
  values : Fields
  typed : Aligned (HasType target) (fields.map fun f => (f.name, f.ty)) values

/-- A value of the wire struct. -/
structure Wire (d : Derived) where
  values : Fields
  typed : Aligned (HasType target) (d.wireStruct target) values

/-- The compiler takes the generated code: the assertions hold and no two fields of the wire
struct have one name. The layout plays no part in the conversions. -/
structure Derived.Compiles (d : Derived) : Prop where
  assertions : ∀ a ∈ d.assertions, a.holds target = true
  names : ((d.wireStruct target).map Prod.fst).Nodup

variable {target} {tokens : Ty → String} {field : Field} {fields : List Field} {part : Expansion}
  {parts : List Expansion} {ty inner wireTy : Ty} {conv back : Snippet} {w v : Width} {u x : Value}

/-! ## Snippets that undo each other -/

/-- `conv` takes every value of `ty` to one of `wireTy`, and `back` brings it home. -/
def Lossless (target : Target) (ty wireTy : Ty) (conv back : Snippet) : Prop :=
  ∀ x, HasType target ty x → ∃ u, conv.eval target x = some u ∧ HasType target wireTy u ∧ back.eval target u = some x

theorem same_lossless (ty : Ty) : Lossless target ty ty .same .same := fun x hx => ⟨x, rfl, hx, rfl⟩

theorem bit_lossless : Lossless target .bool (.int .u8) .bit .nonzero := by
  intro x hx
  cases x with
  | bool b =>
    refine ⟨_, rfl, ?_, ?_⟩
    · change IntTy.u8.width.InRange (if b then 1 else 0)
      cases b <;> decide
    · cases b <;> rfl
  | _ => exact hx.elim

theorem bits_lossless {t : FloatTy} {s : IntTy} (hs : s.signed = false) (hbytes : s.bytes = t.bytes) :
    Lossless target (.float t) (.int s) .toBits (.fromBits t) := by
  intro x hx
  cases x with
  | float bits =>
    refine ⟨_, rfl, ?_, rfl⟩
    change Width.InRange ⟨s.signed, 8 * s.bytes⟩ (bits : Int)
    rw [hs, hbytes]
    exact ⟨Int.natCast_nonneg bits, by exact_mod_cast hx⟩
  | _ => exact hx.elim

theorem hasType_width (hw : ty.width target = some w) : HasType target ty x ↔ ∃ n, x = .int n ∧ w.InRange n := by
  cases ty with
  | int t | usize | isize =>
    obtain rfl := Option.some.inj hw
    cases x with
    | int n => exact ⟨fun h => ⟨n, rfl, h⟩, fun ⟨m, hm, h⟩ => by cases hm; exact h⟩
    | _ => exact ⟨fun h => h.elim, fun ⟨m, hm, _⟩ => by cases hm⟩
  | _ => cases hw

/-- A cast to a type that is wide enough, whatever the signs. -/
theorem cast_lossless (hw : ty.width target = some w) (hv : wireTy.width target = some v) (hle : w.bits ≤ v.bits) :
    Lossless target ty wireTy (.cast wireTy) (.cast ty) := by
  intro x hx
  obtain ⟨n, rfl, hn⟩ := (hasType_width hw).mp hx
  refine ⟨.int (v.wrap n), ?_, ?_, ?_⟩
  · rw [Snippet.eval, hv]
    rfl
  · exact (hasType_width hv).mpr ⟨_, rfl, v.wrap_inRange n⟩
  · rw [Snippet.eval, hw, Option.map_some, hn.wrap_wrap hle]

theorem byteOf_injective {decl : EnumDecl} (hbytes : decl.repr.bytes = 1) {c d : Int} (hc : c ∈ decl.discriminants)
    (hd : d ∈ decl.discriminants) (h : byteOf c = byteOf d) : c = d := by
  have hbits : decl.repr.width.bits ≤ IntTy.u8.width.bits := by
    change 8 * decl.repr.bytes ≤ 8
    omega
  rw [← (decl.fits c hc).wrap_wrap hbits, ← (decl.fits d hd).wrap_wrap hbits]
  exact congrArg decl.repr.width.wrap h

/-- A one-byte enum is found again by its byte. -/
theorem enum_lossless {decl : EnumDecl} (hbytes : decl.repr.bytes = 1) :
    Lossless target (.enum decl) (.int .u8) (.cast (.int .u8)) (.transmute (.enum decl)) := by
  intro x hx
  cases x with
  | variant d =>
    refine ⟨.int (byteOf d), rfl, IntTy.u8.width.wrap_inRange d, ?_⟩
    have hfound : (decl.discriminants.find? fun c => byteOf c == byteOf d) = some d := by
      cases hfind : decl.discriminants.find? fun c => byteOf c == byteOf d with
      | none => exact absurd (beq_self_eq_true (byteOf d)) (List.find?_eq_none.mp hfind d hx)
      | some c =>
        have hc := List.mem_of_find?_eq_some hfind
        have hbyte := List.find?_some hfind
        rw [byteOf_injective hbytes hc hx (beq_iff_eq.mp hbyte)]
    rw [Snippet.eval, hfound]
    rfl
  | _ => exact hx.elim

/-- The conversions `classify` picks for the inner type of an `Option`. -/
theorem classifyOption_lossless {isUsizeIsize : Bool} (hinner : inner.isScalar = true)
    (hkind : classifyOption inner = .option wireTy conv back isUsizeIsize)
    (hword : isUsizeIsize = true → target.word ≤ 8) : Lossless target inner wireTy conv back := by
  cases inner with
  | int t =>
    cases t with
    | u128 =>
      cases hkind
      exact same_lossless _
    | _ =>
      cases hkind
      exact cast_lossless rfl rfl (by decide)
  | float t =>
    cases t <;>
    · cases hkind
      exact bits_lossless rfl rfl
  | bool =>
    cases hkind
    exact bit_lossless
  | usize | isize =>
    cases hkind
    have hword := hword rfl
    exact cast_lossless rfl rfl (Nat.mul_le_mul_left 8 hword)
  | option _ | array _ _ | enum _ | unit => cases hinner

/-! ## One field -/

/-- The values `us` that a field with value `x` has on the wire. -/
structure Carries (target : Target) (field : Field) (part : Expansion) (x : Value) (us : Fields) : Prop where
  typed : Aligned (HasType target) (part.wireFields.map fun w => (w.name, w.ty)) us
  out : ∀ src : Fields, src.lookup field.name = some x →
    Aligned (fun init u => init.eval target src = some u) part.toWire us
  name : part.fromWire.1 = field.name
  back : ∀ src : Fields, (∀ p ∈ us, src.lookup p.1 = some p.2) → part.fromWire.2.eval target src = some x

theorem single_carries {rank : Nat} {assertions : List Assertion} {isUsizeIsize isEnum : Bool}
    (h : Lossless target field.ty wireTy conv back) (hx : HasType target field.ty x) :
    ∃ us, Carries target field (.single field.name wireTy rank conv back assertions isUsizeIsize isEnum) x us := by
  obtain ⟨u, hconv, hu, hback⟩ := h x hx
  refine ⟨[(field.name, u)], .cons ⟨rfl, hu⟩ .nil, ?_, rfl, ?_⟩
  · intro src hsrc
    refine .cons ⟨rfl, ?_⟩ .nil
    change (src.lookup field.name).bind (conv.eval target) = some u
    rw [hsrc]
    exact hconv
  · intro src hsrc
    have hread : src.lookup field.name = some u := hsrc _ List.mem_cons_self
    change (src.lookup field.name).bind (back.eval target) = some x
    rw [hread]
    exact hback

theorem zero_hasType (t : IntTy) : HasType target (.int t) (.int 0) := by
  change t.width.InRange 0
  cases t <;> decide

theorem one_hasType : HasType target (.int .u8) (.int 1) := by
  change IntTy.u8.width.InRange 1
  decide

theorem classifyOption_wireTy {isUsizeIsize : Bool} (hinner : inner.isScalar = true)
    (hkind : classifyOption inner = .option wireTy conv back isUsizeIsize) : ∃ t, wireTy = .int t := by
  cases inner with
  | int t => cases t <;> cases hkind <;> exact ⟨_, rfl⟩
  | float t => cases t <;> cases hkind <;> exact ⟨_, rfl⟩
  | bool | usize | isize =>
    cases hkind
    exact ⟨_, rfl⟩
  | option _ | array _ _ | enum _ | unit => cases hinner

/-- `None` and `Some` differ in the flag. -/
theorem pair_carries {isUsizeIsize : Bool} {t : IntTy} (hty : field.ty = .option inner)
    (h : Lossless target inner (.int t) conv back) (hx : HasType target field.ty x) :
    ∃ us, Carries target field (.pair field.name (.int t) conv back isUsizeIsize) x us := by
  rw [hty] at hx
  cases x with
  | none =>
    refine ⟨[(_, .int 0), (_, .int 0)], .cons ⟨rfl, zero_hasType t⟩ (.cons ⟨rfl, zero_hasType .u8⟩ .nil), ?_, rfl, ?_⟩
    · intro src hsrc
      refine .cons ⟨rfl, ?_⟩ (.cons ⟨rfl, ?_⟩ .nil)
      · change ToWire.eval target src (.optionValue field.name conv) = _
        rw [ToWire.eval, hsrc]
      · change ToWire.eval target src (.optionHas field.name) = _
        rw [ToWire.eval, hsrc]
    · intro src hsrc
      have hflag : src.lookup (field.name ++ "_has") = some (.int 0) :=
        hsrc _ (List.mem_cons_of_mem _ List.mem_cons_self)
      change FromWire.eval target src (.option (field.name ++ "_has") (field.name ++ "_value") back) = _
      rw [FromWire.eval, hflag]
      rfl
  | some v =>
    obtain ⟨u, hconv, hu, hback⟩ := h v hx
    refine ⟨[(_, u), (_, .int 1)], .cons ⟨rfl, hu⟩ (.cons ⟨rfl, one_hasType⟩ .nil), ?_, rfl, ?_⟩
    · intro src hsrc
      refine .cons ⟨rfl, ?_⟩ (.cons ⟨rfl, ?_⟩ .nil)
      · change ToWire.eval target src (.optionValue field.name conv) = _
        rw [ToWire.eval, hsrc]
        exact hconv
      · change ToWire.eval target src (.optionHas field.name) = _
        rw [ToWire.eval, hsrc]
    · intro src hsrc
      have hvalue : src.lookup (field.name ++ "_value") = some u := hsrc _ List.mem_cons_self
      have hflag : src.lookup (field.name ++ "_has") = some (.int 1) :=
        hsrc _ (List.mem_cons_of_mem _ List.mem_cons_self)
      change FromWire.eval target src (.option (field.name ++ "_has") (field.name ++ "_value") back) = _
      rw [FromWire.eval, hflag, hvalue]
      change ((back.eval target u).map Value.some) = _
      rw [hback]
      rfl
  | _ => exact hx.elim

theorem Arm.carries (h : Arm tokens field part) (hword : part.isUsizeIsize = true → target.word ≤ 8)
    (hx : HasType target field.ty x) : ∃ us, Carries target field part x us := by
  cases h with
  | passthrough _ => exact single_carries (same_lossless _) hx
  | bool hty =>
    refine single_carries ?_ hx
    rw [hty]
    exact bit_lossless
  | usize hty | isize hty =>
    refine single_carries ?_ hx
    rw [hty]
    exact cast_lossless rfl rfl (Nat.mul_le_mul_left 8 (hword rfl))
  | option hty hinner hkind =>
    obtain ⟨t, rfl⟩ := classifyOption_wireTy hinner hkind
    exact pair_carries hty (classifyOption_lossless hinner hkind hword) hx
  | enum hty hbytes =>
    refine single_carries ?_ hx
    rw [hty]
    exact enum_lossless hbytes

/-! ## All fields -/

/-- The wire values of all fields, in declaration order. -/
structure CarriesAll (target : Target) (parts : List Expansion) (values us : Fields) : Prop where
  typed : Aligned (HasType target) ((parts.flatMap Expansion.wireFields).map fun w => (w.name, w.ty)) us
  out : ∀ src : Fields, (∀ p ∈ values, src.lookup p.1 = some p.2) →
    Aligned (fun init u => init.eval target src = some u) (parts.flatMap Expansion.toWire) us
  back : ∀ src : Fields, (∀ p ∈ us, src.lookup p.1 = some p.2) →
    Aligned (fun init x => init.eval target src = some x) (parts.map Expansion.fromWire) values

theorem carries_all {values : Fields} (h : List.Forall₂ (Arm tokens) fields parts)
    (hword : ∀ part ∈ parts, part.isUsizeIsize = true → target.word ≤ 8)
    (hvalues : Aligned (HasType target) (fields.map fun f => (f.name, f.ty)) values) :
    ∃ us, CarriesAll target parts values us := by
  induction h generalizing values with
  | nil =>
    cases hvalues
    exact ⟨[], .nil, fun _ _ => .nil, fun _ _ => .nil⟩
  | cons harm _ ih =>
    rename_i field part fields parts _
    rw [List.map_cons] at hvalues
    cases hvalues with
    | cons hx hrest =>
      rename_i p values
      obtain ⟨us, hus⟩ := harm.carries (hword part List.mem_cons_self) hx.2
      obtain ⟨vs, hvs⟩ := ih (fun q hq => hword q (List.mem_cons_of_mem _ hq)) hrest
      refine ⟨us ++ vs, ?_, ?_, ?_⟩
      · rw [List.flatMap_cons, List.map_append]
        exact hus.typed.append hvs.typed
      · intro src hsrc
        have hhere : src.lookup field.name = some p.2 := by
          rw [show field.name = p.1 from hx.1]
          exact hsrc p List.mem_cons_self
        rw [List.flatMap_cons]
        exact (hus.out src hhere).append (hvs.out src fun q hq => hsrc q (List.mem_cons_of_mem _ hq))
      · intro src hsrc
        refine .cons ⟨hus.name.trans hx.1, ?_⟩ (hvs.back src fun q hq => hsrc q (List.mem_append_right _ hq))
        exact hus.back src fun q hq => hsrc q (List.mem_append_left _ hq)

/-- The declaration of the wire struct before the sort. -/
def declared (target : Target) (parts : List Expansion) : List (String × Ty) :=
  (parts.flatMap Expansion.wireFields).map (fun w => (w.name, w.ty)) ++
    [("_pad", .array (.int .u8) ((emit parts).tailPad target))]

theorem declared_perm (target : Target) (parts : List Expansion) :
    List.Perm ((emit parts).wireStruct target) (declared target parts) :=
  ((sortByKey_perm _ _).map _).append_right _

/-- The pad and its zeros. -/
theorem pad_typed (len : Nat) :
    HasType target (.array (.int .u8) len) (.array (List.replicate len (.int 0))) := by
  refine ⟨List.length_replicate, ?_⟩
  intro v hv
  rw [List.eq_of_mem_replicate hv]
  exact zero_hasType .u8

theorem Derived.Compiles.word (h : (emit parts).Compiles target) :
    ∀ part ∈ parts, part.isUsizeIsize = true → target.word ≤ 8 := by
  intro part hpart huses
  have hany : parts.any Expansion.isUsizeIsize = true := List.any_eq_true.mpr ⟨part, hpart, huses⟩
  have hmem : Assertion.usizeFits "photon-ring Message derive requires usize to fit in u64" ∈
      (emit parts).assertions := by
    refine List.mem_append_right _ ?_
    rw [if_pos hany]
    exact List.mem_cons_self
  exact of_decide_eq_true (h.assertions _ hmem)

/-- There and back for the generated code of the expanded fields. -/
theorem emit_round_trip (h : List.Forall₂ (Arm tokens) fields parts) (hnames : (fields.map Field.name).Nodup)
    (hc : (emit parts).Compiles target) (x : Domain target fields) :
    ∃ w : Wire target (emit parts), (emit parts).intoWire target x.values = some w.values ∧
      (emit parts).intoDomain target w.values = some x.values := by
  have hsrc : ∀ p ∈ x.values, x.values.lookup p.1 = some p.2 := by
    intro p hp
    refine lookup_of_mem ?_ hp
    rw [← x.typed.names, List.map_map]
    exact hnames
  obtain ⟨us, hus⟩ := carries_all h hc.word x.typed
  let pad := (emit parts).tailPad target
  let all : Fields := us ++ [("_pad", .array (List.replicate pad (.int 0)))]
  have htyped : Aligned (HasType target) (declared target parts) all :=
    hus.typed.append (.cons ⟨rfl, pad_typed pad⟩ .nil)
  have hinits : Aligned (fun init u => init.eval target x.values = some u) ((emit parts).wireInitialisers target) all :=
    (hus.out x.values hsrc).append (.cons ⟨rfl, rfl⟩ .nil)
  have hperm := declared_perm target parts
  have hnodup : ((declared target parts).map Prod.fst).Nodup := (hperm.map _).nodup_iff.mp hc.names
  -- each declared field is read by name, in whatever order the sort leaves them
  have hread : ∀ s ∈ (emit parts).wireStruct target, ∃ p : String × Value,
      (s.1 = p.1 ∧ HasType target s.2 p.2) ∧ all.lookup p.1 = some p.2 := by
    intro s hs
    obtain ⟨u, hu, hty⟩ := htyped.lookup_right hnodup (hperm.mem_iff.mp hs)
    exact ⟨(s.1, u), ⟨rfl, hty⟩, hu⟩
  obtain ⟨vs, hvs⟩ := exists_forall₂ hread
  have hwire : Aligned (HasType target) ((emit parts).wireStruct target) vs := hvs.imp fun _ _ hp => hp.1
  have hcopy : ∀ p ∈ vs, all.lookup p.1 = some p.2 := forall_mem_right hvs fun _ _ hp => hp.2
  refine ⟨⟨vs, hwire⟩, ?_, ?_⟩
  · refine mapM_eq_some (hvs.imp ?_)
    rintro s p ⟨⟨hname, _⟩, hp⟩
    obtain ⟨init, hinit, heval⟩ := hinits.lookup_left hp
    rw [hname, hinit, Option.bind_eq_bind, Option.bind_some, heval]
    rfl
  · have hus' : ∀ p ∈ us, vs.lookup p.1 = some p.2 := by
      intro p hp
      have hall : p ∈ all := List.mem_append_left _ hp
      have hmem : p.1 ∈ vs.map Prod.fst := by
        rw [← hwire.names, (hperm.map Prod.fst).mem_iff, htyped.names]
        exact List.mem_map_of_mem hall
      rw [lookup_copy hcopy hmem]
      refine lookup_of_mem ?_ hall
      rw [← htyped.names]
      exact hnodup
    refine mapM_eq_some ((hus.back vs hus').imp ?_)
    rintro init p ⟨hname, heval⟩
    rw [heval, Option.bind_eq_bind, Option.bind_some, hname]
    rfl

/-- Every value of a struct of supported fields comes back from the wire, and so no two of
them have the same wire struct. -/
theorem message_round_trip (tokens : Ty → String) (target : Target) (fields : List Field) (d : Derived)
    (hfields : ∀ field ∈ fields, field.Supported) (hnames : (fields.map Field.name).Nodup)
    (hderive : deriveMessage tokens (.namedStruct fields) = .ok d) (hc : d.Compiles target) :
    (∀ x : Domain target fields, ∃ w : Wire target d,
        d.intoWire target x.values = some w.values ∧ d.intoDomain target w.values = some x.values) ∧
      ∀ x y : Domain target fields, d.intoWire target x.values = d.intoWire target y.values → x = y := by
  obtain ⟨parts, hparts, harms⟩ := deriveMessage_supported tokens hfields
  obtain rfl : emit parts = d := Except.ok.inj (hparts.symm.trans hderive)
  have hround := emit_round_trip harms hnames hc
  refine ⟨hround, ?_⟩
  intro x y hxy
  obtain ⟨v, hv, hx⟩ := hround x
  obtain ⟨w, hw, hy⟩ := hround y
  have hvw : v.values = w.values := Option.some.inj (hv.symm.trans (hxy.trans hw))
  have hvalues : x.values = y.values := by
    rw [hvw] at hx
    exact Option.some.inj (hx.symm.trans hy)
  cases x
  cases y
  cases hvalues
  rfl

/-- `#[repr(u8)] enum Side { Buy = 0, Sell = 1 }` -/
def side : EnumDecl where
  name := "Side"
  repr := .u8
  discriminants := [0, 1]
  nodup := by decide
  fits := by decide

def order : List Field :=
  [⟨"side", .enum side, true⟩, ⟨"tag", .option (.int .i8), false⟩, ⟨"slot", .usize, false⟩, ⟨"filled", .bool, false⟩,
    ⟨"price", .array (.float .f64) 2, false⟩]

theorem order_round_trip :
    ∃ d, deriveMessage (fun _ => "Side") (.namedStruct order) = .ok d ∧
      (∀ x : Domain word64 order, ∃ w : Wire word64 d,
        d.intoWire word64 x.values = some w.values ∧ d.intoDomain word64 w.values = some x.values) ∧
      ∀ x y : Domain word64 order, d.intoWire word64 x.values = d.intoWire word64 y.values → x = y := by
  have hfields : ∀ field ∈ order, field.Supported :=
    List.forall_mem_cons.mpr ⟨⟨side, rfl, rfl⟩, supported_of_all rfl⟩
  obtain ⟨parts, hparts⟩ : ∃ parts, order.mapM (expand fun _ => "Side") = .ok parts := ⟨_, rfl⟩
  have hderive : deriveMessage (fun _ => "Side") (.namedStruct order) = .ok (emit parts) := by
    rw [deriveMessage, hparts]
    rfl
  have hc : (emit parts).Compiles word64 := by
    obtain rfl := Except.ok.inj hparts
    refine ⟨by decide, ?_⟩
    rw [((declared_perm word64 _).map Prod.fst).nodup_iff, declared, List.map_append]
    decide
  exact ⟨emit parts, hderive, message_round_trip _ word64 order _ hfields (by decide) hderive hc⟩

end PhotonRing.Derive
