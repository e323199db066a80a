import Mathlib.Algebra.Group.Nat.Defs
import Mathlib.Data.List.Basic
import PhotonRing.Lib.Run

/-!
# The typed topic bus

`TypedBus` maps topic names to erased slots. The payload types form an arbitrary
type `τ`: a `TypeId` is an element of it, `typeName` is what a diagnostic prints, and
`slotSize` is the size of a slot of the ring that carries it.
A ring is named by the number of rings allocated before it, and a handle by the ring
it shares. A call returns its outcome together with the bus it leaves behind, also
when it panics, since the guard of the mutex is released on the way out.
-/
namespace PhotonRing.TypedBus

open Lib

variable {τ : Type}

/-- `TypedEntry<T>`: the rings of its subscriber factory and of its publisher, if that
has not been taken. -/
structure TypedEntry where
  subscribable : Nat
  publisher : Option Nat
  deriving DecidableEq

/-- `TopicSlot`. The erased `inner` remembers the type it was boxed with. -/
structure TopicSlot (τ : Type) where
  typeId : τ
  typeName : String
  innerType : τ
  inner : TypedEntry

/-- `TypedBus`, with the number of rings allocated so far. -/
structure Bus (τ : Type) where
  topics : String → Option (TopicSlot τ)
  defaultCapacity : Nat
  rings : Nat

/-- `TypedBus::new`. -/
def Bus.new (capacity : Nat) : Bus τ := ⟨fun _ => none, capacity, 0⟩

/-- What a call hands out. `try_publisher` may have nothing to hand out. -/
inductive Handle where
  | publisher (ring : Nat)
  | noPublisher
  | subscriber (ring : Nat)
  | subscribable (ring : Nat)
  deriving DecidableEq

def Handle.ring? : Handle → Option Nat
  | .publisher ring => some ring
  | .noPublisher => none
  | .subscriber ring => some ring
  | .subscribable ring => some ring

def Handle.isPublisher : Handle → Bool
  | .publisher _ => true
  | _ => false

/-- The four operations. -/
inductive Op where
  | publisher
  | tryPublisher
  | subscribe
  | subscribable
  deriving DecidableEq

/-- A call of an operation at payload type `type`. -/
structure Call (τ : Type) where
  op : Op
  type : τ
  topic : String

def Bus.insert (b : Bus τ) (topic : String) (slot : TopicSlot τ) : Bus τ :=
  { b with topics := Function.update b.topics topic (some slot) }

theorem insert_self {b : Bus τ} {topic : String} {slot : TopicSlot τ} (h : b.topics topic = some slot) :
    b.insert topic slot = b := by
  unfold Bus.insert
  rw [← h, Function.update_eq_self]

/-! ## The operations -/

section Operations

variable [DecidableEq τ] (typeName : τ → String) (slotSize : τ → Nat)

def mismatchText (topic existing requested : String) : String :=
  "topic '" ++ topic ++ "' exists with type '" ++ existing ++ "', cannot access as '" ++ requested ++ "'"

def takenText (topic : String) : String := "publisher already taken for topic '" ++ topic ++ "'"

def capacityText : String := "capacity must be at least 2"

def overflowText : String := "capacity overflow"

/-- The panic of `SharedRing::new`, if any: `RingIndex::new` checks the capacity, and then the
vector of slots must not take more than `isize::MAX` bytes. -/
def newRingPanic (capacity size : Nat) : Option String :=
  if capacity < 2 then some capacityText
  else if 2 ^ 63 ≤ capacity * size then some overflowText
  else none

/-- `make_slot`, around the ring that it allocates. -/
def makeSlot (type : τ) (ring : Nat) : TopicSlot τ := ⟨type, typeName type, type, ⟨ring, some ring⟩⟩

/-- `downcast_mut`. -/
def downcastMut (slot : TopicSlot τ) (topic : String) (type : τ) : Except String TypedEntry :=
  if slot.typeId ≠ type then .error (mismatchText topic slot.typeName (typeName type))
  else if slot.innerType = type then .ok slot.inner
  else .error "TypeId matched but downcast failed (this is a bug)"

/-- `entry_ref(topic).or_insert_with(..)`. Nothing is inserted when the ring's
constructor panics. -/
def orInsertWith (b : Bus τ) (topic : String) (type : τ) : Except String (TopicSlot τ) × Bus τ :=
  match b.topics topic with
  | some slot => (.ok slot, b)
  | none =>
    match newRingPanic b.defaultCapacity (slotSize type) with
    | some msg => (.error msg, b)
    | none =>
      let slot := makeSlot typeName type b.rings
      (.ok slot, { b.insert topic slot with rings := b.rings + 1 })

/-- The common part of the operations: look the topic up or create it, downcast, and go
on with the entry. -/
def withEntry (b : Bus τ) (topic : String) (type : τ)
    (f : TypedEntry → Except String Handle × TypedEntry) : Except String Handle × Bus τ :=
  match orInsertWith typeName slotSize b topic type with
  | (.error e, b') => (.error e, b')
  | (.ok slot, b') =>
    match downcastMut typeName slot topic type with
    | .error e => (.error e, b')
    | .ok entry =>
      let (res, entry') := f entry
      (res, b'.insert topic { slot with inner := entry' })

/-- `entry.publisher.take()`, with what stands for a publisher that is gone. -/
def take (gone : Except String Handle) (e : TypedEntry) : Except String Handle × TypedEntry :=
  match e.publisher with
  | some ring => (.ok (.publisher ring), { e with publisher := none })
  | none => (gone, { e with publisher := none })

def publisher (b : Bus τ) (type : τ) (topic : String) : Except String Handle × Bus τ :=
  withEntry typeName slotSize b topic type (take (.error (takenText topic)))

def tryPublisher (b : Bus τ) (type : τ) (topic : String) : Except String Handle × Bus τ :=
  withEntry typeName slotSize b topic type (take (.ok .noPublisher))

def subscribe (b : Bus τ) (type : τ) (topic : String) : Except String Handle × Bus τ :=
  withEntry typeName slotSize b topic type fun e => (.ok (.subscriber e.subscribable), e)

def subscribable (b : Bus τ) (type : τ) (topic : String) : Except String Handle × Bus τ :=
  withEntry typeName slotSize b topic type fun e => (.ok (.subscribable e.subscribable), e)

def call (b : Bus τ) (c : Call τ) : Except String Handle × Bus τ :=
  match c.op with
  | .publisher => publisher typeName slotSize b c.type c.topic
  | .tryPublisher => tryPublisher typeName slotSize b c.type c.topic
  | .subscribe => subscribe typeName slotSize b c.type c.topic
  | .subscribable => subscribable typeName slotSize b c.type c.topic

/-! ## One call -/

variable {typeName slotSize}

/-- What an operation does to the entry it has found. -/
def onEntry (topic : String) (e : TypedEntry) : Op → Except String Handle × TypedEntry
  | .publisher => take (.error (takenText topic)) e
  | .tryPublisher => take (.ok .noPublisher) e
  | .subscribe => (.ok (.subscriber e.subscribable), e)
  | .subscribable => (.ok (.subscribable e.subscribable), e)

theorem call_eq (b : Bus τ) (c : Call τ) :
    call typeName slotSize b c = withEntry typeName slotSize b c.topic c.type fun e => onEntry c.topic e c.op := by
  unfold call
  cases c.op <;> rfl

/-- A slot as `make_slot` boxes it and the operations leave it. -/
structure SlotOk (typeName : τ → String) (rings : Nat) (slot : TopicSlot τ) : Prop where
  inner : slot.innerType = slot.typeId
  name : slot.typeName = typeName slot.typeId
  ring : slot.inner.subscribable < rings
  publisher : ∀ ring, slot.inner.publisher = some ring → ring = slot.inner.subscribable

/-- The entry is left alone unless a publisher is taken. -/
theorem onEntry_error {topic : String} {e : TypedEntry} {op : Op} {msg : String}
    (h : (onEntry topic e op).1 = .error msg) :
    op = .publisher ∧ e.publisher = none ∧ msg = takenText topic ∧ (onEntry topic e op).2 = e := by
  obtain ⟨s, p⟩ := e
  cases op with
  | publisher =>
    cases p with
    | none =>
      simp only [onEntry, take, Except.error.injEq] at h
      exact ⟨rfl, rfl, h.symm, rfl⟩
    | some r => cases h
  | tryPublisher => cases p <;> cases h
  | subscribe => cases h
  | subscribable => cases h

/-- All that a call can do to a bus with well-formed slots: panic and change nothing, use the
topic's slot, or create it. -/
inductive Outcome (typeName : τ → String) (slotSize : τ → Nat) (b : Bus τ) (c : Call τ) :
    Except String Handle → Bus τ → Prop where
  | refused {msg : String} (hnone : b.topics c.topic = none)
      (hring : newRingPanic b.defaultCapacity (slotSize c.type) = some msg) :
      Outcome typeName slotSize b c (.error msg) b
  | mismatch {slot : TopicSlot τ} (hslot : b.topics c.topic = some slot) (hty : slot.typeId ≠ c.type) :
      Outcome typeName slotSize b c (.error (mismatchText c.topic slot.typeName (typeName c.type))) b
  | taken {slot : TopicSlot τ} (hslot : b.topics c.topic = some slot) (hty : slot.typeId = c.type)
      (hop : c.op = .publisher) (htaken : slot.inner.publisher = none) :
      Outcome typeName slotSize b c (.error (takenText c.topic)) b
  | used {slot : TopicSlot τ} {hd : Handle} {e : TypedEntry} (hslot : b.topics c.topic = some slot)
      (hty : slot.typeId = c.type) (he : onEntry c.topic slot.inner c.op = (.ok hd, e)) :
      Outcome typeName slotSize b c (.ok hd) (b.insert c.topic { slot with inner := e })
  | created {hd : Handle} {e : TypedEntry} (hnone : b.topics c.topic = none)
      (hring : newRingPanic b.defaultCapacity (slotSize c.type) = none)
      (he : onEntry c.topic ⟨b.rings, some b.rings⟩ c.op = (.ok hd, e)) :
      Outcome typeName slotSize b c (.ok hd)
        { b.insert c.topic { makeSlot typeName c.type b.rings with inner := e } with rings := b.rings + 1 }

variable (slotSize) in
theorem call_outcome {b : Bus τ} (hb : ∀ topic slot, b.topics topic = some slot → SlotOk typeName b.rings slot)
    (c : Call τ) : Outcome typeName slotSize b c (call typeName slotSize b c).1 (call typeName slotSize b c).2 := by
  cases hslot : b.topics c.topic with
  | none =>
    cases hring : newRingPanic b.defaultCapacity (slotSize c.type) with
    | some msg =>
      have hcall : call typeName slotSize b c = (.error msg, b) := by
        simp only [call_eq, withEntry, orInsertWith, hslot, hring]
      rw [hcall]
      exact .refused hslot hring
    | none =>
      obtain ⟨hd, e, he⟩ : ∃ hd e, onEntry c.topic ⟨b.rings, some b.rings⟩ c.op = (.ok hd, e) := by
        cases c.op <;> exact ⟨_, _, rfl⟩
      have hcall : call typeName slotSize b c = (.ok hd, { b.insert c.topic
          { makeSlot typeName c.type b.rings with inner := e } with rings := b.rings + 1 }) := by
        simp only [call_eq, withEntry, orInsertWith, hslot, hring, downcastMut, makeSlot, ne_eq,
          not_true_eq_false, if_false, if_true, he, Bus.insert, Function.update_idem]
      rw [hcall]
      exact .created hslot hring he
  | some slot =>
    by_cases hty : slot.typeId = c.type
    · have hdown : downcastMut typeName slot c.topic c.type = .ok slot.inner := by
        rw [downcastMut, if_neg (fun h => h hty), if_pos ((hb _ _ hslot).inner.trans hty)]
      have hcall : call typeName slotSize b c = ((onEntry c.topic slot.inner c.op).1,
          b.insert c.topic { slot with inner := (onEntry c.topic slot.inner c.op).2 }) := by
        simp only [call_eq, withEntry, orInsertWith, hslot, hdown]
      rw [hcall]
      cases hres : (onEntry c.topic slot.inner c.op).1 with
      | ok hd => exact .used hslot hty (Prod.ext hres rfl)
      | error msg =>
        obtain ⟨hop, htaken, rfl, hsame⟩ := onEntry_error hres
        rw [hsame, insert_self hslot]
        exact .taken hslot hty hop htaken
    · have hcall : call typeName slotSize b c = (.error (mismatchText c.topic slot.typeName (typeName c.type)), b) := by
        simp only [call_eq, withEntry, orInsertWith, hslot, downcastMut, if_pos hty]
      rw [hcall]
      exact .mismatch hslot hty

end Operations

/-! ## A run of calls -/

variable {typeName : τ → String} {slotSize : τ → Nat}

/-- The bus and, as history, every call with what it returned. -/
structure System (τ : Type) where
  bus : Bus τ
  history : List (Call τ × Except String Handle)

def System.new (capacity : Nat) : System τ := ⟨Bus.new capacity, []⟩

/-- The payload type of the first call that named a topic and did not panic. -/
def firstType (history : List (Call τ × Except String Handle)) (topic : String) : Option τ :=
  (history.find? fun x => decide (x.1.topic = topic) && x.2.isOk).map fun x => x.1.type

/-- Whether an entry of the history handed out a publisher of the topic. -/
def issuesPublisher (topic : String) (x : Call τ × Except String Handle) : Bool :=
  match x.2 with
  | .ok hd => hd.isPublisher && decide (x.1.topic = topic)
  | .error _ => false

def publishers (history : List (Call τ × Except String Handle)) (topic : String) : Nat :=
  history.countP (issuesPublisher topic)

/-- The number of publishers handed out of an entry. -/
def TypedEntry.gone (e : TypedEntry) : Nat := if e.publisher = none then 1 else 0

def gone : Option (TopicSlot τ) → Nat
  | none => 0
  | some slot => slot.inner.gone

structure Ok (typeName : τ → String) (cap : Nat) (s : System τ) : Prop where
  capacity : s.bus.defaultCapacity = cap
  slots : ∀ topic slot, s.bus.topics topic = some slot → SlotOk typeName s.bus.rings slot
  distinct : ∀ topic topic' slot slot', s.bus.topics topic = some slot → s.bus.topics topic' = some slot' →
    slot.inner.subscribable = slot'.inner.subscribable → topic = topic'
  fixed : ∀ topic, (s.bus.topics topic).map TopicSlot.typeId = firstType s.history topic
  issued : ∀ c hd, (c, .ok hd) ∈ s.history → ∃ slot, s.bus.topics c.topic = some slot ∧
    slot.typeId = c.type ∧ ∀ r, hd.ring? = some r → r = slot.inner.subscribable
  publishers : ∀ topic, publishers s.history topic = gone (s.bus.topics topic)

theorem ok_new (cap : Nat) : Ok typeName cap (System.new cap) where
  capacity := rfl
  slots := fun _ _ h => by cases h
  distinct := fun _ _ _ _ h => by cases h
  fixed := fun _ => rfl
  issued := fun _ _ h => by cases h
  publishers := fun _ => rfl

theorem firstType_append (history : List (Call τ × Except String Handle)) (c : Call τ)
    (res : Except String Handle) (topic : String) :
    firstType (history ++ [(c, res)]) topic =
      (firstType history topic).or (if c.topic = topic ∧ res.isOk then some c.type else none) := by
  unfold firstType
  rw [List.find?_append]
  cases history.find? fun x => decide (x.1.topic = topic) && x.2.isOk with
  | some x => rfl
  | none =>
    by_cases h : c.topic = topic ∧ res.isOk
    · simp [h]
    · have hno : (decide (c.topic = topic) && res.isOk) = false := by simpa using h
      simp [h, hno]

theorem publishers_append (history : List (Call τ × Except String Handle)) (c : Call τ)
    (res : Except String Handle) (topic : String) :
    publishers (history ++ [(c, res)]) topic =
      publishers history topic + if issuesPublisher topic (c, res) then 1 else 0 := by
  simp [publishers, List.countP_append, List.countP_singleton]

/-- A call that panics is only remembered. -/
theorem Ok.panic {cap : Nat} {s : System τ} {c : Call τ} {msg : String} (h : Ok typeName cap s) :
    Ok typeName cap ⟨s.bus, s.history ++ [(c, .error msg)]⟩ := by
  refine ⟨h.capacity, h.slots, h.distinct, fun topic => ?_, fun d hd hm => ?_, fun topic => ?_⟩
  · rw [firstType_append, ← h.fixed topic, if_neg (fun he => by cases he.2), Option.or_none]
  · rcases List.mem_append.mp hm with hm | hm
    · exact h.issued d hd hm
    · cases List.mem_singleton.mp hm
  · rw [publishers_append, h.publishers]
    rfl

/-- What an operation does to its entry when it succeeds. -/
structure Taken (e : TypedEntry) (hd : Handle) (e' : TypedEntry) : Prop where
  subscribable : e'.subscribable = e.subscribable
  publisher : ∀ ring, e'.publisher = some ring → ring = e.subscribable
  ring : ∀ r, hd.ring? = some r → r = e.subscribable
  gone : e'.gone = e.gone + if hd.isPublisher then 1 else 0

theorem take_ok {gone : Except String Handle} {e e' : TypedEntry} {hd : Handle}
    (h : take gone e = (.ok hd, e')) (hgone : gone = .ok hd → hd = .noPublisher)
    (hp : ∀ ring, e.publisher = some ring → ring = e.subscribable) : Taken e hd e' := by
  obtain ⟨sub, pub⟩ := e
  cases pub with
  | none =>
    obtain ⟨hres, rfl⟩ := Prod.mk.inj h
    obtain rfl := hgone hres
    exact ⟨rfl, hp, fun _ hr => (by cases hr), rfl⟩
  | some ring =>
    obtain ⟨hres, rfl⟩ := Prod.mk.inj h
    obtain rfl := Except.ok.inj hres
    exact ⟨rfl, fun _ hr => (by cases hr), fun r hr => hp r hr, rfl⟩

theorem onEntry_ok {topic : String} {e e' : TypedEntry} {op : Op} {hd : Handle}
    (h : onEntry topic e op = (.ok hd, e'))
    (hp : ∀ ring, e.publisher = some ring → ring = e.subscribable) : Taken e hd e' := by
  cases op with
  | publisher => exact take_ok h (fun hg => by cases hg) hp
  | tryPublisher => exact take_ok h (fun hg => (Except.ok.inj hg).symm) hp
  | subscribe =>
    obtain ⟨hres, rfl⟩ := Prod.mk.inj h
    obtain rfl := Except.ok.inj hres
    exact ⟨rfl, hp, fun r hr => (Option.some.inj hr).symm, rfl⟩
  | subscribable =>
    obtain ⟨hres, rfl⟩ := Prod.mk.inj h
    obtain rfl := Except.ok.inj hres
    exact ⟨rfl, hp, fun r hr => (Option.some.inj hr).symm, rfl⟩

/-- A call that succeeds: the topic's slot keeps its type and its ring, or is new with the
type of the call and a ring of its own. -/
theorem Ok.success {cap rings : Nat} {s : System τ} {c : Call τ} {hd : Handle} {slot : TopicSlot τ}
    {e : TypedEntry} (h : Ok typeName cap s)
    (hslot : SlotOk typeName rings slot) (hty : slot.typeId = c.type) (ht : Taken slot.inner hd e)
    (hrings : s.bus.rings ≤ rings) (hgone : slot.inner.gone = gone (s.bus.topics c.topic))
    (hold : ∀ old, s.bus.topics c.topic = some old →
      old.typeId = slot.typeId ∧ old.inner.subscribable = slot.inner.subscribable)
    (hnew : ∀ topic other, topic ≠ c.topic → s.bus.topics topic = some other →
      other.inner.subscribable ≠ slot.inner.subscribable) :
    Ok typeName cap ⟨{ s.bus.insert c.topic { slot with inner := e } with rings := rings },
      s.history ++ [(c, .ok hd)]⟩ := by
  have hself : (s.bus.insert c.topic { slot with inner := e }).topics c.topic =
      some { slot with inner := e } := Function.update_self ..
  have hne {topic : String} (hn : topic ≠ c.topic) :
      (s.bus.insert c.topic { slot with inner := e }).topics topic = s.bus.topics topic :=
    Function.update_of_ne hn ..
  constructor
  case capacity => exact h.capacity
  case slots =>
    intro topic other ho
    by_cases hn : topic = c.topic
    · subst hn
      obtain rfl := Option.some.inj (hself.symm.trans ho)
      refine ⟨hslot.inner, hslot.name, ?_, fun ring hr => ?_⟩
      · exact ht.subscribable ▸ hslot.ring
      · exact (ht.publisher ring hr).trans ht.subscribable.symm
    · obtain ⟨h1, h2, h3, h4⟩ := h.slots topic other ((hne hn).symm.trans ho)
      exact ⟨h1, h2, h3.trans_le hrings, h4⟩
  case distinct =>
    intro topic topic' a b ha hb hab
    by_cases hn : topic = c.topic
    · by_cases hn' : topic' = c.topic
      · rw [hn, hn']
      · subst hn
        obtain rfl := Option.some.inj (hself.symm.trans ha)
        exact absurd (hab.symm.trans ht.subscribable) (hnew topic' b hn' ((hne hn').symm.trans hb))
    · by_cases hn' : topic' = c.topic
      · subst hn'
        obtain rfl := Option.some.inj (hself.symm.trans hb)
        exact absurd (hab.trans ht.subscribable) (hnew topic a hn ((hne hn).symm.trans ha))
      · exact h.distinct topic topic' a b ((hne hn).symm.trans ha) ((hne hn').symm.trans hb) hab
  case fixed =>
    intro topic
    rw [firstType_append, ← h.fixed topic]
    by_cases hn : topic = c.topic
    · subst hn
      rw [if_pos ⟨rfl, rfl⟩]
      change Option.map TopicSlot.typeId ((s.bus.insert c.topic { slot with inner := e }).topics c.topic) = _
      rw [hself]
      cases ho : s.bus.topics c.topic with
      | none => exact congrArg some hty
      | some old => exact congrArg some (hold old ho).1.symm
    · rw [if_neg (fun he => hn he.1.symm), Option.or_none]
      exact congrArg _ (hne hn)
  case issued =>
    intro d x hm
    rcases List.mem_append.mp hm with hm | hm
    · obtain ⟨old, ho, hty', hr⟩ := h.issued d x hm
      by_cases hn : d.topic = c.topic
      · rw [hn] at ho
        refine ⟨{ slot with inner := e }, by rw [hn]; exact hself, (hold old ho).1.symm.trans hty', fun r hx => ?_⟩
        exact (hr r hx).trans ((hold old ho).2.trans ht.subscribable.symm)
      · exact ⟨old, (hne hn).trans ho, hty', hr⟩
    · cases List.mem_singleton.mp hm
      exact ⟨{ slot with inner := e }, hself, hty, fun r hx => (ht.ring r hx).trans ht.subscribable.symm⟩
  case publishers =>
    intro topic
    rw [publishers_append, h.publishers]
    by_cases hn : topic = c.topic
    · subst hn
      change _ = gone ((s.bus.insert c.topic { slot with inner := e }).topics c.topic)
      rw [hself, ← hgone]
      change _ = e.gone
      rw [ht.gone]
      simp [issuesPublisher]
    · have hno : issuesPublisher topic (c, .ok hd) = false := by
        simp [issuesPublisher, Ne.symm hn]
      rw [hno]
      exact (congrArg gone (hne hn)).symm

variable [DecidableEq τ]

variable (typeName slotSize) in
/-- The mutex serialises the calls, so a call is one step. -/
def step (s : System τ) (c : Call τ) : Option (System τ) :=
  some ⟨(call typeName slotSize s.bus c).2, s.history ++ [(c, (call typeName slotSize s.bus c).1)]⟩

theorem step_ok {cap : Nat} {s s' : System τ} {c : Call τ} (hs : step typeName slotSize s c = some s')
    (h : Ok typeName cap s) : Ok typeName cap s' := by
  obtain rfl := Option.some.inj hs
  have hout := call_outcome slotSize h.slots c
  revert hout
  generalize (call typeName slotSize s.bus c).1 = res
  generalize (call typeName slotSize s.bus c).2 = bus
  intro hout
  cases hout with
  | refused _ _ => exact h.panic
  | mismatch _ _ => exact h.panic
  | taken _ _ _ _ => exact h.panic
  | @used slot hd e hslot hty he =>
    have hok := h.slots _ _ hslot
    refine h.success hok hty (onEntry_ok he hok.publisher) (Nat.le_refl _) (by rw [hslot]; rfl)
      (fun old ho => ?_) (fun topic other hn ho he => hn (h.distinct _ _ _ _ ho hslot he))
    obtain rfl := Option.some.inj (hslot.symm.trans ho)
    exact ⟨rfl, rfl⟩
  | @created hd e hnone _ he =>
    have hslot : SlotOk typeName (s.bus.rings + 1) (makeSlot typeName c.type s.bus.rings) :=
      ⟨rfl, rfl, Nat.lt_succ_self _, fun r hr => (Option.some.inj hr).symm⟩
    refine h.success hslot rfl
      (onEntry_ok he (fun r hr => (Option.some.inj hr).symm)) (Nat.le_succ _) (by rw [hnone]; rfl)
      (fun old ho => by rw [hnone] at ho; cases ho) (fun topic other _ ho => ?_)
    exact (h.slots topic other ho).ring.ne

theorem reach_ok {cap : Nat} {s : System τ} (h : Reachable (step typeName slotSize) (System.new cap) s) :
    Ok typeName cap s :=
  Reachable.invariant (ok_new cap) (fun _ _ _ _ hs hok => step_ok hs hok) h

theorem newRingPanic_eq_some {capacity size : Nat} {msg : String} (h : newRingPanic capacity size = some msg) :
    capacity < 2 ∧ msg = capacityText ∨ 2 ≤ capacity ∧ 2 ^ 63 ≤ capacity * size ∧ msg = overflowText := by
  unfold newRingPanic at h
  split_ifs at h with hcap hsize
  · exact Or.inl ⟨hcap, (Option.some.inj h).symm⟩
  · exact Or.inr ⟨Nat.le_of_not_lt hcap, hsize, (Option.some.inj h).symm⟩

/-- A call on a topic that exists with its type goes on with the entry. -/
theorem Ok.call_used {cap : Nat} {s : System τ} (h : Ok typeName cap s) {c : Call τ} {slot : TopicSlot τ}
    (hslot : s.bus.topics c.topic = some slot) (hty : slot.typeId = c.type) :
    (call typeName slotSize s.bus c).1 = (onEntry c.topic slot.inner c.op).1 := by
  have hdown : downcastMut typeName slot c.topic c.type = .ok slot.inner := by
    rw [downcastMut, if_neg (fun hne => hne hty), if_pos ((h.slots _ _ hslot).inner.trans hty)]
  simp only [call_eq, withEntry, orInsertWith, hslot, hdown]

theorem onEntry_publisher {topic : String} {e : TypedEntry} {op : Op} {ring : Nat}
    (hop : op = .publisher ∨ op = .tryPublisher) (he : e.publisher = some ring) :
    (onEntry topic e op).1 = .ok (.publisher ring) := by
  rcases hop with rfl | rfl <;> simp [onEntry, take, he]

/-- In every run of calls over any topics and payload types: whoever got a handle asked for
the type of the first call that named its topic, apart from calls that could not create it, and
other types are refused by name; a topic that does not exist is created whenever its ring can be
made; a topic's publisher is handed out at most once, and to the next call that asks for it at
the topic's type; two handles share a ring exactly when they are for one topic, and it is the
ring of the publisher that is still in the bus; and a call panics for one of four reasons only
and leaves the bus as it was, so that an untaken publisher can be taken after it. -/
theorem typed_bus_topics {cap : Nat} {s : System τ}
    (h : Reachable (step typeName slotSize) (System.new cap) s) :
    (∀ c hd, (c, .ok hd) ∈ s.history → firstType s.history c.topic = some c.type) ∧
    (∀ c type, firstType s.history c.topic = some type → type ≠ c.type →
      (call typeName slotSize s.bus c).1 = .error (mismatchText c.topic (typeName type) (typeName c.type))) ∧
    (∀ c, firstType s.history c.topic = none → 2 ≤ cap → cap * slotSize c.type < 2 ^ 63 →
      ∃ hd, (call typeName slotSize s.bus c).1 = .ok hd ∧
        (c.op = .publisher ∨ c.op = .tryPublisher → hd.isPublisher = true)) ∧
    (∀ topic, publishers s.history topic ≤ 1) ∧
    (∀ c slot ring, s.bus.topics c.topic = some slot → slot.typeId = c.type →
      slot.inner.publisher = some ring → c.op = .publisher ∨ c.op = .tryPublisher →
      (call typeName slotSize s.bus c).1 = .ok (.publisher ring)) ∧
    (∀ c c' hd hd' r r', (c, .ok hd) ∈ s.history → (c', .ok hd') ∈ s.history →
      hd.ring? = some r → hd'.ring? = some r' → (r = r' ↔ c.topic = c'.topic)) ∧
    (∀ c hd r slot ring, (c, .ok hd) ∈ s.history → hd.ring? = some r →
      s.bus.topics c.topic = some slot → slot.inner.publisher = some ring → r = ring) ∧
    ∀ c msg, (call typeName slotSize s.bus c).1 = .error msg →
      (call typeName slotSize s.bus c).2 = s.bus ∧
      (s.bus.topics c.topic = none ∧ (cap < 2 ∧ msg = capacityText ∨
          2 ≤ cap ∧ 2 ^ 63 ≤ cap * slotSize c.type ∧ msg = overflowText) ∨
        ∃ slot, s.bus.topics c.topic = some slot ∧
          (slot.typeId ≠ c.type ∧ msg = mismatchText c.topic (typeName slot.typeId) (typeName c.type) ∨
            slot.typeId = c.type ∧ c.op = .publisher ∧ slot.inner.publisher = none ∧
              msg = takenText c.topic)) ∧
      ∀ topic slot ring, s.bus.topics topic = some slot → slot.inner.publisher = some ring →
        (publisher typeName slotSize (call typeName slotSize s.bus c).2 slot.typeId topic).1 =
          .ok (.publisher ring) := by
  have hok := reach_ok h
  refine ⟨fun c hd hm => ?_, fun c type hfirst hne => ?_, fun c hnone h2 hsize => ?_, fun topic => ?_,
    fun c slot ring hslot hty hring hop => ?_, fun c c' hd hd' r r' hm hm' hr hr' => ?_,
    fun c hd r slot ring hm hr hslot hring => ?_, fun c msg hmsg => ?_⟩
  · obtain ⟨slot, hslot, hty, _⟩ := hok.issued c hd hm
    rw [← hok.fixed, hslot, ← hty]
    rfl
  · rw [← hok.fixed] at hfirst
    obtain ⟨slot, hslot, rfl⟩ := Option.map_eq_some_iff.mp hfirst
    rw [← (hok.slots _ _ hslot).name]
    simp only [call_eq, withEntry, orInsertWith, hslot, downcastMut, if_pos hne]
  · rw [← hok.fixed] at hnone
    have hring : newRingPanic s.bus.defaultCapacity (slotSize c.type) = none := by
      rw [hok.capacity, newRingPanic, if_neg (by omega), if_neg (by omega)]
    have hcall : (call typeName slotSize s.bus c).1 =
        (onEntry c.topic ⟨s.bus.rings, some s.bus.rings⟩ c.op).1 := by
      simp only [call_eq, withEntry, orInsertWith, Option.map_eq_none_iff.mp hnone, hring, downcastMut, makeSlot,
        ne_eq, not_true_eq_false, if_false, if_true]
    rw [hcall]
    cases c.op with
    | publisher | tryPublisher => exact ⟨_, rfl, fun _ => rfl⟩
    | subscribe | subscribable => exact ⟨_, rfl, fun hop => by rcases hop with hop | hop <;> cases hop⟩
  · rw [hok.publishers]
    cases s.bus.topics topic with
    | none => exact Nat.zero_le _
    | some slot =>
      change slot.inner.gone ≤ 1
      unfold TypedEntry.gone
      split <;> omega
  · rw [hok.call_used hslot hty]
    exact onEntry_publisher hop hring
  · obtain ⟨slot, hslot, _, hring⟩ := hok.issued c hd hm
    obtain ⟨slot', hslot', _, hring'⟩ := hok.issued c' hd' hm'
    rw [hring r hr, hring' r' hr']
    constructor
    · intro he
      exact hok.distinct _ _ _ _ hslot hslot' he
    · intro ht
      rw [ht, hslot'] at hslot
      rw [Option.some.inj hslot]
  · obtain ⟨slot', hslot', _, hr'⟩ := hok.issued c hd hm
    obtain rfl := Option.some.inj (hslot.symm.trans hslot')
    rw [hr' r hr, (hok.slots _ _ hslot).publisher ring hring]
  · have hout := call_outcome slotSize hok.slots c
    have hsame : (call typeName slotSize s.bus c).2 = s.bus := by
      rw [hmsg] at hout
      revert hout
      generalize (call typeName slotSize s.bus c).2 = bus
      intro hout
      cases hout <;> rfl
    refine ⟨hsame, ?_, fun topic slot ring hslot hring => ?_⟩
    · rw [hmsg, hsame] at hout
      cases hout with
      | refused hnone hring =>
        rw [hok.capacity] at hring
        exact Or.inl ⟨hnone, newRingPanic_eq_some hring⟩
      | mismatch hslot hty =>
        exact Or.inr ⟨_, hslot, Or.inl ⟨hty, by rw [(hok.slots _ _ hslot).name]⟩⟩
      | taken hslot hty hop htaken => exact Or.inr ⟨_, hslot, Or.inr ⟨hty, hop, htaken, rfl⟩⟩
    · rw [hsame]
      exact (hok.call_used (c := ⟨.publisher, slot.typeId, topic⟩) hslot rfl).trans
        (onEntry_publisher (Or.inl rfl) hring)

/-- A topic created by a subscriber of one type, asked for in vain at another, whose
publisher is then taken; a second topic; and a third one, whose ring would be too large. -/
theorem typed_bus_topics_prices :
    ∃ s : System Bool,
      Reachable (step (fun b => if b then "f64" else "[u8; 1 << 62]") fun b => if b then 64 else 2 ^ 62 + 64)
        (System.new 64) s ∧
      s.history.map (fun x => x.2.toOption) = [some (.subscriber 0), none, some (.publisher 0),
        some .noPublisher, some (.subscribable 1), none] ∧
      (call (fun b => if b then "f64" else "[u8; 1 << 62]") (fun b => if b then 64 else 2 ^ 62 + 64) s.bus
        ⟨.subscribe, false, "prices"⟩).1 =
          .error "topic 'prices' exists with type 'f64', cannot access as '[u8; 1 << 62]'" ∧
      publishers s.history "prices" ≤ 1 ∧
      (call (fun b => if b then "f64" else "[u8; 1 << 62]") (fun b => if b then 64 else 2 ^ 62 + 64) s.bus
        ⟨.subscribe, false, "prices"⟩).2 = s.bus := by
  obtain ⟨s, hr, hp⟩ := Reachable.of_run_any
    (step (fun b => if b then "f64" else "[u8; 1 << 62]") fun b => if b then 64 else 2 ^ 62 + 64)
    (System.new (τ := Bool) 64)
    (fun s => decide (s.history.map (fun x => x.2.toOption) = [some (.subscriber 0), none,
      some (.publisher 0), some .noPublisher, some (.subscribable 1), none] ∧
      firstType s.history "prices" = some true))
    [⟨.subscribe, true, "prices"⟩, ⟨.publisher, false, "prices"⟩, ⟨.publisher, true, "prices"⟩,
      ⟨.tryPublisher, true, "prices"⟩, ⟨.subscribable, true, "volumes"⟩, ⟨.subscribe, false, "images"⟩]
    (by decide +kernel)
  obtain ⟨hhist, hfirst⟩ := of_decide_eq_true hp
  obtain ⟨_, hmis, _, hpub, _, _, _, hpanic⟩ := typed_bus_topics hr
  have herr := hmis ⟨.subscribe, false, "prices"⟩ true hfirst (by decide)
  exact ⟨s, hr, hhist, herr, hpub "prices", (hpanic _ _ herr).1⟩

end PhotonRing.TypedBus
