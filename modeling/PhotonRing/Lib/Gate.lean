import PhotonRing.Lib.Mutex
import Mathlib.Order.Nat

/-!
# A writer gated by a cached minimum

Readers hold reservations: the reader at `r` forbids the writer to move beyond
`r + room`. The writer does not look at the reservations before every move. It
trusts a cached lower bound until that bound forbids the move, and then takes the
minimum of the reservations one by one while they keep growing. A reader joins at
the writer's position, outside a scan, possibly between the grant of a move and
the move itself. Scans and registrations exclude each other by a lock.
-/
namespace PhotonRing.Lib

/-- The writer: its position, its cached bound, whether the next move has been
granted, and the readers a scan still has to look at with the minimum so far. -/
structure Gate (ι : Type*) where
  pos : Nat
  cached : Nat
  granted : Bool
  scan : Option (List ι × Option Nat)

namespace Gate

variable {ι : Type*} {room : Nat} {g g' : Gate ι} {i j : ι} {r : Nat} {todo : List ι}

/-- What the writer knows is never ahead of it. -/
structure Behind (g : Gate ι) : Prop where
  cached_le : g.cached ≤ g.pos
  min_le : ∀ todo m, g.scan = some (todo, some m) → m ≤ g.pos

/-- The writer respects the reservation `r` of reader `i`. -/
structure Covers (room : Nat) (g : Gate ι) (i : ι) (r : Nat) : Prop where
  cached_le : g.cached ≤ r
  pos_le : g.pos ≤ r + room
  pos_lt : g.granted = true → g.pos < r + room
  scanned : ∀ todo m, g.scan = some (todo, m) → i ∈ todo ∨ ∃ k, m = some k ∧ k ≤ r

/-! ## What the readers do -/

theorem Covers.join (hroom : 0 < room) (h : g.Behind) (hs : g.scan = none) : g.Covers room i g.pos where
  cached_le := h.cached_le
  pos_le := by omega
  pos_lt := fun _ => by omega
  scanned := fun _ _ hs' => by rw [hs] at hs'; cases hs'

theorem Covers.raise {r' : Nat} (h : g.Covers room i r) (hr : r ≤ r') : g.Covers room i r' where
  cached_le := h.cached_le.trans hr
  pos_le := by have := h.pos_le; omega
  pos_lt := fun hg => by have := h.pos_lt hg; omega
  scanned := fun todo m hs => by
    rcases h.scanned todo m hs with hi | ⟨k, hk, hle⟩
    · exact Or.inl hi
    · exact Or.inr ⟨k, hk, hle.trans hr⟩

/-! ## What the writer does -/

/-- A grant given up: the closure panicked, or there was nothing to write. -/
theorem Covers.revoke (h : g.Covers room i r) : { g with granted := false }.Covers room i r :=
  ⟨h.cached_le, h.pos_le, fun hg => (by cases hg), h.scanned⟩

/-- The cached bound allows the move. -/
theorem Covers.trust (h : g.Covers room i r) (hlt : g.pos < g.cached + room) (b : Bool) :
    { g with granted := b }.Covers room i r :=
  ⟨h.cached_le, h.pos_le, fun _ => by have := h.cached_le; dsimp only; omega, h.scanned⟩

theorem Covers.beginScan (h : g.Covers room i r) (hi : i ∈ todo) :
    { g with scan := some (todo, none) }.Covers room i r :=
  ⟨h.cached_le, h.pos_le, h.pos_lt, fun _ _ hs => by cases hs; exact Or.inl hi⟩

/-- A reader that has gone is left out. -/
theorem Covers.skip {m : Option Nat} (h : g.Covers room i r) (hs : g.scan = some (j :: todo, m))
    (hne : i ≠ j) : { g with scan := some (todo, m) }.Covers room i r := by
  refine ⟨h.cached_le, h.pos_le, h.pos_lt, fun _ _ hs' => ?_⟩
  cases hs'
  rcases h.scanned _ _ hs with hi | hk
  · rcases List.mem_cons.mp hi with rfl | hi'
    · exact absurd rfl hne
    · exact Or.inl hi'
  · exact Or.inr hk

/-- The next reader's value enters the minimum. -/
theorem Covers.visit {m : Option Nat} {m' v : Nat} (h : g.Covers room i r)
    (hs : g.scan = some (j :: todo, m)) (hv : i = j → v ≤ r) (hm : m' ≤ v)
    (hm' : ∀ k, m = some k → m' ≤ k) : { g with scan := some (todo, some m') }.Covers room i r := by
  refine ⟨h.cached_le, h.pos_le, h.pos_lt, fun _ _ hs' => ?_⟩
  cases hs'
  rcases h.scanned _ _ hs with hi | ⟨k, hk, hle⟩
  · rcases List.mem_cons.mp hi with he | hi'
    · exact Or.inr ⟨_, rfl, hm.trans (hv he)⟩
    · exact Or.inl hi'
  · exact Or.inr ⟨_, rfl, (hm' k hk).trans hle⟩

/-- The scan ends with a new bound, and the move is granted if it allows it. -/
theorem Covers.endScan {m : Nat} (h : g.Covers room i r) (hs : g.scan = some ([], some m)) {b : Bool}
    (hb : b = true → g.pos < m + room) :
    { g with cached := m, scan := none, granted := b }.Covers room i r := by
  have hm : m ≤ r := by
    rcases h.scanned _ _ hs with hi | ⟨k, hk, hle⟩
    · cases hi
    · cases hk
      exact hle
  exact ⟨hm, h.pos_le, fun hg => by have := hb hg; dsimp only; omega, fun _ _ hs' => by cases hs'⟩

/-- A scan that met no reader proves that there is no reservation. -/
theorem Covers.not_empty (h : g.Covers room i r) (hs : g.scan = some ([], none)) : False := by
  rcases h.scanned _ _ hs with hi | ⟨k, hk, _⟩
  · cases hi
  · cases hk

/-- The granted move. -/
theorem Covers.advance (h : g.Covers room i r) (hg : g.granted = true) :
    { g with pos := g.pos + 1, granted := false }.Covers room i r :=
  ⟨h.cached_le, h.pos_lt hg, fun h' => (by cases h'), h.scanned⟩

/-! ## All that the writer can do -/

/-- One step of the writer. `value` and `live` are what the readers' reservations
and their presence are at this moment, `listed` the readers a scan starts with. -/
inductive Move (room : Nat) (value : ι → Nat) (live : ι → Prop) (listed : List ι) (g : Gate ι) :
    Gate ι → Prop where
  | stay : Move room value live listed g g
  | revoke : Move room value live listed g { g with granted := false }
  | trust (b : Bool) (hlt : g.pos < g.cached + room) :
      Move room value live listed g { g with granted := b }
  | beginScan : Move room value live listed g { g with scan := some (listed, none) }
  | skip {j : ι} {todo : List ι} {m : Option Nat} (hs : g.scan = some (j :: todo, m))
      (hj : ¬ live j) : Move room value live listed g { g with scan := some (todo, m) }
  | visit {j : ι} {todo : List ι} {m : Option Nat} {m' : Nat} (hs : g.scan = some (j :: todo, m))
      (hm : m' ≤ value j) (hm' : ∀ k, m = some k → m' ≤ k) :
      Move room value live listed g { g with scan := some (todo, some m') }
  | endScan {m : Nat} {b : Bool} (hs : g.scan = some ([], some m)) (hb : b = true → g.pos < m + room) :
      Move room value live listed g { g with cached := m, scan := none, granted := b }
  | endEmpty {b : Bool} (hs : g.scan = some ([], none)) :
      Move room value live listed g { g with scan := none, granted := b }
  | advance (hg : g.granted = true) :
      Move room value live listed g { g with pos := g.pos + 1, granted := false }

variable {value : ι → Nat} {live : ι → Prop} {listed : List ι}

/-- The writer never goes back. -/
theorem Move.pos_le (hm : Move room value live listed g g') : g.pos ≤ g'.pos := by
  cases hm with
  | advance hg => exact Nat.le_succ _
  | _ => exact Nat.le_refl _

/-- No step of the writer breaks the reservation of a listed, live reader. -/
theorem Covers.move (h : g.Covers room i r) (hm : Move room value live listed g g') (hlive : live i)
    (hi : i ∈ listed) (hv : value i ≤ r) : g'.Covers room i r := by
  cases hm with
  | stay => exact h
  | revoke => exact h.revoke
  | trust b hlt => exact h.trust hlt b
  | beginScan => exact h.beginScan hi
  | skip hs hj => exact h.skip hs (by rintro rfl; exact hj hlive)
  | visit hs hm hm' => exact h.visit hs (by rintro rfl; exact hv) hm hm'
  | endScan hs hb => exact h.endScan hs hb
  | endEmpty hs => exact (h.not_empty hs).elim
  | advance hg => exact h.advance hg

/-- Outside a scan the writer needs no list to respect a reservation. -/
theorem Covers.move_outside (h : g.Covers room i r) (hm : Move room value live listed g g')
    (hs : g.scan = none) (hs' : g'.scan = none) : g'.Covers room i r := by
  cases hm with
  | stay => exact h
  | revoke => exact h.revoke
  | trust b hlt => exact h.trust hlt b
  | beginScan => cases hs'
  | skip h' _ => rw [hs] at h'; cases h'
  | visit h' _ _ => rw [hs] at h'; cases h'
  | endScan h' _ => rw [hs] at h'; cases h'
  | endEmpty h' => rw [hs] at h'; cases h'
  | advance hg => exact h.advance hg

/-- The writer stays ahead of what it knows, as long as a scan only meets
reservations that are not ahead of the writer. -/
theorem Behind.move (h : g.Behind) (hm : Move room value live listed g g')
    (hv : ∀ todo m, g.scan = some (todo, m) → ∀ j, value j ≤ g.pos) : g'.Behind := by
  have hc := h.cached_le
  cases hm with
  | stay => exact h
  | revoke => exact ⟨hc, h.min_le⟩
  | trust b hlt => exact ⟨hc, h.min_le⟩
  | beginScan => exact ⟨hc, fun _ _ hs => by cases hs⟩
  | skip hs hj =>
    refine ⟨hc, fun _ m hs' => ?_⟩
    cases hs'
    exact h.min_le _ m hs
  | @visit j _ _ _ hs hm hm' =>
    refine ⟨hc, fun _ m hs' => ?_⟩
    cases hs'
    exact hm.trans (hv _ _ hs j)
  | endScan hs hb => exact ⟨h.min_le _ _ hs, fun _ _ hs' => by cases hs'⟩
  | endEmpty hs => exact ⟨hc, fun _ _ hs' => by cases hs'⟩
  | advance hg => exact ⟨hc.trans (Nat.le_succ _), fun todo m hs => (h.min_le todo m hs).trans (Nat.le_succ _)⟩

/-! ## The lock around scans and registrations -/

/-- Who is inside the lock: the writer while it scans, and the readers that register. -/
def inside (g : Gate ι) (holds : ι → Prop) : Option ι → Prop
  | none => g.scan.isSome
  | some i => holds i

variable {holds holds' : ι → Prop} {locked locked' : Bool} {listed' : List ι}

/-- A reader inside the lock keeps the writer from scanning. -/
theorem scan_none (hm : Mutex locked (g.inside holds)) (hi : holds i) : g.scan = none := by
  cases hs : g.scan with
  | none => rfl
  | some x =>
    have := hm.unique (some i) none hi (by simp [inside, hs])
    cases this

/-- One step of the writer with what it does to the list of readers and to the lock. -/
structure Turn (room : Nat) (value : ι → Nat) (live : ι → Prop) (listed listed' : List ι)
    (locked locked' : Bool) (g g' : Gate ι) : Prop where
  move : Move room value live listed g g'
  listed : ∀ i, live i → i ∈ listed → i ∈ listed'
  lock : (locked' = locked ∧ (g'.scan.isSome → g.scan.isSome)) ∨ (locked = false ∧ locked' = true) ∨
    (g.scan.isSome ∧ g'.scan = none)

theorem Turn.mutex (h : Turn room value live listed listed' locked locked' g g')
    (hm : Mutex locked (g.inside holds)) : Mutex locked' (g'.inside holds) := by
  refine hm.step (i := none) (fun j hj hin => ?_) ?_
  · cases j with
    | none => exact absurd rfl hj
    | some j => exact hin
  · rcases h.lock with hl | hl | ⟨hs, hs'⟩
    · exact Or.inl hl
    · exact Or.inr (Or.inl hl)
    · refine Or.inr (Or.inr ⟨hs, fun hin => ?_⟩)
      change g'.scan.isSome at hin
      rw [hs'] at hin
      cases hin

/-- A reader inside the lock is respected before it is listed. -/
theorem Turn.joining (h : Turn room value live listed listed' locked locked' g g')
    (hm : Mutex locked (g.inside holds)) (hi : holds i) (hc : g.Covers room i r) :
    g'.Covers room i r := by
  have hscan := scan_none hm hi
  refine hc.move_outside h.move hscan ?_
  rcases h.lock with ⟨_, hs⟩ | ⟨hfree, _⟩ | ⟨_, hs⟩
  · cases hs' : g'.scan with
    | none => rfl
    | some x =>
      have := hs (by rw [hs']; rfl)
      rw [hscan] at this
      cases this
  · have := hm.flag (some i) hi
    rw [hfree] at this
    cases this
  · exact hs

/-- One step of reader `i`, which enters the lock, leaves it or neither. -/
theorem reader_mutex (hm : Mutex locked (g.inside holds)) (hother : ∀ j, j ≠ i → (holds' j ↔ holds j))
    (hi : (locked' = locked ∧ (holds' i → holds i)) ∨ (locked = false ∧ locked' = true) ∨
      (holds i ∧ ¬ holds' i)) : Mutex locked' (g.inside holds') := by
  refine hm.step (i := some i) (fun j hj hin => ?_) hi
  cases j with
  | none => exact hin
  | some j => exact (hother j (fun h => hj (by rw [h]))).mp hin

/-- One step of the writer, which holds the lock from the beginning of a scan to its end. -/
theorem writer_held (h : Held locked (g.inside holds))
    (hi : locked' = true → g'.scan.isSome = true ∨ locked = true ∧ g.scan = none) :
    Held locked' (g'.inside holds) := by
  refine h.step (i := none) (fun j hj hin => ?_)
    fun hl => (hi hl).imp_right fun ⟨hlock, hnone⟩ => ⟨hlock, fun hin => ?_⟩
  · cases j with
    | none => exact absurd rfl hj
    | some j => exact hin
  · change g.scan.isSome = true at hin
    rw [hnone] at hin
    cases hin

/-- One step of reader `i`. -/
theorem reader_held (h : Held locked (g.inside holds)) (hother : ∀ j, j ≠ i → holds j → holds' j)
    (hi : locked' = true → holds' i ∨ locked = true ∧ ¬ holds i) : Held locked' (g.inside holds') := by
  refine h.step (i := some i) (fun j hj hin => ?_) hi
  cases j with
  | none => exact hin
  | some j => exact hother j (fun h => hj (by rw [h])) hin

end Gate

end PhotonRing.Lib
