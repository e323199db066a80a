import PhotonRing.Lib.Gate
import PhotonRing.Ring

/-!
# Registered trackers

The bounded channel and the event ring hold their publisher back in the same way:
a scan of the registered trackers under the tracker lock gives the bound that the
publisher then trusts. Here the trackers are the reservations of a gated writer.
-/
namespace PhotonRing.Trackers

open Lib

variable {room i j start v : Nat} {t t' : Trackers} {l l' : List Nat} {g g' : Gate Nat}

/-- A step of the publisher: `l` is the registered list, with the part of it that a
scan has taken out. -/
structure Turn (room : Nat) (t t' : Trackers) (l l' : List Nat) (g g' : Gate Nat) : Prop where
  gate : Gate.Turn room t.value (fun i => 0 < t.strong i) l l' t.locked t'.locked g g'
  value : t'.value = t.value
  strong : t'.strong = t.strong

/-- A step that leaves the trackers alone, outside a scan. -/
theorem Turn.outside (hl : l = l') (hs : g'.scan = none)
    (hg : Gate.Move room t.value (fun i => 0 < t.strong i) l g g') : Turn room t t l l' g g' :=
  ⟨⟨hg, fun _ _ hi => hl ▸ hi, Or.inl ⟨rfl, fun h => by rw [hs] at h; cases h⟩⟩, rfl, rfl⟩

/-- A step inside a scan, which drops only trackers without a subscriber. -/
theorem Turn.scanning (hl : ∀ i, 0 < t.strong i → i ∈ l → i ∈ l') (hs : g.scan.isSome)
    (hg : Gate.Move room t.value (fun i => 0 < t.strong i) l g g') : Turn room t t l l' g g' :=
  ⟨⟨hg, hl, Or.inl ⟨rfl, fun _ => hs⟩⟩, rfl, rfl⟩

/-- The scan takes the tracker lock. -/
theorem Turn.lock (hfree : t.locked = false) (hl : l = l')
    (hg : Gate.Move room t.value (fun i => 0 < t.strong i) l g g') :
    Turn room t { t with locked := true } l l' g g' :=
  ⟨⟨hg, fun _ _ hi => hl ▸ hi, Or.inr (Or.inl ⟨hfree, rfl⟩)⟩, rfl, rfl⟩

/-- The scan releases the tracker lock and leaves the trackers it kept. -/
theorem Turn.unlock (hl : ∀ i ∈ l, i ∈ l') (hs : g.scan.isSome) (hs' : g'.scan = none)
    (hg : Gate.Move room t.value (fun i => 0 < t.strong i) l g g') :
    Turn room t { t with locked := false, registered := l' } l l' g g' :=
  ⟨⟨hg, fun i _ => hl i, Or.inr (Or.inr ⟨hs, hs'⟩)⟩, rfl, rfl⟩

/-- Pruning a dead tracker keeps the others. -/
theorem mem_of_dead {kept todo : List Nat} (hdead : ¬ 0 < t.strong j) (hi : 0 < t.strong i)
    (h : i ∈ kept ++ j :: todo) : i ∈ kept ++ todo := by
  rcases List.mem_append.mp h with h | h
  · exact List.mem_append_left _ h
  · rcases List.mem_cons.mp h with rfl | h
    · exact absurd hi hdead
    · exact List.mem_append_right _ h

/-- The publisher has to respect tracker `i`. -/
structure Registered (room : Nat) (t : Trackers) (l : List Nat) (g : Gate Nat) (i : Nat) : Prop where
  listed : i ∈ l
  alive : 0 < t.strong i
  covers : g.Covers room i (t.value i)

theorem Registered.turn (h : Registered room t l g i) (hm : Turn room t t' l l' g g') :
    Registered room t' l' g' i := by
  refine ⟨hm.gate.listed i h.alive h.listed, by rw [hm.strong]; exact h.alive, ?_⟩
  rw [hm.value]
  exact h.covers.move hm.gate.move h.alive h.listed (Nat.le_refl _)

/-- What others do to the trackers. -/
theorem Registered.other (h : Registered room t l g i) (hval : t'.value i = t.value i)
    (hstr : 0 < t.strong i → 0 < t'.strong i) (hl : i ∈ l → i ∈ l') : Registered room t' l' g i :=
  ⟨hl h.listed, hstr h.alive, by rw [hval]; exact h.covers⟩

/-- The subscriber stores a later position. -/
theorem Registered.store (h : Registered room t l g i) (hv : t.value i ≤ v) :
    Registered room { t with value := Function.update t.value i v } l g i := by
  refine ⟨h.listed, h.alive, ?_⟩
  change g.Covers room i (Function.update t.value i v i)
  rw [Function.update_self]
  exact h.covers.raise hv

/-- A new tracker is pushed at a position that the publisher already respects. -/
theorem Registered.push (h : g.Covers room i start) :
    Registered room
      { t with
        locked := false
        registered := t.registered ++ [i]
        value := Function.update t.value i start
        strong := Function.update t.strong i 1 }
      (t.registered ++ [i]) g i := by
  refine ⟨by simp, by simp, ?_⟩
  change g.Covers room i (Function.update t.value i start i)
  rw [Function.update_self]
  exact h

/-- The publisher respects tracker `i` from `floor` on: what lies below may be overwritten
although the tracker still points at it. -/
structure RegisteredFrom (floor room : Nat) (t : Trackers) (l : List Nat) (g : Gate Nat) (i : Nat) : Prop where
  listed : i ∈ l
  alive : 0 < t.strong i
  covers : g.Covers room i (max (t.value i) floor)

variable {floor : Nat}

theorem RegisteredFrom.turn (h : RegisteredFrom floor room t l g i) (hm : Turn room t t' l l' g g') :
    RegisteredFrom floor room t' l' g' i := by
  refine ⟨hm.gate.listed i h.alive h.listed, by rw [hm.strong]; exact h.alive, ?_⟩
  rw [hm.value]
  exact h.covers.move hm.gate.move h.alive h.listed (Nat.le_max_left _ _)

theorem RegisteredFrom.other (h : RegisteredFrom floor room t l g i) (hval : t'.value i = t.value i)
    (hstr : 0 < t.strong i → 0 < t'.strong i) (hl : i ∈ l → i ∈ l') : RegisteredFrom floor room t' l' g i :=
  ⟨hl h.listed, hstr h.alive, by rw [hval]; exact h.covers⟩

theorem RegisteredFrom.store (h : RegisteredFrom floor room t l g i) (hv : t.value i ≤ v) :
    RegisteredFrom floor room { t with value := Function.update t.value i v } l g i := by
  refine ⟨h.listed, h.alive, ?_⟩
  change g.Covers room i (max (Function.update t.value i v i) floor)
  rw [Function.update_self]
  exact h.covers.raise (by omega)

/-- A tracker pushed at any position not beyond the publisher is respected from the
publisher's position on. -/
theorem RegisteredFrom.push (hroom : 0 < room) (hb : g.Behind) (hs : g.scan = none) (hle : start ≤ g.pos) :
    RegisteredFrom g.pos room
      { t with
        locked := false
        registered := t.registered ++ [i]
        value := Function.update t.value i start
        strong := Function.update t.strong i 1 }
      (t.registered ++ [i]) g i := by
  refine ⟨by simp, by simp, ?_⟩
  change g.Covers room i (max (Function.update t.value i start i) g.pos)
  rw [Function.update_self, Nat.max_eq_right hle]
  exact .join hroom hb hs

end PhotonRing.Trackers
