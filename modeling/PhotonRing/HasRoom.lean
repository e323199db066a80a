import PhotonRing.Lib.Progress
import PhotonRing.Ring

/-!
# Waiting in `has_room`

The publishers of the bounded channel and of the event ring spin in the same way: they look
at the cached bound, take the tracker lock, and load one tracker after the other. A look
that begins once every registered tracker has come up with the publisher finds room, but
one that began before may not, so a waiting publisher may have to look twice.
-/
namespace PhotonRing

open Lib

/-- Where a publisher stands in `has_room`. -/
inductive Look where
  | room
  | lock
  | scan (todo : List Nat) (min : Nat) (live : Bool)
  | load (i : Nat) (todo : List Nat) (min : Nat) (live : Bool)

namespace Look

variable {seq room limit : Nat} {t : Trackers}

/-- One step of a publisher inside `has_room`. It is outside again when it may write, and when
it gives up. -/
inductive Next (seq room : Nat) (t : Trackers) : Look → Option Look → Prop where
  | stale : Next seq room t .room (some .lock)
  | trust : Next seq room t .room none
  | lock : Next seq room t .lock (some (.scan t.registered u64Max false))
  | alive {i : Nat} (todo : List Nat) (min : Nat) (live : Bool) (hstrong : 0 < t.strong i) :
      Next seq room t (.scan (i :: todo) min live) (some (.load i todo min live))
  | dead {i : Nat} (todo : List Nat) (min : Nat) (live : Bool) (hstrong : ¬ 0 < t.strong i) :
      Next seq room t (.scan (i :: todo) min live) (some (.scan todo min live))
  | load (i : Nat) (todo : List Nat) (min : Nat) (live : Bool) :
      Next seq room t (.load i todo min live) (some (.scan todo (if t.value i < min then t.value i else min) true))
  | full {min : Nat} (hfull : u64 (min + room) ≤ seq) : Next seq room t (.scan [] min true) (some .room)
  | returns (min : Nat) (live : Bool) : Next seq room t (.scan [] min live) none

/-- The scan began after the trackers `up` had come up with the publisher; those of `gone` have
no subscriber any more. -/
def Fresh (seq limit : Nat) (up gone : Nat → Prop) : Look → Prop
  | .scan todo min live => (∀ i ∈ todo, up i ∨ gone i) ∧ seq ≤ min ∧ (live = true → min < limit)
  | .load i todo min live => up i ∧ (∀ j ∈ todo, up j ∨ gone j) ∧ seq ≤ min ∧ (live = true → min < limit)
  | _ => False

def left : Look → Nat
  | .room => 2
  | .lock => 1
  | .scan todo _ _ => 2 * todo.length + 1
  | .load _ todo _ _ => 2 * todo.length + 2

variable {l l' : Look} {up gone : Nat → Prop}

theorem scan_fresh (hseq : seq < 2 ^ 64) (h : ∀ i ∈ t.registered, up i ∨ gone i) :
    Fresh seq limit up gone (.scan t.registered u64Max false) :=
  ⟨h, Nat.le_pred_of_lt hseq, fun hl => (by cases hl)⟩

/-- A fresh scan goes on to its end, and there it finds room. -/
theorem Next.fresh (h : Next seq room t l (some l')) (hl : Fresh seq limit up gone l)
    (hup : ∀ i, up i → seq ≤ t.value i ∧ t.value i < limit) (hgone : ∀ i, gone i → t.strong i = 0)
    (hpos : 0 < room) (hfits : limit + room ≤ 2 ^ 64) : Fresh seq limit up gone l' ∧ l'.left < l.left := by
  cases h with
  | stale => exact hl.elim
  | lock => exact hl.elim
  | @alive i todo min live hstrong =>
    obtain ⟨htodo, hmin⟩ := hl
    have hi : up i := (htodo i List.mem_cons_self).resolve_right fun hg => by rw [hgone i hg] at hstrong; cases hstrong
    exact ⟨⟨hi, fun j hj => htodo j (List.mem_cons_of_mem i hj), hmin⟩, by simp only [left, List.length_cons]; omega⟩
  | @dead i todo min live _ =>
    obtain ⟨htodo, hmin⟩ := hl
    exact ⟨⟨fun j hj => htodo j (List.mem_cons_of_mem i hj), hmin⟩, by simp only [left, List.length_cons]; omega⟩
  | load i todo min live =>
    obtain ⟨hi, htodo, hmin, _⟩ := hl
    obtain ⟨hge, hlt⟩ := hup i hi
    refine ⟨⟨htodo, ?_, fun _ => ?_⟩, by simp only [left]; omega⟩
    · split_ifs <;> omega
    · split_ifs <;> omega
  | @full min hfull =>
    obtain ⟨_, hmin, hlt⟩ := hl
    have := hlt rfl
    rw [u64_of_lt (by omega)] at hfull
    omega

/-- Any other scan ends, if only to begin again. -/
theorem Next.left_lt (h : Next seq room t l (some l')) (hl : l ≠ .room ∧ l ≠ .lock) :
    l' = .room ∨ (l' ≠ .room ∧ l' ≠ .lock) ∧ l'.left < l.left := by
  cases h with
  | stale => exact absurd rfl hl.1
  | lock => exact absurd rfl hl.2
  | alive todo min live _ => exact Or.inr ⟨by simp, by simp only [left, List.length_cons]; omega⟩
  | dead todo min live _ => exact Or.inr ⟨by simp, by simp only [left, List.length_cons]; omega⟩
  | load i todo min live => exact Or.inr ⟨by simp, by simp only [left]; omega⟩
  | full _ => exact Or.inl rfl

/-! ## A wait -/

section Waiting

variable (look : Nat → Option Look) (t : Nat → Trackers) (own : Nat → Prop) {k : Nat}

/-- The looks of a publisher from some point on: it gets its turn again and again while it waits. -/
structure Looks (seq room k : Nat) : Prop where
  fair : ∀ j ≥ k, (∀ m ≥ j, look m ≠ none) → ∃ m ≥ j, own m
  next : ∀ m ≥ k, ∀ l, look m = some l → own m → l.Next seq room (t m) (look (m + 1))
  other : ∀ m ≥ k, ¬ own m → look m ≠ none → look (m + 1) = look m

variable {look t own}

/-- One part of the wait, which each own step brings nearer to its end. -/
theorem Looks.ends (h : Looks look t own seq room k) {P : Look → Prop} {Q : Option Look → Prop} {j : Nat} (hj : j ≥ k)
    (hown : ∀ m ≥ k, ∀ l, P l → l.Next seq room (t m) (look (m + 1)) →
      Q (look (m + 1)) ∨ ∃ l', look (m + 1) = some l' ∧ P l' ∧ l'.left < l.left)
    {l : Look} (hl : look j = some l) (hP : P l) : ∃ m ≥ k, Q (look m) := by
  have hends : ∃ m ≥ j, Q (look m) := by
    refine eventually_of_rank own (fun m => ∃ l, look m = some l ∧ P l) (fun m => Q (look m))
      (fun m => (look m).elim 0 Look.left) ?_ ?_ ?_ ⟨l, hl, hP⟩
    · intro j' hj' hwaits
      refine h.fair j' (hj.trans hj') fun m hm hnone => ?_
      obtain ⟨l, hl, _⟩ := hwaits m hm
      rw [hnone] at hl
      cases hl
    · rintro m hm ⟨l, hl, hP⟩ ho
      refine (hown m (hj.trans hm) l hP (h.next m (hj.trans hm) l hl ho)).imp_right ?_
      rintro ⟨l', hl', hP', hlt⟩
      exact ⟨⟨l', hl', hP'⟩, by simpa [hl, hl'] using hlt⟩
    · rintro m hm ⟨l, hl, hP⟩ ho
      have he := h.other m (hj.trans hm) ho (by simp [hl])
      exact Or.inr ⟨⟨l, he.trans hl, hP⟩, by simp [he]⟩
  obtain ⟨m, hm, hQ⟩ := hends
  exact ⟨m, hj.trans hm, hQ⟩

/-- A publisher for which all registered trackers that still have a subscriber have come up with
it does not wait for ever. -/
theorem Looks.returns (h : Looks look t own seq room k) (hpos : 0 < room) (hfits : limit + room ≤ 2 ^ 64)
    (hseq : seq < limit) (hup : ∀ m ≥ k, ∀ i ∈ (t m).registered,
      (∀ j ≥ k, seq ≤ (t j).value i ∧ (t j).value i < limit) ∨ ∀ j ≥ k, (t j).strong i = 0) :
    ∃ m ≥ k, look m = none := by
  let up (i : Nat) : Prop := ∀ j ≥ k, seq ≤ (t j).value i ∧ (t j).value i < limit
  let gone (i : Nat) : Prop := ∀ j ≥ k, (t j).strong i = 0
  have hscan {j : Nat} (hj : j ≥ k) {l : Look} (hl : look j = some l) (hf : l.Fresh seq limit up gone) :
      ∃ m ≥ k, look m = none := by
    refine h.ends (Q := fun x => x = none) hj (fun m hm l hf hnext => ?_) hl hf
    cases hl' : look (m + 1) with
    | none => exact Or.inl rfl
    | some l' =>
      rw [hl'] at hnext
      exact Or.inr ⟨l', rfl, hnext.fresh hf (fun i hi => hi m hm) (fun i hi => hi m hm) hpos hfits⟩
  have hroom {j : Nat} (hj : j ≥ k) {l : Look} (hl : look j = some l) (hP : l = .room ∨ l = .lock) :
      ∃ m ≥ k, look m = none := by
    have hends : ∃ m ≥ k, look m = none ∨ ∃ l, look m = some l ∧ l.Fresh seq limit up gone := by
      refine h.ends (P := fun l => l = .room ∨ l = .lock)
        (Q := fun x => x = none ∨ ∃ l, x = some l ∧ l.Fresh seq limit up gone) hj (fun m hm l hP hnext => ?_) hl hP
      cases hl' : look (m + 1) with
      | none => exact Or.inl (Or.inl rfl)
      | some l' =>
        rw [hl'] at hnext
        rcases hP with rfl | rfl
        · cases hnext
          exact Or.inr ⟨_, rfl, Or.inr rfl, Nat.lt_succ_self _⟩
        · cases hnext
          exact Or.inl (Or.inr ⟨_, rfl, scan_fresh (by omega) (hup m hm)⟩)
    obtain ⟨m, hm, hnone | ⟨l, hl, hf⟩⟩ := hends
    · exact ⟨m, hm, hnone⟩
    · exact hscan hm hl hf
  cases hk : look k with
  | none => exact ⟨k, Nat.le_refl k, hk⟩
  | some l =>
    by_cases hl : l = .room ∨ l = .lock
    · exact hroom (Nat.le_refl k) hk hl
    · -- a scan that began too early is followed by one that does not
      have hends : ∃ m ≥ k, look m = none ∨ look m = some .room := by
        refine h.ends (P := fun l => l ≠ .room ∧ l ≠ .lock) (Q := fun x => x = none ∨ x = some .room)
          (Nat.le_refl k) (fun m hm l hP hnext => ?_) hk (not_or.mp hl)
        cases hl' : look (m + 1) with
        | none => exact Or.inl (Or.inl rfl)
        | some l' =>
          rw [hl'] at hnext
          rcases hnext.left_lt hP with rfl | hlt
          · exact Or.inl (Or.inr rfl)
          · exact Or.inr ⟨l', rfl, hlt⟩
      obtain ⟨m, hm, hnone | hl⟩ := hends
      · exact ⟨m, hm, hnone⟩
      · exact hroom hm hl (Or.inl rfl)

end Waiting

end Look

end PhotonRing
