import PhotonRing.Lib.Progress
import Mathlib.Logic.Encodable.Basic
import Mathlib.Data.Nat.Pairing
import Mathlib.Tactic.Choose

/-!
# Behaviours and weak fairness

A behaviour is an infinite sequence of states. Its steps follow the next-state relation
or change nothing; weak fairness asks of an action that it is not put off for ever while
it could change something.
-/
namespace PhotonRing.Lib

variable {σ α : Type*} {next act : σ → σ → Prop} {P Q : σ → Prop} {e : Nat → σ}

/-- `[next]_vars`, always. -/
def Always (next : σ → σ → Prop) (e : Nat → σ) : Prop := ∀ k, next (e k) (e (k + 1)) ∨ e (k + 1) = e k

/-- `⟨act⟩_vars`. -/
def Changes (act : σ → σ → Prop) (s t : σ) : Prop := act s t ∧ t ≠ s

/-- `WF_vars(act)`. -/
def WeaklyFair (act : σ → σ → Prop) (e : Nat → σ) : Prop :=
  ∀ k, (∀ m ≥ k, ∃ t, Changes act (e m) t) → ∃ m ≥ k, Changes act (e m) (e (m + 1))

/-- `P ~> Q`. -/
def LeadsTo (P Q : σ → Prop) (e : Nat → σ) : Prop := ∀ k, P (e k) → ∃ m ≥ k, Q (e m)

theorem Always.invariant (h : Always next e) (h0 : P (e 0)) (hP : ∀ s t, P s → next s t → P t) (k : Nat) : P (e k) := by
  induction k with
  | zero => exact h0
  | succ k ih =>
    rcases h k with hn | hn
    · exact hP _ _ ih hn
    · rwa [hn]

/-- The rank rule: what `act` does brings `Q` nearer, and nothing else puts it further off. -/
theorem WeaklyFair.leadsTo (hfair : WeaklyFair act e) (hnext : Always next e) (rank : σ → Nat)
    (henabled : ∀ s, P s → ∃ t, Changes act s t)
    (hown : ∀ s t, P s → act s t → Q t ∨ P t ∧ rank t < rank s)
    (hother : ∀ s t, P s → next s t → Q t ∨ P t ∧ rank t ≤ rank s) : LeadsTo P Q e := by
  intro k hk
  refine eventually_of_rank (fun m => Changes act (e m) (e (m + 1))) (fun m => P (e m)) (fun m => Q (e m))
    (fun m => rank (e m)) (fun j _ hP => hfair j fun m hm => henabled _ (hP m hm))
    (fun m _ hP hm => hown _ _ hP hm.1) (fun m _ hP _ => ?_) hk
  rcases hnext m with hn | hn
  · exact hother _ _ hP hn
  · rw [hn]
    exact Or.inr ⟨hP, Nat.le_refl _⟩

/-- Actions that have their turn again and again, and move when they can: there is a
behaviour that is fair to each of them. -/
theorem exists_weaklyFair {ι : Type*} [Encodable ι] (act : ι → σ → σ → Prop) (s : σ) :
    ∃ e : Nat → σ, e 0 = s ∧ Always (fun s t => ∃ i, act i s t) e ∧ ∀ i, WeaklyFair (act i) e := by
  let turn (k : Nat) : Option ι := Encodable.decode k.unpair.1
  have hturn (i : ι) (k : Nat) : ∃ m ≥ k, turn m = some i :=
    ⟨Nat.pair (Encodable.encode i) k, Nat.right_le_pair .., by simp [turn]⟩
  have hnext (k : Nat) (s : σ) : ∃ t, ((∃ i, act i s t) ∨ t = s) ∧
      ∀ i, turn k = some i → (∃ t, Changes (act i) s t) → Changes (act i) s t := by
    by_cases hmove : ∃ i t, turn k = some i ∧ Changes (act i) s t
    · obtain ⟨i, t, hi, ht⟩ := hmove
      refine ⟨t, Or.inl ⟨i, ht.1⟩, fun j hj _ => ?_⟩
      obtain rfl : i = j := Option.some.inj (hi.symm.trans hj)
      exact ht
    · refine ⟨s, Or.inr rfl, fun i hi henabled => ?_⟩
      obtain ⟨t, ht⟩ := henabled
      exact absurd ⟨i, t, hi, ht⟩ hmove
  choose next hmoves hown using hnext
  let e : Nat → σ := Nat.rec s next
  refine ⟨e, rfl, fun k => hmoves k (e k), fun i k henabled => ?_⟩
  obtain ⟨m, hm, hi⟩ := hturn i k
  exact ⟨m, hm, hown m (e m) i hi (henabled m hm)⟩

/-- A run can be put before a behaviour. -/
theorem Reachable.behavior {step : σ → α → Option σ} {s t : σ} (h : Reachable step s t) (ht : e 0 = t)
    (hnext : ∀ s a t, step s a = some t → next s t) (he : ∀ k, next (e k) (e (k + 1))) :
    ∃ e' : Nat → σ, e' 0 = s ∧ (∀ k, next (e' k) (e' (k + 1))) ∧ ∃ d, ∀ k, e' (k + d) = e k := by
  induction h generalizing e with
  | start => exact ⟨e, ht, he, 0, fun _ => rfl⟩
  | @next u t a _ ha ih =>
    let e₁ : Nat → σ := Nat.rec u fun k _ => e k
    have he₁ (k : Nat) : next (e₁ k) (e₁ (k + 1)) := by
      cases k with
      | zero =>
        change next u (e 0)
        rw [ht]
        exact hnext _ _ _ ha
      | succ k => exact he k
    obtain ⟨e', h0, hall, d, hd⟩ := ih rfl he₁
    exact ⟨e', h0, hall, d + 1, fun k => (congrArg e' (by omega)).trans (hd (k + 1))⟩

/-- After a run, two states in turn for ever. That is fair to the next-state relation. -/
theorem Reachable.lasso {step : σ → α → Option σ} {s t u : σ} (h : Reachable step s t)
    (hnext : ∀ s a t, step s a = some t → next s t) (htu : next t u) (hut : next u t) (hne : t ≠ u) :
    ∃ e : Nat → σ, e 0 = s ∧ Always next e ∧ WeaklyFair next e ∧ ∃ d, ∀ k ≥ d, e k = t ∨ e k = u := by
  have hturn (k : Nat) : next (if k % 2 = 0 then t else u) (if (k + 1) % 2 = 0 then t else u) ∧
      (if (k + 1) % 2 = 0 then t else u) ≠ (if k % 2 = 0 then t else u) := by
    by_cases hk : k % 2 = 0
    · rw [if_pos hk, if_neg (by omega)]
      exact ⟨htu, hne.symm⟩
    · rw [if_neg hk, if_pos (by omega)]
      exact ⟨hut, hne⟩
  obtain ⟨e, h0, hall, d, hd⟩ := h.behavior (e := fun k => if k % 2 = 0 then t else u) rfl hnext
    fun k => (hturn k).1
  refine ⟨e, h0, fun k => Or.inl (hall k), fun k _ => ⟨k + d, by omega, hall _, ?_⟩, d, fun k hk => ?_⟩
  · rw [show k + d + 1 = k + 1 + d by omega, hd, hd]
    exact (hturn k).2
  · obtain ⟨j, rfl⟩ := Nat.exists_eq_add_of_le' hk
    rw [hd]
    split_ifs
    · exact Or.inl rfl
    · exact Or.inr rfl

end PhotonRing.Lib
