import PhotonRing.Lib.Run

/-!
# Forward simulation

An abstract system answers each step of a concrete one with finitely many of its own,
or none. What relates the two states then relates them all along a run.
-/
namespace PhotonRing.Lib

variable {σ τ α β : Type*} {step : σ → α → Option σ} {step' : τ → β → Option τ}

/-- The abstract run goes through a state for every prefix of the concrete one. Of the end of
the concrete run it may be known that it keeps within the limits of the system, `G`. -/
theorem run_simulates {R : σ → τ → Prop} {G : σ → Prop} (hback : ∀ s a t, step s a = some t → G t → G s)
    (hsim : ∀ s s' a t, R s s' → step s a = some t → G t → ∃ t', Reachable step' s' t' ∧ R t t')
    {s t : σ} {s' : τ} {as : List α} (h : run step s as = some t) (ht : G t) (hR : R s s') :
    ∃ f : Nat → τ, f 0 = s' ∧ (∀ k, Reachable step' (f k) (f (k + 1))) ∧
      ∀ k u, run step s (as.take k) = some u → R u (f k) := by
  induction as generalizing s s' with
  | nil =>
    refine ⟨fun _ => s', rfl, fun _ => .start, fun k u hu => ?_⟩
    rw [List.take_nil] at hu
    obtain rfl := Option.some.inj hu
    exact hR
  | cons a as ih =>
    obtain ⟨u, hu, hrest⟩ := Option.bind_eq_some_iff.mp h
    obtain ⟨u', hreach, hRu⟩ := hsim s s' a u hR hu (run_back hback hrest ht)
    obtain ⟨f, hf0, hf, hRf⟩ := ih hrest hRu
    let f' : Nat → τ := Nat.rec s' fun k _ => f k
    refine ⟨f', rfl, fun k => ?_, fun k v hv => ?_⟩
    · cases k with
      | zero =>
        change Reachable step' s' (f 0)
        rw [hf0]
        exact hreach
      | succ k => exact hf k
    · cases k with
      | zero =>
        obtain rfl := Option.some.inj hv
        exact hR
      | succ k =>
        obtain ⟨u₁, hu₁, hv'⟩ := Option.bind_eq_some_iff.mp hv
        obtain rfl := Option.some.inj (hu.symm.trans hu₁)
        exact hRf k v hv'

end PhotonRing.Lib
