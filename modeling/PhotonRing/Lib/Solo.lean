import PhotonRing.Lib.Run

/-!
# Running one thread to the end of its call

`runWhile` steps a thread while it is busy, with a bound on the number of steps.
`Ends` is total correctness for it: the thread stops being busy, in a state with
the given property. Its rules follow the thread step by step.
-/
namespace PhotonRing.Lib

variable {σ τ : Type*}

/-- Step while busy. `none` means blocked, or out of fuel. -/
def runWhile (busy : σ → Bool) (f : σ → Option σ) : Nat → σ → Option σ
  | 0, s => if busy s then none else some s
  | fuel + 1, s => if busy s then (f s).bind (runWhile busy f fuel) else some s

/-- The thread stops being busy, in a state with property `Q`. -/
inductive Ends (busy : σ → Bool) (f : σ → Option σ) (Q : σ → Prop) : σ → Prop where
  | done {s : σ} : busy s = false → Q s → Ends busy f Q s
  | step {s t : σ} : busy s = true → f s = some t → Ends busy f Q t → Ends busy f Q s

namespace Ends

variable {busy : σ → Bool} {f : σ → Option σ} {Q R : σ → Prop} {s : σ}

/-- Some number of steps is enough, and more do no harm. -/
theorem runWhile (h : Ends busy f Q s) : ∃ u, Q u ∧ ∃ fuel, ∀ k ≥ fuel, runWhile busy f k s = some u := by
  induction h with
  | @done s hb hq =>
    refine ⟨s, hq, 0, fun k _ => ?_⟩
    cases k <;> simp [Lib.runWhile, hb]
  | @step s t hb hf _ ih =>
    obtain ⟨u, hu, fuel, hrun⟩ := ih
    refine ⟨u, hu, fuel + 1, fun k hk => ?_⟩
    obtain ⟨j, rfl⟩ : ∃ j, k = j + 1 := ⟨k - 1, by omega⟩
    rw [Lib.runWhile, if_pos hb, hf]
    exact hrun j (by omega)

theorem mono (h : Ends busy f Q s) (hq : ∀ u, Q u → R u) : Ends busy f R s := by
  induction h with
  | done hb hQ => exact .done hb (hq _ hQ)
  | step hb hf _ ih => exact .step hb hf ih

/-- The state it ends in. -/
theorem ends_eq (h : Ends busy f Q s) : ∃ u, Q u ∧ Ends busy f (fun x => x = u) s := by
  induction h with
  | @done s hb hq => exact ⟨s, hq, .done hb rfl⟩
  | step hb hf _ ih =>
    obtain ⟨u, hu, hends⟩ := ih
    exact ⟨u, hu, .step hb hf hends⟩

/-- What every step preserves holds at the end as well. -/
theorem carry {P : σ → Prop} (hP : ∀ s t, f s = some t → P s → P t) (h : Ends busy f Q s) (h0 : P s) :
    Ends busy f (fun u => Q u ∧ P u) s := by
  induction h with
  | done hb hQ => exact .done hb ⟨hQ, h0⟩
  | step hb hf _ ih => exact .step hb hf (ih (hP _ _ hf h0))

/-- A thread that is busy, and that no step brings out of it, has no end. -/
theorem not_of_busy {P : σ → Prop} (hb : ∀ s, P s → busy s = true) (hP : ∀ s t, f s = some t → P s → P t)
    (h : Ends busy f Q s) : ¬ P s := by
  induction h with
  | done hs _ => exact fun h0 => by rw [hb _ h0] at hs; cases hs
  | step _ hf _ ih => exact fun h0 => ih (hP _ _ hf h0)

/-- The steps that the thread makes are a run of its label. -/
theorem replicate {α : Type*} {step : σ → α → Option σ} {a : α} (h : Ends busy (fun s => step s a) Q s) :
    ∃ k u, run step s (List.replicate k a) = some u ∧ busy u = false ∧ Q u := by
  induction h with
  | done hb hQ => exact ⟨0, _, rfl, hb, hQ⟩
  | step _ hf _ ih =>
    obtain ⟨k, u, hrun, hb, hQ⟩ := ih
    exact ⟨k + 1, u, run_cons hf hrun, hb, hQ⟩

/-- A thread that stands still once its call is over is still on its way after any of its steps. -/
theorem after {α : Type*} {step : σ → α → Option σ} {a : α} (h : Ends busy (fun s => step s a) Q s)
    (hstop : ∀ s, busy s = false → step s a = none) {k : Nat} {u : σ}
    (hrun : run step s (List.replicate k a) = some u) : Ends busy (fun s => step s a) Q u := by
  induction k generalizing s with
  | zero =>
    obtain rfl := Option.some.inj hrun
    exact h
  | succ k ih =>
    obtain ⟨s', hs, hrest⟩ := Option.bind_eq_some_iff.mp hrun
    cases h with
    | done hb _ =>
      rw [hstop _ hb] at hs
      cases hs
    | step _ hf hnext =>
      rw [hf] at hs
      obtain rfl := Option.some.inj hs
      exact ih hnext hrest

/-- It has no other way to its end. -/
theorem of_run {α : Type*} {step : σ → α → Option σ} {a : α} (h : Ends busy (fun s => step s a) Q s)
    (hstop : ∀ s, busy s = false → step s a = none) {k : Nat} {u : σ}
    (hrun : run step s (List.replicate k a) = some u) (hu : busy u = false) : Q u := by
  cases h.after hstop hrun with
  | done _ hQ => exact hQ
  | step hb _ _ =>
    rw [hb] at hu
    cases hu

/-- A thread inside a larger state. -/
theorem lift {busy' : τ → Bool} {f' : τ → Option τ} {put : σ → τ} (h : Ends busy f Q s)
    (hb : ∀ s, busy' (put s) = busy s) (hf : ∀ s t, f s = some t → f' (put s) = some (put t)) :
    Ends busy' f' (fun u => ∃ s, u = put s ∧ Q s) (put s) := by
  induction h with
  | @done s hs hQ => exact .done ((hb s).trans hs) ⟨s, rfl, hQ⟩
  | @step s t hs hst _ ih => exact .step ((hb s).trans hs) (hf s t hst) ih

/-- Its steps inside a larger system lead to where it ends. -/
theorem reachable {α : Type*} {step' : τ → α → Option τ} {init : τ} (put : σ → τ) {a : α} {u : σ}
    (h : Ends busy f (fun x => x = u) s) (hf : ∀ s t, f s = some t → step' (put s) a = some (put t))
    (hs : Reachable step' init (put s)) : Reachable step' init (put u) := by
  induction h with
  | done _ hQ =>
    rw [← hQ]
    exact hs
  | step _ hst _ ih => exact ih (hs.next (hf _ _ hst))

end Ends

end PhotonRing.Lib
