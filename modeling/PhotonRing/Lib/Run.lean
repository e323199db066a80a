import Mathlib.Order.Nat
import Mathlib.Tactic.Common

/-!
# Runs of a labelled, deterministic step function

A system is a partial step function on states: the label names the thread that
moves (and any input it is given), and `none` means that the thread is blocked.
An interleaving is a list of labels. Nothing here mentions a particular system.
-/
namespace PhotonRing.Lib

variable {σ α : Type*}

/-- Fire a list of labels in order. A blocked label ends the attempt. -/
def run (step : σ → α → Option σ) : σ → List α → Option σ
  | s, [] => some s
  | s, a :: as => (step s a).bind fun t => run step t as

/-- The states some interleaving leads to. -/
inductive Reachable (step : σ → α → Option σ) (init : σ) : σ → Prop where
  | start : Reachable step init init
  | next {s t : σ} {a : α} : Reachable step init s → step s a = some t → Reachable step init t

variable {step : σ → α → Option σ} {init : σ}

theorem run_cons {s t u : σ} {a : α} {as : List α} (h : step s a = some t)
    (hr : run step t as = some u) : run step s (a :: as) = some u := by
  rw [run, h]
  exact hr

theorem run_append {s t u : σ} {as bs : List α} (h : run step s as = some t)
    (hr : run step t bs = some u) : run step s (as ++ bs) = some u := by
  induction as generalizing s with
  | nil =>
    obtain rfl := Option.some.inj h
    exact hr
  | cons a as ih =>
    obtain ⟨s', hs, hs'⟩ := Option.bind_eq_some_iff.mp h
    exact run_cons hs (ih hs')

/-- A run of one system inside another one: `put` places its states and `label` its labels. -/
theorem run_map {τ β : Type*} {step' : τ → β → Option τ} (put : σ → τ) {label : α → β} {as : List α}
    (hstep : ∀ a ∈ as, ∀ s t, step s a = some t → step' (put s) (label a) = some (put t)) {s t : σ}
    (h : run step s as = some t) : run step' (put s) (as.map label) = some (put t) := by
  induction as generalizing s with
  | nil =>
    obtain rfl := Option.some.inj h
    rfl
  | cons a as ih =>
    obtain ⟨s', hs, hrest⟩ := Option.bind_eq_some_iff.mp h
    exact run_cons (hstep a List.mem_cons_self s s' hs) (ih (fun b hb => hstep b (List.mem_cons_of_mem a hb)) hrest)

/-- A run can be stopped anywhere. -/
theorem run_of_append {s u : σ} {as bs : List α} (h : run step s (as ++ bs) = some u) :
    ∃ t, run step s as = some t ∧ run step t bs = some u := by
  induction as generalizing s with
  | nil => exact ⟨s, rfl, h⟩
  | cons a as ih =>
    obtain ⟨s', hs, hrest⟩ := Option.bind_eq_some_iff.mp h
    obtain ⟨t, ht, hu⟩ := ih hrest
    exact ⟨t, run_cons hs ht, hu⟩

/-- What no label of a run touches stays as it was. -/
theorem run_untouched {β : Type*} {f : σ → β} {as : List α}
    (hstep : ∀ a ∈ as, ∀ s t, step s a = some t → f t = f s) {s t : σ} (h : run step s as = some t) :
    f t = f s := by
  induction as generalizing s with
  | nil => rw [← Option.some.inj h]
  | cons a as ih =>
    obtain ⟨s', hs, hrest⟩ := Option.bind_eq_some_iff.mp h
    rw [ih (fun b hb => hstep b (List.mem_cons_of_mem a hb)) hrest]
    exact hstep a List.mem_cons_self s s' hs

/-- A property that a state inherits from its successors holds from the start of a run on. -/
theorem run_back {G : σ → Prop} (hback : ∀ s a t, step s a = some t → G t → G s) {s t : σ} {as : List α}
    (h : run step s as = some t) (ht : G t) : G s := by
  induction as generalizing s with
  | nil =>
    obtain rfl := Option.some.inj h
    exact ht
  | cons a as ih =>
    obtain ⟨u, hu, hrest⟩ := Option.bind_eq_some_iff.mp h
    exact hback s a u hu (ih hrest)

theorem Reachable.of_run {s t : σ} {as : List α} (hs : Reachable step init s)
    (h : run step s as = some t) : Reachable step init t := by
  induction as generalizing s with
  | nil =>
    obtain rfl := Option.some.inj h
    exact hs
  | cons a as ih =>
    obtain ⟨s', hstep, hrest⟩ := Option.bind_eq_some_iff.mp h
    exact ih (hs.next hstep) hrest

theorem Reachable.trans {s t : σ} (hs : Reachable step init s) (h : Reachable step s t) :
    Reachable step init t := by
  induction h with
  | start => exact hs
  | next _ ha ih => exact ih.next ha

/-- What no step decreases has not decreased. -/
theorem Reachable.le_of_mono {f : σ → Nat} (hmono : ∀ s a t, step s a = some t → f s ≤ f t) {s t : σ}
    (h : Reachable step s t) : f s ≤ f t := by
  induction h with
  | start => exact Nat.le_refl _
  | next _ ha ih => exact ih.trans (hmono _ _ _ ha)

/-- A run whose last state passes an executable test. -/
theorem Reachable.of_run_any (step : σ → α → Option σ) (init : σ) (p : σ → Bool) (as : List α)
    (h : (run step init as).any p = true) : ∃ s, Reachable step init s ∧ p s = true := by
  obtain ⟨s, hs, hp⟩ := (Option.any_eq_true _ _).mp h
  exact ⟨s, Reachable.start.of_run hs, hp⟩

/-- A run in two parts, cut at one step, that passes an executable test. The second part may
be a run of another step function. -/
theorem Reachable.of_run_step_run (step step' : σ → α → Option σ) (init : σ) (p : σ → σ → σ → Bool) (as : List α)
    (a : α) (bs : List α)
    (h : ((run step init as).any fun s => (step s a).any fun t => (run step' t bs).any (p s t)) = true) :
    ∃ s t u, Reachable step init s ∧ step s a = some t ∧ Reachable step' t u ∧ p s t u = true := by
  obtain ⟨s, hs, h⟩ := (Option.any_eq_true _ _).mp h
  obtain ⟨t, ht, h⟩ := (Option.any_eq_true _ _).mp h
  obtain ⟨u, hu, hp⟩ := (Option.any_eq_true _ _).mp h
  exact ⟨s, t, u, Reachable.start.of_run hs, ht, Reachable.start.of_run hu, hp⟩

theorem Reachable.of_run_step_any (step : σ → α → Option σ) (init : σ) (p : σ → σ → σ → Bool) (as : List α)
    (a : α) (bs : List α)
    (h : ((run step init as).any fun s => (step s a).any fun t => (run step t bs).any (p s t)) = true) :
    ∃ s t u, Reachable step init s ∧ step s a = some t ∧ Reachable step t u ∧ p s t u = true :=
  Reachable.of_run_step_run step step init p as a bs h

/-- Deleting labels from a run. `hide` forgets what the deleted labels do, and `I` is an
invariant of the whole run: a deleted label moves nothing that is visible, and a kept one
moves the visible part alone. -/
theorem run_filter {keep allowed : α → Bool} {hide : σ → σ} {I : σ → Prop}
    (hdel : ∀ s a t, I s → keep a = false → allowed a = true → step s a = some t → I t ∧ hide t = hide s)
    (hkeep : ∀ s a t, I s → keep a = true → step s a = some t →
      I t ∧ step (hide s) a = some (hide t))
    {as : List α} (hall : ∀ a ∈ as, allowed a = true) {s t : σ} (hs : I s)
    (h : run step s as = some t) : run step (hide s) (as.filter keep) = some (hide t) := by
  induction as generalizing s with
  | nil =>
    obtain rfl := Option.some.inj h
    rfl
  | cons a as ih =>
    obtain ⟨u, hu, hrest⟩ := Option.bind_eq_some_iff.mp h
    have hall' : ∀ b ∈ as, allowed b = true := fun b hb => hall b (List.mem_cons_of_mem a hb)
    cases hk : keep a with
    | false =>
      obtain ⟨hI, he⟩ := hdel s a u hs hk (hall a List.mem_cons_self) hu
      rw [List.filter_cons_of_neg (by simp [hk]), ← he]
      exact ih hall' hI hrest
    | true =>
      obtain ⟨hI, hstep⟩ := hkeep s a u hs hk hu
      rw [List.filter_cons_of_pos hk]
      exact run_cons hstep (ih hall' hI hrest)

/-- A property of the initial state that every step preserves holds of every
reachable state. The step may use that its source is reachable. -/
theorem Reachable.invariant {P : σ → Prop} (h0 : P init)
    (hstep : ∀ s a t, Reachable step init s → step s a = some t → P s → P t)
    {s : σ} (h : Reachable step init s) : P s := by
  induction h with
  | start => exact h0
  | next hs ha ih => exact hstep _ _ _ hs ha ih

/-- Invariance below a budget. The measure never decreases along a step, so a
run that ends below the budget was below it throughout, and a step only has to
preserve the property when it stays below the budget. -/
theorem Reachable.invariant_below {P : σ → Prop} (measure : σ → Nat) (limit : Nat)
    (hmono : ∀ s a t, step s a = some t → measure s ≤ measure t) (h0 : P init)
    (hstep : ∀ s a t, step s a = some t → measure t < limit → P s → P t)
    {s : σ} (h : Reachable step init s) (hs : measure s < limit) : P s := by
  induction h with
  | start => exact h0
  | next _ ha ih => exact hstep _ _ _ ha hs (ih ((hmono _ _ _ ha).trans_lt hs))

end PhotonRing.Lib
