import PhotonRing.Lib.Run
import Mathlib.Order.Monotone.Basic
import Mathlib.Data.Nat.Find

/-!
# Executions without end, and when a thread gets somewhere

An execution gives a state and a label for every point in time. It is fair to a
label if the label is not put off for ever while it could fire. Threads are
scheduled by labels, and a spin wait is a step that changes nothing, so fairness
alone does not end a wait: the rules below ask for a rank that the thread's own
steps lower and nobody raises.
-/
namespace PhotonRing.Lib

variable {σ α : Type*} {step : σ → α → Option σ}

/-- The steps of a system while `busy` holds: a run of it shows one call, not the next one as well. -/
def during (busy : σ → Bool) (step : σ → α → Option σ) (s : σ) (a : α) : Option σ :=
  if busy s then step s a else none

theorem run_during_cons {busy : σ → Bool} {s t : σ} {a : α} {as : List α}
    (h : run (during busy step) s (a :: as) = some t) (ht : busy t = true) :
    busy s = true ∧ ∃ u, step s a = some u ∧ busy u = true ∧ run (during busy step) u as = some t := by
  obtain ⟨u, hu, hrest⟩ := Option.bind_eq_some_iff.mp h
  unfold during at hu
  split_ifs at hu with hs
  refine ⟨hs, u, hu, ?_, hrest⟩
  cases as with
  | nil =>
    obtain rfl := Option.some.inj hrest
    exact ht
  | cons b bs =>
    obtain ⟨v, hv, _⟩ := Option.bind_eq_some_iff.mp hrest
    unfold during at hv
    split_ifs at hv with hb
    exact hb

theorem run_during_back {busy : σ → Bool} {G : σ → Prop} (hback : ∀ s a t, step s a = some t → G t → G s)
    {s t : σ} {as : List α} (h : run (during busy step) s as = some t) (ht : G t) : G s := by
  refine run_back (fun s a t hs hG => ?_) h ht
  unfold during at hs
  split_ifs at hs
  exact hback s a t hs hG

/-- What the steps of a call preserve holds at the end of a run of it. -/
theorem run_during_invariant {busy : σ → Bool} {I : σ → Prop}
    (hI : ∀ s a t, I s → busy s = true → step s a = some t → I t) {s t : σ} {as : List α}
    (h : run (during busy step) s as = some t) (h0 : I s) : I t := by
  induction as generalizing s with
  | nil =>
    obtain rfl := Option.some.inj h
    exact h0
  | cons a as ih =>
    obtain ⟨u, hu, hrest⟩ := Option.bind_eq_some_iff.mp h
    unfold during at hu
    split_ifs at hu with hs
    exact ih hrest (hI s a u h0 hs hu)

/-- How many steps a thread has made in its call. Each costs one unit of the rank, and what
the others may add to the rank is paid for by the growth of `credit`. Of the end of the run it
may be known that it keeps within the limits of the system, `G`, as all states before it then do. -/
theorem count_add_rank_le [DecidableEq α] {busy : σ → Bool} {l : α} {I G : σ → Prop} (rank credit : σ → Nat)
    {s t : σ} {as : List α} (hrun : run (during busy step) s as = some t) (ht : busy t = true)
    (hback : ∀ s a t, step s a = some t → G t → G s) (hG : G t)
    (hI : ∀ s a t, I s → G t → busy s = true → step s a = some t → busy t = true → I t)
    (hown : ∀ s t, I s → G t → busy s = true → step s l = some t → busy t = true →
      rank t + 1 + credit s ≤ rank s + credit t)
    (hother : ∀ s a t, I s → G t → busy s = true → a ≠ l → step s a = some t → busy t = true →
      rank t + credit s ≤ rank s + credit t) (h0 : I s) :
    I t ∧ as.count l + rank t + credit s ≤ rank s + credit t := by
  induction as generalizing s with
  | nil =>
    obtain rfl := Option.some.inj hrun
    exact ⟨h0, by simp⟩
  | cons a as ih =>
    obtain ⟨hs, u, hu, hub, hrest⟩ := run_during_cons hrun ht
    have hGu : G u := run_during_back hback hrest hG
    obtain ⟨hIt, hle⟩ := ih hrest (hI s a u h0 hGu hs hu hub)
    refine ⟨hIt, ?_⟩
    by_cases ha : a = l
    · subst ha
      have := hown s u h0 hGu hs hu hub
      rw [List.count_cons_self]
      omega
    · have := hother s a u h0 hGu hs ha hu hub
      rw [List.count_cons_of_ne ha]
      omega

/-- Points in time: while `P` lasts the thread has its turn again and again, at `own`, and it is
its turns that lower the rank. Then `Q` comes. -/
theorem eventually_of_rank (own P Q : Nat → Prop) (rank : Nat → Nat) {k : Nat}
    (hfair : ∀ j ≥ k, (∀ m ≥ j, P m) → ∃ m ≥ j, own m)
    (hown : ∀ m ≥ k, P m → own m → Q (m + 1) ∨ P (m + 1) ∧ rank (m + 1) < rank m)
    (hother : ∀ m ≥ k, P m → ¬ own m → Q (m + 1) ∨ P (m + 1) ∧ rank (m + 1) ≤ rank m) (h0 : P k) :
    ∃ m ≥ k, Q m := by
  generalize hr : rank k = r
  induction r using Nat.strong_induction_on generalizing k with
  | _ r ih =>
    by_contra hnever
    -- until its next turn the thread stays under way, at a rank no higher than now
    have hstays : ∀ m ≥ k, (∀ j, k ≤ j → j < m → ¬ own j) → P m ∧ rank m ≤ rank k := by
      intro m hm
      induction m, hm using Nat.le_induction with
      | base => exact fun _ => ⟨h0, Nat.le_refl _⟩
      | succ m hm ihm =>
        intro hnot
        obtain ⟨hP, hle⟩ := ihm (fun j hj hjm => hnot j hj (by omega))
        rcases hother m hm hP (hnot m hm (by omega)) with hg | ⟨hP', hle'⟩
        · exact absurd ⟨m + 1, by omega, hg⟩ hnever
        · exact ⟨hP', hle'.trans hle⟩
    have hmoves : ∃ m, k ≤ m ∧ own m := by
      by_contra hnot
      have hnot' : ∀ m ≥ k, ¬ own m := fun m hm he => hnot ⟨m, hm, he⟩
      obtain ⟨m, hm, he⟩ := hfair k (Nat.le_refl _) fun m hm => (hstays m hm (fun j hj _ => hnot' j hj)).1
      exact hnot' m hm he
    classical
    obtain ⟨hm, he⟩ := Nat.find_spec hmoves
    have hfirst : ∀ j, k ≤ j → j < Nat.find hmoves → ¬ own j :=
      fun j hj hlt he => Nat.find_min hmoves hlt ⟨hj, he⟩
    obtain ⟨hP, hle⟩ := hstays _ hm hfirst
    rcases hown _ hm hP he with hg | ⟨hP', hlt⟩
    · exact hnever ⟨_, by omega, hg⟩
    · obtain ⟨j, hj, hg⟩ := ih _ (by omega) (k := Nat.find hmoves + 1)
        (fun j hj => hfair j (by omega)) (fun j hj => hown j (by omega)) (fun j hj => hother j (by omega)) hP' rfl
      exact hnever ⟨j, by omega, hg⟩

/-- What the turns of a thread bring nearer to its end, and nothing else ends, does not last. -/
theorem not_of_rank (own P : Nat → Prop) (rank : Nat → Nat) {k : Nat}
    (hfair : ∀ j ≥ k, (∀ m ≥ j, P m) → ∃ m ≥ j, own m)
    (hown : ∀ m ≥ k, P m → own m → P (m + 1) ∧ rank (m + 1) < rank m)
    (hother : ∀ m ≥ k, P m → ¬ own m → P (m + 1) ∧ rank (m + 1) ≤ rank m) : ¬ P k := by
  intro h0
  obtain ⟨_, _, hends⟩ : ∃ m ≥ k, False :=
    eventually_of_rank own P (fun _ => False) rank hfair (fun m hm hP ho => Or.inr (hown m hm hP ho))
      (fun m hm hP ho => Or.inr (hother m hm hP ho)) h0
  exact hends

structure Execution (step : σ → α → Option σ) where
  state : Nat → σ
  act : Nat → α
  next : ∀ k, step (state k) (act k) = some (state (k + 1))

namespace Execution

/-- Weak fairness: a label that can fire from some point on fires again. -/
def Fair (e : Execution step) (l : α) : Prop :=
  ∀ k, (∀ m ≥ k, step (e.state m) l ≠ none) → ∃ m ≥ k, e.act m = l

variable {e : Execution step}

theorem reachable {init : σ} (h0 : Reachable step init (e.state 0)) (k : Nat) : Reachable step init (e.state k) := by
  induction k with
  | zero => exact h0
  | succ k ih => exact ih.next (e.next k)

/-- What no step undoes stays. -/
theorem stays {P : Nat → Prop} {k : Nat} (h0 : P k) (hP : ∀ m ≥ k, P m → P (m + 1)) : ∀ m ≥ k, P m := by
  intro m hm
  induction m, hm using Nat.le_induction with
  | base => exact h0
  | succ m hm ih => exact hP m hm ih

theorem le_of_le {f : σ → Nat} (hf : ∀ m, f (e.state m) ≤ f (e.state (m + 1))) {k m : Nat} (h : k ≤ m) :
    f (e.state k) ≤ f (e.state m) := monotone_nat_of_le_succ hf h

/-- A bounded counter that never goes down stops moving. -/
theorem settles {f : σ → Nat} {limit : Nat} (hf : ∀ m, f (e.state m) ≤ f (e.state (m + 1)))
    (hlim : ∀ m, f (e.state m) < limit) : ∃ k, ∀ m ≥ k, f (e.state m) = f (e.state k) := by
  by_contra hnever
  have hgrow : ∀ b, ∃ k, b ≤ f (e.state k) := by
    intro b
    induction b with
    | zero => exact ⟨0, Nat.zero_le _⟩
    | succ b ih =>
      obtain ⟨k, hk⟩ := ih
      obtain ⟨m, hm, hne⟩ : ∃ m ≥ k, f (e.state m) ≠ f (e.state k) := by
        by_contra hall
        exact hnever ⟨k, fun m hm => by_contra fun hne => hall ⟨m, hm, hne⟩⟩
      have := le_of_le hf hm
      exact ⟨m, by omega⟩
  obtain ⟨k, hk⟩ := hgrow limit
  have := hlim k
  omega

/-- A fair thread arrives: while it is under way it can always move, its own steps lower
the rank, and the steps of the others do not raise it. -/
theorem arrives {l : α} (hfair : e.Fair l) {P Q : σ → Prop} (rank : σ → Nat) {k : Nat}
    (henabled : ∀ m ≥ k, P (e.state m) → step (e.state m) l ≠ none)
    (hown : ∀ m ≥ k, P (e.state m) → e.act m = l →
      Q (e.state (m + 1)) ∨ P (e.state (m + 1)) ∧ rank (e.state (m + 1)) < rank (e.state m))
    (hother : ∀ m ≥ k, P (e.state m) → e.act m ≠ l →
      Q (e.state (m + 1)) ∨ P (e.state (m + 1)) ∧ rank (e.state (m + 1)) ≤ rank (e.state m))
    (h0 : P (e.state k)) : ∃ m ≥ k, Q (e.state m) :=
  eventually_of_rank (fun m => e.act m = l) (fun m => P (e.state m)) (fun m => Q (e.state m))
    (fun m => rank (e.state m)) (fun j hj hP => hfair j fun m hm => henabled m (hj.trans hm) (hP m hm)) hown hother h0

theorem run_concat (s : σ) (as : List α) (a : α) :
    run step s (as ++ [a]) = (run step s as).bind fun t => step t a := by
  induction as generalizing s with
  | nil => simp [run]
  | cons b as ih =>
    simp only [List.cons_append, run]
    cases step s b with
    | none => rfl
    | some t => exact ih t

/-- A state with the labels before it; after them come `b` and `bs`, for ever. -/
def loopAt (step : σ → α → Option σ) (b : α) (bs : List α) (c : σ × List α) : Nat → σ × List α
  | 0 => c
  | k + 1 =>
    match loopAt step b bs c k with
    | (s, []) => ((step s b).getD s, bs)
    | (s, a :: as) => ((step s a).getD s, as)

section Loop

variable {s t : σ} {as bs : List α} {b : α}

theorem loop_run (h : run step s as = some t) (hb : run step t (b :: bs) = some t) (k : Nat) :
    run step (loopAt step b bs (s, as) k).1 (loopAt step b bs (s, as) k).2 = some t := by
  induction k with
  | zero => exact h
  | succ k ih =>
    rw [loopAt]
    revert ih
    rcases loopAt step b bs (s, as) k with ⟨u, _ | ⟨a, rest⟩⟩
    · intro ih
      obtain rfl := Option.some.inj ih
      obtain ⟨u', hu, hrest⟩ := Option.bind_eq_some_iff.mp hb
      simpa [hu] using hrest
    · intro ih
      obtain ⟨u', hu, hrest⟩ := Option.bind_eq_some_iff.mp ih
      simpa [hu] using hrest

theorem loop_tail {a : α} {rest : List α} {k : Nat} (h : (loopAt step b bs (s, as) k).2 = a :: rest) :
    (loopAt step b bs (s, as) (k + 1)).2 = rest := by
  rw [loopAt]
  revert h
  rcases loopAt step b bs (s, as) k with ⟨u, _ | ⟨a', rest'⟩⟩
  · exact fun h => by cases h
  · exact fun h => (List.cons.inj h).2

theorem mem_loop {a : α} {k : Nat} (ha : a ∈ (loopAt step b bs (s, as) k).2) : a ∈ bs ++ as := by
  induction k with
  | zero => exact List.mem_append_right bs ha
  | succ k ih =>
    rw [loopAt] at ha
    revert ih ha
    rcases loopAt step b bs (s, as) k with ⟨u, _ | ⟨a', rest⟩⟩
    · exact fun _ ha => List.mem_append_left as ha
    · exact fun ih ha => ih (List.mem_cons_of_mem a' ha)

/-- A run, and after it a loop. -/
def ofLoop (b : α) (bs : List α) (h : run step s as = some t) (hb : run step t (b :: bs) = some t) :
    Execution step where
  state k := (loopAt step b bs (s, as) k).1
  act k := (loopAt step b bs (s, as) k).2.headD b
  next k := by
    have hrun := loop_run h hb k
    rw [loopAt]
    revert hrun
    rcases loopAt step b bs (s, as) k with ⟨u, _ | ⟨a, rest⟩⟩
    · intro hrun
      obtain rfl := Option.some.inj hrun
      obtain ⟨u', hu, _⟩ := Option.bind_eq_some_iff.mp hb
      simp [hu]
    · intro hrun
      obtain ⟨u', hu, _⟩ := Option.bind_eq_some_iff.mp hrun
      simp [hu]

variable (h : run step s as = some t) (hb : run step t (b :: bs) = some t)

/-- A label that is still to come does come. -/
theorem ofLoop_comes {a : α} {k : Nat} (ha : a ∈ (loopAt step b bs (s, as) k).2) :
    ∃ m ≥ k, (ofLoop b bs h hb).act m = a := by
  generalize hrest : (loopAt step b bs (s, as) k).2 = rest at ha
  induction rest generalizing k with
  | nil => cases ha
  | cons a' rest ih =>
    rcases List.mem_cons.mp ha with rfl | ha
    · refine ⟨k, Nat.le_refl k, ?_⟩
      change (loopAt step b bs (s, as) k).2.headD b = a
      rw [hrest]
      rfl
    · obtain ⟨m, hm, hact⟩ := ih (loop_tail hrest) ha
      exact ⟨m, by omega, hact⟩

/-- The loop begins again and again. -/
theorem ofLoop_again (k : Nat) : ∃ m ≥ k, (ofLoop b bs h hb).state m = t := by
  have hnil : ∃ m ≥ k, (loopAt step b bs (s, as) m).2 = [] := by
    generalize hrest : (loopAt step b bs (s, as) k).2 = rest
    induction rest generalizing k with
    | nil => exact ⟨k, Nat.le_refl k, hrest⟩
    | cons a rest ih =>
      obtain ⟨m, hm, hnil⟩ := ih (k + 1) (loop_tail hrest)
      exact ⟨m, by omega, hnil⟩
  obtain ⟨m, hm, hnil⟩ := hnil
  have hrun := loop_run h hb m
  rw [hnil] at hrun
  exact ⟨m, hm, Option.some.inj hrun⟩

/-- It is fair to a label that cannot fire where the loop begins. -/
theorem ofLoop_fair {l : α} (hl : step t l = none) : (ofLoop b bs h hb).Fair l := by
  intro k hk
  obtain ⟨m, hm, ht⟩ := ofLoop_again h hb k
  have hnot := hk m hm
  rw [ht] at hnot
  exact absurd hl hnot

/-- A test of every state of a run, given the labels that are still to come. -/
def along (step : σ → α → Option σ) (test : σ → List α → Bool) : σ → List α → Bool
  | s, [] => test s []
  | s, a :: as => test s (a :: as) && (step s a).any fun t => along step test t as

theorem ofLoop_along {test : σ → List α → Bool} (hs : along step test s as = true)
    (ht : along step test t (b :: bs) = true) (k : Nat) :
    test ((ofLoop b bs h hb).state k) (loopAt step b bs (s, as) k).2 = true := by
  have halong : along step test (loopAt step b bs (s, as) k).1 (loopAt step b bs (s, as) k).2 = true := by
    induction k with
    | zero => exact hs
    | succ k ih =>
      have hrun := loop_run h hb k
      rw [loopAt]
      revert hrun ih
      rcases loopAt step b bs (s, as) k with ⟨u, _ | ⟨a, rest⟩⟩
      · intro ih hrun
        obtain rfl := Option.some.inj hrun
        obtain ⟨u', hu, hrest⟩ := (Option.any_eq_true _ _).mp (Bool.and_eq_true_iff.mp ht).2
        simpa [hu] using hrest
      · intro ih _
        obtain ⟨u', hu, hrest⟩ := (Option.any_eq_true _ _).mp (Bool.and_eq_true_iff.mp ih).2
        simpa [hu] using hrest
  change test (loopAt step b bs (s, as) k).1 _ = true
  revert halong
  rcases loopAt step b bs (s, as) k with ⟨u, _ | ⟨a, rest⟩⟩
  · exact fun halong => halong
  · exact fun halong => (Bool.and_eq_true_iff.mp halong).1

theorem ofLoop_act (k : Nat) : (ofLoop b bs h hb).act k ∈ b :: (bs ++ as) := by
  change (loopAt step b bs (s, as) k).2.headD b ∈ _
  cases hrest : (loopAt step b bs (s, as) k).2 with
  | nil => exact List.mem_cons_self
  | cons a rest => exact List.mem_cons_of_mem b (mem_loop (by rw [hrest]; exact List.mem_cons_self))

/-- With a single label in the loop, which then changes nothing, the run stops. -/
theorem ofLoop_state (hb : run step t [b] = some t) {k : Nat} (hk : as.length ≤ k) :
    (ofLoop b [] h hb).state k = t := by
  have hlen : ∀ k, (loopAt step b [] (s, as) k).2.length = as.length - k := by
    intro k
    induction k with
    | zero => rfl
    | succ k ih =>
      rw [loopAt]
      revert ih
      rcases loopAt step b [] (s, as) k with ⟨u, _ | ⟨a, rest⟩⟩
      · intro ih
        simp only [List.length_nil] at ih ⊢
        omega
      · intro ih
        simp only [List.length_cons] at ih ⊢
        omega
  have hrun := loop_run h hb k
  rw [List.eq_nil_of_length_eq_zero ((hlen k).trans (by omega))] at hrun
  exact Option.some.inj hrun

end Loop

end Execution

end PhotonRing.Lib
