import PhotonRing.Channel.ReadSide

/-!
# Trackers follow their subscribers

On every kind of channel a tracker holds the position up to which its subscriber has
counted everything. It is stored when a subscriber is created and whenever the outcome of
a read is counted, and by nobody else. Only `latest` moves a cursor without a store.
-/
namespace PhotonRing.Tracked

open Lib Reader World

variable {n : Nat} {cfg : Config} {r r' : Ring n} {t t' : Trackers} {i j : Nat} {s s' : Subscriber n}
  {w w' : World n} {a : Act n}

/-! ## All that a step can do to a tracker -/

inductive Follow (t : Trackers) (i : Nat) (s : Subscriber n) : Trackers → Subscriber n → Prop where
  | keep {t' : Trackers} {s' : Subscriber n} (hval : t'.value = t.value) (htr : s'.tracker = s.tracker)
      (hcr : Created (stage s'.pc) ↔ Created (stage s.pc))
      (hset : settled s'.cursor (stage s'.pc) = settled s.cursor (stage s.pc) ∨ InLatest s.pc) :
      Follow t i s t' s'
  | create {t' : Trackers} {start : Nat} {tracker : Bool} (hs : ¬ Created (stage s.pc))
      (hval : t'.value = if tracker then Function.update t.value i start else t.value) :
      Follow t i s t' (s.created start tracker)
  | commit {t' : Trackers} {c : Caller n} {res : Recv n} (hs : s.pc = .commit c res)
      (hval : t'.value = if s.tracker then Function.update t.value i s.cursor else t.value) :
      Follow t i s t' (s.onCommit c res)

/-- Local work of a subscriber between two program points that hold no data. -/
theorem Follow.ofLocal (hval : t'.value = t.value) (hcr : Created (stage s.pc))
    (hset : settled s.cursor (stage s.pc) = s.cursor) (h : Local s s') : Follow t i s t' s' := by
  refine .keep hval h.tracker ?_ (Or.inl ?_)
  · rw [h.stage]
    exact iff_of_true trivial hcr
  · rw [h.stage, h.cursor, hset]
    rfl

theorem settled_read (cursor : Nat) (c : Caller n) (pc : ReadPc n) :
    settled cursor (stage (.read c pc)) = cursor ∧ Created (stage (.read c pc)) := by
  cases pc <;> exact ⟨rfl, trivial⟩

theorem afterRead_follow {c : Caller n} {pc : ReadPc n} {res : TryRead n} (h : AfterRead s c res s')
    (hs : s.pc = .read c pc) (hc : s.cursor < seqLimit) : Follow t i s t s' := by
  obtain ⟨hset, hcr⟩ := settled_read s.cursor c pc
  rw [← hs] at hset hcr
  cases h with
  | value _ =>
    refine .keep rfl rfl (iff_of_true trivial hcr) (Or.inl ?_)
    unfold seqLimit at hc
    rw [hset]
    change u64 (s.cursor + 1) - 1 = s.cursor
    rw [u64_of_lt (by omega)]
    omega
  | again _ _ => exact .ofLocal rfl hcr hset ⟨rfl, rfl, rfl, rfl, rfl, rfl⟩
  | empty => exact .ofLocal rfl hcr hset (resume_local s .empty c).1
  | passed => exact .ofLocal rfl hcr hset ⟨rfl, rfl, rfl, rfl, rfl, rfl⟩

theorem onHead_follow {c : Caller n} {head : Nat} (hs : s.pc = .head c) :
    Follow t i s t (s.onHead cfg c head) := by
  have hcr : Created (stage s.pc) := by rw [hs]; trivial
  have hset : settled s.cursor (stage s.pc) = s.cursor := by rw [hs]; rfl
  have hempty : Follow t i s t (s.resume .empty c) := .ofLocal rfl hcr hset (resume_local s .empty c).1
  refine Subscriber.onHead_cases hempty (fun _ _ hlt => .keep rfl rfl (iff_of_true trivial hcr) (Or.inl ?_))
  rw [hset]
  change head - cfg.capacity + 1 - (head - cfg.capacity + 1 - s.cursor) = s.cursor
  omega

theorem step_follow (hc : s.cursor < seqLimit) (h : s.step cfg r t i = some (t', s')) : Follow t i s t' s' := by
  have hloc {t' : Trackers} {s' : Subscriber n} (hval : t'.value = t.value) (hs : stage s.pc = .ready)
      (hl : Local s s') : Follow t i s t' s' :=
    .ofLocal hval (by rw [hs]; trivial) (by rw [hs]; rfl) hl
  have hfresh {pc : SubPc n} {t' : Trackers} (hval : t'.value = t.value) (hs : ¬ Created (stage s.pc))
      (hs' : ¬ Created (stage pc)) (hset : settled s.cursor (stage pc) = settled s.cursor (stage s.pc)) :
      Follow t i s t' { s with pc := pc } :=
    .keep hval rfl (iff_of_false hs' hs) (Or.inl hset)
  cases Subscriber.step_moves h with
  | takeLock hp _ | join hp _ _ | history hp _ | lockPush hp _ =>
    exact hfresh rfl (by rw [hp]; exact fun hf => hf) (fun hf => hf) (by rw [hp]; rfl)
  | bare hp _ | tracked hp _ | bareHistory hp _ | push hp => exact .create (by rw [hp]; exact fun hf => hf) rfl
  | @gateClosed c m hp _ => exact hloc rfl (by rw [hp]; rfl) (resume_local s .empty c).1
  | @reading c pc pc' hp _ =>
    obtain ⟨hset, hcr⟩ := settled_read s.cursor c pc
    obtain ⟨hset', hcr'⟩ := settled_read s.cursor c pc'
    exact .keep rfl rfl (iff_of_true hcr' (by rw [hp]; exact hcr)) (Or.inl (by rw [hp, hset]; exact hset'))
  | @read c pc res hp _ => exact afterRead_follow (onTryRead_after s c res) hp hc
  | head hp => exact onHead_follow hp
  | commit hp =>
    refine .commit hp ?_
    split <;> rfl
  | latestHead hp _ => exact .keep rfl rfl (by rw [hp]; exact Iff.rfl) (Or.inr (by rw [hp]; trivial))
  | @loadPending policy idle final hp =>
    exact hloc rfl (by rw [hp]; rfl) (onPending_local cfg policy idle final r.cursor s).1
  | dropArc hp =>
    refine hloc ?_ (by rw [hp]; rfl) ⟨rfl, rfl, rfl, rfl, rfl, rfl⟩
    split <;> rfl
  | gateNext hp | gateOpen hp _ | latestNone hp _ | pending hp | checkDrain hp _ | checkStop hp _ | checkGo hp _
  | dropLock hp _ | dropRetain hp => exact hloc rfl (by rw [hp]; rfl) ⟨rfl, rfl, rfl, rfl, rfl, rfl⟩

theorem Follow.others (h : Follow t i s t' s') (hj : j ≠ i) : t'.value j = t.value j := by
  cases h with
  | keep hval _ _ _ => rw [hval]
  | create _ hval =>
    rw [hval]
    split
    · exact Function.update_of_ne hj ..
    · rfl
  | commit _ hval =>
    rw [hval]
    split
    · exact Function.update_of_ne hj ..
    · rfl

/-! ## The invariant -/

/-- A subscriber without a tracker never stored a position. -/
structure Ok (t : Trackers) (i : Nat) (s : Subscriber n) : Prop where
  fresh : ¬ Created (stage s.pc) → s.tracker = false
  untracked : s.tracker = false → t.value i = 0
  tracked : s.tracker = true → s.latestUsed = false → t.value i = settled s.cursor (stage s.pc)

/-- A step of the subscriber keeps its tracker where it belongs, and moves it forward. -/
theorem Follow.ok (h : Follow t i s t' s') (hok : Ok t i s) (hlat : InLatest s.pc → s.latestUsed = true)
    (hu : s'.latestUsed = false → s.latestUsed = false) :
    Ok t' i s' ∧ (s'.latestUsed = false → t.value i ≤ t'.value i) := by
  cases h with
  | keep hval htr hcr hset =>
    refine ⟨⟨fun hn => ?_, fun hf => ?_, fun ht hused => ?_⟩, fun _ => by rw [hval]⟩
    · rw [htr]
      exact hok.fresh (fun hc => hn (hcr.mpr hc))
    · rw [hval]
      exact hok.untracked (htr ▸ hf)
    · rw [hval]
      rcases hset with hset | hin
      · exact (hok.tracked (htr ▸ ht) (hu hused)).trans hset.symm
      · have := hu hused
        rw [hlat hin] at this
        cases this
  | @create start tracker hs hval =>
    have hzero := hok.untracked (hok.fresh hs)
    refine ⟨⟨fun hn => absurd trivial hn, fun hf => ?_, fun ht _ => ?_⟩, fun _ => by rw [hzero]; exact Nat.zero_le _⟩
    · have hf' : tracker = false := hf
      rw [hval, hf']
      exact hzero
    · have ht' : tracker = true := ht
      rw [hval, ht']
      exact Function.update_self ..
  | @commit c res hs hval =>
    have hcount := onCommit_counted s c res
    refine ⟨⟨fun hn => ?_, fun hf => ?_, fun ht _ => ?_⟩, fun hused => ?_⟩
    · rw [hcount.stage] at hn
      exact absurd trivial hn
    · rw [hcount.tracker] at hf
      rw [hval, hf]
      exact hok.untracked hf
    · rw [hcount.tracker] at ht
      rw [hval, ht, hcount.stage, hcount.cursor]
      exact Function.update_self ..
    · rw [hval]
      cases ht : s.tracker with
      | false => exact Nat.le_refl _
      | true =>
        rw [hok.tracked ht (hu hused)]
        change _ ≤ Function.update t.value i s.cursor i
        rw [Function.update_self, hs]
        cases res <;> simp [stage, settled]

/-- Nobody else stores to a tracker. -/
theorem step_value_other (h : step cfg w a = some w') (hl : messages w < seqLimit) (hs : Sane cfg w)
    (ha : a ≠ .sub i) : w'.trackers.value i = w.trackers.value i := by
  cases a with
  | pubCall c =>
    simp only [step] at h
    split_ifs at h
    obtain ⟨p, _, rfl⟩ := Option.map_eq_some_iff.mp h
    rfl
  | pub =>
    obtain ⟨⟨r, t, p⟩, hp, rfl⟩ := Option.map_eq_some_iff.mp h
    exact congrFun (Publisher.step_trackers hp).1 i
  | mpCall p c =>
    simp only [step] at h
    split_ifs at h
    obtain ⟨pc, _, rfl⟩ := Option.map_eq_some_iff.mp h
    rfl
  | mp p =>
    obtain ⟨⟨r, pc⟩, _, rfl⟩ := Option.map_eq_some_iff.mp h
    rfl
  | sub j =>
    obtain ⟨⟨t, s⟩, hj, rfl⟩ := Option.map_eq_some_iff.mp h
    exact (step_follow ((hs.readers j).cursor_lt hl) hj).others (fun he => ha (by rw [he]))
  | cloneTracker j =>
    simp only [step] at h
    split_ifs at h
    cases h
    rfl
  | dropClone j =>
    simp only [step] at h
    split_ifs at h
    cases h
    rfl
  | shutdown j =>
    cases h
    rfl
  | _ =>
    obtain ⟨s, _, rfl⟩ := Option.map_eq_some_iff.mp h
    rfl

/-- Along a step every tracker stays with its subscriber and moves forward. -/
theorem step_ok (h : step cfg w a = some w') (hl : messages w < seqLimit) (hs : Sane cfg w)
    (hok : Ok w.trackers i (w.subs i)) :
    Ok w'.trackers i (w'.subs i) ∧ ((w'.subs i).latestUsed = false →
      (w.subs i).latestUsed = false ∧ w.trackers.value i ≤ w'.trackers.value i) := by
  have hused : (w'.subs i).latestUsed = false → (w.subs i).latestUsed = false := by
    rcases step_reader h i with he | hc
    · rw [he]
      exact fun hu => hu
    · exact hc.used
  by_cases ha : a = .sub i
  · subst ha
    obtain ⟨⟨t, s⟩, hi, rfl⟩ := Option.map_eq_some_iff.mp h
    rw [setSub_self] at hused ⊢
    obtain ⟨hok', hle⟩ := (step_follow ((hs.readers i).cursor_lt hl) hi).ok hok (hs.readers i).latest hused
    exact ⟨hok', fun hu => ⟨hused hu, hle hu⟩⟩
  · have hval := step_value_other h hl hs ha
    refine ⟨?_, fun hu => ⟨hused hu, hval.ge⟩⟩
    have hsame {s' : Subscriber n} (hs' : s'.tracker = (w.subs i).tracker)
        (hcr : Created (stage s'.pc) ↔ Created (stage (w.subs i).pc))
        (hset : settled s'.cursor (stage s'.pc) = settled (w.subs i).cursor (stage (w.subs i).pc))
        (hu : s'.latestUsed = false → (w.subs i).latestUsed = false) : Ok w'.trackers i s' := by
      refine ⟨fun hn => ?_, fun hf => ?_, fun ht hus => ?_⟩
      · rw [hs']
        exact hok.fresh (fun hc => hn (hcr.mpr hc))
      · rw [hval]
        exact hok.untracked (hs' ▸ hf)
      · rw [hval, hset]
        exact hok.tracked (hs' ▸ ht) (hu hus)
    cases step_subs h i with
    | other he => rw [he]; exact hsame rfl Iff.rfl rfl (fun hu => hu)
    | subscribe he _ =>
      obtain ⟨hpc, pc, hnew, he⟩ := subscribe_pc he
      rw [he]
      rcases hnew with rfl | rfl <;>
        exact hsame rfl (by rw [hpc]; exact Iff.rfl) (by rw [hpc]; rfl) (fun hu => hu)
    | call he _ =>
      obtain ⟨hidle, hst, hcur, htr⟩ := call_idle he
      refine hsame htr ?_ ?_ hused
      · rw [hst, hidle]
        exact Iff.rfl
      · rw [hst, hidle, hcur]
        rfl
    | step he => exact absurd rfl ha
    | drop he _ =>
      obtain ⟨hpc, he⟩ := drop_pc he
      have hready : stage (w.subs i).pc = .ready := by rcases hpc with hpc | hpc <;> rw [hpc] <;> rfl
      rcases he with he | he <;> rw [he] <;>
        exact hsame rfl (by rw [hready]; exact Iff.rfl) (by rw [hready]; rfl) (fun hu => hu)
    | shutdown he _ => rw [he]; exact hsame rfl Iff.rfl rfl (fun hu => hu)

end PhotonRing.Tracked
