import PhotonRing.Channel.Solo

/-!
# The ring refines the log

Whole operations, one after the other, on a lossy or MPMC channel. Each runs the
same steps as in any interleaving, with nothing in between, and returns what the
log returns. The simulation relates a state of the log to the reachable states of
the ring in which no call is in progress.
-/
namespace PhotonRing.Refinement

open Lib Reader World LogSpec Solo

variable {n : Nat} {cfg : Config} {w w' : World n} {m m' : Log n}

/-! ## Whole operations -/

/-- The result of the publisher's last call. -/
def pubRes (p : Publisher n) : Option (Res n) :=
  match p.last with
  | some .ok => some .done
  | some .panicked => some .panicked
  | _ => none

/-- The result of the subscriber's last operation. -/
def subRes (s : Subscriber n) : Option (Res n) :=
  match s.last with
  | some (.recv r) => some (.recv r)
  | some (.latest v) => some (.latest v)
  | some (.pending k) => some (.pending k)
  | _ => none

/-- A call of the single publisher, run alone. -/
def execPub (cfg : Config) (fuel : Nat) (w : World n) (c : PubCall n) : Option (World n × Res n) :=
  (step cfg w (.pubCall c)).bind fun w₁ =>
    (runWhile (fun w => pubBusy w.publisher) (fun w => step cfg w .pub) fuel w₁).bind fun w₂ =>
      (pubRes w₂.publisher).map fun res => (w₂, res)

/-- A call of producer `p`, run alone. -/
def execMp (cfg : Config) (fuel : Nat) (w : World n) (p : Nat) (c : MpCall n) : Option (World n × Res n) :=
  (step cfg w (.mpCall p c)).bind fun w₁ =>
    (runWhile (fun w => mpBusy (w.producers p)) (fun w => step cfg w (.mp p)) fuel w₁).map
      fun w₂ => (w₂, .done)

/-- What subscriber `i` does after the label `a`, run alone. -/
def execSub (cfg : Config) (fuel : Nat) (w : World n) (i : Nat) (a : Act n)
    (res : Subscriber n → Option (Res n)) : Option (World n × Res n) :=
  (step cfg w a).bind fun w₁ =>
    (runWhile (fun w => busy (w.subs i)) (fun w => step cfg w (.sub i)) fuel w₁).bind fun w₂ =>
      (res (w₂.subs i)).map fun x => (w₂, x)

/-- One whole operation. -/
def exec (cfg : Config) (fuel : Nat) (w : World n) : Op n → Option (World n × Res n)
  | .publish p v => if cfg.kind = .mpmc then execMp cfg fuel w p ⟨v, false⟩ else execPub cfg fuel w (.publish v)
  | .publishWith p (some v) =>
    if cfg.kind = .mpmc then execMp cfg fuel w p ⟨v, true⟩ else execPub cfg fuel w (.publishWith (some v))
  | .publishWith _ none => execPub cfg fuel w (.publishWith none)
  | .publishBatch vs => execPub cfg fuel w (.publishBatch vs)
  | .subscribe i k => execSub cfg fuel w i (.subscribe i k) fun s => some (.started s.cursor)
  | .tryRecv i => execSub cfg fuel w i (.subCall i .tryRecv) subRes
  | .latest i => execSub cfg fuel w i (.subCall i .latest) subRes
  | .pending i => execSub cfg fuel w i (.subCall i .pending) subRes
  | .drop i => execSub cfg fuel w i (.drop i) fun _ => some .done

/-- A list of whole operations, with the list of their results. -/
def execAll (cfg : Config) (fuel : Nat) (w : World n) : List (Op n) → Option (World n × List (Res n))
  | [] => some (w, [])
  | op :: ops => (exec cfg fuel w op).bind fun x =>
      (execAll cfg fuel x.1 ops).map fun y => (y.1, x.2 :: y.2)

/-- Batches, and closures that panic, are for the single publisher. -/
def Allowed (kind : Kind) : Op n → Prop
  | .publishWith _ none => kind ≠ .mpmc
  | .publishBatch _ => kind ≠ .mpmc
  | _ => True

/-! ## The simulation -/

def HandleOk (s : Subscriber n) : Handle → Prop
  | .absent => s.pc = .absent
  | .live q => s.pc = .idle ∧ s.cursor = q
  | .dropped => s.pc = .dropped

structure Sim (cfg : Config) (m : Log n) (w : World n) : Prop where
  reach : Reach cfg w
  log : w.ring.log = m.log
  publisher : w.publisher.pc = .idle
  producers : ∀ p, w.producers p = .idle
  handles : ∀ i, HandleOk (w.subs i) (m.handles i)

theorem sim_new (cfg : Config) : Sim cfg (Log.new n) (World.new n) :=
  ⟨.start, rfl, rfl, fun _ => rfl, fun _ => rfl⟩

/-- One operation of the log is one whole operation of the ring. -/
def Refines (cfg : Config) (w : World n) (op : Op n) (m' : Log n) (res : Res n) : Prop :=
  ∃ w', Sim cfg m' w' ∧ ∃ fuel, ∀ k ≥ fuel, exec cfg k w op = some (w', res)

theorem Sim.quiet (h : Sim cfg m w) (hl : m.log.length < seqLimit) : Quiet cfg w.ring :=
  quiet_of_idle (reach_written h.reach (by unfold messages; rw [h.log]; exact hl)) h.publisher h.producers

/-- A subscriber's operation, from its first label to the end of its steps. -/
theorem Sim.sub {i : Nat} {a : Act n} {s : Subscriber n} {Q : Trackers × Subscriber n → Prop}
    (h : Sim cfg m w) (hd : Handle) (res : Subscriber n → Option (Res n)) (out : Res n)
    (ha : step cfg w a = some (w.setSub i s))
    (hend : Ends (fun x => busy x.2) (subStep cfg w.ring i) Q (w.trackers, s))
    (hQ : ∀ x, Q x → HandleOk x.2 hd ∧ res x.2 = some out) :
    ∃ w', Sim cfg (m.setHandle i hd) w' ∧ ∃ fuel, ∀ k ≥ fuel, execSub cfg k w i a res = some (w', out) := by
  let put (x : Trackers × Subscriber n) : World n := { w with trackers := x.1 }.setSub i x.2
  have hput (x : Trackers × Subscriber n) : (put x).subs i = x.2 := setSub_self ..
  have hsolo : Ends (fun w => busy (w.subs i)) (fun w => step cfg w (.sub i))
      (fun u => (∃ x, u = put x ∧ Q x) ∧ Reach cfg u) (put (w.trackers, s)) := by
    refine Ends.carry (fun s t hst hr => hr.next hst) (hend.lift (fun x => by rw [hput]) ?_) (h.reach.next ha)
    intro x y hxy
    have hxy' : x.2.step cfg w.ring x.1 i = some y := hxy
    simp only [step, hput]
    change (x.2.step cfg w.ring x.1 i).map _ = _
    rw [hxy', Option.map_some]
    simp only [put, setSub, Function.update_idem]
  obtain ⟨w', ⟨⟨x, rfl, hx⟩, hr⟩, fuel, hrun⟩ := hsolo.runWhile
  obtain ⟨hh, hres⟩ := hQ x hx
  refine ⟨put x, ⟨hr, h.log, h.publisher, h.producers, fun j => ?_⟩, fuel, fun k hk => ?_⟩
  · by_cases hj : j = i
    · subst hj
      rw [hput]
      simpa [Log.setHandle] using hh
    · have h1 : (put x).subs j = w.subs j := setSub_ne _ _ hj
      rw [h1]
      simpa [Log.setHandle, hj] using h.handles j
  · unfold execSub
    rw [ha]
    change ((runWhile _ _ k (put (w.trackers, s))).bind _) = _
    rw [hrun k hk, Option.bind_some, hput, hres]
    rfl

theorem Sim.handle {i : Nat} {q : Nat} (h : Sim cfg m w) (hd : m.handles i = .live q) :
    (w.subs i).pc = .idle ∧ (w.subs i).cursor = q := by
  have := h.handles i
  rw [hd] at this
  exact this

theorem Sim.cursor_le {i : Nat} (h : Sim cfg m w) (hl : m.log.length < seqLimit) :
    (w.subs i).cursor ≤ w.ring.log.length :=
  ((reach_sane h.reach (by unfold messages; rw [h.log]; exact hl)).readers i).cursor_le

/-- A call of the single publisher on a lossy channel. -/
theorem Sim.pub {c : PubCall n} {out : Res n} (h : Sim cfg m w) (hk : cfg.kind = .lossy)
    (hout : ∀ p : Publisher n, p.last = some (resultOf c) → pubRes p = some out) :
    ∃ w', Sim cfg (m.append (valuesOf c)) w' ∧
      ∃ fuel, ∀ k ≥ fuel, execPub cfg k w c = some (w', out) := by
  have hne : ¬ cfg.kind = .mpmc := by rw [hk]; exact fun h => by cases h
  by_cases hc : c = .publishBatch []
  · subst hc
    have hcall : step cfg w (.pubCall (.publishBatch []))
        = some { w with publisher := { w.publisher with last := some .ok } } := by
      simp only [step, if_neg hne, Publisher.call, h.publisher, Option.map_some]
    refine ⟨_, ⟨h.reach.next hcall, ?_, h.publisher, h.producers, h.handles⟩, 0, fun k _ => ?_⟩
    · simpa [Log.append, valuesOf] using h.log
    · unfold execPub
      have hres := hout { w.publisher with pc := .idle, last := some .ok } rfl
      rw [hcall, Option.bind_some]
      cases k <;> simp [runWhile, pubBusy, h.publisher, hres]
  · have hcall : step cfg w (.pubCall c)
        = some { w with publisher := { w.publisher with pc := .room c } } := by
      have : w.publisher.call c = some { w.publisher with pc := .room c } := by
        cases c with
        | publishBatch vs =>
          cases vs with
          | nil => exact absurd rfl hc
          | cons v vs => simp only [Publisher.call, h.publisher]
        | _ => simp only [Publisher.call, h.publisher]
      simp only [step, if_neg hne, this, Option.map_some]
    let put (x : Ring n × Trackers × Publisher n) : World n :=
      { w with ring := x.1, trackers := x.2.1, publisher := x.2.2 }
    have hsolo : Ends (fun w => pubBusy w.publisher) (fun w => step cfg w .pub)
        (fun u => (∃ x, u = put x ∧ Appended w.ring w.trackers (valuesOf c) (resultOf c) x) ∧ Reach cfg u)
        (put (w.ring, w.trackers, { w.publisher with pc := .room c })) := by
      refine Ends.carry (fun s t hst hr => hr.next hst)
        ((publish_ends hk hc).lift (fun x => rfl) ?_) (h.reach.next hcall)
      intro x y hxy
      have hxy' : x.2.2.step cfg x.1 x.2.1 = some y := hxy
      simp only [step, put, hxy', Option.map_some]
    obtain ⟨w', ⟨⟨x, rfl, hpc, hlog, ht, hlast⟩, hr⟩, fuel, hrun⟩ := hsolo.runWhile
    refine ⟨put x, ⟨hr, ?_, hpc, h.producers, h.handles⟩, fuel, fun k hk => ?_⟩
    · change x.1.log = m.log ++ valuesOf c
      rw [hlog, h.log]
    · unfold execPub
      rw [hcall]
      change ((runWhile _ _ k (put (w.ring, w.trackers, { w.publisher with pc := .room c }))).bind _) = _
      rw [hrun k hk, Option.bind_some, hout x.2.2 hlast]
      rfl

/-- A call of a producer on an MPMC channel. -/
theorem Sim.mp {c : MpCall n} (h : Sim cfg m w) (hk : cfg.kind = .mpmc) (p : Nat)
    (hl : m.log.length + 1 < seqLimit) :
    ∃ w', Sim cfg (m.append [c.value]) w' ∧
      ∃ fuel, ∀ k ≥ fuel, execMp cfg k w p c = some (w', .done) := by
  have hmsg : messages w < seqLimit := by unfold messages; rw [h.log]; omega
  have hnext := ((reach_written h.reach hmsg).mpmc hk).1.writers.next
  have hcall : step cfg w (.mpCall p c) = some (w.setProducer p (.claim c)) := by
    simp only [step, hk, ↓reduceIte, h.producers p, MpPc.call, Option.map_some]
  have hsolo : Ends (fun w => mpBusy (w.producers p)) (fun w => step cfg w (.mp p))
      (fun u => (∃ x, u = produced w p x ∧ x.2 = .idle ∧ x.1.log = w.ring.log ++ [c.value]) ∧ Reach cfg u)
      (produced w p (w.ring, .claim c)) :=
    Ends.carry (fun s t hst hr => hr.next hst)
      (produced_ends w p (mpPublish_ends (h.quiet (by omega)) hnext (by rw [h.log]; omega) c)) (h.reach.next hcall)
  obtain ⟨w', ⟨⟨x, rfl, hidle, hlog⟩, hr⟩, fuel, hrun⟩ := hsolo.runWhile
  refine ⟨produced w p x, ⟨hr, ?_, h.publisher, fun q => ?_, h.handles⟩, fuel, fun k hk => ?_⟩
  · change x.1.log = m.log ++ [c.value]
    rw [hlog, h.log]
  · by_cases hq : q = p
    · rw [hq, produced_self, hidle]
    · exact (Function.update_of_ne hq ..).trans (h.producers q)
  · unfold execMp
    rw [hcall]
    change ((runWhile _ _ k (produced w p (w.ring, .claim c))).map _) = _
    rw [hrun k hk, Option.map_some]

/-- Every operation of the log is refined by the ring. -/
theorem step_refines (hk : cfg.kind = .lossy ∨ cfg.kind = .mpmc) {op : Op n} {res : Res n}
    (h : Sim cfg m w) (ha : Allowed cfg.kind op) (hs : m.step cfg.capacity op = some (m', res))
    (hl : m'.log.length < seqLimit) : Refines cfg w op m' res := by
  have hl0 : m.log.length < seqLimit := (Log.step_length_le hs).trans_lt hl
  have hquiet := h.quiet hl0
  have hlen : w.ring.log.length < seqLimit := by rw [h.log]; exact hl0
  have hpub (c : PubCall n) (out : Res n) (hne : cfg.kind ≠ .mpmc)
      (hout : ∀ p : Publisher n, p.last = some (resultOf c) → pubRes p = some out) :=
    h.pub (c := c) (hk.resolve_right hne) hout
  have hok : ∀ c : PubCall n, resultOf c = .ok →
      ∀ p : Publisher n, p.last = some (resultOf c) → pubRes p = some .done := by
    intro c hc p hp
    rw [hc] at hp
    simp [pubRes, hp]
  cases op with
  | publish p v =>
    cases hs
    unfold Refines exec
    by_cases hm : cfg.kind = .mpmc
    · simp only [if_pos hm]
      exact h.mp (c := ⟨v, false⟩) hm p (by simpa [Log.append] using hl)
    · simp only [if_neg hm]
      exact hpub (.publish v) .done hm (hok (.publish v) rfl)
  | publishWith p f =>
    cases f with
    | some v =>
      cases hs
      unfold Refines exec
      by_cases hm : cfg.kind = .mpmc
      · simp only [if_pos hm]
        exact h.mp (c := ⟨v, true⟩) hm p (by simpa [Log.append] using hl)
      · simp only [if_neg hm]
        exact hpub (.publishWith (some v)) .done hm (hok (.publishWith (some v)) rfl)
    | none =>
      cases hs
      have hp := hpub (.publishWith none) .panicked ha (fun p hp => by
        have hp' : p.last = some .panicked := hp
        simp [pubRes, hp'])
      have hm : m.append (valuesOf (.publishWith none)) = m := by simp [Log.append, valuesOf]
      rw [hm] at hp
      exact hp
  | publishBatch vs =>
    cases hs
    exact hpub (.publishBatch vs) .done ha (hok (.publishBatch vs) rfl)
  | subscribe i k =>
    simp only [Log.step] at hs
    split at hs <;> cases hs
    rename_i hd
    have habsent : (w.subs i).pc = .absent := by
      have hh := h.handles i
      rw [hd] at hh
      exact hh
    refine h.sub (s := { w.subs i with pc := .loadHead k, kind := k })
      (.live (startAt cfg.capacity m.log k)) (fun s => some (.started s.cursor)) _ ?_
      (subscribe_ends hquiet hlen k hk) (fun x hx => ⟨⟨hx.1, ?_⟩, ?_⟩)
    · rcases hk with hk | hk <;> simp only [step, Subscriber.subscribe, habsent, hk, Option.map_some]
    · rw [hx.2, h.log]
    · rw [hx.2, h.log]
  | tryRecv i =>
    simp only [Log.step] at hs
    split at hs <;> cases hs
    rename_i q hd
    obtain ⟨hidle, rfl⟩ := h.handle hd
    refine h.sub (s := (w.subs i).poll .tryRecv) _ _ _ ?_ (tryRecv_ends hquiet hlen (h.cursor_le hl0))
      (fun x hx => ⟨⟨hx.1, ?_⟩, ?_⟩)
    · simp only [step, Subscriber.call, hidle, Option.map_some]
    · rw [hx.2.1, h.log]
    · unfold subRes
      rw [hx.2.2, h.log]
  | latest i =>
    simp only [Log.step] at hs
    split at hs <;> cases hs
    rename_i q hd
    obtain ⟨hidle, rfl⟩ := h.handle hd
    refine h.sub (s := { w.subs i with pc := .latestHead, latestUsed := true }) _ _ _ ?_
      (latest_ends hquiet hlen) (fun x hx => ⟨⟨hx.1, ?_⟩, ?_⟩)
    · simp only [step, Subscriber.call, hidle, Option.map_some]
    · rw [hx.2.1, h.log]
    · unfold subRes
      rw [hx.2.2, h.log]
  | pending i =>
    simp only [Log.step] at hs
    split at hs <;> cases hs
    rename_i q hd
    obtain ⟨hidle, rfl⟩ := h.handle hd
    have hsame : m.setHandle i (.live (w.subs i).cursor) = m := by
      unfold Log.setHandle
      rw [← hd, Function.update_eq_self]
    have hp := h.sub (s := { w.subs i with pc := .pending }) (i := i) (a := .subCall i .pending)
      (.live (w.subs i).cursor) subRes
      (.pending (min (m.log.length - (w.subs i).cursor) cfg.capacity))
      (Q := fun x => x.2 = (w.subs i).finish
        (.pending (pendingOf cfg.capacity w.ring.cursor (w.subs i).cursor))) ?_ ?_ ?_
    · rw [hsame] at hp
      exact hp
    · simp only [step, Subscriber.call, hidle, Option.map_some]
    · exact .step rfl rfl (.done rfl rfl)
    · intro x hx
      rw [hx, pendingOf_eq hquiet hlen (h.cursor_le hl0), h.log]
      exact ⟨⟨rfl, rfl⟩, rfl⟩
  | drop i =>
    simp only [Log.step] at hs
    split at hs <;> cases hs
    rename_i q hd
    obtain ⟨hidle, rfl⟩ := h.handle hd
    refine h.sub (s := { w.subs i with pc := .dropArc }) .dropped
      (fun _ => some .done) _ (Q := fun x => x.2.pc = .dropped) ?_
      (.step rfl rfl (.done rfl rfl)) (fun x hx => ⟨hx, rfl⟩)
    rcases hk with hk | hk <;> simp only [step, Subscriber.drop, hidle, hk, Option.map_some]

/-- Any sequence of whole operations returns what the log returns. -/
theorem run_refines (hk : cfg.kind = .lossy ∨ cfg.kind = .mpmc) {ops : List (Op n)} {out : List (Res n)}
    (h : Sim cfg m w) (ha : ∀ op ∈ ops, Allowed cfg.kind op)
    (hs : m.run cfg.capacity ops = some (m', out)) (hl : m'.log.length < seqLimit) :
    ∃ w', Sim cfg m' w' ∧ ∃ fuel, ∀ k ≥ fuel, execAll cfg k w ops = some (w', out) := by
  induction ops generalizing m w out with
  | nil =>
    cases hs
    exact ⟨w, h, 0, fun _ _ => rfl⟩
  | cons op ops ih =>
    obtain ⟨⟨m₁, res⟩, hs₁, hrest⟩ := Option.bind_eq_some_iff.mp hs
    obtain ⟨⟨m₂, out₂⟩, hs₂, he⟩ := Option.map_eq_some_iff.mp hrest
    cases he
    have hl₁ : m₁.log.length < seqLimit := (Log.run_length_le hs₂).trans_lt hl
    obtain ⟨w₁, hw₁, f₁, hf₁⟩ := step_refines hk h (ha op (by simp)) hs₁ hl₁
    obtain ⟨w₂, hw₂, f₂, hf₂⟩ := ih hw₁ (fun o ho => ha o (by simp [ho])) hs₂
    refine ⟨w₂, hw₂, max f₁ f₂, fun k hk => ?_⟩
    simp only [execAll, hf₁ k (le_trans (Nat.le_max_left _ _) hk), Option.bind_some,
      hf₂ k (le_trans (Nat.le_max_right _ _) hk), Option.map_some]

/-- Whole operations on a new lossy or MPMC channel return what the log returns,
and leave every subscriber at the log's position. -/
theorem ring_refines_log (hk : cfg.kind = .lossy ∨ cfg.kind = .mpmc) {ops : List (Op n)}
    {out : List (Res n)} (ha : ∀ op ∈ ops, Allowed cfg.kind op)
    (hs : (Log.new n).run cfg.capacity ops = some (m, out)) (hl : m.log.length < seqLimit) :
    ∃ w, w.ring.log = m.log ∧ (∀ i q, m.handles i = .live q → (w.subs i).cursor = q) ∧
      ∃ fuel, ∀ k ≥ fuel, execAll cfg k (World.new n) ops = some (w, out) := by
  obtain ⟨w, hw, fuel, hrun⟩ := run_refines hk (sim_new cfg) ha hs hl
  exact ⟨w, hw.log, fun i q hd => (hw.handle hd).2, fuel, hrun⟩

/-- Three messages through a ring of two slots, then the operations that notice. -/
theorem ring_refines_log_lapped : ∃ (w : World 1) (fuel : Nat), ∀ k ≥ fuel,
    execAll Config.smallLossy k (World.new 1)
      [.subscribe 0 .subscribe, .publish 0 fun _ => 7, .publishBatch [fun _ => 8, fun _ => 9],
        .publishWith 0 none, .pending 0, .tryRecv 0, .tryRecv 0, .latest 0, .tryRecv 0, .drop 0]
    = some (w, [.started 0, .done, .done, .panicked, .pending 2, .recv (.lagged 1),
        .recv (.ok (bytesOf fun _ => 8)), .latest (some (bytesOf fun _ => 9)), .recv .empty, .done]) := by
  obtain ⟨m, hm, hl⟩ : ∃ m : Log 1, (Log.new 1).run 2
      [.subscribe 0 .subscribe, .publish 0 fun _ => 7, .publishBatch [fun _ => 8, fun _ => 9],
        .publishWith 0 none, .pending 0, .tryRecv 0, .tryRecv 0, .latest 0, .tryRecv 0, .drop 0]
      = some (m, [.started 0, .done, .done, .panicked, .pending 2, .recv (.lagged 1),
        .recv (.ok (bytesOf fun _ => 8)), .latest (some (bytesOf fun _ => 9)), .recv .empty, .done]) ∧
      m.log.length < seqLimit := ⟨_, rfl, by decide⟩
  have hk : Config.smallLossy.kind = .lossy ∨
      Config.smallLossy.kind = .mpmc := Or.inl rfl
  obtain ⟨w, _, _, fuel, hrun⟩ := ring_refines_log hk (fun op _ => by unfold Allowed; split <;> trivial) hm hl
  exact ⟨w, fuel, hrun⟩

end PhotonRing.Refinement
