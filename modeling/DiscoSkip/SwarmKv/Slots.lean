import DiscoSkip.SwarmKv.OopsClient.Steps

/-!
# The slots of the tsps only grow

A compare-and-swap of a register expects what it saw last in the slot, which is at most
all that it has seen (`MaxReg.Ok`), and what it swaps in is greater, since the step was
not skipped (`lt_of_settle`): no slot decreases. But the step `WriteTsAndIn` is never
skipped. A register is *overtaken* if it goes on to this step, having last seen in the
slot a tsp greater than the one it is to write; this happens on a server that lags behind
the majority (`not_slots_monotone`). If no register is ever overtaken (`Slots.Guard`), no
slot decreases in a run (`slots_monotone`).
-/

namespace DiscoSkip.SwarmKv

open Lib

section Overtaken

variable (cfg : Layout) (c : ℕ)

/-- A register about to write a tsp again saw a greater one last in the slot. -/
def MaxReg.overtaken (s : ℕ) (z : Local) (x : MaxReg) : Bool :=
  !x.waits && x.nextStep = some .writeTsAndIn &&
    z.tspOf x.writeEntry < (refresh cfg c s z x).2.myLastTsp.getD 0

namespace RelaxedMaxReg

/-- Some register is overtaken as those of the servers `l` are stepped forward. -/
def overtakenIn : List ℕ → Local × RelaxedMaxReg × Counts → Bool
  | [], _ => false
  | s :: l, acc =>
    (acc.2.1.reg s).overtaken cfg c s acc.1 || overtakenIn l (visit cfg c acc s)

def overtaken (z : Local) (r : RelaxedMaxReg) : Bool :=
  overtakenIn cfg c (r.usedServers cfg) (z, r, ⟨0, 0, 0⟩)

end RelaxedMaxReg

/-- No register of the future stepped forward is overtaken. -/
def Slots.Guard (t : State) : Action → Prop
  | .run c => ∀ call ∈ (t.client c).call,
      (t.future c call.future).data.maxreg.overtaken cfg c (t.localOf c call.future) = false
  | _ => True

instance (t : State) (a : Action) : Decidable (Slots.Guard cfg t a) := by
  cases a <;> dsimp only [Slots.Guard] <;> infer_instance

end Overtaken

variable {cfg : Layout} {c s : ℕ} {z : Local}

/-- What a register saw last in the slot is at most all that it has seen. -/
def MaxReg.Ok (x : MaxReg) : Prop := x.myLastTsp.getD 0 ≤ x.maxSeenTsp

/-- A compare-and-swap that does not decrease the slot. -/
def Request.Ok (q : Request) : Prop := ∀ kv e n, q.op = .cas kv e n → e ≤ n

namespace Layout

theorem le_maxTspOf_aux (l : List ℕ) (tsps : ℕ → ℕ) (m : ℕ) :
    m ≤ l.foldl (fun tsp i => max tsp (tsps i)) m ∧
      ∀ i ∈ l, tsps i ≤ l.foldl (fun tsp i => max tsp (tsps i)) m := by
  induction l generalizing m with
  | nil => exact ⟨le_rfl, by simp⟩
  | cons a l ih =>
    obtain ⟨h₁, h₂⟩ := ih (max m (tsps a))
    refine ⟨(le_max_left _ _).trans h₁, fun i hi => ?_⟩
    rcases List.mem_cons.1 hi with rfl | hi
    · exact (le_max_right _ _).trans h₁
    · exact h₂ i hi

theorem le_maxTspOf {tsps : ℕ → ℕ} {i : ℕ} (h : i < cfg.numTsp) : tsps i ≤ cfg.maxTspOf tsps :=
  (le_maxTspOf_aux _ tsps 0).2 i (List.mem_range.2 h)

theorem tspSlot_lt (c : ℕ) : cfg.tspSlot c < cfg.numTsp := Nat.mod_lt _ cfg.numTsp_pos

end Layout

namespace MaxReg

variable {x : MaxReg}

theorem Ok.take (h : x.Ok) : (take cfg c s z x).2.Ok := by
  by_cases hs : x.step.swaps
  · obtain ⟨k, m, ht, hm⟩ := @take_of_swaps cfg c s z x hs
    rw [ht]
    rcases hm with rfl | ⟨-, -, rfl⟩
    · exact le_max_right _ _
    · exact (le_max_right _ _).trans (le_max_left _ _)
  · by_cases hr : x.step.readsTsps
    · obtain ⟨k, ht⟩ := @take_of_readsTsps cfg c s z x hr
      rw [ht]
      exact (Layout.le_maxTspOf (cfg.tspSlot_lt c)).trans (le_max_right _ _)
    · rwa [take_of_not (Bool.eq_false_iff.2 hs) (Bool.eq_false_iff.2 hr)]

theorem Ok.refresh (h : x.Ok) : (refresh cfg c s z x).2.Ok := by
  unfold MaxReg.refresh
  split
  · exact h.take
  · exact h

/-- A register that is not overtaken posts only what does not decrease a slot. -/
theorem Ok.transitionTo {step : RegStep} (h : x.Ok)
    (hg : step = .writeTsAndIn → x.myLastTsp.getD 0 ≤ z.tspOf x.writeEntry)
    (hz : ∀ q ∈ z.posted, q.2.Ok) :
    (transitionTo cfg s z x step).2.Ok ∧ ∀ q ∈ (transitionTo cfg s z x step).1.posted, q.2.Ok := by
  unfold MaxReg.transitionTo
  dsimp only
  split
  · exact ⟨h, hz⟩
  · refine ⟨h, fun q hq => ?_⟩
    rcases List.mem_append.1 hq with hq | hq
    · exact hz q hq
    · obtain ⟨⟨o, b⟩, ho, rfl⟩ := List.mem_map.1 hq
      rintro kv e n rfl
      obtain ⟨-, rfl, rfl, hs⟩ := of_mem_requests ho
      by_cases hst : settle (· ≤ ·) (z.tspOf x.writeEntry) x.maxSeenTsp step = .writeTsAndIn
      · exact hg (eq_of_settle hst)
      · exact h.trans (lt_of_settle rfl hs hst).le

theorem Ok.called {y : MaxReg} (h : x.Ok) (hc : Called x y) : y.Ok := by
  unfold MaxReg.Ok
  rw [hc]
  exact h

theorem Ok.tryStepForward (h : x.Ok) (hg : x.overtaken cfg c s z = false)
    (hz : ∀ q ∈ z.posted, q.2.Ok) : (tryStepForward cfg c s z x).2.Ok ∧
      ∀ q ∈ (tryStepForward cfg c s z x).1.posted, q.2.Ok := by
  cases hw : x.waits with
  | true =>
    rw [tryStepForward_of_waits hw]
    exact ⟨h, hz⟩
  | false =>
    obtain ⟨step, mark, hgo, heq⟩ := @tryStepForward_eq cfg c s z x hw
    have hf : Frame z x (MaxReg.refresh cfg c s z x) := refresh_frame
    rw [heq]
    refine Ok.transitionTo h.refresh (fun hst => ?_) (by rwa [hf.posted])
    subst hst
    rcases hgo with ⟨hn, -⟩ | ⟨-, hn, -⟩
    · simp only [overtaken, hw, hn, Bool.not_false, decide_true, Bool.and_true,
        Bool.true_and, decide_eq_false_iff_not, not_lt] at hg
      rw [hf.tspOf, hf.reg]
      exact hg
    · exact absurd hn.symm following_ne

end MaxReg

/-! ### The future -/

/-- All registers are `Ok`, and so is what is posted. -/
structure RelaxedMaxReg.Ok (z : Local) (r : RelaxedMaxReg) : Prop where
  reg : ∀ s, (r.reg s).Ok
  posted : ∀ q ∈ z.posted, q.2.Ok

namespace RelaxedMaxReg.Ok

variable {r r' : RelaxedMaxReg} {z' : Local} {n : Counts}

theorem visit (h : r.Ok z) (hg : (r.reg s).overtaken cfg c s z = false) :
    RelaxedMaxReg.Ok (visit cfg c (z, r, n) s).1 (visit cfg c (z, r, n) s).2.1 := by
  obtain ⟨n', hv⟩ := @visit_eq cfg c z r n s
  obtain ⟨hx, hz⟩ := (h.reg s).tryStepForward hg h.posted
  rw [hv]
  refine ⟨fun s' => ?_, by rwa [relabel_posted]⟩
  rw [relabel_reg]
  by_cases hs : s' = s
  · subst hs
    rwa [setReg_self]
  · rw [setReg_of_ne hs]
    exact h.reg s'

theorem foldl_visit (l : List ℕ) {acc : Local × RelaxedMaxReg × Counts} (h : acc.2.1.Ok acc.1)
    (hg : overtakenIn cfg c l acc = false) :
    (l.foldl (RelaxedMaxReg.visit cfg c) acc).2.1.Ok
      (l.foldl (RelaxedMaxReg.visit cfg c) acc).1 := by
  induction l generalizing acc with
  | nil => exact h
  | cons s l ih =>
    obtain ⟨hs, hl⟩ := Bool.or_eq_false_iff.1 hg
    exact ih (h.visit hs) hl

theorem visitAll (h : r.Ok z) (hg : r.overtaken cfg c z = false)
    (hv : visitAll cfg c z r = (z', r', n)) : r'.Ok z' := by
  have := foldl_visit _ h hg
  rw [← RelaxedMaxReg.visitAll, hv] at this
  exact this

/-- No register is overtaken that is not to write a tsp again. -/
theorem overtakenIn_eq_false (l : List ℕ) {acc : Local × RelaxedMaxReg × Counts}
    (h : ∀ s, (acc.2.1.reg s).nextStep ≠ some .writeTsAndIn) : overtakenIn cfg c l acc = false := by
  induction l generalizing acc with
  | nil => rfl
  | cons s l ih =>
    obtain ⟨z, r, n⟩ := acc
    refine Bool.or_eq_false_iff.2 ⟨by simp [MaxReg.overtaken, h s], ih fun s' => ?_⟩
    obtain ⟨n', hv⟩ := @visit_eq cfg c z r n s
    rw [hv, relabel_reg]
    by_cases hs : s' = s
    · subst hs
      rw [setReg_self]
      rcases @MaxReg.tryStepForward_nextStep cfg _ _ _ _ with hn | hn <;> rw [hn]
      · exact nofun
      · exact h s'
    · rw [setReg_of_ne hs]
      exact h s'

theorem stepped {b : Bool} (h : r.Ok z) (hg : r.overtaken cfg c z = false)
    (hs : Stepped cfg c z r b z' r') : r'.Ok z' := by
  induction hs with
  | idle => exact ⟨h.reg, h.posted⟩
  | waits _ hv => exact h.visitAll hg hv
  | reads _ hv _ _ hr _ ih =>
    have h₁ := h.visitAll hg hv
    obtain ⟨log, -, rfl⟩ := Option.map_eq_some_iff.1 hr
    exact ih ⟨h₁.reg, h₁.posted⟩ (overtakenIn_eq_false _ fun s => nofun)
  | progresses _ hv =>
    have h₁ := h.visitAll hg hv
    exact ⟨h₁.reg, h₁.posted⟩
  | linearizes _ hv =>
    have h₁ := h.visitAll hg hv
    exact ⟨h₁.reg, h₁.posted⟩
  | writes _ hv =>
    have h₁ := h.visitAll hg hv
    exact ⟨h₁.reg, h₁.posted⟩
  | finishes _ hv =>
    have h₁ := h.visitAll hg hv
    exact ⟨h₁.reg, h₁.posted⟩
  | inPlace _ hv =>
    have h₁ := h.visitAll hg hv
    exact ⟨h₁.reg, h₁.posted⟩
  | readsLog _ hv =>
    have h₁ := h.visitAll hg hv
    exact ⟨h₁.reg, h₁.posted⟩

end RelaxedMaxReg.Ok

namespace OopsDataFuture

variable {d d' : OopsDataFuture} {z' : Local}

theorem Entered.ok (h : d.maxreg.Ok z) (he : Entered cfg c z d z' d') : d'.maxreg.Ok z' := by
  obtain ⟨hz, hr⟩ := he.called
  exact ⟨fun s => (h.reg s).called (hr s), by rw [hz]; exact h.posted⟩

theorem Follows.ok {o : Outcome} {step : DataStep} (h : d.maxreg.Ok z)
    (hf : Follows cfg c z d o z' d' step) : d'.maxreg.Ok z' := by
  cases hf with
  | writeAnew _ _ hz => exact ⟨h.reg, by rw [newTsp_posted hz]; exact h.posted⟩
  | unnotified _ hz => exact ⟨h.reg, by rw [newTsp_posted hz]; exact h.posted⟩
  | writeRead _ hz => exact ⟨h.reg, by rw [newTsp_posted hz]; exact h.posted⟩
  | afterNotify _ _ ha => cases ha <;> exact h
  | afterRead _ ha => cases ha <;> exact h
  | _ => exact h

theorem tryStepForward_ok {o : Outcome} (h : d.maxreg.Ok z)
    (hg : d.maxreg.overtaken cfg c z = false)
    (hs : tryStepForward cfg c z d = some (o, z', d')) : d'.maxreg.Ok z' := by
  obtain ⟨b, z₁, r₁, hr, ⟨rfl, rfl, -⟩ | ⟨-, -, -, z₂, d₂, step, hf, he⟩⟩ := tryStepForward_cases hs
  · exact h.stepped hg hr
  · exact (entered he).1.ok (Follows.ok (h.stepped hg hr : RelaxedMaxReg.Ok z₁ _) hf)

end OopsDataFuture

/-! ### The run -/

/-- All registers of all futures are `Ok`, and so are all requests. -/
structure State.SlotsOk (t : State) : Prop where
  reg : ∀ c f s, ((t.future c f).data.maxreg.reg s).Ok
  queue : ∀ c s, ∀ q ∈ t.queue c s, q.2.Ok

namespace State.SlotsOk

variable {t t' : State} {f : ℕ} {d : OopsDataFuture} {call : Option Call}

theorem localOf (h : t.SlotsOk) : (t.future c f).data.maxreg.Ok (t.localOf c f) :=
  ⟨h.reg c f, nofun⟩

theorem setFuture (h : t.SlotsOk) {x : OopsFuture} (hx : ∀ s, (x.data.maxreg.reg s).Ok) :
    (t.setFuture c f x).SlotsOk := by
  refine ⟨fun c' f' => ?_, h.queue⟩
  by_cases hc : (c', f') = (c, f)
  · cases hc
    simpa using hx
  · rw [setFuture_future_of_ne hc]
    exact h.reg c' f'

theorem setLocal (h : t.SlotsOk) (hd : d.maxreg.Ok z) : (t.setLocal c f z d call).SlotsOk := by
  refine ⟨fun c' f' => ?_, fun c' s q hq => ?_⟩
  · by_cases hc : (c', f') = (c, f)
    · cases hc
      rw [setLocal_future_self]
      exact hd.reg
    · rw [setLocal_future_of_ne hc]
      exact h.reg c' f'
  · by_cases hc : c' = c
    · subst hc
      rw [setLocal_queue_self] at hq
      rcases List.mem_append.1 hq with hq | hq
      · exact h.queue _ _ q hq
      · obtain ⟨p, hp, rfl⟩ := List.mem_map.1 hq
        exact hd.posted p (List.mem_of_mem_filter hp)
    · rw [setLocal_queue_of_ne hc] at hq
      exact h.queue _ _ q hq

theorem setClient (h : t.SlotsOk) {k : OopsState} : (t.setClient c k).SlotsOk := ⟨h.reg, h.queue⟩

theorem startWrite (h : t.SlotsOk) {kv : ℕ} {v : Data} {step : OopsStep} {cached : Option ℕ}
    (ht : t.startWrite cfg c f kv v step cached = some t') : t'.SlotsOk := by
  obtain ⟨-, x, z, d, hx, he, rfl⟩ := startWrite_cases ht
  obtain ⟨tsp, -, rfl⟩ := prepareToWrite_cases hx
  exact setLocal (setFuture h.setClient (h.reg c f))
    ((OopsDataFuture.entered he).1.ok ⟨fun _ => le_rfl, List.forall_mem_nil _⟩)

theorem startRead (h : t.SlotsOk) {kv : ℕ} (ht : t.startRead cfg c f kv = some t') :
    t'.SlotsOk := by
  obtain ⟨-, z, d, he, rfl⟩ := startRead_cases ht
  exact setLocal (setFuture h (h.reg c f))
    ((OopsDataFuture.entered he).1.ok ⟨fun _ => le_rfl, List.forall_mem_nil _⟩)

theorem runCall (h : t.SlotsOk) {k : Call}
    (hg : (t.future c k.future).data.maxreg.overtaken cfg c (t.localOf c k.future) = false)
    (ht : t.runCall cfg c k = some t') : t'.SlotsOk := by
  obtain ⟨o, z, d, hd, hcases⟩ := runCall_cases ht
  have hz := OopsDataFuture.tryStepForward_ok h.localOf hg hd
  rcases hcases with ⟨k', -, rfl⟩ | ⟨b, -, -, rfl⟩ | ⟨b, n, d₁, step, z', d', -, -, ha, he, rfl⟩
  · exact h.setLocal hz
  · obtain ⟨cache, st, hr, -⟩ := @returned_cases cfg (t.setLocal c k.future z d none) c k.future
      (k.ticked && (k.progress || b))
    rw [hr]
    have h₁ : (t.setLocal c k.future z d none).SlotsOk := h.setLocal hz
    exact setFuture h₁.setClient (h₁.reg c k.future)
  · refine h.setLocal ((OopsDataFuture.entered he).1.ok ?_)
    cases ha <;> exact hz

/-- Every step whose future is not overtaken keeps all `Ok`. -/
theorem step (h : t.SlotsOk) {a : Action} (hg : Slots.Guard cfg t a) (ht : step cfg t a = some t') :
    t'.SlotsOk := by
  cases a with
  | initClock c =>
    simp only [SwarmKv.step] at ht
    split at ht <;> cases ht
    exact h.setClient
  | insert c f d => exact h.setClient.startWrite ht
  | update c f kv d => exact h.startWrite ht
  | read c f kv => exact h.startRead ht
  | run c =>
    obtain ⟨k, hk, ht⟩ := Option.bind_eq_some_iff.1 ht
    exact h.runCall (hg k hk) ht
  | exec c s =>
    obtain ⟨f, req, rest, v, entry, hq, -, rfl⟩ := execute_cases ht
    have hf := h.setFuture (c := c) (f := f) (x := (t.future c f).landed s entry req.signaled)
      (h.reg c f)
    exact ⟨hf.reg, fun c' s' q hq' => h.queue c' s' q (mem_of_mem_tail hq hq')⟩
  | poll c s f =>
    obtain ⟨-, rfl⟩ := poll_cases ht
    refine h.setFuture fun s' => ?_
    by_cases hs : s' = s
    · subst hs
      rw [OopsFuture.polled, RelaxedMaxReg.setReg_self]
      exact h.reg c f s'
    · rw [OopsFuture.polled, RelaxedMaxReg.setReg_of_ne hs]
      exact h.reg c f s'
  | tick c f =>
    simp only [SwarmKv.step] at ht
    split at ht <;> cases ht
    exact h.setClient.setFuture (h.reg c f)
  | forget c kv =>
    cases ht
    exact h.setClient

end State.SlotsOk

/-- A request that is `Ok` decreases no slot. -/
theorem Request.Ok.tsps_le {q : Request} (h : q.Ok) (v : Server) (entry : Ref → LogEntry)
    (c s kv i : ℕ) : v.tsps kv i ≤ (v.exec cfg c entry s q.op).1.tsps kv i := by
  cases ho : q.op with
  | cas k e n =>
    have hen := h k e n ho
    simp only [Server.exec]
    split
    · next hold =>
      by_cases hk : kv = k
      · subst hk
        rw [put_self]
        by_cases hi : i = cfg.tspSlot c
        · subst hi
          rw [put_self, hold]
          exact hen
        · rw [put_of_ne hi]
      · rw [put_of_ne hk]
    · exact le_rfl
  | _ => exact le_rfl

/-- No step decreases a slot, if the requests are `Ok`. -/
theorem State.SlotsOk.tsps_le {t t' : State} {a : Action} (h : t.SlotsOk)
    (ht : SwarmKv.step cfg t a = some t') (s kv i : ℕ) :
    (t.server s).tsps kv i ≤ (t'.server s).tsps kv i := by
  by_cases ha : ∃ c s, a = .exec c s
  · obtain ⟨c, s', rfl⟩ := ha
    obtain ⟨f, req, rest, v, entry, hq, he, rfl⟩ := execute_cases ht
    by_cases hs : s = s'
    · subst hs
      have hle := @Request.Ok.tsps_le cfg req
        (h.queue c s (f, req) (by rw [hq]; exact List.mem_cons_self)) (t.server s)
        (t.future c f).entry c s kv i
      rw [he] at hle
      simpa using hle
    · simp [put_of_ne hs]
  · rw [State.server_of_step ht fun c s h => ha ⟨c, s, h⟩]

theorem slotsOk_of_run {tr : List (Action × State)} {t : State}
    (h : (machine cfg).Run (Slots.Guard cfg) tr t) : t.SlotsOk := by
  have h0 : (machine cfg).init.SlotsOk := ⟨fun _ _ _ => le_rfl, fun _ _ => List.forall_mem_nil _⟩
  refine Trace.invariant (P := fun _ => State.SlotsOk) h0 (fun _ t _ t' _ ht hs => ?_) h
  obtain ⟨a, -, hg, hs⟩ := of_machine_step hs
  exact ht.step hg hs

/-- In a run in which no register is overtaken, no slot has ever had a greater tsp. -/
theorem slots_monotone {tr : List (Action × State)} {t : State}
    (h : (machine cfg).Run (Slots.Guard cfg) tr t) :
    ∀ p ∈ tr, ∀ s kv i, (p.2.server s).tsps kv i ≤ (t.server s).tsps kv i := by
  induction h with
  | nil => exact List.forall_mem_nil _
  | cons hr hst ih =>
    next tr t t' e =>
    obtain ⟨a, rfl, -, ht⟩ := of_machine_step hst
    have hle := (slotsOk_of_run hr).tsps_le ht
    rintro p hp s kv i
    rcases List.mem_cons.1 hp with rfl | hp
    · exact hle s kv i
    · exact (ih p hp s kv i).trans (hle s kv i)

theorem lagging_steady_mono (c : ℕ) :
    Monotone fun r => if c = 0 ∨ r = 0 then 2000 else 4000 := by
  intro a b h
  dsimp only
  split <;> split <;> omega

/-- Five servers, the first of which is dead; the next four are in use. The clock of the
    client `1` goes ahead. -/
def lagging : Layout where
  inPlace := false
  numClients := 2
  numServers := 5
  majority := 3
  numTsp := 1
  guessTs := true
  serverLogsPerClient := 2
  keysPerServer := 1
  asyncParallelism := 1
  deadServers := 1
  hashOf i d := i + d.value
  mainServerIdx _ := 1
  steady c r := if c = 0 ∨ r = 0 then 2000 else 4000
  majority_pos := Nat.le_succ_of_le Nat.two_pos
  numTsp_pos := Nat.one_pos
  mainServerIdx_lt _ := Nat.one_lt_succ_succ 3
  steady_mono := lagging_steady_mono

namespace lagging

/-- The client `0` inserts the key. -/
def inserted : List Action :=
  [.initClock 0, .initClock 1, .insert 0 0 ⟨0, 7⟩, .run 0] ++
    round 0 0 [1, 1, 1, 2, 2, 3, 3, 4, 4] [1, 2, 3, 4] 3 ++ round 0 0 [1, 2, 3, 4] [1, 2, 3, 4] 2

/-- Then it updates the key, without the server `4` at first. -/
def updating : List Action :=
  [.update 0 0 0 ⟨0, 8⟩, .run 0] ++ round 0 0 [1, 1, 2, 2, 3, 3] [1, 2, 3] 2

/-- Meanwhile, the client `1` updates the key. -/
def overtaking : List Action :=
  [.update 1 0 0 ⟨0, 9⟩, .run 1] ++ round 1 0 [1, 1, 1, 2, 2, 3, 3, 4, 4] [1, 2, 3, 4] 2 ++
    round 1 0 [1, 2, 3, 4] [1, 2, 3, 4] 2

end lagging

open lagging in
theorem slots_monotone_updating : ∃ tr t, (machine lagging).Run (Slots.Guard lagging) tr t ∧
    (∃ p ∈ tr, (p.2.server 2).tsps 0 0 < (t.server 2).tsps 0 0) ∧
    ∀ p ∈ tr, ∀ s kv i, (p.2.server s).tsps kv i ≤ (t.server s).tsps kv i := by
  obtain ⟨tr, t, h, ht⟩ := Machine.exists_run_of_play
    (G := Slots.Guard lagging) (m := machine lagging)
    (fun r => decide (∃ p ∈ r.1.head?, (p.2.server 2).tsps 0 0 < (r.2.server 2).tsps 0 0))
    (inserted ++ updating ++ [.exec 0 2]) (b := true) (by decide +kernel)
  obtain ⟨p, hp, hlt⟩ := of_decide_eq_true ht
  exact ⟨tr, t, h, ⟨p, List.mem_of_mem_head? hp, hlt⟩, slots_monotone h⟩

open lagging in
/-- The first update goes on to write its tsp again on the server `4`, where it has seen the
    greater one of the second meanwhile, and so swaps it back. -/
theorem not_slots_monotone : ∃ tr t, (machine lagging).Run (fun _ _ => True) tr t ∧
    ∃ p ∈ tr, (t.server 4).tsps 0 0 < (p.2.server 4).tsps 0 0 := by
  obtain ⟨tr, t, h, ht⟩ := Machine.exists_run_of_play
    (G := fun _ _ => True) (m := machine lagging)
    (fun r => decide (∃ p ∈ r.1.head?, (r.2.server 4).tsps 0 0 < (p.2.server 4).tsps 0 0))
    (inserted ++ updating ++ overtaking ++ round 0 0 [4, 4] [4] 1 ++ [.exec 0 4])
    (b := true) (by decide +kernel)
  obtain ⟨p, hp, hlt⟩ := of_decide_eq_true ht
  exact ⟨tr, t, h, p, List.mem_of_mem_head? hp, hlt⟩

end DiscoSkip.SwarmKv
