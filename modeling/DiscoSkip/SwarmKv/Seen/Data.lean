import DiscoSkip.SwarmKv.Confirm
import DiscoSkip.SwarmKv.Seen

/-!
# What a data future knows of the slots

A step is set up with all registers done, but for those that write or notify once a step
that writes is linearized (`DataStep.joins`). A new tsp is only taken for the entry to
write while it is not being swapped in.

As the case `RTryNotifyWriter` falls through, its read may go on while the registers still
write; but what it then has seen is the tsp it had before, so that it notifies again, and
does not read (`Falling`).
-/

namespace DiscoSkip.SwarmKv

open Lib

/-- The steps of the register at a step of the future. -/
def DataStep.allows (step : DataStep) (st : RelaxedStep) : Prop :=
  match step with
  | .wTryOptimisticTs => st = .tryWrite
  | .wPrepareToRepare => st = .readLog
  | .wReadToWrite | .rTryNotifyWriter => st = .read
  | .rReading => st = .tryRead ∨ st = .readLog
  | .wTryRepare | .replicateAsVerified | .writeTsAsVerified | .writeAsVerified => st = .write
  | .linearized => st = .write ∨ st = .linearized ∨ st = .done
  | .done => st = .done

/-- The steps that may be entered while registers still write. -/
def DataStep.joins : DataStep → Bool
  | .rTryNotifyWriter | .replicateAsVerified | .writeTsAsVerified | .writeAsVerified
  | .linearized | .done => true
  | _ => false

/-- The register writes from a buffer. -/
def MaxReg.Replicates (x : MaxReg) : Prop :=
  x.writeEntry ≠ .write ∧ (x.step.swaps → x.ongoingWriteEntry ≠ .write)

variable {cfg : Layout} {c m kv s comp' : ℕ} {P Q : ℕ → List Request} {comp : ℕ → ℕ}
  {z z' : Local} {entry entry' : Ref → LogEntry} {x : MaxReg} {r r' : RelaxedMaxReg}
  {d d' d₁ : OopsDataFuture} {step : DataStep} {o : Outcome}

theorem MaxReg.Replicates.tryStepForward (h : x.Replicates) :
    (tryStepForward cfg c s z x).2.Replicates := by
  cases hw : x.waits with
  | true => rwa [tryStepForward_of_waits hw]
  | false =>
    obtain ⟨step, mark, -, heq⟩ := @tryStepForward_eq cfg c s z x hw
    have hwrite : (refresh cfg c s z x).2.writeEntry = x.writeEntry := by rw [refresh_frame.reg]
    rw [heq]
    unfold transitionTo
    dsimp only
    split
    · next hst =>
      refine ⟨hwrite ▸ h.1, fun hs => ?_⟩
      rw [hst] at hs
      exact absurd hs Bool.false_ne_true
    · exact ⟨hwrite ▸ h.1, fun _ => hwrite ▸ h.1⟩

/-- The entry to write may change as long as it is not being swapped in. -/
theorem MaxReg.Sound.of_write {Q : List Request} (h : x.Sound cfg m kv entry s Q comp')
    (he : ∀ p, p ≠ .write → entry' p = entry p)
    (hx : x.step.swaps → x.ongoingWriteEntry ≠ .write) : x.Sound cfg m kv entry' s Q comp' := by
  have hread : entry' (.read s) = entry (.read s) := he _ Ref.noConfusion
  refine { h with reads := fun hr => ?_, swapping := fun hs => ?_ }
  · rw [hread]
    exact h.reads hr
  · unfold Swapping
    rw [hread, he _ (hx hs)]
    exact h.swapping hs

namespace RelaxedMaxReg

/-- A step forward stays at its step, or has its log entries read; and with progress, it may
    be done, or a step that writes be linearized. -/
theorem Stepped.step_cases {b : Bool} (hs : Stepped cfg c z r b z' r') :
    r'.step = r.step ∨ r.step = .tryRead ∧ r'.step = .readLog ∨
      b = true ∧ (r'.step = .done ∨ r.step = .write ∧ r'.step = .linearized) := by
  induction hs with
  | idle => exact .inl rfl
  | waits _ hv => exact .inl (visitAll_step hv)
  | @progresses _ _ _ r₁ _ _ hv => exact .inl (visitAll_step hv : r₁.step = _)
  | linearizes hw => exact .inr (.inr ⟨rfl, .inr ⟨hw, rfl⟩⟩)
  | reads hst _ _ _ hl _ ih =>
    have hl := doReadLog_step hl
    obtain ih | ⟨ih, -⟩ | ⟨rfl, ih | ⟨ih, -⟩⟩ := ih
    · exact .inr (.inl ⟨hst, ih.trans hl⟩)
    · exact nomatch hl.symm.trans ih
    · exact .inr (.inr ⟨rfl, .inl ih⟩)
    · exact nomatch hl.symm.trans ih
  | writes | finishes | inPlace | readsLog => exact .inr (.inr ⟨rfl, .inl rfl⟩)

theorem Sound.of_write (h : r.Sound cfg m kv Q comp entry)
    (he : ∀ p, p ≠ .write → entry' p = entry p)
    (hx : ∀ s, (r.reg s).step.swaps → (r.reg s).ongoingWriteEntry ≠ .write) :
    r.Sound cfg m kv Q comp entry' :=
  { h with reg := fun s => (h.reg s).of_write he (hx s) }

end RelaxedMaxReg

namespace OopsDataFuture

/-- What is known of the future for the key `kv`. -/
structure Sound (cfg : Layout) (m kv : ℕ) (Q : ℕ → List Request) (comp : ℕ → ℕ)
    (entry : Ref → LogEntry) (d : OopsDataFuture) : Prop where
  maxreg : d.maxreg.Sound cfg m kv Q comp entry
  allows : d.step.allows d.maxreg.step
  used : d.step ≠ .done → d.maxreg.usedServers cfg = cfg.servers kv
  repare : d.step = .wTryRepare → ∀ s, (d.maxreg.reg s).Replicates

/-- A call that returns steps the register forward; it has not linearized the register, but
    for a future that is linearized or done. -/
theorem tryStepForward_returns {b : Bool}
    (h : tryStepForward cfg c z d = some (.returns b, z', d')) : ∃ b₁,
    RelaxedMaxReg.Stepped cfg c z d.maxreg b₁ z' d'.maxreg ∧ d' = { d with maxreg := d'.maxreg } ∧
      (d.step = .linearized ∨ d.step = .done ∨ b₁ = false ∨ d'.maxreg.isLinearized = false) := by
  obtain ⟨⟨b₁, z₁, r₁⟩, hr, h⟩ := Option.bind_eq_some_iff.1 h
  have hst := RelaxedMaxReg.stepped hr
  dsimp only at h
  cases b₁
  · cases h
    exact ⟨false, hst, rfl, .inr (.inr (.inl rfl))⟩
  · simp only [Bool.not_true, Bool.false_eq_true, if_false] at h
    split at h
    · next hl =>
      cases h
      refine ⟨true, hst, rfl, ?_⟩
      simp only [Bool.or_eq_true, Bool.and_eq_true, decide_eq_true_eq, Bool.not_eq_true'] at hl
      obtain hl | ⟨hl, -⟩ := hl
      · exact .inr (.inr (.inr hl))
      · exact .inl hl
    · obtain ⟨z₁, d₁, step, hf, -⟩ | ⟨hd, -, rfl, rfl⟩ := follow_cases h
      · cases hf
      · exact ⟨true, hst, rfl, hd.elim (fun h => .inl h.1) fun h => .inr (.inl h)⟩

theorem newTsp_entry {b : Bool} (h : newTsp cfg c z d b = some z') :
    z'.posted = z.posted ∧ ∀ p, p ≠ .write → z'.entry p = z.entry p := by
  obtain ⟨ts, k, tsp, -, -, rfl⟩ := newTsp_eq h
  exact ⟨rfl, fun p hp => Local.setTsp_entry_of_ne _ _ _ hp⟩

/-- A step that starts one of the register. -/
theorem Sound.start {st : RelaxedStep} {call : MaxReg → MaxReg} {previousTs : ℕ}
    (h : d.maxreg.Sound cfg m kv Q comp entry) (hs : step.allows st)
    (hc : ∀ x, MaxReg.Called x (call x))
    (hn : ∀ x, ∀ st' ∈ (call x).nextStep, st.avoids st' = false)
    (hu : step ≠ .done → d.maxreg.usedServers cfg = cfg.servers kv) (hne : st ≠ .done)
    (hr : (∀ s, (d.maxreg.reg s).step = .done) ∨ d.maxreg.step.fetches = false ∧ st.fetches = false)
    (hrep : step = .wTryRepare → ∀ s, ((d.maxreg.start st call).reg s).Replicates) :
    Sound cfg m kv Q comp entry
      { d with step, previousTs, maxreg := d.maxreg.start st call } where
  maxreg := RelaxedMaxReg.Sound.start h hne hc hn hr
  allows := hs
  used := fun hs => by
    rw [← hu hs]
    refine RelaxedMaxReg.usedServers_congr fun s => ?_
    have := hc (d.maxreg.reg s)
    unfold MaxReg.Called at this
    simp only [RelaxedMaxReg.start]
    rw [this]
  repare := hrep

/-- A step is set up with all registers done, or next to those that write. -/
theorem Entered.sound (hm : validateTsp m = m)
    (h : d.maxreg.Sound cfg m kv (z.pending P) comp z.entry)
    (hu : d'.step ≠ .done → d.maxreg.usedServers cfg = cfg.servers kv)
    (hr : (∀ s, (d.maxreg.reg s).step = .done) ∨ d.maxreg.step.fetches = false ∧ d'.step.joins)
    (hend : d'.step = .linearized ∨ d'.step = .done → d'.step.allows d.maxreg.step)
    (he : Entered cfg c z d z' d') : d'.Sound cfg m kv (z'.pending P) comp z'.entry := by
  have hset : ∀ {p tsp}, tsp ≤ max (validateTsp (z.tspOf p)) m →
      d.maxreg.Sound cfg m kv (z.pending P) comp (z.setTsp p tsp).entry :=
    fun hle => h.relabelled hm (Relabelled.setTsp hle)
  have hdone : d'.step.joins = false → ∀ s, (d.maxreg.reg s).step = .done := fun hj =>
    hr.resolve_right fun h => absurd (hj.symm.trans h.2) Bool.false_ne_true
  cases he with
  | wTryOptimisticTs hz =>
    obtain ⟨hp, he⟩ := newTsp_entry hz
    have hd := hdone rfl
    have h' := h.of_write he fun s hs => by
      rw [hd s] at hs
      exact absurd hs Bool.false_ne_true
    rw [Local.pending_congr hp]
    exact Sound.start h' rfl (fun x => by unfold MaxReg.Called; rfl)
      (fun x => RelaxedMaxReg.doNext_avoids .tryWriteAll rfl) hu RelaxedStep.noConfusion (.inl hd)
      DataStep.noConfusion
  | wPrepareToRepare =>
    exact Sound.start h rfl (fun x => by unfold MaxReg.Called; rfl)
      (fun x => RelaxedMaxReg.doNext_avoids .readLog rfl) hu RelaxedStep.noConfusion
      (.inl (hdone rfl)) DataStep.noConfusion
  | wTryRepare =>
    refine Sound.start h rfl (fun x => by unfold MaxReg.Called; rfl)
      (fun x => RelaxedMaxReg.doNext_avoids .replicateAllAndReadNotifs rfl) hu
      RelaxedStep.noConfusion (.inl (hdone rfl)) fun _ s => ⟨Ref.noConfusion, fun hs => ?_⟩
    rw [show ((d.maxreg.start .write _).reg s).step = (d.maxreg.reg s).step from rfl,
      hdone rfl s] at hs
    exact absurd hs Bool.false_ne_true
  | wReadToWrite =>
    exact Sound.start h rfl (fun x => by unfold MaxReg.Called; rfl)
      (fun x => RelaxedMaxReg.doNext_avoids .readTs rfl) hu RelaxedStep.noConfusion
      (.inl (hdone rfl)) DataStep.noConfusion
  | rReading =>
    exact Sound.start h (.inl rfl) (fun x => by unfold MaxReg.Called; rfl)
      (fun x => RelaxedMaxReg.doNext_avoids .tryReadAll rfl) hu RelaxedStep.noConfusion
      (.inl (hdone rfl)) DataStep.noConfusion
  | rTryNotifyWriter =>
    exact Sound.start h rfl (fun x => by unfold MaxReg.Called; rfl)
      (fun x => RelaxedMaxReg.doNext_avoids .notifyAndReadTs rfl) hu RelaxedStep.noConfusion
      (hr.imp_right fun h => ⟨h.1, rfl⟩) DataStep.noConfusion
  | replicateAsVerified hz =>
    subst hz
    exact Sound.start (hset (le_max_left _ _)) rfl (fun x => by unfold MaxReg.Called; rfl)
      (fun x => RelaxedMaxReg.doNext_avoids .writeAll rfl) hu RelaxedStep.noConfusion
      (hr.imp_right fun h => ⟨h.1, rfl⟩) DataStep.noConfusion
  | writeTsAsVerified hz =>
    subst hz
    exact Sound.start (hset (le_max_left _ _)) rfl (fun x => by unfold MaxReg.Called; rfl)
      (fun x => RelaxedMaxReg.doNext_avoids .writeTsAndIn rfl) hu RelaxedStep.noConfusion
      (hr.imp_right fun h => ⟨h.1, rfl⟩) DataStep.noConfusion
  | writeAsVerified hz =>
    subst hz
    exact Sound.start (hset (le_max_left _ _)) rfl (fun x => by unfold MaxReg.Called; rfl)
      (fun x => RelaxedMaxReg.doNext_avoids .writeAll rfl) hu RelaxedStep.noConfusion
      (hr.imp_right fun h => ⟨h.1, rfl⟩) DataStep.noConfusion
  | linearized =>
    exact {
      maxreg := h
      allows := hend (.inl rfl)
      used := hu
      repare := DataStep.noConfusion }
  | done =>
    exact {
      maxreg := h
      allows := hend (.inr rfl)
      used := hu
      repare := DataStep.noConfusion }

/-- A first write that is redirected reads, with all registers done as well. -/
theorem enter_sound (hm : validateTsp m = m)
    (h : d.maxreg.Sound cfg m kv (z.pending P) comp z.entry)
    (hu : step ≠ .done → d.maxreg.usedServers cfg = cfg.servers kv)
    (hr : (∀ s, (d.maxreg.reg s).step = .done) ∨ d.maxreg.step.fetches = false ∧ step.joins)
    (hend : step = .linearized ∨ step = .done → step.allows d.maxreg.step)
    (he : enter cfg c z d step = some (z', d')) :
    d'.Sound cfg m kv (z'.pending P) comp z'.entry := by
  obtain ⟨hE, hs | ⟨rfl, hs⟩⟩ := entered he
  · exact Entered.sound hm h (hs ▸ hu) (hs ▸ hr) (hs ▸ hend) hE
  · refine Entered.sound hm h (fun _ => hu DataStep.noConfusion) (.inl ?_) ?_ hE
    · exact hr.resolve_right fun h => absurd h.2 Bool.false_ne_true
    · rw [hs]
      exact fun h => h.elim DataStep.noConfusion DataStep.noConfusion

/-- The future with a step that may be entered: with all registers done, or next to those
    that write. -/
structure Enters (cfg : Layout) (m kv : ℕ) (Q : ℕ → List Request) (comp : ℕ → ℕ)
    (entry : Ref → LogEntry) (d : OopsDataFuture) (step : DataStep) : Prop where
  maxreg : d.maxreg.Sound cfg m kv Q comp entry
  used : d.maxreg.usedServers cfg = cfg.servers kv
  rest : (∀ s, (d.maxreg.reg s).step = .done) ∨ d.maxreg.step.fetches = false ∧ step.joins
  ends : step = .linearized ∨ step = .done → step.allows d.maxreg.step

theorem Enters.enter (hm : validateTsp m = m)
    (h : d.Enters cfg m kv (z.pending P) comp z.entry step)
    (he : enter cfg c z d step = some (z', d')) :
    d'.Sound cfg m kv (z'.pending P) comp z'.entry :=
  enter_sound hm h.maxreg (fun _ => h.used) h.rest h.ends he

/-- Linearized or done, the step to enter next. -/
theorem Enters.ofEnd (h : d.maxreg.Sound cfg m kv Q comp entry)
    (hu : d.maxreg.usedServers cfg = cfg.servers kv) (hl : d.maxreg.isLinearized) :
    d.Enters cfg m kv Q comp entry (if d.maxreg.isDone then .done else .linearized) := by
  simp only [RelaxedMaxReg.isLinearized, Bool.or_eq_true, decide_eq_true_eq] at hl
  refine ⟨h, hu, .inr ⟨?_, ?_⟩, fun _ => ?_⟩
  · obtain hl | hl := hl <;> rw [hl] <;> rfl
  · split <;> rfl
  · split
    · next hd => exact (of_decide_eq_true hd : d.maxreg.step = .done)
    · exact hl.elim (fun h => .inr (.inr h)) fun h => .inr (.inl h)

/-- What a read that has all registers done goes on to may be entered. -/
theorem AfterRead.enters (h : d.maxreg.Sound cfg m kv Q comp entry)
    (hu : d.maxreg.usedServers cfg = cfg.servers kv) (hd : d.maxreg.step = .done)
    (ha : AfterRead cfg d d₁ step) : d₁.Enters cfg m kv Q comp entry step := by
  cases ha with
  | seen => exact ⟨h, hu, .inl (h.ended hd), fun _ => .inr (.inr hd)⟩
  | replicate | notify | again =>
    exact ⟨h, hu, .inl (h.ended hd), fun h => h.elim DataStep.noConfusion DataStep.noConfusion⟩

/-- What is gone on to once the register is linearized may be entered. -/
theorem Follows.enters {z₁ : Local} (h : d.maxreg.Sound cfg m kv (z.pending P) comp z.entry)
    (hu : d.maxreg.usedServers cfg = cfg.servers kv) (hl : d.maxreg.isLinearized)
    (hd : d.maxreg.step = .done ∨ d.step.allows .write)
    (hrep : d.step = .wTryRepare → ∀ s, (d.maxreg.reg s).Replicates)
    (hf : Follows cfg c z d o z₁ d₁ step) :
    d₁.Enters cfg m kv (z₁.pending P) comp z₁.entry step := by
  have hstop : ∀ {st : DataStep}, d.step = st → ¬ st.allows .write → d.maxreg.step = .done := by
    rintro st rfl hne
    exact hd.resolve_right hne
  have hnew : ∀ {b}, newTsp cfg c z d b = some z₁ →
      (∀ s, (d.maxreg.reg s).step.swaps → (d.maxreg.reg s).ongoingWriteEntry ≠ .write) →
      d.maxreg.Sound cfg m kv (z₁.pending P) comp z₁.entry := fun hz hx => by
    obtain ⟨hp, he⟩ := newTsp_entry hz
    rw [Local.pending_congr hp]
    exact h.of_write he hx
  have hswap : d.maxreg.step = .done → ∀ s, (d.maxreg.reg s).step.swaps →
      (d.maxreg.reg s).ongoingWriteEntry ≠ .write := fun hd s hs => by
    rw [h.ended hd s] at hs
    exact absurd hs Bool.false_ne_true
  cases hf with
  | verify hs | prepare hs | repareUnread hs =>
    exact ⟨h, hu, .inl (h.ended (hstop hs (by simp [DataStep.allows]))),
      fun h => h.elim DataStep.noConfusion DataStep.noConfusion⟩
  | writeAnew hs _ hz =>
    have hd := hstop hs (by simp [DataStep.allows])
    exact ⟨hnew hz (hswap hd), hu, .inl (h.ended hd),
      fun h => h.elim DataStep.noConfusion DataStep.noConfusion⟩
  | repare hs =>
    exact ⟨h, hu, .inl (h.ended (hstop hs (by simp [DataStep.allows]))),
      fun h => h.elim DataStep.noConfusion DataStep.noConfusion⟩
  | notified => exact .ofEnd h hu hl
  | unnotified hs hz =>
    refine ⟨hnew hz fun s => (hrep hs s).2, hu, .inr ⟨?_, rfl⟩,
      fun h => h.elim DataStep.noConfusion DataStep.noConfusion⟩
    simp only [RelaxedMaxReg.isLinearized, Bool.or_eq_true, decide_eq_true_eq] at hl
    obtain hl | hl := hl <;> rw [hl] <;> rfl
  | writeRead hs hz =>
    have hd := hstop hs (by simp [DataStep.allows])
    exact ⟨hnew hz (hswap hd), hu, .inl (h.ended hd),
      fun h => h.elim DataStep.noConfusion DataStep.noConfusion⟩
  | confirm hs =>
    exact ⟨h, hu, .inl (h.ended (hstop hs (by simp [DataStep.allows]))),
      fun h => h.elim DataStep.noConfusion DataStep.noConfusion⟩
  | afterNotify hs _ ha =>
    exact AfterRead.enters (d := { d with mTs := d.maxreg.maxSeenTsp }) h hu
      (hstop hs (by simp [DataStep.allows])) ha
  | afterRead hs ha => exact ha.enters h hu (hstop hs (by simp [DataStep.allows]))
  | ends => exact .ofEnd h hu hl
  | endsLater _ hd =>
    have hd : d.maxreg.step = .done := by simpa [RelaxedMaxReg.isDone] using hd
    exact ⟨h, hu, .inl (h.ended hd), fun _ => hd⟩

theorem Follows.ne_done {z₁ : Local} (hf : Follows cfg c z d o z₁ d₁ step) : d.step ≠ .done := by
  intro hd
  cases hf with
  | ends hs => simp [hd] at hs
  | verify hs | prepare hs | repareUnread hs | writeAnew hs | repare hs | notified hs
  | unnotified hs | writeRead hs | confirm hs | afterNotify hs | afterRead hs | endsLater hs =>
    exact DataStep.noConfusion (hs.symm.trans hd)

/-- The registers in use, unless that of all servers is done. -/
theorem Sound.used_of_ne (h : d.Sound cfg m kv Q comp entry) (hne : d.maxreg.step ≠ .done) :
    d.maxreg.usedServers cfg = cfg.servers kv := by
  refine h.used fun hd => hne ?_
  have := h.allows
  rwa [hd] at this

/-- Where the register is once stepped forward is allowed, unless it is linearized then. -/
theorem allows_of_stepped {b : Bool} (ha : step.allows r.step)
    (hs : RelaxedMaxReg.Stepped cfg c z r b z' r')
    (h : step = .linearized ∨ step = .done ∨ b = false ∨ r'.isLinearized = false) :
    step.allows r'.step := by
  obtain hr | ⟨hr, hr'⟩ | ⟨rfl, hr⟩ := hs.step_cases
  · rwa [hr]
  · rw [hr] at ha
    rw [hr']
    cases step <;> simp_all [DataStep.allows]
  · have hl : r'.isLinearized := by
      simp only [RelaxedMaxReg.isLinearized, Bool.or_eq_true, decide_eq_true_eq]
      exact hr.imp id And.right
    obtain hd | hd | hb | hl' := h
    · rw [hd]
      exact hr.elim (fun h => .inr (.inr h)) fun h => .inr (.inl h.2)
    · rw [hd] at ha ⊢
      exact hr.elim id fun h => RelaxedStep.noConfusion (ha.symm.trans h.1)
    · exact absurd hb.symm Bool.false_ne_true
    · exact absurd (hl'.symm.trans hl) Bool.false_ne_true

/-- Only a step that writes has a register that is linearized and not done. -/
theorem allows_write_of_stepped {b : Bool} (ha : step.allows r.step)
    (hs : RelaxedMaxReg.Stepped cfg c z r b z' r') (hl : r'.isLinearized) :
    r'.step = .done ∨ step.allows .write := by
  simp only [RelaxedMaxReg.isLinearized, Bool.or_eq_true, decide_eq_true_eq] at hl
  refine hl.imp_right fun hl => ?_
  obtain hr | ⟨-, hr⟩ | ⟨-, hr | ⟨hr, -⟩⟩ := hs.step_cases
  · rw [← hr, hl] at ha
    cases step <;> simp_all [DataStep.allows]
  · exact RelaxedStep.noConfusion (hl.symm.trans hr)
  · exact RelaxedStep.noConfusion (hl.symm.trans hr)
  · rwa [← hr]

/-- A call that steps forward keeps what is known. -/
theorem Sound.tryStepForward (hm : validateTsp m = m)
    (h : d.Sound cfg m kv (z.pending P) comp z.entry)
    (ht : tryStepForward cfg c z d = some (o, z', d')) :
    d'.Sound cfg m kv (z'.pending P) comp z'.entry := by
  have hrep : ∀ {b z₁ r₁}, RelaxedMaxReg.Stepped cfg c z d.maxreg b z₁ r₁ →
      d.step = .wTryRepare → ∀ s, (r₁.reg s).Replicates := fun hst hd =>
    hst.reg_induction (p := fun _ x => x.Replicates) (fun _ _ _ h => h.tryStepForward)
      (fun _ _ _ _ _ h => h) (h.repare hd)
  obtain ⟨b, z₁, r₁, hst, ⟨rfl, rfl, rfl⟩ | ⟨-, hl, -, z₂, d₂, step, hf, he⟩⟩ :=
    tryStepForward_cases ht
  · obtain ⟨b₁, hst, -, hwhy⟩ := tryStepForward_returns ht
    exact {
      maxreg := h.maxreg.stepped hm hst h.used_of_ne
      allows := allows_of_stepped h.allows hst hwhy
      used := fun hne => hst.usedServers.trans (h.used hne)
      repare := hrep hst }
  · have hd := allows_write_of_stepped h.allows hst hl
    have hne : d.step ≠ .done := hf.ne_done
    exact Enters.enter hm (Follows.enters (d := { d with maxreg := r₁ })
      (h.maxreg.stepped hm hst h.used_of_ne) (hst.usedServers.trans (h.used hne)) hl hd
      (hrep hst) hf) he

/-! ### Calls that fall through -/

/-- A read that is about to fall through has nothing to take in, and has seen what it had seen
    before. -/
structure Falling (cfg : Layout) (kv : ℕ) (d : OopsDataFuture) : Prop where
  confirms : d.step.confirms
  calm : d.maxreg.Calm cfg kv
  seen : d.maxreg.maxSeenTsp = d.previousTs
  used : d.maxreg.usedServers cfg = cfg.servers kv

theorem falling_of_callsFirst (hm : validateTsp m = m)
    (h : d.Sound cfg m kv (z.pending P) comp z.entry)
    (ht : OopsDataFuture.tryStepForward cfg c z d = some (.callsFirst, z', d')) :
    d'.Falling cfg kv := by
  obtain ⟨b, z₁, r₁, hst, ⟨-, -, ho⟩ | ⟨-, hl, -, z₂, d₂, step, hf, he⟩⟩ :=
    tryStepForward_cases ht
  · exact nomatch ho
  cases hf with
  | confirm hd hp =>
    have hne : d.maxreg.step ≠ .done := by
      have := h.allows
      rw [show d.step = _ from hd] at this
      simp [show d.maxreg.step = _ from this]
    have hu := h.used_of_ne hne
    have h₁ := h.maxreg.stepped hm hst fun _ => hu
    have hdone : r₁.step = .done := by
      refine (allows_write_of_stepped h.allows hst hl).resolve_right ?_
      rw [show d.step = _ from hd]
      exact RelaxedStep.noConfusion
    have hcalm : r₁.Calm cfg kv := fun s hs => by
      rw [← hu] at hs
      exact ⟨.inl (h₁.ended hdone s), hst.seen.2 hne s hs⟩
    obtain ⟨he, hs | ⟨hs, -⟩⟩ := entered he
    · cases he <;> first | exact DataStep.noConfusion hs | skip
      case replicateAsVerified =>
        exact {
          confirms := .inl rfl
          calm := hcalm
          seen := hp
          used := hst.usedServers.trans hu }
    · exact DataStep.noConfusion hs

/-- Linearized or done, only the step changes. -/
theorem Entered.eq_of_end (he : Entered cfg c z d z' d')
    (h : d'.step = .linearized ∨ d'.step = .done) : z' = z ∧ d' = { d with step := d'.step } := by
  cases he with
  | linearized | done => exact ⟨rfl, rfl⟩
  | _ => exact h.elim DataStep.noConfusion DataStep.noConfusion

/-- It stays so, whether it goes on, to be linearized or done, or returns. -/
theorem Falling.tryStepForward (h : d.Falling cfg kv)
    (ht : tryStepForward cfg c z d = some (o, z', d')) : d'.Falling cfg kv ∧ o ≠ .callsFirst := by
  have hstep := step_of_tryStepForward ht
  obtain ⟨b, z₁, r₁, hst, ⟨rfl, rfl, rfl⟩ | ⟨-, -, -, z₂, d₂, step, hf, he⟩⟩ :=
    tryStepForward_cases ht
  all_goals
    obtain ⟨hcalm, hseen⟩ := h.calm.stepped hst fun _ => h.used
    have hu := hst.usedServers.trans h.used
  · exact ⟨⟨h.confirms, hcalm, hseen.trans h.seen, hu⟩, Outcome.noConfusion⟩
  · have hno : ∀ {st : DataStep}, d.step = st → ¬ st.confirms →
        d'.Falling cfg kv ∧ o ≠ .callsFirst := fun hd hn => absurd (hd ▸ h.confirms) hn
    cases hf with
    | ends | endsLater =>
      obtain ⟨ho, -⟩ | ⟨-, hs⟩ := hstep
      · exact nomatch ho
      have hs := hs h.confirms
      obtain ⟨-, hd'⟩ := (entered he).1.eq_of_end hs
      rw [hd']
      exact ⟨⟨.inr hs, hcalm, hseen.trans h.seen, hu⟩, Outcome.noConfusion⟩
    | verify hs | prepare hs | repareUnread hs | writeAnew hs | repare hs | notified hs
    | unnotified hs | writeRead hs | confirm hs | afterNotify hs | afterRead hs =>
      exact hno hs (by simp [DataStep.confirms])

/-- Falling through, the read does not read again. -/
theorem Falling.afterRead (hm : validateTsp m = m) (h : d.Falling cfg kv)
    (hd : d.Sound cfg m kv (z.pending P) comp z.entry) (ha : AfterRead cfg d d₁ step)
    (he : enter cfg c z d₁ step = some (z', d')) :
    d'.Sound cfg m kv (z'.pending P) comp z'.entry := by
  have hst : d.maxreg.step.fetches = false := by
    have ha := hd.allows
    obtain hc | hc | hc := h.confirms <;> rw [hc] at ha
    · rw [show d.maxreg.step = _ from ha]
      rfl
    · obtain ha | ha | ha := ha <;> rw [ha] <;> rfl
    · rw [show d.maxreg.step = _ from ha]
      rfl
  have hend : DataStep.linearized.allows d.maxreg.step := by
    have ha := hd.allows
    obtain hc | hc | hc := h.confirms <;> rw [hc] at ha
    · exact .inl ha
    · exact ha
    · exact .inr (.inr ha)
  refine Enters.enter hm ?_ he
  cases ha with
  | again _ hne => exact absurd h.seen hne
  | seen => exact ⟨hd.maxreg, h.used, .inr ⟨hst, rfl⟩, fun _ => hend⟩
  | replicate | notify =>
    exact ⟨hd.maxreg, h.used, .inr ⟨hst, rfl⟩,
      fun h => h.elim DataStep.noConfusion DataStep.noConfusion⟩

end OopsDataFuture

end DiscoSkip.SwarmKv
