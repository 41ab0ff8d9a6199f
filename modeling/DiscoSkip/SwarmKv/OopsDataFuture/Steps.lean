import DiscoSkip.SwarmKv.OopsDataFuture
import DiscoSkip.SwarmKv.RelaxedMaxReg.Steps

/-!
# What a data future does

The ways to set up a step (`Entered`), to go on from one to another (`Follows`), and thus
to step forward (`Steps`).
-/

namespace DiscoSkip.SwarmKv

open Lib

namespace OopsDataFuture

/-- How a step is set up: the future, with its memory, before and after. -/
inductive Entered (cfg : Layout) (c : ℕ) (z : Local) (d : OopsDataFuture) :
    Local → OopsDataFuture → Prop
  | wTryOptimisticTs {z' : Local} {log : LogAddr} :
      newTsp cfg c z d false = some z' → cfg.getServerLogAddress c d.logId = some log →
      Entered cfg c z d z' { d with
        step := .wTryOptimisticTs
        maxreg := d.maxreg.start .tryWrite (·.doTryWrite z' log) }
  | wPrepareToRepare {log : LogAddr} : cfg.logAddressOf d.maxreg.maxSeenTsp = some log →
      Entered cfg c z d z { d with
        step := .wPrepareToRepare
        maxreg := d.maxreg.start .readLog (·.doReadLog z log) }
  | wTryRepare {log : LogAddr} : cfg.logAddressOf (z.tspOf d.maxreg.maxEntry) = some log →
      Entered cfg c z d z { d with
        step := .wTryRepare
        maxreg := d.maxreg.start .write (·.doReplicateAndReadNotifs z d.maxreg.maxEntry log) }
  | wReadToWrite :
      Entered cfg c z d z { d with
        step := .wReadToWrite
        maxreg := d.maxreg.start .read (·.doReadTs z) }
  | rReading :
      Entered cfg c z d z { d with
        step := .rReading
        previousTs := d.mTs
        maxreg := d.maxreg.start .tryRead (·.doTryRead z) }
  | rTryNotifyWriter {log : LogAddr} : cfg.logAddressOf (z.tspOf d.maxreg.maxEntry) = some log →
      Entered cfg c z d z { d with
        step := .rTryNotifyWriter
        maxreg := d.maxreg.start .read (·.doNotifyAndReadTs z log) }
  | replicateAsVerified {z' : Local} {log : LogAddr} :
      z' = z.setTsp d.maxreg.maxEntry (validateTsp (z.tspOf d.maxreg.maxEntry)) →
      cfg.logAddressOf (validateTsp (z.tspOf d.maxreg.maxEntry)) = some log →
      Entered cfg c z d z' { d with
        step := .replicateAsVerified
        maxreg := d.maxreg.start .write (·.doReplicate z' d.maxreg.maxEntry log) }
  | writeTsAsVerified {z' : Local} : z' = z.setTsp .write (validateTsp (z.tspOf .write)) →
      Entered cfg c z d z' { d with
        step := .writeTsAsVerified
        maxreg := d.maxreg.start .write (·.doWriteTsAndIn z') }
  | writeAsVerified {z' : Local} {log : LogAddr} :
      z' = z.setTsp .write (validateTsp (z.tspOf .write)) →
      cfg.getServerLogAddress c d.logId = some log →
      Entered cfg c z d z' { d with
        step := .writeAsVerified
        maxreg := d.maxreg.start .write (·.doWrite z' log) }
  | linearized : Entered cfg c z d z { d with step := .linearized }
  | done : Entered cfg c z d z { d with step := .done }

variable {cfg : Layout} {c : ℕ} {z z' : Local} {d d' : OopsDataFuture} {step : DataStep}

theorem entered_of_begin (h : begin cfg c z d step = some (z', d')) :
    Entered cfg c z d z' d' ∧ d'.step = step := by
  cases step <;> simp only [begin] at h
  case wTryOptimisticTs =>
    obtain ⟨z₁, hz, h⟩ := Option.bind_eq_some_iff.1 h
    obtain ⟨r, hr, h⟩ := Option.bind_eq_some_iff.1 h
    obtain ⟨log, hl, rfl⟩ := Option.map_eq_some_iff.1 hr
    cases h
    exact ⟨.wTryOptimisticTs hz hl, rfl⟩
  case wPrepareToRepare =>
    obtain ⟨r, hr, h⟩ := Option.bind_eq_some_iff.1 h
    obtain ⟨log, hl, rfl⟩ := Option.map_eq_some_iff.1 hr
    cases h
    exact ⟨.wPrepareToRepare hl, rfl⟩
  case wTryRepare =>
    obtain ⟨r, hr, h⟩ := Option.bind_eq_some_iff.1 h
    obtain ⟨log, hl, rfl⟩ := Option.map_eq_some_iff.1 hr
    cases h
    exact ⟨.wTryRepare hl, rfl⟩
  case rTryNotifyWriter =>
    obtain ⟨r, hr, h⟩ := Option.bind_eq_some_iff.1 h
    obtain ⟨log, hl, rfl⟩ := Option.map_eq_some_iff.1 hr
    cases h
    exact ⟨.rTryNotifyWriter hl, rfl⟩
  case replicateAsVerified =>
    obtain ⟨r, hr, h⟩ := Option.bind_eq_some_iff.1 h
    obtain ⟨log, hl, rfl⟩ := Option.map_eq_some_iff.1 hr
    cases h
    rw [Local.tspOf_setTsp_self] at hl
    exact ⟨.replicateAsVerified rfl hl, rfl⟩
  case writeAsVerified =>
    obtain ⟨r, hr, h⟩ := Option.bind_eq_some_iff.1 h
    obtain ⟨log, hl, rfl⟩ := Option.map_eq_some_iff.1 hr
    cases h
    exact ⟨.writeAsVerified rfl hl, rfl⟩
  case wReadToWrite =>
    cases h
    exact ⟨.wReadToWrite, rfl⟩
  case rReading =>
    cases h
    exact ⟨.rReading, rfl⟩
  case writeTsAsVerified =>
    cases h
    exact ⟨.writeTsAsVerified rfl, rfl⟩
  case linearized =>
    cases h
    exact ⟨.linearized, rfl⟩
  case done =>
    cases h
    exact ⟨.done, rfl⟩

/-- A step is set up in one of the ways; only a first write may be redirected. -/
theorem entered (h : enter cfg c z d step = some (z', d')) :
    Entered cfg c z d z' d' ∧
      (d'.step = step ∨ step = .wTryOptimisticTs ∧ d'.step = .wReadToWrite) := by
  unfold enter at h
  split at h
  · next hs =>
    obtain ⟨he, hst⟩ := entered_of_begin h
    exact ⟨he, .inr ⟨hs.1, hst⟩⟩
  · obtain ⟨he, hst⟩ := entered_of_begin h
    exact ⟨he, .inl hst⟩

/-- A new tsp is one for the entry to write, by the next reading of the clock. -/
theorem newTsp_eq {b : Bool} (h : newTsp cfg c z d b = some z') : ∃ ts k tsp,
    z.clock.newTs (cfg.steady c) = some (ts, k) ∧ makeTsp ts d.logId (cfg.procId c) b = some tsp ∧
      z' = ({ z with clock := k } : Local).setTsp .write tsp := by
  obtain ⟨⟨ts, k⟩, hk, h⟩ := Option.bind_eq_some_iff.1 h
  obtain ⟨tsp, ht, h⟩ := Option.bind_eq_some_iff.1 h
  cases h
  exact ⟨ts, k, tsp, hk, ht, rfl⟩

theorem newTsp_posted {b : Bool} (h : newTsp cfg c z d b = some z') : z'.posted = z.posted := by
  obtain ⟨_, _, _, -, -, rfl⟩ := newTsp_eq h
  rfl

/-- Setting up a step posts nothing, and calls the registers. -/
theorem Entered.called (h : Entered cfg c z d z' d') : z'.posted = z.posted ∧
    ∀ s, MaxReg.Called (d.maxreg.reg s) (d'.maxreg.reg s) := by
  cases h with
  | wTryOptimisticTs hz => exact ⟨newTsp_posted hz, fun _ => by unfold MaxReg.Called; rfl⟩
  | linearized => exact ⟨rfl, fun _ => by unfold MaxReg.Called; rfl⟩
  | done => exact ⟨rfl, fun _ => by unfold MaxReg.Called; rfl⟩
  | replicateAsVerified hz =>
    subst hz
    exact ⟨rfl, fun _ => by unfold MaxReg.Called; rfl⟩
  | writeTsAsVerified hz =>
    subst hz
    exact ⟨rfl, fun _ => by unfold MaxReg.Called; rfl⟩
  | writeAsVerified hz =>
    subst hz
    exact ⟨rfl, fun _ => by unfold MaxReg.Called; rfl⟩
  | _ => exact ⟨rfl, fun _ => by unfold MaxReg.Called; rfl⟩

/-- What a read goes on to, having seen the greatest tsp: from `z` and `d`, the step, and
    the future to enter it with. -/
inductive AfterRead (cfg : Layout) (d : OopsDataFuture) : OopsDataFuture → DataStep → Prop
  | replicate : isVerified d.maxreg.maxSeenTsp →
      AfterRead cfg d { d with mTs := d.maxreg.maxSeenTsp } .replicateAsVerified
  | notify : isVerified d.maxreg.maxSeenTsp = false → d.maxreg.maxSeenTsp = d.previousTs →
      AfterRead cfg d { d with mTs := d.maxreg.maxSeenTsp } .rTryNotifyWriter
  | seen {k old : ℕ} : isVerified d.maxreg.maxSeenTsp = false → d.seen k = some old →
      AfterRead cfg d { d with mTs := old } .linearized
  | again {k : ℕ} : isVerified d.maxreg.maxSeenTsp = false → d.maxreg.maxSeenTsp ≠ d.previousTs →
      cfg.extractClientIdx d.maxreg.maxSeenTsp = some k →
      AfterRead cfg d { d with
        mTs := d.maxreg.maxSeenTsp
        seen := put d.seen k (some d.maxreg.maxSeenTsp) } .rReading

theorem afterRead_cases {o : Outcome} (h : afterRead cfg c z d = some (o, z', d')) :
    o = .calls ∧ ∃ d₁ step, AfterRead cfg d d₁ step ∧ enter cfg c z d₁ step = some (z', d') := by
  unfold afterRead at h
  dsimp only at h
  split at h
  · next hv =>
    obtain ⟨w, hw, he⟩ := Option.map_eq_some_iff.1 h
    cases he
    exact ⟨rfl, _, _, .replicate hv, hw⟩
  · next hv =>
    have hv : isVerified d.maxreg.maxSeenTsp = false := Bool.eq_false_iff.2 hv
    split at h
    · next hp =>
      obtain ⟨w, hw, he⟩ := Option.map_eq_some_iff.1 h
      cases he
      exact ⟨rfl, _, _, .notify hv hp, hw⟩
    · next hp =>
      obtain ⟨k, hk, h⟩ := Option.bind_eq_some_iff.1 h
      split at h
      · split at h
        · next old ho =>
          obtain ⟨w, hw, he⟩ := Option.map_eq_some_iff.1 h
          cases he
          exact ⟨rfl, _, _, .seen hv ho, hw⟩
        · obtain ⟨w, hw, he⟩ := Option.map_eq_some_iff.1 h
          cases he
          exact ⟨rfl, _, _, .again hv hp hk, hw⟩
      · exact absurd h (by simp)

/-- What a step goes on to once the register is linearized: the outcome, the step, and
    the future with its memory to enter it with. -/
inductive Follows (cfg : Layout) (c : ℕ) (z : Local) (d : OopsDataFuture) :
    Outcome → Local → OopsDataFuture → DataStep → Prop
  | verify : d.step = .wTryOptimisticTs →
      d.maxreg.maxSeenTsp ≤ validateTsp (z.tspOf .write) →
      Follows cfg c z d .calls z { d with mTs := d.maxreg.maxSeenTsp } .writeTsAsVerified
  | prepare : d.step = .wTryOptimisticTs → validateTsp (z.tspOf .write) < d.maxreg.maxSeenTsp →
      Follows cfg c z d .calls z { d with mTs := d.maxreg.maxSeenTsp } .wPrepareToRepare
  | repareUnread : d.step = .wTryOptimisticTs →
      validateTsp (z.tspOf .write) < d.maxreg.maxSeenTsp →
      Follows cfg c z d .calls z { d with mTs := d.maxreg.maxSeenTsp } .wTryRepare
  | writeAnew {z₁ : Local} : d.step = .wTryOptimisticTs →
      validateTsp (z.tspOf .write) < d.maxreg.maxSeenTsp →
      newTsp cfg c z { d with mTs := d.maxreg.maxSeenTsp } true = some z₁ →
      Follows cfg c z d .calls z₁ { d with mTs := d.maxreg.maxSeenTsp } .writeTsAsVerified
  | repare : d.step = .wPrepareToRepare → Follows cfg c z d .calls z d .wTryRepare
  | notified : d.step = .wTryRepare → d.maxreg.notified cfg z →
      Follows cfg c z d .calls z d (if d.maxreg.isDone then .done else .linearized)
  | unnotified {z₁ : Local} : d.step = .wTryRepare → newTsp cfg c z d true = some z₁ →
      Follows cfg c z d .calls z₁ d .writeTsAsVerified
  | writeRead {z₁ : Local} : d.step = .wReadToWrite →
      newTsp cfg c z { d with mTs := d.maxreg.maxSeenTsp } true = some z₁ →
      Follows cfg c z d .calls z₁ { d with mTs := d.maxreg.maxSeenTsp } .writeAsVerified
  | confirm : d.step = .rTryNotifyWriter → d.maxreg.maxSeenTsp = d.previousTs →
      Follows cfg c z d .callsFirst z { d with mTs := d.maxreg.maxSeenTsp } .replicateAsVerified
  | afterNotify {d₁ : OopsDataFuture} {step : DataStep} : d.step = .rTryNotifyWriter →
      d.maxreg.maxSeenTsp ≠ d.previousTs →
      AfterRead cfg { d with mTs := d.maxreg.maxSeenTsp } d₁ step →
      Follows cfg c z d .calls z d₁ step
  | afterRead {d₁ : OopsDataFuture} {step : DataStep} : d.step = .rReading →
      AfterRead cfg d d₁ step → Follows cfg c z d .calls z d₁ step
  | ends : d.step = .replicateAsVerified ∨ d.step = .writeTsAsVerified ∨
        d.step = .writeAsVerified →
      Follows cfg c z d .calls z d (if d.maxreg.isDone then .done else .linearized)
  | endsLater : d.step = .linearized → d.maxreg.isDone → Follows cfg c z d .calls z d .done

theorem calls_cases {o : Outcome} (h : calls cfg c z d step = some (o, z', d')) :
    o = .calls ∧ enter cfg c z d step = some (z', d') := by
  obtain ⟨w, hw, he⟩ := Option.map_eq_some_iff.1 h
  cases he
  exact ⟨rfl, hw⟩

theorem callsAnew_cases {o : Outcome} (h : callsAnew cfg c z d step = some (o, z', d')) :
    o = .calls ∧ ∃ z₁, newTsp cfg c z d true = some z₁ ∧ enter cfg c z₁ d step = some (z', d') := by
  obtain ⟨z₁, hz, h⟩ := Option.bind_eq_some_iff.1 h
  obtain ⟨ho, he⟩ := calls_cases h
  exact ⟨ho, z₁, hz, he⟩

/-- A step goes on to another, or stays as it is. -/
theorem follow_cases {o : Outcome} (h : follow cfg c z d = some (o, z', d')) :
    (∃ z₁ d₁ step, Follows cfg c z d o z₁ d₁ step ∧ enter cfg c z₁ d₁ step = some (z', d')) ∨
      ((d.step = .linearized ∧ d.maxreg.isDone = false ∨ d.step = .done) ∧
        o = .returns true ∧ z' = z ∧ d' = d) := by
  unfold follow at h
  split at h
  case h_1 hs =>
    left
    dsimp only at h
    split at h
    · next hle =>
      obtain ⟨rfl, he⟩ := calls_cases h
      exact ⟨_, _, _, .verify hs hle, he⟩
    · next hlt =>
      have hlt := not_le.1 hlt
      split at h
      · obtain ⟨rfl, he⟩ := calls_cases h
        exact ⟨_, _, _, .prepare hs hlt, he⟩
      · split at h
        · obtain ⟨rfl, he⟩ := calls_cases h
          exact ⟨_, _, _, .repareUnread hs hlt, he⟩
        · obtain ⟨rfl, z₁, hz, he⟩ := callsAnew_cases h
          exact ⟨_, _, _, .writeAnew hs hlt hz, he⟩
  case h_2 hs =>
    obtain ⟨rfl, he⟩ := calls_cases h
    exact .inl ⟨_, _, _, .repare hs, he⟩
  case h_3 hs =>
    left
    split at h
    · next hn =>
      obtain ⟨rfl, he⟩ := calls_cases h
      exact ⟨_, _, _, .notified hs hn, he⟩
    · obtain ⟨rfl, z₁, hz, he⟩ := callsAnew_cases h
      exact ⟨_, _, _, .unnotified hs hz, he⟩
  case h_4 hs =>
    obtain ⟨rfl, z₁, hz, he⟩ := callsAnew_cases h
    exact .inl ⟨_, _, _, .writeRead hs hz, he⟩
  case h_5 hs =>
    left
    dsimp only at h
    split at h
    · next hp =>
      obtain ⟨w, hw, he⟩ := Option.map_eq_some_iff.1 h
      cases he
      exact ⟨_, _, _, .confirm hs hp, hw⟩
    · next hp =>
      obtain ⟨rfl, d₁, step, ha, he⟩ := afterRead_cases h
      exact ⟨_, _, _, .afterNotify hs hp ha, he⟩
  case h_6 hs =>
    obtain ⟨rfl, d₁, step, ha, he⟩ := afterRead_cases h
    exact .inl ⟨_, _, _, .afterRead hs ha, he⟩
  case h_7 hs =>
    obtain ⟨rfl, he⟩ := calls_cases h
    exact .inl ⟨_, _, _, .ends (by simp [hs]), he⟩
  case h_8 hs =>
    obtain ⟨rfl, he⟩ := calls_cases h
    exact .inl ⟨_, _, _, .ends (by simp [hs]), he⟩
  case h_9 hs =>
    obtain ⟨rfl, he⟩ := calls_cases h
    exact .inl ⟨_, _, _, .ends (by simp [hs]), he⟩
  case h_10 hs =>
    split at h
    · next hd =>
      obtain ⟨rfl, he⟩ := calls_cases h
      exact .inl ⟨_, _, _, .endsLater hs hd, he⟩
    · next hd =>
      cases h
      exact .inr ⟨.inl ⟨hs, Bool.eq_false_iff.2 hd⟩, rfl, rfl, rfl⟩
  case h_11 hs =>
    cases h
    exact .inr ⟨.inr hs, rfl, rfl, rfl⟩

/-- Stepping forward steps the register forward, and then returns, or goes on. -/
theorem tryStepForward_cases {o : Outcome} (h : tryStepForward cfg c z d = some (o, z', d')) :
    ∃ b z₁ r₁, RelaxedMaxReg.Stepped cfg c z d.maxreg b z₁ r₁ ∧
      (z' = z₁ ∧ d' = { d with maxreg := r₁ } ∧ o = .returns b ∨
        b = true ∧ r₁.isLinearized ∧ (d.step = .linearized → r₁.isDone) ∧
          ∃ z₂ d₂ step, Follows cfg c z₁ { d with maxreg := r₁ } o z₂ d₂ step ∧
            enter cfg c z₂ d₂ step = some (z', d')) := by
  obtain ⟨⟨b, z₁, r₁⟩, hr, h⟩ := Option.bind_eq_some_iff.1 h
  refine ⟨b, z₁, r₁, RelaxedMaxReg.stepped hr, ?_⟩
  dsimp only at h
  cases b
  · cases h
    exact .inl ⟨rfl, rfl, rfl⟩
  · simp only [Bool.not_true, Bool.false_eq_true, if_false] at h
    split at h
    · cases h
      exact .inl ⟨rfl, rfl, rfl⟩
    · next hl =>
      simp only [Bool.or_eq_true, Bool.and_eq_true, decide_eq_true_eq, not_or, not_and,
        Bool.not_eq_true', Bool.not_eq_false] at hl
      rcases follow_cases h with hf | ⟨-, rfl, rfl, rfl⟩
      · exact .inr ⟨rfl, hl.1, hl.2, hf⟩
      · exact .inl ⟨rfl, rfl, rfl⟩

end OopsDataFuture

end DiscoSkip.SwarmKv
