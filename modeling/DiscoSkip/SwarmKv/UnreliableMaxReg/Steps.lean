import DiscoSkip.SwarmKv.UnreliableMaxReg

/-!
# What a register of one server does

Taking in what came back changes only the tsps a register has seen, the clock, and the
array of tsps of an entry (`refresh_frame`). Going on to a step then posts its requests
(`transitionTo_cases`): a compare-and-swap among them expects the tsp last seen in the
slot, and swaps in that of the entry written, which is greater than all the register has
seen, but in the step `WriteTsAndIn` (`lt_of_settle`).
-/

namespace DiscoSkip.SwarmKv

open Lib

namespace Local

variable (z : Local) (r : Ref) (e : LogEntry) (tsp s : ℕ) (reqs : List Request)

@[simp] theorem setEntry_posted : (z.setEntry r e).posted = z.posted := rfl

@[simp] theorem setEntry_clock : (z.setEntry r e).clock = z.clock := rfl

@[simp] theorem setEntry_entry : (z.setEntry r e).entry = put z.entry r e := rfl

@[simp] theorem setTsp_posted : (z.setTsp r tsp).posted = z.posted := rfl

@[simp] theorem setTsp_clock : (z.setTsp r tsp).clock = z.clock := rfl

@[simp] theorem tspOf_setTsp_self : (z.setTsp r tsp).tspOf r = tsp := by simp [setTsp, tspOf]

theorem setTsp_entry_of_ne {r' : Ref} (h : r' ≠ r) : (z.setTsp r tsp).entry r' = z.entry r' :=
  put_of_ne h

theorem tspOf_setTsp_of_ne {r' : Ref} (h : r' ≠ r) : (z.setTsp r tsp).tspOf r' = z.tspOf r' := by
  rw [tspOf, setTsp_entry_of_ne z r tsp h, tspOf]

@[simp] theorem post_entry : (z.post s reqs).entry = z.entry := rfl

@[simp] theorem post_clock : (z.post s reqs).clock = z.clock := rfl

@[simp] theorem post_posted : (z.post s reqs).posted = z.posted ++ reqs.map (s, ·) := rfl

@[simp] theorem post_tspOf : (z.post s reqs).tspOf r = z.tspOf r := rfl

end Local

namespace RegStep

/-- The steps that swap the tsp in the slot. -/
def swaps : RegStep → Bool
  | .tryWriteAll | .writeAll | .replicateAllAndReadNotifs | .writeTsAndIn | .writeTs
  | .replicateTsAndReadNotifs => true
  | _ => false

/-- The steps that read the tsps of all slots. -/
def readsTsps : RegStep → Bool
  | .tryReadAll | .readTs | .notifyAndReadTs => true
  | _ => false

end RegStep

namespace MaxReg

variable {cfg : Layout} {c s : ℕ} {z : Local} {x : MaxReg} {tsp : ℕ}

/-! ### Taking in what came back -/

theorem see_eq : see cfg c z x tsp =
    ({ z with clock := if x.maxSeenTsp < tsp then z.clock.syncClock (cfg.steady c) tsp
      else z.clock },
      { x with maxSeenTsp := max x.maxSeenTsp tsp }) := by
  unfold see
  split
  · next h => rw [max_eq_right h.le]
  · next h => rw [max_eq_left (not_lt.1 h)]

/-- What stays as it is when something is taken in. -/
structure Frame (z : Local) (x : MaxReg) (y : Local × MaxReg) : Prop where
  posted : y.1.posted = z.posted
  entry : ∀ r, y.1.entry r = { z.entry r with tsps := (y.1.entry r).tsps }
  reg : y.2 = { x with maxSeenTsp := y.2.maxSeenTsp, myLastTsp := y.2.myLastTsp }
  le : x.maxSeenTsp ≤ y.2.maxSeenTsp

namespace Frame

theorem refl : Frame z x (z, x) := ⟨rfl, fun _ => rfl, rfl, le_rfl⟩

theorem trans {y : Local × MaxReg} {w : Local × MaxReg} (h : Frame z x y) (h' : Frame y.1 y.2 w) :
    Frame z x w := by
  refine ⟨h'.posted.trans h.posted, fun r => ?_, ?_, h.le.trans h'.le⟩
  · rw [h'.entry r, h.entry r]
  · rw [h'.reg, h.reg]

theorem tspOf {y : Local × MaxReg} (h : Frame z x y) (r : Ref) : y.1.tspOf r = z.tspOf r := by
  rw [Local.tspOf, h.entry r, Local.tspOf]

end Frame

theorem see_frame : Frame z x (see cfg c z x tsp) := by
  rw [see_eq]
  exact ⟨rfl, fun _ => rfl, rfl, le_max_left _ _⟩

theorem takeMax_frame : Frame z x (takeMax cfg c s z x) := see_frame

theorem noteSwapped_frame {mine : ℕ} : Frame z x (noteSwapped cfg c z x mine) := by
  refine ⟨rfl, fun r => ?_, rfl, le_rfl⟩
  by_cases hr : r = x.ongoingWriteEntry
  · subst hr
    simp [noteSwapped]
  · simp [noteSwapped, put_of_ne hr]

theorem takeSwap_frame : Frame z x (takeSwap cfg c s z x) := noteSwapped_frame.trans see_frame

theorem take_frame : Frame z x (take cfg c s z x) := by
  unfold take
  split
  · dsimp only
    split
    · exact takeSwap_frame
    · exact takeSwap_frame.trans takeMax_frame
  all_goals first
    | exact takeSwap_frame
    | exact .refl
    | exact Frame.trans (y := takeMax cfg c s z x) takeMax_frame ⟨rfl, fun _ => rfl, rfl, le_rfl⟩

theorem refresh_frame : Frame z x (refresh cfg c s z x) := by
  unfold refresh
  split
  · exact take_frame
  · exact .refl

theorem takeMax_eq : ∃ k, takeMax cfg c s z x =
    ({ z with clock := k },
      { x with maxSeenTsp := max x.maxSeenTsp (cfg.maxTspOf (z.entry (.read s)).tsps) }) :=
  ⟨_, see_eq⟩

theorem takeSwap_eq : ∃ k, takeSwap cfg c s z x =
    ({ (noteSwapped cfg c z x (swapped s z x)).1 with clock := k },
      { x with
        myLastTsp := some (swapped s z x)
        maxSeenTsp := max x.maxSeenTsp (swapped s z x) }) :=
  ⟨_, see_eq⟩

/-- What is taken in by a step that swaps: what the slot has, and the tsps of all slots
    if they were read before. -/
theorem take_of_swaps (h : x.step.swaps) : ∃ k m, take cfg c s z x =
      ({ (noteSwapped cfg c z x (swapped s z x)).1 with clock := k },
        { x with myLastTsp := some (swapped s z x), maxSeenTsp := m }) ∧
    (m = max x.maxSeenTsp (swapped s z x) ∨ x.step = .tryWriteAll ∧ cfg.numTsp ≠ 1 ∧
      m = max (max x.maxSeenTsp (swapped s z x))
        (cfg.maxTspOf ((noteSwapped cfg c z x (swapped s z x)).1.entry (.read s)).tsps)) := by
  obtain ⟨k, hk⟩ := @takeSwap_eq cfg c s z x
  by_cases hs : x.step = .tryWriteAll
  · have ht : take cfg c s z x = if cfg.numTsp = 1 then takeSwap cfg c s z x
        else takeMax cfg c s (takeSwap cfg c s z x).1 (takeSwap cfg c s z x).2 := by
      rw [take, hs]
    by_cases hn : cfg.numTsp = 1
    · exact ⟨k, _, by rw [ht, if_pos hn, hk], .inl rfl⟩
    · obtain ⟨k', hk'⟩ := @takeMax_eq cfg c s (takeSwap cfg c s z x).1
        (takeSwap cfg c s z x).2
      rw [hk] at hk'
      exact ⟨k', _, by rw [ht, if_neg hn, hk, hk'], .inr ⟨hs, hn, rfl⟩⟩
  · have ht : take cfg c s z x = takeSwap cfg c s z x := by
      cases h' : x.step <;> rw [h'] at h hs
      all_goals first
        | exact absurd rfl hs
        | exact absurd h Bool.false_ne_true
        | rw [take, h']
    exact ⟨k, _, by rw [ht, hk], .inl rfl⟩

/-- What is taken in by a step that reads the tsps. -/
theorem take_of_readsTsps (h : x.step.readsTsps) : ∃ k, take cfg c s z x =
    ({ z with clock := k },
      { x with
        myLastTsp := some ((z.entry (.read s)).tsps (cfg.tspSlot c))
        maxSeenTsp := max x.maxSeenTsp (cfg.maxTspOf (z.entry (.read s)).tsps) }) := by
  obtain ⟨k, hk⟩ := @takeMax_eq cfg c s z x
  have ht : take cfg c s z x = ((takeMax cfg c s z x).1,
      { (takeMax cfg c s z x).2 with
        myLastTsp := some (((takeMax cfg c s z x).1.entry (.read s)).tsps (cfg.tspSlot c)) }) := by
    cases hs : x.step <;> rw [hs] at h
    all_goals first
      | exact absurd h Bool.false_ne_true
      | rw [take, hs]
  exact ⟨k, by rw [ht, hk]⟩

theorem take_of_not (h : x.step.swaps = false) (h' : x.step.readsTsps = false) :
    take cfg c s z x = (z, x) := by
  cases hs : x.step <;> rw [hs] at h h'
  all_goals first
    | exact absurd h.symm Bool.false_ne_true
    | exact absurd h'.symm Bool.false_ne_true
    | rw [take, hs]

/-- A register that is done takes nothing in. -/
theorem refresh_of_done (h : x.step = .done) : refresh cfg c s z x = (z, x) := by
  unfold refresh
  split
  · exact take_of_not (by rw [h]; rfl) (by rw [h]; rfl)
  · rfl

/-! ### Going on -/

/-- The step that follows by itself. -/
def following (z : Local) (x : MaxReg) : RegStep :=
  match x.step with
  | .tryReadAll | .readTs | .notifyAndReadTs | .readLog | .tryWriteAll | .readNotifs
  | .done => .done
  | .writeAll | .writeTsAndIn | .writeTs => .writeTs
  | .replicateAllAndReadNotifs | .replicateTsAndReadNotifs =>
    if z.tspOf x.writeEntry < validateTsp x.maxSeenTsp then .done else .replicateTsAndReadNotifs

theorem advance_eq : advance cfg s z x = transitionTo cfg s z x (following z x) := by
  cases h : x.step <;> simp only [advance, following, h]
  case replicateAllAndReadNotifs => split <;> rfl
  case replicateTsAndReadNotifs => split <;> rfl
  case done => simp [transitionTo, settle, ← h]

/-- The step a register goes on to, having taken in what came back as `w`, and the mark it
    leaves: the one noted, or the one that follows. -/
def Goes (x : MaxReg) (w : Local × MaxReg) (step : RegStep) (mark : Bool) : Prop :=
  x.nextStep = some step ∧ mark = x.madeProgress ∨
    x.nextStep = none ∧ step = following w.1 w.2 ∧ mark = true

theorem tryStepForward_of_waits (h : x.waits = true) : tryStepForward cfg c s z x = (z, x) :=
  if_pos h

/-- Stepping forward is taking in what came back, and going on to a step. -/
theorem tryStepForward_eq (h : x.waits = false) : ∃ step mark,
    Goes x (refresh cfg c s z x) step mark ∧
    tryStepForward cfg c s z x = transitionTo cfg s (refresh cfg c s z x).1
      { (refresh cfg c s z x).2 with nextStep := none, madeProgress := mark } step := by
  have hf : Frame z x (refresh cfg c s z x) := refresh_frame
  have hn : (refresh cfg c s z x).2.nextStep = x.nextStep := by rw [hf.reg]
  have hm : (refresh cfg c s z x).2.madeProgress = x.madeProgress := by rw [hf.reg]
  unfold tryStepForward
  rw [if_neg (by simp [h])]
  dsimp only
  split
  · next step hs =>
    refine ⟨step, x.madeProgress, .inl ⟨hn ▸ hs, rfl⟩, ?_⟩
    rw [← hm]
  · next hs =>
    refine ⟨_, true, .inr ⟨hn ▸ hs, rfl, rfl⟩, ?_⟩
    rw [advance_eq]
    congr 1
    rw [← hs]

theorem transitionTo_nextStep {step : RegStep} :
    (transitionTo cfg s z x step).2.nextStep = x.nextStep := by
  unfold transitionTo
  dsimp only
  split <;> rfl

theorem transitionTo_maxSeenTsp (step : RegStep) :
    (transitionTo cfg s z x step).2.maxSeenTsp = x.maxSeenTsp := by
  unfold transitionTo
  dsimp only
  split <;> rfl

theorem transitionTo_entry (step : RegStep) :
    (transitionTo cfg s z x step).1.entry = z.entry := by
  unfold transitionTo
  dsimp only
  split <;> rfl

/-- What is noted is done, or stays so. -/
theorem tryStepForward_nextStep : (tryStepForward cfg c s z x).2.nextStep = none ∨
    (tryStepForward cfg c s z x).2.nextStep = x.nextStep := by
  cases hw : x.waits with
  | true =>
    rw [tryStepForward_of_waits hw]
    exact .inr rfl
  | false =>
    obtain ⟨step, mark, -, heq⟩ := @tryStepForward_eq cfg c s z x hw
    rw [heq, transitionTo_nextStep]
    exact .inl rfl

end MaxReg

/-- What is swapped in is greater than all that was seen, but by `WriteTsAndIn`. -/
theorem lt_of_settle {tsp seen : ℕ} {step st : RegStep}
    (h : settle (· ≤ ·) tsp seen step = st) (hs : st.swaps) (hne : st ≠ .writeTsAndIn) :
    seen < tsp := by
  have hle := le_validateTsp seen
  subst h
  cases step <;> simp only [settle, decide_eq_true_eq] at hs hne
  all_goals repeat' split at hs
  all_goals first
    | omega
    | exact absurd hs Bool.false_ne_true
    | exact absurd rfl hne

theorem eq_of_settle {skips : ℕ → ℕ → Bool} {tsp seen : ℕ} {step : RegStep}
    (h : settle skips tsp seen step = .writeTsAndIn) : step = .writeTsAndIn := by
  cases step <;> simp only [settle] at h
  all_goals repeat' split at h
  all_goals first
    | rfl
    | exact RegStep.noConfusion h

namespace MaxReg

variable {cfg : Layout} {s : ℕ} {z : Local} {x : MaxReg} {st step : RegStep}

theorem following_ne : following z x ≠ .writeTsAndIn := by
  unfold following
  split
  any_goals exact RegStep.noConfusion
  all_goals split <;> exact RegStep.noConfusion

/-- A compare-and-swap that is posted expects the tsp last seen in the slot, and swaps in
    that of the entry written. -/
theorem of_mem_requests {kv e n : ℕ} {b : Bool} (h : ⟨.cas kv e n, b⟩ ∈ x.requests cfg z st) :
    kv = x.remoteKv ∧ e = x.myLastTsp.getD 0 ∧ n = z.tspOf x.writeEntry ∧ st.swaps := by
  cases st <;> simp only [requests, writeRequests, casRequest] at h
  all_goals simp [RegStep.swaps] at h ⊢
  case tryReadAll => split at h <;> simp at h
  all_goals exact h.1

end MaxReg

end DiscoSkip.SwarmKv
