import DiscoSkip.SwarmKv.RelaxedMaxReg
import DiscoSkip.SwarmKv.UnreliableMaxReg.Steps

/-!
# What the register of all servers does

Stepping forward visits the servers in use and then goes on in one of a few ways
(`Stepped`).
-/

namespace DiscoSkip.SwarmKv

open Lib

/-- What a call of a register only changes: what to do next, and for which entry. -/
def MaxReg.Called (x y : MaxReg) : Prop :=
  y = { x with
    nextStep := y.nextStep, writeEntry := y.writeEntry, remoteLog := y.remoteLog
    madeProgress := y.madeProgress }

namespace RelaxedMaxReg

/-- How a register is stepped forward. -/
inductive Stepped (cfg : Layout) (c : ℕ) :
    Local → RelaxedMaxReg → Bool → Local → RelaxedMaxReg → Prop
  | idle {z : Local} {r : RelaxedMaxReg} : r.step = .done →
      Stepped cfg c z r true z r.resetProgressMarkers
  | waits {z z₁ : Local} {r r₁ : RelaxedMaxReg} {n : Counts} :
      r.step ≠ .done → visitAll cfg c z r = (z₁, r₁, n) →
      Stepped cfg c z r false z₁ r₁
  | progresses {z z₁ : Local} {r r₁ : RelaxedMaxReg} {n : Counts} :
      r.step ≠ .done → visitAll cfg c z r = (z₁, r₁, n) →
      Stepped cfg c z r true z₁ r₁.resetProgressMarkers
  | linearizes {z z₁ : Local} {r r₁ : RelaxedMaxReg} {n : Counts} :
      r.step = .write → visitAll cfg c z r = (z₁, r₁, n) →
      cfg.majority ≤ n.ready →
      Stepped cfg c z r true z₁ { r₁.resetProgressMarkers with step := .linearized }
  | writes {z z₁ : Local} {r r₁ : RelaxedMaxReg} {n : Counts} :
      r.step = .write → visitAll cfg c z r = (z₁, r₁, n) →
      cfg.majority ≤ n.ready → cfg.majority ≤ n.done →
      Stepped cfg c z r true (finish z₁ r₁.resetProgressMarkers).1
        (finish z₁ r₁.resetProgressMarkers).2
  | finishes {z z₁ : Local} {r r₁ : RelaxedMaxReg} {n : Counts} :
      r.step = .read ∨ r.step = .tryWrite ∨ r.step = .linearized →
      visitAll cfg c z r = (z₁, r₁, n) → cfg.majority ≤ n.ready →
      Stepped cfg c z r true (finish z₁ r₁.resetProgressMarkers).1
        (finish z₁ r₁.resetProgressMarkers).2
  | inPlace {z z₁ : Local} {r r₁ : RelaxedMaxReg} {n : Counts} {s : ℕ} :
      r.step = .tryRead → visitAll cfg c z r = (z₁, r₁, n) →
      cfg.majority ≤ n.ready → inPlaceEntry cfg z₁ r₁.resetProgressMarkers = some s →
      Stepped cfg c z r true (finish z₁ { r₁.resetProgressMarkers with readEntry := s }).1
        (finish z₁ { r₁.resetProgressMarkers with readEntry := s }).2
  | reads {z z₁ z' : Local} {r r₁ r₂ r' : RelaxedMaxReg} {n : Counts} {b : Bool} :
      r.step = .tryRead → visitAll cfg c z r = (z₁, r₁, n) →
      cfg.majority ≤ n.ready → inPlaceEntry cfg z₁ r₁.resetProgressMarkers = none →
      r₁.resetProgressMarkers.doReadLog cfg z₁ r₁.maxSeenTsp = some r₂ →
      Stepped cfg c z₁ r₂ b z' r' → Stepped cfg c z r true z' r'
  | readsLog {z z₁ : Local} {r r₁ : RelaxedMaxReg} {n : Counts} :
      r.step = .readLog → visitAll cfg c z r = (z₁, r₁, n) →
      cfg.majority ≤ n.ready →
      Stepped cfg c z r true
        (endReadLog cfg z₁ r₁.resetProgressMarkers).1 (endReadLog cfg z₁ r₁.resetProgressMarkers).2

variable {cfg : Layout} {c : ℕ} {z z₁ z' : Local} {r r₁ r₂ r' : RelaxedMaxReg} {n : Counts} {s : ℕ}

@[simp] theorem setReg_self {x : MaxReg} : (r.setReg s x).reg s = x := put_self _ _ _

theorem setReg_of_ne {x : MaxReg} {s' : ℕ} (h : s' ≠ s) : (r.setReg s x).reg s' = r.reg s' :=
  put_of_ne h

/-- What holds of a register that is set, and of all others, holds of all. -/
theorem forall_setReg {x : MaxReg} {I : ℕ → MaxReg → Prop} (hx : I s x)
    (h : ∀ s' ≠ s, I s' (r.reg s')) : ∀ s', I s' ((r.setReg s x).reg s') := by
  intro s'
  by_cases hs : s' = s
  · subst hs
    rwa [setReg_self]
  · rw [setReg_of_ne hs]
    exact h s' hs

@[simp] theorem setReg_step {x : MaxReg} : (r.setReg s x).step = r.step := rfl

@[simp] theorem setReg_maxSeenTsp {x : MaxReg} : (r.setReg s x).maxSeenTsp = r.maxSeenTsp := rfl

@[simp] theorem setReg_readEntry {x : MaxReg} : (r.setReg s x).readEntry = r.readEntry := rfl

/-- Relabelling changes the tsp of a buffer, and which one has the greatest. -/
theorem relabel_eq_or : relabel s z r = (z, r) ∨
    (r.maxSeenTsp ≤ (r.reg s).maxSeenTsp ∧ relabel s z r = (z.setTsp (.read s) (r.reg s).maxSeenTsp,
      { r with maxSeenTsp := (r.reg s).maxSeenTsp, readEntry := s })) := by
  unfold relabel
  dsimp only
  split
  · next h => exact .inr ⟨h.elim le_of_lt fun h => h.1.le, rfl⟩
  · exact .inl rfl

@[simp] theorem relabel_reg : (relabel s z r).2.reg = r.reg := by
  obtain h | ⟨-, h⟩ := @relabel_eq_or z r s <;> rw [h]

@[simp] theorem relabel_step : (relabel s z r).2.step = r.step := by
  obtain h | ⟨-, h⟩ := @relabel_eq_or z r s <;> rw [h]

@[simp] theorem relabel_posted : (relabel s z r).1.posted = z.posted := by
  obtain h | ⟨-, h⟩ := @relabel_eq_or z r s
  · rw [h]
  · rw [h, Local.setTsp_posted]

/-- A visit steps the register of the server forward, and relabels. -/
theorem visit_eq : ∃ n', visit cfg c (z, r, n) s =
    ((relabel s ((r.reg s).tryStepForward cfg c s z).1
      (r.setReg s ((r.reg s).tryStepForward cfg c s z).2)).1,
    (relabel s ((r.reg s).tryStepForward cfg c s z).1
      (r.setReg s ((r.reg s).tryStepForward cfg c s z).2)).2, n') :=
  ⟨_, rfl⟩

theorem visit_step : (visit cfg c (z, r, n) s).2.1.step = r.step := by
  obtain ⟨n', h⟩ := @visit_eq cfg c z r n s
  rw [h]
  simp

/-- What every visit of a server in use keeps, stepping all forward keeps. -/
theorem visitAll_induction {I : Local → RelaxedMaxReg → Prop} (h : I z r)
    (hI : ∀ z' r' n, ∀ s ∈ r.usedServers cfg, I z' r' →
      I (visit cfg c (z', r', n) s).1 (visit cfg c (z', r', n) s).2.1)
    (hv : visitAll cfg c z r = (z₁, r₁, n)) : I z₁ r₁ := by
  have := List.foldlRecOn (motive := fun acc : Local × RelaxedMaxReg × Counts => I acc.1 acc.2.1)
    (r.usedServers cfg) (visit cfg c) (b := (z, r, ⟨0, 0, 0⟩)) h
    fun ⟨z', r', n⟩ h s hs => hI z' r' n s hs h
  rwa [← visitAll, hv] at this

theorem visitAll_step (h : visitAll cfg c z r = (z₁, r₁, n)) : r₁.step = r.step :=
  visitAll_induction (I := fun _ r' => r'.step = r.step) rfl
    (fun _ _ _ _ _ h => visit_step.trans h) h

theorem doReadLog_step {tsp : ℕ} (h : r.doReadLog cfg z tsp = some r') : r'.step = .readLog := by
  obtain ⟨log, -, rfl⟩ := Option.map_eq_some_iff.1 h
  rfl

theorem stepped_of_stepWith {again : Local → RelaxedMaxReg → Option (Local × RelaxedMaxReg)}
    {b : Bool}
    (ha : ∀ z r z' r', again z r = some (z', r') → r.step = .readLog →
      ∃ b, Stepped cfg c z r b z' r')
    (h : stepWith cfg c again z r = some (b, z', r')) : Stepped cfg c z r b z' r' := by
  unfold stepWith at h
  split at h
  · next hs =>
    obtain ⟨rfl, rfl, rfl⟩ : true = b ∧ z = z' ∧ r.resetProgressMarkers = r' := by simpa using h
    exact .idle hs
  · next hs =>
    obtain ⟨z₁, r₁, n, hv⟩ : ∃ z₁ r₁ n, visitAll cfg c z r = (z₁, r₁, n) := ⟨_, _, _, rfl⟩
    rw [hv] at h
    dsimp only at h
    split at h
    · obtain ⟨rfl, rfl, rfl⟩ : false = b ∧ z₁ = z' ∧ r₁ = r' := by simpa using h
      exact .waits hs hv
    · split at h
      · obtain ⟨rfl, rfl, rfl⟩ : true = b ∧ z₁ = z' ∧ r₁.resetProgressMarkers = r' :=
          by simpa using h
        exact .progresses hs hv
      · next hp hr =>
        have hr := not_lt.1 hr
        have hst : r₁.resetProgressMarkers.step = r.step :=
          (visitAll_step hv : r₁.step = r.step)
        obtain ⟨⟨z₂, r₂⟩, hg, he⟩ := Option.map_eq_some_iff.1 h
        obtain ⟨rfl, rfl, rfl⟩ : true = b ∧ z₂ = z' ∧ r₂ = r' := by simpa using he
        unfold goOn at hg
        rw [hst] at hg
        cases hs' : r.step <;> simp only [hs'] at hg
        case write =>
          split at hg <;> cases hg
          · exact .linearizes hs' hv hr
          · next hd => exact .writes hs' hv hr (not_lt.1 hd)
        case tryRead =>
          split at hg
          · next s hi =>
            cases hg
            exact .inPlace hs' hv hr hi
          · next hi =>
            obtain ⟨r₂, hr₂, hg⟩ := Option.bind_eq_some_iff.1 hg
            obtain ⟨b, hb⟩ := ha _ _ _ _ hg (doReadLog_step hr₂)
            exact .reads hs' hv hr hi hr₂ hb
        case readLog =>
          cases hg
          exact .readsLog hs' hv hr
        case done => exact absurd hs' hs
        all_goals
          cases hg
          exact .finishes (by simp [hs']) hv hr

/-- Stepping forward is one of the ways. -/
theorem stepped {b : Bool} (h : tryStepForward cfg c z r = some (b, z', r')) :
    Stepped cfg c z r b z' r' := by
  refine stepped_of_stepWith (fun z r z' r' hz hs => ?_) h
  obtain ⟨⟨b, _⟩, hb, he⟩ := Option.map_eq_some_iff.1 hz
  obtain rfl := he
  refine ⟨b, stepped_of_stepWith (fun _ _ _ _ h _ => absurd h (by simp)) hb⟩

end RelaxedMaxReg

end DiscoSkip.SwarmKv
