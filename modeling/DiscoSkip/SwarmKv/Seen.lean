import DiscoSkip.SwarmKv.Pending
import DiscoSkip.SwarmKv.Servers

/-!
# What the register of all servers knows of the slots

What the register of all servers has seen is within the bound for those of its servers
(`RelaxedMaxReg.Sound`). Buffers are read again only by the steps `TryRead` and `ReadLog`,
during which no register swaps, so what is swapped in from a buffer stays there
meanwhile. This is why it matters that these steps start with all registers done, and
so after all in use are ready: it is the case as long as no server is dead.
-/

namespace DiscoSkip.SwarmKv

open Lib

namespace Local

variable (z : Local) (P : ℕ → List Request)

/-- What is posted to a server. -/
def postedTo (s : ℕ) : List Request := (z.posted.filter (·.1 = s)).map (·.2)

/-- The requests of a future that are pending: those from before, and those just posted. -/
def pending (s : ℕ) : List Request := P s ++ z.postedTo s

variable {z P} {z' : Local} {s : ℕ} {reqs : List Request}

theorem pending_self (h : z'.posted = z.posted ++ reqs.map (s, ·)) :
    z'.pending P s = z.pending P s ++ reqs := by
  have hs : ((reqs.map (s, ·)).filter (·.1 = s)).map Prod.snd = reqs := by
    simp [List.filter_map, Function.comp_def]
  rw [pending, pending, postedTo, postedTo, h, List.filter_append, List.map_append, hs,
    List.append_assoc]

theorem pending_of_ne (h : z'.posted = z.posted ++ reqs.map (s, ·)) {s' : ℕ} (hs : s' ≠ s) :
    z'.pending P s' = z.pending P s' := by
  simp [pending, postedTo, h, hs.symm]

theorem pending_congr (h : z'.posted = z.posted) : z'.pending P = z.pending P := by
  funext s
  rw [pending, pending, postedTo, postedTo, h]

end Local

/-! ### The steps of the registers -/

/-- The steps that have key/value pairs read to the buffers. -/
def RelaxedStep.fetches : RelaxedStep → Bool
  | .tryRead | .readLog => true
  | _ => false

/-- The steps of the registers that there are not meanwhile: none swaps while buffers are
    read, and no buffer is read else. -/
def RelaxedStep.avoids (step : RelaxedStep) : RegStep → Bool :=
  if step.fetches then RegStep.swaps else RegStep.fetches

/-- A register is at no step of a kind, nor is one noted. -/
def MaxReg.Avoids (p : RegStep → Bool) (x : MaxReg) : Prop :=
  p x.step = false ∧ ∀ st ∈ x.nextStep, p st = false

section Steps

variable {cfg : Layout} {c s : ℕ} {z : Local} {x : MaxReg} {step : RegStep} {skips : ℕ → ℕ → Bool}
  {tsp seen : ℕ}

theorem fetches_of_settle (h : (settle skips tsp seen step).fetches) : step.fetches := by
  cases step <;> simp only [settle] at h
  all_goals repeat' split at h
  all_goals exact h

theorem swaps_of_settle (h : (settle skips tsp seen step).swaps) : step.swaps := by
  cases step <;> first | rfl | simpa only [settle] using h

theorem avoids_of_settle {st : RelaxedStep} (h : st.avoids (settle skips tsp seen step)) :
    st.avoids step := by
  unfold RelaxedStep.avoids at h ⊢
  cases hf : st.fetches <;> rw [hf] at h
  · exact fetches_of_settle h
  · exact swaps_of_settle h

namespace MaxReg

theorem transitionTo_step : (transitionTo cfg s z x step).2.step =
    settle (· ≤ ·) (z.tspOf x.writeEntry) x.maxSeenTsp step := by
  unfold transitionTo
  dsimp only
  split <;> rfl

theorem following_fetches : (following z x).fetches = false := by
  unfold following
  split
  all_goals try split
  all_goals rfl

theorem swaps_of_following (h : (following z x).swaps) : x.step.swaps := by
  unfold following at h
  split at h
  all_goals first
    | exact absurd h Bool.false_ne_true
    | simp_all [RegStep.swaps]

/-- The step a register is at once it was stepped forward is where it was, or where it
    went on to from the one noted, or by itself. -/
theorem step_of_tryStepForward : (tryStepForward cfg c s z x).2.step = x.step ∨
    ∃ step, (x.nextStep = some step ∨ step.fetches = false ∧ (step.swaps → x.step.swaps)) ∧
      ∃ tsp seen, (tryStepForward cfg c s z x).2.step = settle (· ≤ ·) tsp seen step := by
  cases hw : x.waits with
  | true =>
    rw [tryStepForward_of_waits hw]
    exact .inl rfl
  | false =>
    obtain ⟨step, mark, hgo, heq⟩ := @tryStepForward_eq cfg c s z x hw
    rw [heq, transitionTo_step]
    refine .inr ⟨step, ?_, _, _, rfl⟩
    obtain ⟨hn, -⟩ | ⟨-, rfl, -⟩ := hgo
    · exact .inl hn
    · have hst : (refresh cfg c s z x).2.step = x.step := by rw [refresh_frame.reg]
      exact .inr ⟨following_fetches, fun h => hst ▸ swaps_of_following h⟩

theorem Avoids.tryStepForward {step : RelaxedStep} (h : x.Avoids step.avoids) :
    (tryStepForward cfg c s z x).2.Avoids step.avoids := by
  refine ⟨?_, fun st hst => ?_⟩
  · obtain heq | ⟨st, hst, tsp, seen, heq⟩ := @step_of_tryStepForward cfg c s z x
    · rw [heq]
      exact h.1
    · refine Bool.eq_false_iff.2 fun h₁ => ?_
      rw [heq] at h₁
      have h₂ := avoids_of_settle h₁
      obtain hn | ⟨hf, hs⟩ := hst
      · exact absurd ((h.2 st hn).symm.trans h₂) Bool.false_ne_true
      · have hx := h.1
        cases hstep : step.fetches <;> simp only [RelaxedStep.avoids, hstep] at h₂ hx
        · exact absurd (hf.symm.trans h₂) Bool.false_ne_true
        · exact absurd (hx.symm.trans (hs h₂)) Bool.false_ne_true
  · obtain hnone | hsame := @tryStepForward_nextStep cfg c s z x
    · exact nomatch hnone ▸ hst
    · exact h.2 st (hsame ▸ hst)

/-- What stays as it is when a register is stepped forward. -/
theorem tryStepForward_reg : (tryStepForward cfg c s z x).2.lazynessLevel = x.lazynessLevel ∧
    (tryStepForward cfg c s z x).2.writeEntry = x.writeEntry ∧
    x.maxSeenTsp ≤ (tryStepForward cfg c s z x).2.maxSeenTsp := by
  cases hw : x.waits with
  | true =>
    rw [tryStepForward_of_waits hw]
    exact ⟨rfl, rfl, le_rfl⟩
  | false =>
    obtain ⟨step, mark, -, heq⟩ := @tryStepForward_eq cfg c s z x hw
    have hf : Frame z x (refresh cfg c s z x) := refresh_frame
    rw [heq]
    unfold transitionTo
    dsimp only
    split
    all_goals
      refine ⟨?_, ?_, hf.le⟩
      all_goals
        dsimp only
        rw [hf.reg]

end MaxReg

end Steps

namespace RelaxedMaxReg

/-- What is known of the registers of a key, and of that of all servers. -/
structure Sound (cfg : Layout) (m kv : ℕ) (Q : ℕ → List Request) (comp : ℕ → ℕ)
    (entry : Ref → LogEntry) (r : RelaxedMaxReg) : Prop where
  reg : ∀ s, (r.reg s).Sound cfg m kv entry s (Q s) (comp s)
  seen : r.maxSeenTsp ≤ m
  unused : ∀ s ∉ cfg.servers kv, (r.reg s).step = .done
  ended : r.step = .done → ∀ s, (r.reg s).step = .done
  avoids : ∀ s, (r.reg s).Avoids r.step.avoids

variable {cfg : Layout} {c m kv s : ℕ} {P Q : ℕ → List Request} {comp : ℕ → ℕ} {z z' : Local}
  {entry entry' : Ref → LogEntry} {r r' : RelaxedMaxReg} {n : Counts}

namespace Sound

theorem relabelled (hm : validateTsp m = m) (h : r.Sound cfg m kv Q comp entry)
    (he : Relabelled m entry entry') : r.Sound cfg m kv Q comp entry' :=
  { h with reg := fun s => (h.reg s).relabelled hm he }

/-- A visit of a server in use. -/
theorem visit (hm : validateTsp m = m) (hs : s ∈ cfg.servers kv) (hne : r.step ≠ .done)
    (h : r.Sound cfg m kv (z.pending P) comp z.entry) :
    (visit cfg c (z, r, n) s).2.1.Sound cfg m kv
      ((RelaxedMaxReg.visit cfg c (z, r, n) s).1.pending P) comp
      (RelaxedMaxReg.visit cfg c (z, r, n) s).1.entry := by
  obtain ⟨n', hv⟩ := @visit_eq cfg c z r n s
  obtain ⟨reqs, hp, hx, he⟩ := (h.reg s).tryStepForward (c := c)
  have hx' := @MaxReg.Avoids.tryStepForward cfg c s z _ _ (h.avoids s)
  rw [hv]
  dsimp only
  generalize ((r.reg s).tryStepForward cfg c s z).1 = z₁ at *
  generalize ((r.reg s).tryStepForward cfg c s z).2 = x₁ at *
  have hset : (r.setReg s x₁).Sound cfg m kv (z₁.pending P) comp z₁.entry := {
    reg := by
      refine forall_setReg (I := fun s' y =>
        y.Sound cfg m kv z₁.entry s' (z₁.pending P s') (comp s')) ?_ fun s' hs' => ?_
      · rwa [Local.pending_self hp]
      · rw [Local.pending_of_ne hp hs']
        exact (h.reg s').relabelled hm he
    seen := h.seen
    unused := fun s' hs' => by
      have hne' : s' ≠ s := by
        rintro rfl
        exact hs' hs
      rw [setReg_of_ne hne']
      exact h.unused s' hs'
    ended := fun hd => absurd hd hne
    avoids := forall_setReg (I := fun _ y => y.Avoids r.step.avoids) hx' fun s' _ => h.avoids s' }
  obtain hr | ⟨-, hr⟩ := @relabel_eq_or z₁ (r.setReg s x₁) s
  · rw [hr]
    exact hset
  · have hseen : ((r.setReg s x₁).reg s).maxSeenTsp ≤ m := (hset.reg s).seen
    rw [hr, Local.pending_congr rfl]
    exact { hset.relabelled hm (Relabelled.setTsp (le_max_of_le_right hseen)) with seen := hseen }

/-- All visits. -/
theorem visitAll (hm : validateTsp m = m) (hu : r.usedServers cfg = cfg.servers kv)
    (hne : r.step ≠ .done) (h : r.Sound cfg m kv (z.pending P) comp z.entry)
    (hv : visitAll cfg c z r = (z', r', n)) :
    r'.Sound cfg m kv (z'.pending P) comp z'.entry :=
  (visitAll_induction (I := fun z r => r.step ≠ .done ∧
      r.Sound cfg m kv (z.pending P) comp z.entry) ⟨hne, h⟩ (fun _ _ _ _ hs h =>
    ⟨fun hd => h.1 (visit_step.symm.trans hd), h.2.visit hm (hu ▸ hs) h.1⟩) hv).2

/-- The registers are called, at a step that avoids those they are at and go on to. -/
theorem recast (h : r.Sound cfg m kv Q comp entry)
    (hc : ∀ s, MaxReg.Called (r.reg s) (r'.reg s)) (hs : r'.maxSeenTsp = r.maxSeenTsp)
    (hd : r'.step = .done → ∀ s, (r.reg s).step = .done)
    (ha : ∀ s, r'.step.avoids (r.reg s).step = false)
    (hn : ∀ s, ∀ st ∈ (r'.reg s).nextStep, r'.step.avoids st = false) :
    r'.Sound cfg m kv Q comp entry := by
  have hstep : ∀ s, (r'.reg s).step = (r.reg s).step := fun s => by rw [hc s]
  exact {
    reg := fun s => by
      rw [hc s]
      exact { h.reg s with }
    seen := hs ▸ h.seen
    unused := fun s hs => (hstep s).trans (h.unused s hs)
    ended := fun hr s => (hstep s).trans (hd hr s)
    avoids := fun s => ⟨(hstep s).symm ▸ ha s, hn s⟩ }

theorem resetProgressMarkers (h : r.Sound cfg m kv Q comp entry) :
    r.resetProgressMarkers.Sound cfg m kv Q comp entry :=
  h.recast (fun s => by unfold MaxReg.Called; rfl) rfl h.ended (fun s => (h.avoids s).1)
    fun s => (h.avoids s).2

/-- A step is started with all registers done, or if no buffer is read, next to one in which
    none is read either. -/
theorem start {step : RelaxedStep} {call : MaxReg → MaxReg} (h : r.Sound cfg m kv Q comp entry)
    (hne : step ≠ .done) (hc : ∀ x, MaxReg.Called x (call x))
    (hn : ∀ x, ∀ st ∈ (call x).nextStep, step.avoids st = false)
    (hr : (∀ s, (r.reg s).step = .done) ∨ r.step.fetches = false ∧ step.fetches = false) :
    (r.start step call).Sound cfg m kv Q comp entry := by
  refine h.recast (fun s => ?_) rfl (fun hd => absurd hd hne) (fun s => ?_) fun s => hn (r.reg s)
  · have := hc (r.reg s)
    unfold MaxReg.Called at this ⊢
    simp only [RelaxedMaxReg.start]
    rw [this]
  · rcases hr with hr | ⟨hr, hs⟩
    · rw [hr s]
      unfold RelaxedStep.avoids
      split <;> rfl
    · have ha := (h.avoids s).1
      unfold RelaxedStep.avoids at ha ⊢
      rw [if_neg (by simp [hr])] at ha
      rwa [show (r.start step call).step = step from rfl, if_neg (by simp [hs])]

theorem finish (h : r.Sound cfg m kv Q comp entry) (hr : ∀ s, (r.reg s).step = .done) :
    (finish z r).2.Sound cfg m kv Q comp entry := by
  refine h.recast (fun s => by unfold MaxReg.Called; rfl) rfl (fun _ => hr) (fun s => ?_)
    fun s st hst => ?_
  · rw [hr s]
    rfl
  · obtain rfl := Option.some.inj hst
    rfl

end Sound

theorem doNext_avoids {step : RelaxedStep} {x : MaxReg} (st : RegStep)
    (h : step.avoids st = false) : ∀ st' ∈ (x.doNext z st).nextStep, step.avoids st' = false := by
  rintro st' ⟨⟩
  exact Bool.eq_false_iff.2 fun h' => absurd (h.symm.trans (avoids_of_settle h')) Bool.false_ne_true

/-- All registers are done once a majority is ready, but for a step that writes. -/
theorem Sound.done_of_ready (h : r'.Sound cfg m kv Q comp entry) (hne : r.step ≠ .write)
    (hu : r.usedServers cfg = cfg.servers kv) (hv : RelaxedMaxReg.visitAll cfg c z r = (z', r', n))
    (hn : cfg.majority ≤ n.ready) : ∀ s, (r'.reg s).step = .done := by
  intro s
  by_cases hs : s ∈ cfg.servers kv
  · obtain ⟨z₁, hd | ⟨hw, -⟩, -⟩ := ready_of_visitAll hu hv hn s hs
    · simp only [MaxReg.isDone, Bool.and_eq_true, decide_eq_true_eq] at hd
      exact hd.1
    · exact absurd hw hne
  · exact h.unused s hs

theorem Sound.done_of_done (h : r'.Sound cfg m kv Q comp entry)
    (hu : r.usedServers cfg = cfg.servers kv) (hv : RelaxedMaxReg.visitAll cfg c z r = (z', r', n))
    (hn : cfg.majority ≤ n.done) : ∀ s, (r'.reg s).step = .done := by
  intro s
  by_cases hs : s ∈ cfg.servers kv
  · have hd := done_of_visitAll hu hv hn s hs
    simp only [MaxReg.isDone, Bool.and_eq_true, decide_eq_true_eq] at hd
    exact hd.1
  · exact h.unused s hs

/-- What of a register neither calls nor stepping forward change, a step forward does not. -/
theorem Stepped.reg_induction {p : ℕ → MaxReg → Prop} {b : Bool}
    (hp : ∀ z s x, p s x → p s (MaxReg.tryStepForward cfg c s z x).2)
    (hc : ∀ s x next log mark, p s x →
      p s { x with nextStep := next, remoteLog := log, madeProgress := mark })
    (h : ∀ s, p s (r.reg s)) (hs : Stepped cfg c z r b z' r') : ∀ s, p s (r'.reg s) := by
  have hvisit : ∀ {z z₁ r r₁ n}, visitAll cfg c z r = (z₁, r₁, n) → (∀ s, p s (r.reg s)) →
      ∀ s, p s (r₁.reg s) := by
    intro z z₁ r r₁ n hv h
    refine visitAll_induction (I := fun _ r => ∀ s, p s (r.reg s)) h (fun z r n a _ h => ?_) hv
    obtain ⟨n', hv⟩ := @visit_eq cfg c z r n a
    rw [hv, relabel_reg]
    exact forall_setReg (hp _ _ _ (h a)) fun s _ => h s
  have hreset : ∀ {r : RelaxedMaxReg}, (∀ s, p s (r.reg s)) →
      ∀ s, p s (r.resetProgressMarkers.reg s) := fun h s => hc s _ _ _ false (h s)
  induction hs with
  | idle => exact hreset h
  | waits _ hv => exact hvisit hv h
  | progresses _ hv | linearizes _ hv => exact hreset (hvisit hv h)
  | @reads _ _ _ _ r₁ _ _ _ _ _ hv _ _ hr _ ih =>
    obtain ⟨log, -, rfl⟩ := Option.map_eq_some_iff.1 hr
    exact ih fun s => hc s (r₁.resetProgressMarkers.reg s) _ log false (hreset (hvisit hv h) s)
  | writes _ hv | finishes _ hv | inPlace _ hv | readsLog _ hv =>
    exact fun s => hc s _ _ _ _ (hreset (hvisit hv h) s)

theorem Stepped.usedServers {b : Bool} (hs : Stepped cfg c z r b z' r') :
    r'.usedServers cfg = r.usedServers cfg :=
  usedServers_congr <| hs.reg_induction (p := fun s x => x.lazynessLevel = (r.reg s).lazynessLevel)
    (fun _ _ _ h => MaxReg.tryStepForward_reg.1.trans h) (fun _ _ _ _ _ h => h) fun _ => rfl

/-- A step forward keeps what is known. -/
theorem Sound.stepped (hm : validateTsp m = m) {b : Bool} (hs : Stepped cfg c z r b z' r')
    (hu : r.step ≠ .done → r.usedServers cfg = cfg.servers kv)
    (h : r.Sound cfg m kv (z.pending P) comp z.entry) :
    r'.Sound cfg m kv (z'.pending P) comp z'.entry := by
  induction hs with
  | idle => exact h.resetProgressMarkers
  | waits hne hv => exact h.visitAll hm (hu hne) hne hv
  | progresses hne hv => exact (h.visitAll hm (hu hne) hne hv).resetProgressMarkers
  | @linearizes _ _ r r₁ _ hw hv =>
    have hne : r.step ≠ .done := by simp [hw]
    have h₁ := h.visitAll hm (hu hne) hne hv
    have ha := h₁.avoids
    rw [(visitAll_step hv).trans hw] at ha
    exact h₁.recast (fun s => by unfold MaxReg.Called; rfl) rfl RelaxedStep.noConfusion
      (fun s => (ha s).1) fun s => (ha s).2
  | @writes _ _ r _ _ hw hv _ hd =>
    have hne : r.step ≠ .done := by simp [hw]
    have h₁ := h.visitAll hm (hu hne) hne hv
    exact h₁.resetProgressMarkers.finish (h₁.done_of_done (hu hne) hv hd)
  | @finishes _ _ r _ _ hst hv hr =>
    have hne : r.step ≠ .done := fun hd => by simp [hd] at hst
    have hnw : r.step ≠ .write := fun hd => by simp [hd] at hst
    have h₁ := h.visitAll hm (hu hne) hne hv
    exact h₁.resetProgressMarkers.finish (h₁.done_of_ready hnw (hu hne) hv hr)
  | @inPlace _ _ r _ _ _ hst hv hr =>
    have hne : r.step ≠ .done := by simp [hst]
    have h₁ := h.visitAll hm (hu hne) hne hv
    exact Sound.finish { h₁.resetProgressMarkers with }
      (h₁.done_of_ready (by simp [hst]) (hu hne) hv hr)
  | @reads _ _ _ r _ _ _ _ _ hst hv hr _ hl _ ih =>
    have hne : r.step ≠ .done := by simp [hst]
    have h₁ := h.visitAll hm (hu hne) hne hv
    have hu₁ := (Stepped.progresses hne hv).usedServers.trans (hu hne)
    obtain ⟨log, -, rfl⟩ := Option.map_eq_some_iff.1 hl
    exact ih (fun _ => hu₁) (h₁.resetProgressMarkers.start RelaxedStep.noConfusion
      (fun x => by unfold MaxReg.Called; rfl) (fun x => doNext_avoids .readLog rfl)
      (.inl (h₁.done_of_ready (by simp [hst]) (hu hne) hv hr)))
  | @readsLog _ z₁ r r₁ _ hst hv hr =>
    have hne : r.step ≠ .done := by simp [hst]
    have h₁ := h.visitAll hm (hu hne) hne hv
    have h₂ : ({ r₁.resetProgressMarkers with
        readEntry := (logEntry cfg z₁ r₁.resetProgressMarkers).getD r₁.readEntry } :
          RelaxedMaxReg).Sound cfg m kv (z₁.pending P) comp z₁.entry :=
      { h₁.resetProgressMarkers with }
    exact Sound.finish (h₂.relabelled hm (Relabelled.setTsp (le_max_of_le_right h₁.seen)))
      (h₁.done_of_ready (by simp [hst]) (hu hne) hv hr)

/-! ### Registers that wait -/

theorem relabel_le : r.maxSeenTsp ≤ (relabel s z r).2.maxSeenTsp ∧
    (r.reg s).maxSeenTsp ≤ (relabel s z r).2.maxSeenTsp := by
  unfold relabel
  dsimp only
  split
  · next h => exact ⟨h.elim le_of_lt fun h => h.1.le, le_rfl⟩
  · next h => exact ⟨le_rfl, not_lt.1 fun hlt => h (.inl hlt)⟩

/-- All that a register has seen, that of all servers has seen once the register was
    visited. -/
theorem visit_le : r.maxSeenTsp ≤ (visit cfg c (z, r, n) s).2.1.maxSeenTsp ∧
    ((visit cfg c (z, r, n) s).2.1.reg s).maxSeenTsp ≤
      (visit cfg c (z, r, n) s).2.1.maxSeenTsp := by
  obtain ⟨n', hv⟩ := @visit_eq cfg c z r n s
  have hle := @relabel_le s ((r.reg s).tryStepForward cfg c s z).1
    (r.setReg s ((r.reg s).tryStepForward cfg c s z).2)
  rw [hv, relabel_reg]
  exact hle

theorem visitAll_le (hv : visitAll cfg c z r = (z', r', n)) : r.maxSeenTsp ≤ r'.maxSeenTsp ∧
    ∀ s ∈ r.usedServers cfg, (r'.reg s).maxSeenTsp ≤ r'.maxSeenTsp := by
  have : ∀ (l : List ℕ) (acc : Local × RelaxedMaxReg × Counts),
      acc.2.1.maxSeenTsp ≤ (l.foldl (visit cfg c) acc).2.1.maxSeenTsp ∧
      ∀ s, s ∈ l ∨ (acc.2.1.reg s).maxSeenTsp ≤ acc.2.1.maxSeenTsp →
        ((l.foldl (visit cfg c) acc).2.1.reg s).maxSeenTsp ≤
          (l.foldl (visit cfg c) acc).2.1.maxSeenTsp := by
    intro l
    induction l with
    | nil => exact fun acc => ⟨le_rfl, fun s hs => hs.elim nofun id⟩
    | cons a l ih =>
      rintro ⟨z, r, n⟩
      obtain ⟨hle, hl⟩ := ih (visit cfg c (z, r, n) a)
      obtain ⟨hle₁, hle₂⟩ := @visit_le cfg c a z r n
      refine ⟨hle₁.trans hle, fun s hs => hl s ?_⟩
      by_cases ha : s = a
      · subst ha
        exact .inr hle₂
      · obtain hs | hs := hs
        · exact .inl ((List.mem_cons.1 hs).resolve_left ha)
        · rw [visit_reg_of_ne ha]
          exact .inr (hs.trans hle₁)
  have := this (r.usedServers cfg) (z, r, ⟨0, 0, 0⟩)
  rw [← visitAll, hv] at this
  exact ⟨this.1, fun s hs => this.2 s (.inl hs)⟩

/-- What was seen only grows, and once stepped forward, it is all that the registers have. -/
theorem Stepped.seen {b : Bool} (hs : Stepped cfg c z r b z' r') : r.maxSeenTsp ≤ r'.maxSeenTsp ∧
    (r.step ≠ .done → ∀ s ∈ r.usedServers cfg, (r'.reg s).maxSeenTsp ≤ r'.maxSeenTsp) := by
  induction hs with
  | idle hd => exact ⟨le_rfl, fun hne => absurd hd hne⟩
  | @reads _ _ _ r r₁ _ _ _ _ hst hv _ _ hl _ ih =>
    have hu : r₁.usedServers cfg = r.usedServers cfg :=
      (Stepped.progresses (by simp [hst]) hv).usedServers
    obtain ⟨log, -, rfl⟩ := Option.map_eq_some_iff.1 hl
    exact ⟨(visitAll_le hv).1.trans ih.1, fun _ s hs => ih.2 RelaxedStep.noConfusion s (hu ▸ hs)⟩
  | waits _ hv | progresses _ hv | linearizes _ hv | writes _ hv | finishes _ hv | inPlace _ hv
  | readsLog _ hv => exact ⟨(visitAll_le hv).1, fun _ => (visitAll_le hv).2⟩

end RelaxedMaxReg

/-- A register has nothing to take in until something is polled. -/
def MaxReg.Calm (x : MaxReg) : Prop := x.step = .done ∨ x.waits

/-- A calm register takes in nothing when it is stepped forward, and is calm again. -/
theorem MaxReg.Calm.tryStepForward {x : MaxReg} (h : x.Calm) :
    (tryStepForward cfg c s z x).2.Calm ∧
      (MaxReg.tryStepForward cfg c s z x).2.maxSeenTsp = x.maxSeenTsp := by
  cases hw : x.waits with
  | true =>
    rw [tryStepForward_of_waits hw]
    exact ⟨h, rfl⟩
  | false =>
    have hd : x.step = .done := h.resolve_right (by simp [hw])
    obtain ⟨step, mark, -, heq⟩ := @tryStepForward_eq cfg c s z x hw
    rw [heq, refresh_of_done hd]
    unfold transitionTo
    dsimp only
    split
    · next hst => exact ⟨.inl hst, rfl⟩
    · next hst =>
      refine ⟨.inr ?_, rfl⟩
      have hpos := @requests_signaled cfg z { x with nextStep := none, madeProgress := mark } _ hst
      rw [List.countP_eq_length_filter] at hpos
      simp only [waits, if_true, decide_eq_true_eq, gt_iff_lt]
      omega

namespace RelaxedMaxReg

/-- All registers in use are calm, and what they have seen was taken over. -/
def Calm (cfg : Layout) (kv : ℕ) (r : RelaxedMaxReg) : Prop :=
  ∀ s ∈ cfg.servers kv, (r.reg s).Calm ∧ (r.reg s).maxSeenTsp ≤ r.maxSeenTsp

/-- Stepping forward, registers that are calm see nothing. -/
theorem Calm.stepped {b : Bool} (hs : Stepped cfg c z r b z' r')
    (hu : r.step ≠ .done → r.usedServers cfg = cfg.servers kv) (h : r.Calm cfg kv) :
    r'.Calm cfg kv ∧ r'.maxSeenTsp = r.maxSeenTsp := by
  have hvisit : ∀ {z z₁ r r₁ n}, r.usedServers cfg = cfg.servers kv → r.Calm cfg kv →
      visitAll cfg c z r = (z₁, r₁, n) → r₁.Calm cfg kv ∧ r₁.maxSeenTsp = r.maxSeenTsp := by
    intro z z₁ r r₁ n hu h hv
    refine visitAll_induction (I := fun _ r₁ => r₁.Calm cfg kv ∧ r₁.maxSeenTsp = r.maxSeenTsp)
      ⟨h, rfl⟩ (fun z r₁ n s hs h => ?_) hv
    rw [hu] at hs
    obtain ⟨hx, hseen⟩ := @MaxReg.Calm.tryStepForward cfg c s z _ (h.1 s hs).1
    have hle := (h.1 s hs).2
    obtain ⟨n', hv⟩ := @visit_eq cfg c z r₁ n s
    have hmax : (visit cfg c (z, r₁, n) s).2.1.maxSeenTsp = r₁.maxSeenTsp := by
      rw [hv]
      obtain hr | ⟨hge, hr⟩ := @relabel_eq_or ((r₁.reg s).tryStepForward cfg c s z).1
        (r₁.setReg s ((r₁.reg s).tryStepForward cfg c s z).2) s
      · rw [hr]
        rfl
      · rw [hr]
        simp only [setReg_self, setReg_maxSeenTsp] at hge ⊢
        omega
    refine ⟨fun s' hs' => ?_, hmax.trans h.2⟩
    rw [hmax]
    by_cases heq : s' = s
    · subst heq
      rw [hv, relabel_reg, setReg_self, hseen]
      exact ⟨hx, hle⟩
    · rw [visit_reg_of_ne heq]
      exact h.1 s' hs'
  induction hs with
  | idle => exact ⟨h, rfl⟩
  | @reads _ _ _ r r₁ _ _ _ _ hst hv _ _ hl _ ih =>
    have hne : r.step ≠ .done := by simp [hst]
    have hu₁ := (Stepped.progresses hne hv).usedServers.trans (hu hne)
    obtain ⟨h₁, hmax⟩ := hvisit (hu hne) h hv
    obtain ⟨log, -, rfl⟩ := Option.map_eq_some_iff.1 hl
    obtain ⟨h₂, hmax₂⟩ := ih (fun _ => hu₁) h₁
    exact ⟨h₂, hmax₂.trans hmax⟩
  | waits hne hv => exact hvisit (hu hne) h hv
  | progresses hne hv =>
    obtain ⟨h₁, hmax⟩ := hvisit (hu hne) h hv
    exact ⟨h₁, hmax⟩
  | linearizes hst hv | writes hst hv | inPlace hst hv | readsLog hst hv =>
    obtain ⟨h₁, hmax⟩ := hvisit (hu (by simp [hst])) h hv
    exact ⟨h₁, hmax⟩
  | finishes hst hv =>
    obtain ⟨h₁, hmax⟩ := hvisit (hu fun hd => by simp [hd] at hst) h hv
    exact ⟨h₁, hmax⟩

end RelaxedMaxReg

end DiscoSkip.SwarmKv
