import DiscoSkip.Conn.Keys
import DiscoSkip.Lib.Barrier
import Mathlib.Data.List.Nodup
import Mathlib.Data.Prod.Lex

/-!
# The order of the calls

What makes the processes wait for each other the right way is the order of their calls
(`Ordered`): where a process says that it is ready, where it waits for the others, and
where it takes back what it has said. The calls of a client number the stages of a run,
and a server goes through the same ones but one (`stage`).

Each reason that is waited for is a barrier (`barriers`). Some of the keys are only removed
in the next run: that of `finished`, and that of `connected` of the index.
-/

namespace DiscoSkip.Exchange

/-- The call that a step is a part of. -/
def Op.call : Op → Call
  | .construct t => ⟨t, .construct⟩
  | .configure t _ => ⟨t, .configureAll⟩
  | .announce t _ => ⟨t, .announceAll⟩
  | .announceReady t r => ⟨t, .announceReady r⟩
  | .waitReady t _ r => ⟨t, .waitReadyAll r⟩
  | .unannounceReady t r => ⟨t, .unannounceReady r⟩
  | .connect t _ => ⟨t, .connectAll⟩
  | .unannounce t _ => ⟨t, .unannounceAll⟩
  | .workerDone _ => ⟨.qp, .workerDone⟩
  | .awaitWorker _ => ⟨.qp, .awaitWorkers⟩

/-- The id that a step is for, in most cases that of a remote process. -/
def Op.remote : Op → Option ℕ
  | .configure _ q | .announce _ q | .waitReady _ q _ | .connect _ q | .unannounce _ q => some q
  | .workerDone w => some w
  | .awaitWorker i => some i
  | .construct _ | .announceReady _ _ | .unannounceReady _ _ => none

theorem mem_ops {ids : Call → List ℕ} {c : Call} {op : Op} :
    op ∈ c.ops ids ↔ op.call = c ∧ ∀ q ∈ op.remote, q ∈ ids c := by
  obtain ⟨t, m⟩ := c
  cases m <;> cases t <;> cases op <;> simp [Call.ops, Op.call, Op.remote] <;> grind

theorem nodup_ops {ids : Call → List ℕ} {c : Call} (h : (ids c).Nodup) : (c.ops ids).Nodup := by
  obtain ⟨t, m⟩ := c
  cases m with
  | construct | announceReady | unannounceReady => exact List.nodup_singleton _
  | configureAll | announceAll | waitReadyAll | connectAll | unannounceAll =>
    refine h.map fun q q' hq => ?_
    injection hq
  | workerDone | awaitWorkers =>
    cases t with
    | qp =>
      refine h.map fun q q' hq => ?_
      injection hq
    | race => exact List.nodup_nil

/-! ## Stages -/

/-- The number of a call in the run of a client. -/
def stage (calls : Bool → List Call) (c : Call) : ℕ := (calls true).idxOf c

/-- The stage of a barrier at which a process raises its flag, by the reason of it. -/
def raiseStage (calls : Bool → List Call) (i : Topic × Reason) : ℕ :=
  stage calls ⟨i.1, .announceReady i.2⟩

def awaitStage (calls : Bool → List Call) (i : Topic × Reason) : ℕ :=
  stage calls ⟨i.1, .waitReadyAll i.2⟩

def lowerStage (calls : Bool → List Call) (i : Topic × Reason) : ℕ :=
  stage calls ⟨i.1, .unannounceReady i.2⟩

/-- In how many runs after the one in which it is raised a flag is lowered. -/
def carry (calls : Bool → List Call) (i : Topic × Reason) : ℕ :=
  if lowerStage calls i < raiseStage calls i then 1 else 0

/-- The reasons that are waited for. -/
def flags (calls : Bool → List Call) : List (Topic × Reason) :=
  [(.qp, .prepared), (.qp, .connected), (.qp, .initialized), (.qp, .finished), (.race, .prepared),
    (.race, .connected)].filter fun i => ⟨i.1, .waitReadyAll i.2⟩ ∈ calls true

/-- What only clients do: the wait for the others to be initialized, and the workload. -/
def Method.clientsOnly : Method → Bool
  | .waitReadyAll r => r = .initialized
  | .workerDone | .awaitWorkers => true
  | .construct | .configureAll | .announceAll | .announceReady _ | .unannounceReady _
  | .connectAll | .unannounceAll => false

/-- The wait at `g` is one for all those that are waited for at `i`, and by all of them. -/
def Covers (i g : Topic × Reason) : Prop :=
  (g.1 = .qp ∨ g.1 = i.1) ∧ g.2 ≠ .initialized

instance (i g : Topic × Reason) : Decidable (Covers i g) := inferInstanceAs (Decidable (_ ∧ _))

/-- The time at a stage of a run. -/
abbrev Time := ℕ ×ₗ ℕ

/-- What is asked of the order of the calls. -/
structure Ordered (calls : Bool → List Call) : Prop where
  /-- The calls of a server come in the same order as those of a client, -/
  sorted : ∀ b, (calls b).Pairwise fun c c' => stage calls c < stage calls c'
  sub : ∀ c ∈ calls false, c ∈ calls true
  /-- and only what clients do is left out. -/
  uniform : ∀ c ∈ calls true, c.method.clientsOnly = false → c ∈ calls false
  /-- Everything that is set is removed, and the other way round. -/
  announce : ∀ t, (⟨t, .announceAll⟩ ∈ calls true ↔ ⟨t, .unannounceAll⟩ ∈ calls true) ∧
    stage calls ⟨t, .announceAll⟩ ≤ stage calls ⟨t, .unannounceAll⟩
  ready : ∀ t r, ⟨t, .announceReady r⟩ ∈ calls true ↔ ⟨t, .unannounceReady r⟩ ∈ calls true
  /-- Queue pairs are configured first. -/
  configure : ∀ t, ∀ m ∈ [Method.announceAll, .connectAll, .unannounceAll], ⟨t, m⟩ ∈ calls true →
    ⟨t, .configureAll⟩ ∈ calls true ∧ stage calls ⟨t, .configureAll⟩ < stage calls ⟨t, m⟩
  /-- A process connects to the others between waiting for them to be prepared and saying
      that it is connected. -/
  connect : ∀ t, ⟨t, .connectAll⟩ ∈ calls true →
    (t, .prepared) ∈ flags calls ∧ (t, .connected) ∈ flags calls ∧ ⟨t, .announceAll⟩ ∈ calls true ∧
    stage calls ⟨t, .announceAll⟩ < raiseStage calls (t, .prepared) ∧
    awaitStage calls (t, .prepared) < stage calls ⟨t, .connectAll⟩ ∧
    stage calls ⟨t, .connectAll⟩ ≤ raiseStage calls (t, .connected) ∧
    awaitStage calls (t, .connected) < stage calls ⟨t, .unannounceAll⟩
  /-- What is waited for is said before. -/
  raise_lt : ∀ i ∈ flags calls, ⟨i.1, .announceReady i.2⟩ ∈ calls true ∧
    raiseStage calls i < awaitStage calls i
  before : ∀ i ∈ flags calls, ∃ g ∈ flags calls, ∃ d ∈ [0, 1], Covers i g ∧
    (toLex (carry calls i, lowerStage calls i) : Time) ≤ toLex (d, raiseStage calls g) ∧
    (toLex (d, awaitStage calls g) : Time) < toLex (1, awaitStage calls i)
  after : ∀ i ∈ flags calls, ∃ h ∈ flags calls, ∃ d ∈ [0, 1], Covers i h ∧
    (toLex (0, awaitStage calls i) : Time) ≤ toLex (d, raiseStage calls h) ∧
    (toLex (d, awaitStage calls h) : Time) ≤ toLex (carry calls i, lowerStage calls i)
  /-- The workers say that they are done before the tracker asks for them. -/
  workers : ⟨.qp, .awaitWorkers⟩ ∈ calls true →
    stage calls ⟨.qp, .workerDone⟩ < stage calls ⟨.qp, .awaitWorkers⟩

theorem Program.ordered (P : Program) : Ordered P.calls := by
  cases P <;> exact {
    sorted := by decide
    sub := by decide
    uniform := by decide
    announce := by intro t; cases t <;> decide
    ready := by intro t r; cases t <;> cases r <;> decide
    configure := by intro t; cases t <;> decide
    connect := by intro t; cases t <;> decide
    raise_lt := by decide
    before := by decide
    after := by decide
    workers := by decide }

/-! ## The processes -/

namespace Deployment

variable {D : Deployment} {p q : ℕ} {t : Topic}

theorem mem_remote_ids_qp : q ∈ D.remote_ids p .qp ↔ D.Proc q ∧ q ≠ p := by
  simp only [remote_ids, List.mem_filter, List.mem_range'_1, decide_eq_true_eq, Proc]
  omega

theorem mem_remote_ids_race (hp : D.Proc p) :
    q ∈ D.remote_ids p .race ↔ D.Proc q ∧ D.isClient q ≠ D.isClient p := by
  rw [remote_ids]
  by_cases h : D.isClient p
  · rw [if_pos h, List.mem_range'_1, h]
    simp only [isClient, decide_eq_true_eq, Proc, num_proc, ne_eq] at *
    omega
  · rw [if_neg h, List.mem_range'_1]
    simp only [isClient, decide_eq_true_eq, Proc, num_proc, ne_eq, decide_eq_decide] at *
    omega

/-- The remote processes of a process are others, which have it as a remote process. -/
theorem remote_symm (hp : D.Proc p) (hq : q ∈ D.remote_ids p t) :
    D.Proc q ∧ q ≠ p ∧ p ∈ D.remote_ids q t := by
  cases t with
  | qp =>
    obtain ⟨hq, hne⟩ := mem_remote_ids_qp.1 hq
    exact ⟨hq, hne, mem_remote_ids_qp.2 ⟨hp, hne.symm⟩⟩
  | race =>
    obtain ⟨hq, hne⟩ := (mem_remote_ids_race hp).1 hq
    exact ⟨hq, fun h => hne (h ▸ rfl), (mem_remote_ids_race hq).2 ⟨hp, hne.symm⟩⟩

theorem mem_remote_of_cover (hp : D.Proc p) {u : Topic} (hq : q ∈ D.remote_ids p t)
    (h : u = .qp ∨ u = t) : q ∈ D.remote_ids p u := by
  rcases h with rfl | rfl
  · obtain ⟨hq, hne, _⟩ := remote_symm hp hq
    exact mem_remote_ids_qp.2 ⟨hq, hne⟩
  · exact hq

theorem nodup_remote_ids (p : ℕ) (t : Topic) : (D.remote_ids p t).Nodup := by
  cases t with
  | qp => exact List.Nodup.filter _ List.nodup_range'
  | race =>
    rw [remote_ids]
    split <;> exact List.nodup_range'

theorem nodup_ids (p n : ℕ) (c : Call) : (D.ids p n c).Nodup := by
  obtain ⟨t, m⟩ := c
  cases m with
  | workerDone =>
    change (ite _ _ _ : List ℕ).Nodup
    split
    · exact List.nodup_singleton _
    · exact List.nodup_nil
  | awaitWorkers =>
    change (ite _ _ _ : List ℕ).Nodup
    split
    · exact List.nodup_range'
    · exact List.nodup_nil
  | construct | configureAll | announceAll | announceReady | waitReadyAll | unannounceReady
  | connectAll | unannounceAll => exact D.nodup_remote_ids p t

end Deployment

/-! ## The barriers -/

namespace Ordered

variable {calls : Bool → List Call} (h : Ordered calls)

include h

/-- All other calls are made by clients and servers. -/
theorem mem_calls {c : Call} (hc : c ∈ calls true) (hno : c.method.clientsOnly = false)
    (b : Bool) : c ∈ calls b := by
  cases b with
  | false => exact h.uniform c hc hno
  | true => exact hc

theorem mem_true {c : Call} {b : Bool} (hc : c ∈ calls b) : c ∈ calls true := by
  cases b with
  | false => exact h.sub c hc
  | true => exact hc

end Ordered

theorem mem_of_flag {calls : Bool → List Call} {i : Topic × Reason} (hi : i ∈ flags calls) :
    ⟨i.1, .waitReadyAll i.2⟩ ∈ calls true :=
  of_decide_eq_true (List.mem_filter.1 hi).2

/-- Times of runs are compared as the stages of one run, and one after it. -/
theorem time_le {a b x y r : ℕ} (h : (toLex (a, x) : Time) ≤ toLex (b, y)) :
    (toLex (r + a, x) : Time) ≤ toLex (r + b, y) := by
  rw [Prod.Lex.le_iff] at h ⊢
  exact h.imp (Nat.add_lt_add_left · r) (And.imp_left fun hab => congrArg (r + ·) hab)

theorem time_lt {a b x y r : ℕ} (h : (toLex (a, x) : Time) < toLex (b, y)) :
    (toLex (r + a, x) : Time) < toLex (r + b, y) := by
  rw [Prod.Lex.lt_iff] at h ⊢
  exact h.imp (Nat.add_lt_add_left · r) (And.imp_left fun hab => congrArg (r + ·) hab)

/-- A process waits for its remote processes, if it makes the call. -/
def Deployment.WaitsFor (D : Deployment) (i : Topic × Reason) (p q : ℕ) : Prop :=
  D.Proc p ∧ ⟨i.1, .waitReadyAll i.2⟩ ∈ D.calls (D.isClient p) ∧ q ∈ D.remote_ids p i.1

/-- Where all wait, they wait for each other. -/
theorem Deployment.waitsFor {D : Deployment} (h : Ordered D.calls) {i : Topic × Reason}
    (hi : i ∈ flags D.calls) (hne : i.2 ≠ .initialized) {p q : ℕ} (hp : D.Proc p)
    (hq : q ∈ D.remote_ids p i.1) : D.WaitsFor i p q ∧ D.WaitsFor i q p := by
  have hmem := h.mem_calls (mem_of_flag hi) (decide_eq_false hne)
  obtain ⟨hpq, -, hp'⟩ := remote_symm hp hq
  exact ⟨⟨hp, hmem _, hq⟩, hpq, hmem _, hp'⟩

theorem Deployment.WaitsFor.cover {D : Deployment} (h : Ordered D.calls) {i g : Topic × Reason}
    (hg : g ∈ flags D.calls) (hig : Covers i g) {p q : ℕ} (hpq : D.WaitsFor i p q) :
    D.WaitsFor g p q ∧ D.WaitsFor g q p :=
  waitsFor h hg hig.2 hpq.1 (mem_remote_of_cover hpq.1 hpq.2.2 hig.1)

/-- The barriers of a deployment: the runs are numbered from 1. -/
def Deployment.barriers (D : Deployment) (h : Ordered D.calls) :
    Lib.Barriers {i // i ∈ flags D.calls} ℕ Time where
  barrier i := {
    raise r := toLex (r + 1, raiseStage D.calls i)
    await r := toLex (r + 1, awaitStage D.calls i)
    lower r := toLex (r + 1 + carry D.calls i, lowerStage D.calls i) }
  WaitsFor i := D.WaitsFor i
  raise_mono _ r s hrs := by
    rw [Prod.Lex.le_iff]
    exact hrs.lt_or_eq.imp Nat.succ_lt_succ fun heq => ⟨congrArg (· + 1) heq, le_rfl⟩
  lower_mono _ r s hrs := by
    rw [Prod.Lex.le_iff]
    refine hrs.lt_or_eq.imp (fun hlt => ?_) fun heq => ⟨congrArg (· + 1 + _) heq, le_rfl⟩
    exact Nat.add_lt_add_right (Nat.succ_lt_succ hlt) _
  raise_lt i r := Prod.Lex.lt_iff.2 (.inr ⟨rfl, (h.raise_lt i i.2).2⟩)
  before i r := by
    obtain ⟨g, hg, d, hd, hcov, hle, hlt⟩ := h.before i i.2
    refine ⟨⟨g, hg⟩, r + d, fun p q hpq => (hpq.cover h hg hcov).1, ?_, ?_⟩
    · have := time_le (r := r + 1) hle
      rwa [Nat.add_right_comm r 1 d] at this
    · have := time_lt (r := r + 1) hlt
      rwa [Nat.add_right_comm r 1 d] at this
  after i r := by
    obtain ⟨g, hg, d, hd, hcov, hle, hle'⟩ := h.after i i.2
    refine ⟨⟨g, hg⟩, r + d, fun p q hpq => (hpq.cover h hg hcov).2, ?_, ?_⟩
    · have := time_le (r := r + 1) hle
      rwa [Nat.add_right_comm r 1 d] at this
    · have := time_le (r := r + 1) hle'
      rwa [Nat.add_right_comm r 1 d] at this

end DiscoSkip.Exchange
