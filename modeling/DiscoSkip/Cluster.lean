import DiscoSkip.Client
import DiscoSkip.Lib.Machine

/-!
# The cluster

The servers are passive: a replica is a table of cells, one for every key. The
clients run Puts and Gets on them, over a network which holds the requests
posted and not executed yet, at most one for every future and server.

The cluster is a machine (`Cluster.machine`). Its actions are those of the
clients' program, starting an operation on an idle future and stepping a
future, and those of the network, executing one posted request: an atomic step
on one cell, which writes what it finds into the scratchpad of the future and
completes the request. A completion may be taken late in the program; here, the
next step of the future is late instead.

The events of a run record what the operations did: the cells they read and
CASed, and the register each of them ends with.
-/

namespace DiscoSkip

open Function

/-- The state of the cluster. -/
structure Cluster where
  /-- The cell of a server and a key. -/
  cells : ℕ → ℕ → Register := fun _ _ => .zero
  clients : ℕ → DsClient := fun _ => {}
  /-- The request in flight from a client's future to a server. -/
  inflight : ℕ → ℕ → ℕ → Option Rdma := fun _ _ _ => none

/-- What can happen in the cluster: future `f` of client `c` starts a Put of `v`
    to the key `k`, or a Get of it; its request to the server `r` is executed; it
    steps forward. -/
inductive Action
  | doPut (c f k : ℕ) (v : UInt64)
  | doGet (c f k : ℕ)
  | rdma (c f r : ℕ)
  | tryStepForward (c f : ℕ)
  deriving DecidableEq, Repr

/-- What has happened in the cluster, to future `f` of client `c`. -/
inductive Event
  | invokePut (c f k : ℕ) (v : UInt64)
  | invokeGet (c f k : ℕ)
  /-- A read of the cell of the key `k` on the server `r`. -/
  | read (c f r k : ℕ) (found : Register)
  /-- A CAS of the cell of the key `k` on the server `r`, successful if it found
      the register expected. -/
  | cas (c f r k : ℕ) (kind : Kind) (expected swap found : Register)
  /-- A step that ends no operation. -/
  | stepped (c f : ℕ)
  /-- A Get has found its maximum, and is to write it back. -/
  | getMax (c f k : ℕ) (maxReg : Register)
  | putDone (c f k : ℕ) (value : UInt64) (target : Register)
  | getDone (c f k : ℕ) (maxReg : Register) (value : UInt64)
  deriving DecidableEq, Repr

namespace Cluster

variable (L : Layout) (s : Cluster)

def setClient (c : ℕ) (cl : DsClient) : Cluster := { s with clients := update s.clients c cl }

def setInflight (c f r : ℕ) (op : Option Rdma) : Cluster :=
  { s with inflight := update s.inflight c (update (s.inflight c) f
      (update (s.inflight c f) r op)) }

def setCell (r k : ℕ) (reg : Register) : Cluster :=
  { s with cells := update s.cells r (update (s.cells r) k reg) }

/-- The requests `wrs` of a future go in flight. -/
def send (c f : ℕ) (wrs : List Wr) : Cluster :=
  wrs.foldl (fun s w => s.setInflight c f w.server (some w.op)) s

/-- The completion of a request of a future to the server `r`: it is no longer
    in flight, the scratchpad is changed, and the client is credited. -/
def complete (c f r : ℕ) (bufs : Scratch) : Cluster :=
  let cl := s.clients c
  let cl := { cl with scratch := update cl.scratch f bufs }
  (s.setClient c (cl.complete f r)).setInflight c f r none

/-- The execution of the request `op` of a future on the server `r`. -/
def execute (c f r : ℕ) : Rdma → Option (Event × Cluster)
  | .read k =>
    let found := s.cells r k
    let bufs := (s.clients c).scratch f
    some (.read c f r k found,
      s.complete c f r { bufs with readBufs := update bufs.readBufs r found })
  | .cas k expected swap =>
    let found := s.cells r k
    let bufs := (s.clients c).scratch f
    let s' := if found = expected then s.setCell r k swap else s
    some (.cas c f r k ((s.clients c).futures f).kind expected swap found,
      s'.complete c f r { bufs with swapBufs := update bufs.swapBufs r found })
  | .bulk _ _ => none

/-- What a step forward, from `o` to `o'`, is seen as. -/
def stepEvent (c f : ℕ) (o o' : OpFuture) : Event :=
  match o.kind with
  | .put =>
    if o.putF.step ≠ .done ∧ o'.putF.step = .done then
      .putDone c f o'.putF.key o'.putF.value o'.putF.targetReg
    else .stepped c f
  | .get =>
    if o.getF.step ≠ .done ∧ o'.getF.step = .done then
      .getDone c f o'.getF.key o'.getF.maxReg o'.getF.getValue
    else if o.getF.step = .reading ∧ o'.getF.step = .writingBack then
      .getMax c f o'.getF.key o'.getF.maxReg
    else .stepped c f
  | _ => .stepped c f

/-- The step of an action, if it is enabled. -/
def step : Action → Option (Event × Cluster)
  | .doPut c f k v =>
    if c < L.numClients ∧ f < L.asyncParallelism ∧ ((s.clients c).futures f).isDone then
      let (cl, wrs) := (s.clients c).doPut (.ofClient L c) f k v
      some (.invokePut c f k v, (s.setClient c cl).send c f wrs)
    else none
  | .doGet c f k =>
    if c < L.numClients ∧ f < L.asyncParallelism ∧ ((s.clients c).futures f).isDone then
      let (cl, wrs) := (s.clients c).doGet (.ofClient L c) f k
      some (.invokeGet c f k, (s.setClient c cl).send c f wrs)
    else none
  | .rdma c f r =>
    match s.inflight c f r with
    | some op => s.execute c f r op
    | none => none
  | .tryStepForward c f =>
    if c < L.numClients ∧ f < L.asyncParallelism then
      let (cl, wrs) := (s.clients c).tryStepForward (.ofClient L c) f
      some (stepEvent c f ((s.clients c).futures f) (cl.futures f),
        (s.setClient c cl).send c f wrs)
    else none

/-- The cluster of the layout `L`, all cells zero and all futures idle. -/
def machine : Lib.Machine Cluster Action Event := ⟨{}, Cluster.step L⟩

/-- Every step is admitted. -/
def Any : Cluster → Action → Prop := fun _ _ => True

instance (s : Cluster) (act : Action) : Decidable (Any s act) := .isTrue trivial

variable {L s}

/-- The events an action can cause. -/
theorem step_cases {s' : Cluster} {act : Action} {e : Event} (h : s.step L act = some (e, s')) :
    (∃ c f k v, act = .doPut c f k v ∧ e = .invokePut c f k v) ∨
    (∃ c f k, act = .doGet c f k ∧ e = .invokeGet c f k) ∨
    (∃ c f r k x, act = .rdma c f r ∧ e = .read c f r k x) ∨
    (∃ c f r k kd x t y, act = .rdma c f r ∧ e = .cas c f r k kd x t y) ∨
    ∃ c f, act = .tryStepForward c f ∧ e = stepEvent c f ((s.clients c).futures f)
      (((s.clients c).futures f).tryStepForward (.ofClient L c) ((s.clients c).scratch f)
        (s.clients c).state).2.future := by
  cases act with
  | doPut c f k v =>
    simp only [step] at h
    split at h
    · exact .inl ⟨c, f, k, v, rfl, (congrArg Prod.fst (Option.some.inj h)).symm⟩
    · exact absurd h (by simp)
  | doGet c f k =>
    simp only [step] at h
    split at h
    · exact .inr (.inl ⟨c, f, k, rfl, (congrArg Prod.fst (Option.some.inj h)).symm⟩)
    · exact absurd h (by simp)
  | rdma c f r =>
    simp only [step] at h
    split at h
    · next op _ =>
      cases op with
      | read k =>
        exact .inr (.inr (.inl ⟨c, f, r, k, _, rfl, (congrArg Prod.fst (Option.some.inj h)).symm⟩))
      | cas k x t =>
        exact .inr (.inr (.inr (.inl
          ⟨c, f, r, k, _, x, t, _, rfl, (congrArg Prod.fst (Option.some.inj h)).symm⟩)))
      | bulk => exact absurd h (by simp [execute])
    · exact absurd h (by simp)
  | tryStepForward c f =>
    simp only [step] at h
    split at h
    · refine .inr (.inr (.inr (.inr ⟨c, f, rfl, ?_⟩)))
      rw [← (Prod.mk.inj (Option.some.inj h)).1]
      simp [DsClient.tryStepForward, DsClient.setFuture]
    · exact absurd h (by simp)

/-- What a step forward is seen as names the future that made it. -/
theorem stepEvent_cases (c f : ℕ) (o o' : OpFuture) :
    stepEvent c f o o' = .stepped c f ∨
    (∃ k v t, stepEvent c f o o' = .putDone c f k v t) ∨
    (∃ k m, stepEvent c f o o' = .getMax c f k m) ∨
    (o.kind = .get ∧ o.getF.step ≠ .done ∧ o'.getF.step = .done ∧
      ∃ k m v, stepEvent c f o o' = .getDone c f k m v) := by
  cases hk : o.kind
  case put => by_cases h : o.putF.step ≠ .done ∧ o'.putF.step = .done <;> simp [stepEvent, hk, h]
  case get =>
    by_cases h : o.getF.step ≠ .done ∧ o'.getF.step = .done
    · simp [stepEvent, hk, h]
    · by_cases h' : o.getF.step = .reading ∧ o'.getF.step = .writingBack <;>
        simp [stepEvent, hk, h, h']
  all_goals simp [stepEvent, hk]

end Cluster

end DiscoSkip
