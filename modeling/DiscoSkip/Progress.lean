import DiscoSkip.Simulation

/-!
# Running an operation to its end

A future that is left to run alone makes progress (`Sim.advance`): as long as
one of its requests is in flight, one can be executed, and when all have been
answered, its next step is not a stutter.
-/

namespace DiscoSkip

open Function

/-- An operation. -/
inductive Op
  | put (k : ℕ) (v : UInt64)
  | get (k : ℕ)

/-- The key of an operation. -/
def Op.key : Op → ℕ
  | .put k _ | .get k => k

/-- The action that starts an operation. -/
def Op.start (c f : ℕ) : Op → Action
  | .put k v => .doPut c f k v
  | .get k => .doGet c f k

/-- The event of starting an operation. -/
def Op.started (c f : ℕ) : Op → Event
  | .put k v => .invokePut c f k v
  | .get k => .invokeGet c f k

/-- The operation a future is busy with. -/
def Phase.op : Phase → Option Op
  | .idle => none
  | .putRead k v _ | .putChain k v .. | .putCas k v .. => some (.put k v)
  | .getRead k _ | .getBack k .. => some (.get k)

/-- The operation an event ends. -/
def Event.ended : Event → Option Op
  | .putDone _ _ k v _ => some (.put k v)
  | .getDone _ _ k _ _ => some (.get k)
  | _ => none

namespace Cluster

variable (L : Layout) (c f : ℕ)

/-- What is next for a future that runs alone: one of its requests in flight is
    executed, or else it steps forward. -/
def advance (s : Cluster) : Action :=
  match (List.range L.numServers).find? fun r => (s.inflight c f r).isSome with
  | some r => .rdma c f r
  | none => .tryStepForward c f

/-- Running the operation of a future, alone, until it is over, in less than `n`
    steps, after the events `tr`. -/
def runToDone : ℕ → List Event → Cluster → Option (List Event × Cluster)
  | 0, _, _ => none
  | n + 1, tr, s =>
    if ((s.clients c).futures f).isDone then some (tr, s)
    else
      match s.step L (s.advance L c f) with
      | some (e, s') => runToDone n (e :: tr) s'
      | none => none

/-- Starting an operation of a future, and running it to its end. -/
def perform (n : ℕ) (x : List Event × Cluster) (o : Op) : Option (List Event × Cluster) :=
  match x.2.step L (o.start c f) with
  | some (e, s) => runToDone L c f n (e :: x.1) s
  | none => none

end Cluster

/-- The client and the future of an action. -/
def Action.owner : Action → ℕ × ℕ
  | .doPut c f .. | .doGet c f .. | .rdma c f .. | .tryStepForward c f => (c, f)

variable {L : Layout} {s s' : Cluster} {a : Proto} {c f : ℕ}

/-- A move goes on with the operation, or ends it. -/
theorem Move.op {w w' : View} {e : Event} {o : Op} (h : Move L c f w e w')
    (ho : w.phase.op = some o) :
    w'.phase.op = some o ∧ e.ended = none ∨ w'.phase = .idle ∧ e.ended = some o := by
  cases h <;> first
    | exact .inl ⟨ho, rfl⟩
    | exact .inr ⟨rfl, ho⟩
    | cases ho

/-- What a move that starts an operation is busy with. -/
theorem Move.op_of_started {w w' : View} {o : Op} (h : Move L c f w (o.started c f) w') :
    w'.phase.op = some o := by
  cases o <;> cases h <;> rfl

/-- An operation can be started on a future that is done. -/
theorem Cluster.step_start (o : Op) (hc : c < L.numClients) (hf : f < L.asyncParallelism)
    (hd : ((s.clients c).futures f).isDone = true) :
    ∃ s', s.step L (o.start c f) = some (o.started c f, s') := by
  cases o with
  | put k v => exact ⟨_, if_pos ⟨hc, hf, hd⟩⟩
  | get k => exact ⟨_, if_pos ⟨hc, hf, hd⟩⟩

/-- A future that is doing something has a request in flight, which can be
    executed, at each slot that has not got its answer. -/
theorem PhaseSim.inFlight {d : DsConf} {o : OpFuture} {bufs : Scratch} {infl : ℕ → Option Rdma}
    {ph : Phase} (h : PhaseSim d o bufs infl ph) (hne : ph ≠ .idle) :
    ∃ got op, InFlight d infl got op ∧ (∀ i k n, op i ≠ .bulk k n) ∧
      (ph.Waiting d.quorum → ∃ i < d.quorum, got i = none) := by
  cases ph with
  | idle => exact absurd rfl hne
  | putRead => exact ⟨_, _, h.2.2.2.1, by simp, id⟩
  | putChain => exact ⟨_, _, h.2.2.2.2.1, by simp, id⟩
  | putCas => exact ⟨_, _, h.2.2.2.2.1, by simp, id⟩
  | getRead => exact ⟨_, _, h.2.2.2.1, by simp, id⟩
  | getBack => exact ⟨_, _, h.2.2.2.1, by simp, id⟩

theorem Cluster.execute_isSome {r : ℕ} {op : Rdma} (h : ∀ k n, op ≠ .bulk k n) :
    ∃ e s', s.execute c f r op = some (e, s') ∧ e ≠ .stepped c f := by
  cases op with
  | read k => exact ⟨_, _, rfl, by simp⟩
  | cas k x t => exact ⟨_, _, rfl, by simp⟩
  | bulk k n => exact absurd rfl (h k n)

theorem Cluster.step_owner {act : Action} {e : Event} (h : s.step L act = some (e, s')) :
    e.owner = act.owner := by
  rcases Cluster.step_cases h with ⟨c, f, k, v, rfl, rfl⟩ | ⟨c, f, k, rfl, rfl⟩ |
    ⟨_, _, _, _, _, rfl, rfl⟩ | ⟨_, _, _, _, _, _, _, _, rfl, rfl⟩ | ⟨c, f, rfl, rfl⟩
  · rfl
  · rfl
  · rfl
  · rfl
  · rcases Cluster.stepEvent_cases c f ((s.clients c).futures f) _ with
      hev | ⟨_, _, _, hev⟩ | ⟨_, _, hev⟩ | ⟨_, _, _, _, _, _, hev⟩ <;> rw [hev] <;> rfl

/-- The step of an action is a move of its future. -/
theorem Sim.step_owner (hq : L.effectiveMajority ≤ L.numServers) (hn : 0 < L.numServers)
    (h : Sim L s a) {act : Action} {e : Event} (hst : s.step L act = some (e, s'))
    (hown : act.owner = (c, f)) :
    ∃ w, Move L c f (a.view c f) e w ∧ Sim L s' (a.setView c f w) := by
  obtain ⟨c', f', w, _, _, hm, hs⟩ := h.step hq hn hst
  obtain ⟨rfl, rfl⟩ := Prod.mk.inj (hm.owner_eq.symm.trans ((Cluster.step_owner hst).trans hown))
  exact ⟨w, hm, hs⟩

/-- What is next for a future that is doing something can happen, and is not a stutter. -/
theorem Sim.advance (hn : 0 < L.numServers) (h : Sim L s a) (hne : a.phase c f ≠ .idle) :
    ∃ e s', s.step L (s.advance L c f) = some (e, s') ∧
      (e ≠ .stepped c f ∨ ¬(a.phase c f).Waiting L.effectiveMajority) := by
  obtain ⟨got, op, hi, hbulk, hwait⟩ := (h.phase c f).inFlight hne
  rw [Cluster.advance]
  split
  · next r hr =>
    have hsome : (s.inflight c f r).isSome = true := by simpa using List.find?_some hr
    obtain ⟨op', hop⟩ := Option.isSome_iff_exists.1 hsome
    obtain ⟨i, _, _, _, rfl⟩ := hi.slot hop
    obtain ⟨e, s', hx, he⟩ := s.execute_isSome (c := c) (f := f) (r := r) (hbulk i)
    refine ⟨e, s', ?_, .inl he⟩
    simp only [Cluster.step, hop, hx]
  · next hr =>
    have hr' : ∀ r < L.numServers, s.inflight c f r = none := by
      simpa using hr
    refine ⟨_, _, if_pos (h.range c f hne), .inr fun hw => ?_⟩
    obtain ⟨i, hiq, hg⟩ := hwait hw
    have hsome := hi.1 i hiq
    rw [hr' _ (DsConf.quorumIndices_lt (d := .ofClient L c) hn i), if_pos hg] at hsome
    exact absurd hsome (by simp)

/-- The value a Get ends with is that of its future. -/
theorem Cluster.getValue_of_getDone {act : Action} {k : ℕ} {m : Register} {x : UInt64}
    (h : s.step L act = some (.getDone c f k m x, s')) :
    ((s'.clients c).futures f).getF.getValue = x := by
  cases act with
  | doPut => simp only [Cluster.step] at h; split at h <;> simp at h
  | doGet => simp only [Cluster.step] at h; split at h <;> simp at h
  | rdma c' f' r =>
    simp only [Cluster.step] at h
    split at h
    · next op _ => cases op <;> simp [Cluster.execute] at h
    · exact absurd h (by simp)
  | tryStepForward c' f' =>
    obtain ⟨rfl, rfl⟩ := Prod.mk.inj (Cluster.step_owner h)
    simp only [Cluster.step] at h
    split at h
    · obtain ⟨he, rfl⟩ := Prod.mk.inj (Option.some.inj h)
      rw [Cluster.send_clients, Cluster.setClient]
      dsimp only
      rw [update_self]
      revert he
      generalize (((s.clients c).tryStepForward (.ofClient L c) f).1.futures f) = o'
      rw [Cluster.stepEvent]
      intro he
      split at he
      · split at he <;> simp at he
      · split at he
        · exact (Event.getDone.inj he).2.2.2.2
        · split at he <;> simp at he
      · simp at he
    · exact absurd h (by simp)

end DiscoSkip
