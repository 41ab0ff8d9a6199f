import DiscoSkip.Cluster

/-!
# The protocol

The replicated register protocol of the Puts and Gets, by the slots of their
quorums, without the machinery that runs it: no counters, no server-indexed
buffers, no requests left over in a future from an earlier operation. What a
future is doing is its *phase*, with `got i` what the request of the slot `i`
has returned, `none` while it is in flight.

`Move` says everything a future can do, and `Proto.Run` what the futures of all
clients can do together. The cluster refines it (`DiscoSkip.Simulation`), with
the same events, so that what holds of the events of every run of the protocol
holds of the cluster.

The moves of a Put that has heard from all its CASes are those to mind:

* `casDone`, if they have all succeeded;
* `casRetry`, if some have failed, but none on a register that has outrun the
  target: these are tried again;
* `casReset`, if the slot `m` is the first to be outrun: the target is bumped,
  and the slots *up to `m`* are tried again; those after it are done with,
  whatever they hold.
-/

namespace DiscoSkip

open Function

/-- The event starts an operation in the future `f` of the client `c`. -/
def Event.Invokes (c f : ℕ) : Event → Prop
  | .invokePut c' f' _ _ | .invokeGet c' f' _ => c' = c ∧ f' = f
  | _ => False

instance (c f : ℕ) : DecidablePred (Event.Invokes c f)
  | .invokePut .. | .invokeGet .. => inferInstanceAs (Decidable (_ ∧ _))
  | .read .. | .cas .. | .stepped .. | .getMax .. | .putDone .. | .getDone .. => .isFalse id

/-- The client and the future of an event. -/
def Event.owner : Event → ℕ × ℕ
  | .invokePut c f .. | .invokeGet c f .. | .read c f .. | .cas c f .. | .stepped c f
  | .getMax c f .. | .putDone c f .. | .getDone c f .. => (c, f)

/-- What a future is doing. -/
inductive Phase
  | idle
  /-- A Put, reading its quorum. -/
  | putRead (k : ℕ) (v : UInt64) (got : ℕ → Option Register)
  /-- A Put, CASing its quorum from the register cached. -/
  | putChain (k : ℕ) (v : UInt64) (cached : Register) (got : ℕ → Option Register)
  /-- A Put, CASing the slots that `need` it from the registers `exp`. -/
  | putCas (k : ℕ) (v : UInt64) (target : Register) (need : ℕ → Bool) (exp : ℕ → Register)
      (got : ℕ → Option Register)
  /-- A Get, reading its quorum. -/
  | getRead (k : ℕ) (got : ℕ → Option Register)
  /-- A Get, writing the maximum `m` back over the registers `exp` it has read. -/
  | getBack (k : ℕ) (m : Register) (exp : ℕ → Register) (got : ℕ → Option Register)

/-- The future has nothing to do: it is idle, or one of the `n` slots of its
    quorum has not got its answer. -/
def Phase.Waiting (n : ℕ) : Phase → Prop
  | .idle => True
  | .putRead _ _ got | .putChain _ _ _ got | .putCas _ _ _ _ _ got | .getRead _ got
  | .getBack _ _ _ got => ∃ i < n, got i = none

/-- The cells after a CAS of the key `k` on the server `r`, from `e` to `t`. -/
def casCell (cells : ℕ → ℕ → Register) (r k : ℕ) (e t : Register) : ℕ → ℕ → Register :=
  if cells r k = e then update cells r (update (cells r) k t) else cells

/-- What a move of a future depends on: the cells, the cache of its client, and
    its phase. -/
structure View where
  cells : ℕ → ℕ → Register
  cache : Cache
  phase : Phase

section Move

variable (L : Layout) (c f : ℕ)

/-- The server of the slot `i` of the quorum of the client `c`. -/
abbrev srv (i : ℕ) : ℕ := (DsConf.ofClient L c).quorumIndices i

/-- The register by which the client `c` writes `v` under the sequence number `s`. -/
abbrev regOf (s : UInt16) (v : UInt64) : Register := (DsConf.ofClient L c).register s v

/-- The cache of a client, after it has been told the register `reg` of the key `k`. -/
def toCache (ca : Cache) (k : ℕ) (reg : Register) : Cache :=
  if L.regCacheEnabled then ca.put k reg else ca

/-- The moves of the future `f` of the client `c`. -/
inductive Move : View → Event → View → Prop
  | stutter {w} : w.phase.Waiting L.effectiveMajority → Move w (.stepped c f) w
  | putHit {cells ca k v cached} : L.regCacheEnabled = true → ca k = some cached →
      Move ⟨cells, ca, .idle⟩ (.invokePut c f k v)
        ⟨cells, ca, .putChain k v cached fun _ => none⟩
  | putMiss {cells ca k v} : (L.regCacheEnabled = true → ca k = none) →
      Move ⟨cells, ca, .idle⟩ (.invokePut c f k v) ⟨cells, ca, .putRead k v fun _ => none⟩
  | getStart {cells ca k} :
      Move ⟨cells, ca, .idle⟩ (.invokeGet c f k) ⟨cells, ca, .getRead k fun _ => none⟩
  | readPut {cells ca k v got i} : i < L.effectiveMajority → got i = none →
      Move ⟨cells, ca, .putRead k v got⟩ (.read c f (srv L c i) k (cells (srv L c i) k))
        ⟨cells, ca, .putRead k v (update got i (some (cells (srv L c i) k)))⟩
  | readGet {cells ca k got i} : i < L.effectiveMajority → got i = none →
      Move ⟨cells, ca, .getRead k got⟩ (.read c f (srv L c i) k (cells (srv L c i) k))
        ⟨cells, ca, .getRead k (update got i (some (cells (srv L c i) k)))⟩
  | casChain {cells ca k v cached got i} : i < L.effectiveMajority → got i = none →
      Move ⟨cells, ca, .putChain k v cached got⟩
        (.cas c f (srv L c i) k .put cached (regOf L c (cached.seq + 1) v) (cells (srv L c i) k))
        ⟨casCell cells (srv L c i) k cached (regOf L c (cached.seq + 1) v), ca,
          .putChain k v cached (update got i (some (cells (srv L c i) k)))⟩
  | casPut {cells ca k v t need exp got i} : i < L.effectiveMajority → got i = none →
      Move ⟨cells, ca, .putCas k v t need exp got⟩
        (.cas c f (srv L c i) k .put (exp i) t (cells (srv L c i) k))
        ⟨casCell cells (srv L c i) k (exp i) t, ca,
          .putCas k v t need exp (update got i (some (cells (srv L c i) k)))⟩
  | casGet {cells ca k m exp got i} : i < L.effectiveMajority → got i = none →
      Move ⟨cells, ca, .getBack k m exp got⟩
        (.cas c f (srv L c i) k .get (exp i) m (cells (srv L c i) k))
        ⟨casCell cells (srv L c i) k (exp i) m, ca,
          .getBack k m exp (update got i (some (cells (srv L c i) k)))⟩
  /-- The reads of a Put are over: `z` is the greatest sequence number read. -/
  | readDone {cells ca k v got z} {g : ℕ → Register} :
      (∀ i < L.effectiveMajority, got i = some (g i)) →
      (∀ i < L.effectiveMajority, (g i).seq ≤ z) →
      (z = 0 ∨ ∃ i < L.effectiveMajority, z = (g i).seq) →
      Move ⟨cells, ca, .putRead k v got⟩ (.stepped c f)
        ⟨cells, ca, .putCas k v (regOf L c (z + 1) v) (fun _ => true) g fun _ => none⟩
  /-- The optimistic chain has succeeded everywhere. -/
  | chainDone {cells ca k v cached got} :
      (∀ i < L.effectiveMajority, got i = some cached) →
      Move ⟨cells, ca, .putChain k v cached got⟩ (.putDone c f k v (regOf L c (cached.seq + 1) v))
        ⟨cells, toCache L ca k (regOf L c (cached.seq + 1) v), .idle⟩
  /-- The optimistic chain has failed somewhere: `z` is the greatest sequence
      number found there, or that of the cached register. -/
  | chainRetry {cells ca k v cached got z} {g : ℕ → Register} :
      (∀ i < L.effectiveMajority, got i = some (g i)) →
      (∃ i < L.effectiveMajority, g i ≠ cached) →
      (cached.seq ≤ z ∧ ∀ i < L.effectiveMajority, g i ≠ cached → (g i).seq ≤ z) →
      (z = cached.seq ∨ ∃ i < L.effectiveMajority, g i ≠ cached ∧ z = (g i).seq) →
      Move ⟨cells, ca, .putChain k v cached got⟩ (.stepped c f)
        ⟨cells, ca, .putCas k v (regOf L c (z + 1) v) (fun i => decide (g i ≠ cached))
          (fun i => if g i = cached then regOf L c (cached.seq + 1) v else g i)
          fun i => if g i = cached then some (g i) else none⟩
  | casDone {cells ca k v t need exp got} {g : ℕ → Register} :
      (∀ i < L.effectiveMajority, got i = some (g i)) →
      (∀ i < L.effectiveMajority, need i = true → g i = exp i) →
      Move ⟨cells, ca, .putCas k v t need exp got⟩ (.putDone c f k v t)
        ⟨cells, toCache L ca k t, .idle⟩
  | casRetry {cells ca k v t need exp got} {g : ℕ → Register} :
      (∀ i < L.effectiveMajority, got i = some (g i)) →
      (∃ i < L.effectiveMajority, need i = true ∧ g i ≠ exp i) →
      (∀ i < L.effectiveMajority, need i = true → g i ≠ exp i → (g i).seq < t.seq) →
      Move ⟨cells, ca, .putCas k v t need exp got⟩ (.stepped c f)
        ⟨cells, ca, .putCas k v t (fun i => need i && decide (g i ≠ exp i))
          (fun i => if need i then g i else exp i)
          fun i => if need i = true ∧ g i ≠ exp i then none else some (g i)⟩
  | casReset {cells ca k v t need exp got m} {g : ℕ → Register} :
      (∀ i < L.effectiveMajority, got i = some (g i)) →
      m < L.effectiveMajority → (need m = true ∧ g m ≠ exp m ∧ t.seq ≤ (g m).seq) →
      (∀ i < m, need i = true → g i ≠ exp i → (g i).seq < t.seq) →
      Move ⟨cells, ca, .putCas k v t need exp got⟩ (.stepped c f)
        ⟨cells, ca, .putCas k v (regOf L c ((g m).seq + 1) v) (fun i => decide (i ≤ m)) g
          fun i => if i ≤ m then none else some (g i)⟩
  /-- The reads of a Get are over, and it has nothing to write back. -/
  | getDone {cells ca k got m} {g : ℕ → Register} :
      (∀ i < L.effectiveMajority, got i = some (g i)) →
      (∀ i < L.effectiveMajority, (g i).tag ≤ m.tag) →
      (m = .zero ∨ ∃ i < L.effectiveMajority, m = g i) →
      (L.regWritebackEnabled = true → ∀ i < L.effectiveMajority, g i = m) →
      (m = .zero ∨ Register.zero.tag < m.tag) →
      Move ⟨cells, ca, .getRead k got⟩ (.getDone c f k m m.value.toUInt64)
        ⟨cells, toCache L ca k m, .idle⟩
  /-- The reads of a Get are over, and it writes the maximum back. -/
  | getMax {cells ca k got m} {g : ℕ → Register} :
      (∀ i < L.effectiveMajority, got i = some (g i)) →
      (∀ i < L.effectiveMajority, (g i).tag ≤ m.tag) →
      (m = .zero ∨ ∃ i < L.effectiveMajority, m = g i) → L.regWritebackEnabled = true →
      (∃ i < L.effectiveMajority, g i ≠ m) → (m = .zero ∨ Register.zero.tag < m.tag) →
      Move ⟨cells, ca, .getRead k got⟩ (.getMax c f k m)
        ⟨cells, toCache L ca k m,
          .getBack k m g fun i => if g i = m then some m else none⟩
  | backDone {cells ca k m exp got} : (∀ i < L.effectiveMajority, got i ≠ none) →
      Move ⟨cells, ca, .getBack k m exp got⟩ (.getDone c f k m m.value.toUInt64)
        ⟨cells, ca, .idle⟩

variable {L c f} {w w' : View} {e : Event}

/-- The event of a move names the future that makes it. -/
theorem Move.owner_eq (h : Move L c f w e w') : e.owner = (c, f) := by
  cases h <;> rfl

/-- An idle future stutters, or starts an operation. -/
theorem Move.of_idle (h : Move L c f w e w') (hidle : w.phase = .idle) :
    (w' = w ∧ e = .stepped c f) ∨ (∃ k v, e = .invokePut c f k v) ∨ ∃ k, e = .invokeGet c f k := by
  cases h <;> first
    | exact .inl ⟨rfl, rfl⟩
    | exact .inr (.inl ⟨_, _, rfl⟩)
    | exact .inr (.inr ⟨_, rfl⟩)
    | cases hidle

/-- A Get starts by reading. -/
theorem Move.invokeGet {c' f' k : ℕ} (h : Move L c f w (.invokeGet c' f' k) w') :
    w'.phase = .getRead k fun _ => none := by
  cases h
  rfl

end Move

/-- The state of the protocol. -/
structure Proto where
  cells : ℕ → ℕ → Register := fun _ _ => .zero
  /-- The register cache of every client. -/
  cache : ℕ → Cache := fun _ => Cache.empty
  /-- The phase of every future of every client. -/
  phase : ℕ → ℕ → Phase := fun _ _ => .idle

namespace Proto

/-- What a move of the future `f` of the client `c` depends on. -/
def view (a : Proto) (c f : ℕ) : View := ⟨a.cells, a.cache c, a.phase c f⟩

/-- The state after a move of the future `f` of the client `c`. -/
def setView (a : Proto) (c f : ℕ) (w : View) : Proto where
  cells := w.cells
  cache := update a.cache c w.cache
  phase := update a.phase c (update (a.phase c) f w.phase)

@[simp] theorem setView_cells (a : Proto) (c f : ℕ) (w : View) :
    (a.setView c f w).cells = w.cells :=
  rfl

@[simp] theorem setView_cache_self (a : Proto) (c f : ℕ) (w : View) :
    (a.setView c f w).cache c = w.cache := update_self ..

@[simp] theorem setView_phase_self (a : Proto) (c f : ℕ) (w : View) :
    (a.setView c f w).phase c f = w.phase := by simp [setView]

theorem setView_cache_ne (a : Proto) {c c' : ℕ} (f : ℕ) (w : View) (h : c' ≠ c) :
    (a.setView c f w).cache c' = a.cache c' := update_of_ne h ..

theorem setView_phase_ne (a : Proto) {c c' f f' : ℕ} (w : View) (h : c' ≠ c ∨ f' ≠ f) :
    (a.setView c f w).phase c' f' = a.phase c' f' := by
  by_cases hc : c' = c
  · subst hc
    simp [setView, h.resolve_left (not_not.2 rfl)]
  · simp [setView, hc]

theorem setView_view (a : Proto) (c f : ℕ) : a.setView c f (a.view c f) = a := by
  simp [setView, view]

/-- What holds of the phase of every future, after a move of one of them. -/
theorem forall_setView {P : ℕ → ℕ → Phase → Prop} {a : Proto} {c f : ℕ} {w : View}
    (hne : ∀ c' f', c' ≠ c ∨ f' ≠ f → P c' f' (a.phase c' f')) (hself : P c f w.phase) (c' f' : ℕ) :
    P c' f' ((a.setView c f w).phase c' f') := by
  by_cases h : c' ≠ c ∨ f' ≠ f
  · rw [setView_phase_ne _ _ h]
    exact hne c' f' h
  · push Not at h
    obtain ⟨rfl, rfl⟩ := h
    rw [setView_phase_self]
    exact hself

/-- The steps of the protocol in the layout `L`, admitted by `H`. -/
def Step (L : Layout) (H : Proto → Event → Prop) (a : Proto) (e : Event) (a' : Proto) : Prop :=
  ∃ c f w, c < L.numClients ∧ f < L.asyncParallelism ∧ H a e ∧ Move L c f (a.view c f) e w ∧
    a' = a.setView c f w

/-- The runs of the protocol in the layout `L`, all their steps admitted by `H`. -/
def Run (L : Layout) (H : Proto → Event → Prop) : List Event → Proto → Prop :=
  Lib.Trace (Step L H) {}

end Proto

end DiscoSkip
