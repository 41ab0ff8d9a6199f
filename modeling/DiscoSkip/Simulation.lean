import DiscoSkip.GetFuture.Steps
import DiscoSkip.Protocol
import DiscoSkip.PutFuture.Steps

/-!
# The cluster refines the protocol

Every run of the cluster is a run of the protocol, with the same events
(`exists_run`). The states correspond (`Sim`) by the cells, the register caches,
and, for every future, its phase (`PhaseSim`): the parts of the future its
current operation will still read, the requests in flight, one for every slot
that has not got its answer, and the buffers of the slots that have. The
counters of a future count its requests in flight (`Counts`), so that a future
is free to step exactly when all its slots have got their answers.
-/

namespace DiscoSkip

open Function

/-! ## Requests in flight -/

/-- The requests of a future in flight, after posting `wrs`. -/
def postedTo (wrs : List Wr) (infl : ℕ → Option Rdma) : ℕ → Option Rdma :=
  wrs.foldl (fun g w => update g w.server (some w.op)) infl

theorem postedTo_of_notMem {wrs : List Wr} {r : ℕ} (h : r ∉ wrs.map Wr.server)
    (infl : ℕ → Option Rdma) : postedTo wrs infl r = infl r := by
  induction wrs generalizing infl with
  | nil => rfl
  | cons w wrs ih =>
    rw [List.map_cons, List.mem_cons, not_or] at h
    rw [postedTo, List.foldl_cons, ← postedTo, ih h.2, update_of_ne h.1]

theorem postedTo_of_mem {wrs : List Wr} (hn : (wrs.map Wr.server).Nodup) {w : Wr} (h : w ∈ wrs)
    (infl : ℕ → Option Rdma) : postedTo wrs infl w.server = some w.op := by
  induction wrs generalizing infl with
  | nil => exact absurd h List.not_mem_nil
  | cons w' wrs ih =>
    rw [List.map_cons, List.nodup_cons] at hn
    rw [postedTo, List.foldl_cons, ← postedTo]
    rcases List.mem_cons.1 h with rfl | h
    · rw [postedTo_of_notMem hn.1, update_self]
    · exact ih hn.2 h _

/-- The slots of the quorum that have not got their answer have the request `op i`
    in flight, and there is no other. -/
def InFlight (d : DsConf) (infl : ℕ → Option Rdma) (got : ℕ → Option Register) (op : ℕ → Rdma) :
    Prop :=
  (∀ i < d.quorum, infl (d.quorumIndices i) = if got i = none then some (op i) else none) ∧
    ∀ r, (∀ i < d.quorum, d.quorumIndices i ≠ r) → infl r = none

section Posting

variable {d : DsConf} (hq : d.quorum ≤ d.layout.numServers) {infl : ℕ → Option Rdma}
  (hinfl : ∀ r, infl r = none) {id : ℕ} {sel : ℕ → Bool} {op : ℕ → Rdma}

include hq in
theorem postedTo_slot {i : ℕ} (hi : i < d.quorum) :
    postedTo (d.postSlots id sel op) infl (d.quorumIndices i) =
      if sel i then some (op i) else infl (d.quorumIndices i) := by
  split
  · next hs =>
    exact postedTo_of_mem (nodup_postSlots hq id sel op)
      (w := ⟨d.quorumIndices i, id, op i⟩) (mem_postSlots.2 ⟨i, hi, hs, rfl⟩) infl
  · next hs =>
    refine postedTo_of_notMem (fun hm => hs ?_) infl
    obtain ⟨w, hw, hr⟩ := List.mem_map.1 hm
    obtain ⟨j, hj, hsj, rfl⟩ := mem_postSlots.1 hw
    exact DsConf.quorumIndices_inj hq hj hi hr ▸ hsj

theorem postedTo_outside {r : ℕ} (hr : ∀ i < d.quorum, d.quorumIndices i ≠ r) :
    postedTo (d.postSlots id sel op) infl r = infl r := by
  refine postedTo_of_notMem (fun hm => ?_) infl
  obtain ⟨w, hw, rfl⟩ := List.mem_map.1 hm
  obtain ⟨j, hj, _, rfl⟩ := mem_postSlots.1 hw
  exact hr j hj rfl

include hq hinfl in
/-- Posting at the selected slots, with nothing in flight. -/
theorem inFlight_postedTo {got : ℕ → Option Register} {op' : ℕ → Rdma}
    (hsel : ∀ i < d.quorum, sel i = true ↔ got i = none)
    (hop : ∀ i < d.quorum, sel i = true → op i = op' i) :
    InFlight d (postedTo (d.postSlots id sel op) infl) got op' := by
  refine ⟨fun i hi => ?_, fun r hr => by rw [postedTo_outside hr, hinfl]⟩
  rw [postedTo_slot hq hi, hinfl]
  by_cases hs : sel i = true
  · rw [if_pos hs, if_pos ((hsel i hi).1 hs), hop i hi hs]
  · rw [if_neg hs, if_neg fun h => hs ((hsel i hi).2 h)]

include hq hinfl in
/-- A counter that starts at zero counts the requests in flight. -/
theorem countPosts_eq {ctr : ℕ → ℤ} (hctr : ∀ r, ctr r = 0) (r : ℕ) :
    countPosts (d.postSlots id sel op) ctr r =
      if (postedTo (d.postSlots id sel op) infl r).isSome then 1 else 0 := by
  by_cases hr : ∃ i < d.quorum, d.quorumIndices i = r
  · obtain ⟨i, hi, rfl⟩ := hr
    rw [countPosts_slot hq hi, postedTo_slot hq hi, hinfl, hctr, zero_add]
    cases sel i <;> simp
  · push Not at hr
    rw [countPosts_of_notMem hr, postedTo_outside hr, hinfl, hctr]
    simp

end Posting

/-! ## The correspondence -/

/-- The counters of a future count its requests in flight. -/
structure Counts (o : OpFuture) (infl : ℕ → Option Rdma) : Prop where
  get : ∀ r, o.getF.ongoingPerServer r = if o.kind = .get ∧ (infl r).isSome then 1 else 0
  put : ∀ r, o.putF.ongoingPerServer r = if o.kind = .put ∧ (infl r).isSome then 1 else 0

/-- The future `o`, with its scratchpad and its requests in flight, is in a phase. -/
def PhaseSim (d : DsConf) (o : OpFuture) (bufs : Scratch) (infl : ℕ → Option Rdma) : Phase → Prop
  | .idle => o.isDone = true ∧ o.kind ≠ .range ∧ ∀ r, infl r = none
  | .putRead k v got => o.kind = .put ∧ o.putF.step = .readSeq ∧
      (o.putF.key = k ∧ o.putF.value = v ∧ o.putF.successCount = 0) ∧
      InFlight d infl got (fun _ => .read k) ∧
      ∀ i < d.quorum, ∀ x, got i = some x → bufs.readBufs (d.quorumIndices i) = x
  | .putChain k v cached got => o.kind = .put ∧ o.putF.step = .optimisticChain ∧
      (o.putF.key = k ∧ o.putF.value = v ∧ o.putF.successCount = 0 ∧
        o.putF.targetReg = d.register (cached.seq + 1) v) ∧
      (∀ i < d.quorum, o.putF.needsCas (d.quorumIndices i) = true ∧ o.putF.expected i = cached) ∧
      InFlight d infl got (fun _ => .cas k cached (d.register (cached.seq + 1) v)) ∧
      ∀ i < d.quorum, ∀ x, got i = some x → bufs.swapBufs (d.quorumIndices i) = x
  | .putCas k v t need exp got => o.kind = .put ∧ o.putF.step = .cas ∧
      (o.putF.key = k ∧ o.putF.value = v ∧ o.putF.targetReg = t ∧
        o.putF.successCount =
          Nat.count (fun i => o.putF.needsCas (d.quorumIndices i) = false) d.quorum) ∧
      (∀ i < d.quorum, o.putF.needsCas (d.quorumIndices i) = need i ∧ o.putF.expected i = exp i) ∧
      InFlight d infl got (fun i => .cas k (exp i) t) ∧
      ∀ i < d.quorum, ∀ x, got i = some x → bufs.swapBufs (d.quorumIndices i) = x
  | .getRead k got => o.kind = .get ∧ o.getF.step = .reading ∧
      (o.getF.key = k ∧ o.getF.maxReg = .zero ∧ o.getF.maxCount = 0) ∧
      InFlight d infl got (fun _ => .read k) ∧
      ∀ i < d.quorum, ∀ x, got i = some x → bufs.readBufs (d.quorumIndices i) = x
  | .getBack k m exp got => o.kind = .get ∧ o.getF.step = .writingBack ∧
      (o.getF.key = k ∧ o.getF.maxReg = m ∧ o.getF.resultValue = m.value ∧
        ∀ i < d.quorum, o.getF.expected i = exp i) ∧
      InFlight d infl got (fun i => .cas k (exp i) m) ∧
      ∀ i < d.quorum, exp i ≠ m → ∀ x, got i = some x → bufs.swapBufs (d.quorumIndices i) = x

/-- The correspondence of the states of the cluster and of the protocol. -/
structure Sim (L : Layout) (s : Cluster) (a : Proto) : Prop where
  cells : s.cells = a.cells
  cache : ∀ c, (s.clients c).state.cache = a.cache c
  counts : ∀ c f, Counts ((s.clients c).futures f) (s.inflight c f)
  phase : ∀ c f, PhaseSim (.ofClient L c) ((s.clients c).futures f) ((s.clients c).scratch f)
    (s.inflight c f) (a.phase c f)
  /-- Only the futures there are do something. -/
  range : ∀ c f, a.phase c f ≠ .idle → c < L.numClients ∧ f < L.asyncParallelism

/-- Initially, all cells are zero and all futures idle. -/
theorem Sim.init (L : Layout) : Sim L {} {} where
  cells := rfl
  cache _ := rfl
  counts _ _ := ⟨fun _ => by simp [OpFuture.idle], fun _ => by simp [OpFuture.idle]⟩
  phase _ _ := ⟨rfl, by simp [OpFuture.idle], fun _ => rfl⟩
  range _ _ h := absurd rfl h

variable {L : Layout} {s s' : Cluster} {a : Proto} {c f : ℕ} {w : View}

/-- A move of one future only has to be checked on that future. -/
theorem Sim.setView (h : Sim L s a) (hc : c < L.numClients) (hf : f < L.asyncParallelism)
    (hcells : s'.cells = w.cells) (hclients : ∀ c' ≠ c, s'.clients c' = s.clients c')
    (hcache : (s'.clients c).state.cache = w.cache)
    (hfutures : ∀ f' ≠ f, (s'.clients c).futures f' = (s.clients c).futures f' ∧
      (s'.clients c).scratch f' = (s.clients c).scratch f')
    (hinfl : ∀ c' f', c' ≠ c ∨ f' ≠ f → s'.inflight c' f' = s.inflight c' f')
    (hcounts : Counts ((s'.clients c).futures f) (s'.inflight c f))
    (hphase : PhaseSim (.ofClient L c) ((s'.clients c).futures f) ((s'.clients c).scratch f)
      (s'.inflight c f) w.phase) : Sim L s' (a.setView c f w) := by
  have hother : ∀ c' f', c' ≠ c ∨ f' ≠ f → (s'.clients c').futures f' = (s.clients c').futures f' ∧
      (s'.clients c').scratch f' = (s.clients c').scratch f' := by
    intro c' f' hne
    by_cases hcc : c' = c
    · subst hcc
      exact hfutures f' (hne.resolve_left (not_not.2 rfl))
    · rw [hclients c' hcc]
      exact ⟨rfl, rfl⟩
  refine ⟨hcells, fun c' => ?_, fun c' f' => ?_, fun c' f' => ?_, fun c' f' => ?_⟩
  · by_cases hcc : c' = c
    · subst hcc
      rw [hcache, Proto.setView_cache_self]
    · rw [hclients c' hcc, h.cache, Proto.setView_cache_ne _ _ _ hcc]
  · by_cases hne : c' ≠ c ∨ f' ≠ f
    · rw [(hother c' f' hne).1, hinfl c' f' hne]
      exact h.counts c' f'
    · push Not at hne
      obtain ⟨rfl, rfl⟩ := hne
      exact hcounts
  · by_cases hne : c' ≠ c ∨ f' ≠ f
    · rw [(hother c' f' hne).1, (hother c' f' hne).2, hinfl c' f' hne,
        Proto.setView_phase_ne _ _ hne]
      exact h.phase c' f'
    · push Not at hne
      obtain ⟨rfl, rfl⟩ := hne
      rw [Proto.setView_phase_self]
      exact hphase
  · by_cases hne : c' ≠ c ∨ f' ≠ f
    · rw [Proto.setView_phase_ne _ _ hne]
      exact h.range c' f'
    · push Not at hne
      obtain ⟨rfl, rfl⟩ := hne
      exact fun _ => ⟨hc, hf⟩

/-! ## Steps of the program -/

section Send

variable (s c f)

theorem Cluster.send_cells (wrs : List Wr) : (s.send c f wrs).cells = s.cells := by
  induction wrs generalizing s with
  | nil => rfl
  | cons w wrs ih => exact ih _

theorem Cluster.send_clients (wrs : List Wr) : (s.send c f wrs).clients = s.clients := by
  induction wrs generalizing s with
  | nil => rfl
  | cons w wrs ih => exact ih _

theorem Cluster.send_inflight (wrs : List Wr) :
    (s.send c f wrs).inflight c f = postedTo wrs (s.inflight c f) := by
  induction wrs generalizing s with
  | nil => rfl
  | cons w wrs ih =>
    rw [Cluster.send, List.foldl_cons, ← Cluster.send, ih]
    simp [Cluster.setInflight, postedTo]

theorem Cluster.send_inflight_ne (wrs : List Wr) {c' f' : ℕ} (h : c' ≠ c ∨ f' ≠ f) :
    (s.send c f wrs).inflight c' f' = s.inflight c' f' := by
  induction wrs generalizing s with
  | nil => rfl
  | cons w wrs ih =>
    rw [Cluster.send, List.foldl_cons, ← Cluster.send, ih]
    by_cases hc : c' = c
    · subst hc
      simp [Cluster.setInflight, h.resolve_left (not_not.2 rfl)]
    · simp [Cluster.setInflight, hc]

/-- The cluster after the future `f` of the client `c` has made the step `x`. -/
def Cluster.after (x : Outcome OpFuture) : Cluster :=
  (s.setClient c ((s.clients c).setFuture f x)).send c f x.posted

end Send

/-- A step of the program of one future only has to be checked on that future. -/
theorem Sim.after (h : Sim L s a) (hc : c < L.numClients) (hf : f < L.asyncParallelism)
    {x : Outcome OpFuture} (hcells : w.cells = a.cells) (hcache : x.state.cache = w.cache)
    (hcounts : Counts x.future (postedTo x.posted (s.inflight c f)))
    (hphase : PhaseSim (.ofClient L c) x.future ((s.clients c).scratch f)
      (postedTo x.posted (s.inflight c f)) w.phase) : Sim L (s.after c f x) (a.setView c f w) := by
  have hinfl : (s.after c f x).inflight c f = postedTo x.posted (s.inflight c f) :=
    Cluster.send_inflight ..
  refine h.setView hc hf ?_ (fun c' hne => ?_) ?_ (fun f' hne => ?_) (fun c' f' hne => ?_) ?_ ?_
  · rw [Cluster.after, Cluster.send_cells, hcells]
    exact h.cells
  · rw [Cluster.after, Cluster.send_clients]
    exact update_of_ne hne ..
  · rw [Cluster.after, Cluster.send_clients]
    simpa [Cluster.setClient, DsClient.setFuture] using hcache
  · rw [Cluster.after, Cluster.send_clients]
    simp [Cluster.setClient, DsClient.setFuture, hne]
  · rw [Cluster.after, Cluster.send_inflight_ne _ _ _ _ hne]
    rfl
  · rw [hinfl, Cluster.after, Cluster.send_clients]
    simpa [Cluster.setClient, DsClient.setFuture] using hcounts
  · rw [hinfl, Cluster.after, Cluster.send_clients]
    simpa [Cluster.setClient, DsClient.setFuture] using hphase

/-- A step that changes nothing of the future nor of the state of its client. -/
theorem Sim.stutter (h : Sim L s a) (hc : c < L.numClients) (hf : f < L.asyncParallelism)
    {b : Bool} : Sim L (s.after c f ⟨(s.clients c).futures f, (s.clients c).state, [], b⟩)
      (a.setView c f (a.view c f)) :=
  h.after hc hf rfl (h.cache c) (h.counts c f) (h.phase c f)

/-- With nothing in flight, the counters are at zero. -/
theorem Counts.zero {o : OpFuture} {infl : ℕ → Option Rdma} (h : Counts o infl)
    (hnone : ∀ r, infl r = none) :
    (∀ r, o.getF.ongoingPerServer r = 0) ∧ ∀ r, o.putF.ongoingPerServer r = 0 :=
  ⟨fun r => by rw [h.get r, hnone r]; simp, fun r => by rw [h.put r, hnone r]; simp⟩

/-- An idle future has nothing in flight, and its counters are at zero. -/
theorem Sim.of_idle (h : Sim L s a) (hi : ((s.clients c).futures f).isDone = true) :
    a.phase c f = .idle ∧ (∀ r, s.inflight c f r = none) ∧
      (∀ r, ((s.clients c).futures f).getF.ongoingPerServer r = 0) ∧
      ∀ r, ((s.clients c).futures f).putF.ongoingPerServer r = 0 := by
  have hp := h.phase c f
  have hidle : a.phase c f = .idle := by
    cases hph : a.phase c f <;> rw [hph] at hp <;> first
      | rfl
      | (obtain ⟨hk, hs, _⟩ := hp
         simp [OpFuture.isDone, hk, PutFuture.isDone, GetFuture.isDone, hs] at hi)
  rw [hidle] at hp
  have hnone := hp.2.2
  exact ⟨hidle, hnone, (h.counts c f).zero hnone⟩

section Step

variable (hq : L.effectiveMajority ≤ L.numServers)

include hq in
/-- Starting a Put: from the register cached, or else by reading. -/
theorem Sim.doPut (h : Sim L s a) (hc : c < L.numClients) (hf : f < L.asyncParallelism)
    (hi : ((s.clients c).futures f).isDone = true) (k : ℕ) (v : UInt64) :
    ∃ w, Move L c f (a.view c f) (.invokePut c f k v) w ∧
      Sim L (s.after c f (((s.clients c).futures f).doPut (.ofClient L c) (s.clients c).state k v))
        (a.setView c f w) := by
  have hq' : (DsConf.ofClient L c).quorum ≤ (DsConf.ofClient L c).layout.numServers := hq
  obtain ⟨hidle, hnone, hg, hp⟩ := h.of_idle hi
  have hcache := h.cache c
  set o := (s.clients c).futures f
  set st := (s.clients c).state
  by_cases hit : L.regCacheEnabled = true ∧ ∃ cached, a.cache c k = some cached
  · obtain ⟨hen, cached, hca⟩ := hit
    obtain ⟨needs, exp, hne, hx⟩ := PutFuture.doPut_hit (d := .ofClient L c) o.putF
      (v := v) hen (by rw [hcache]; exact hca)
    refine ⟨⟨a.cells, a.cache c, .putChain k v cached fun _ => none⟩, ?_, ?_⟩
    · rw [Proto.view, hidle]
      exact .putHit hen hca
    · rw [OpFuture.doPut, hx]
      refine h.after hc hf rfl hcache ⟨fun r => ?_, fun r => ?_⟩
        ⟨rfl, rfl, ⟨rfl, rfl, rfl, rfl⟩, fun i hi => hne i hi, ?_, by simp⟩
      · simpa [Outcome.lift, PutFuture.posting] using hg r
      · simpa [Outcome.lift, PutFuture.posting] using countPosts_eq hq' hnone hp r
      · exact inFlight_postedTo hq' hnone (by simp) fun _ _ _ => rfl
  · have hmiss : L.regCacheEnabled = true → a.cache c k = none := by
      intro hen
      push Not at hit
      exact Option.eq_none_iff_forall_ne_some.2 (hit hen)
    have hx := PutFuture.doPut_miss (d := .ofClient L c) o.putF (k := k) (v := v)
      (by rw [hcache]; exact hmiss)
    refine ⟨⟨a.cells, a.cache c, .putRead k v fun _ => none⟩, ?_, ?_⟩
    · rw [Proto.view, hidle]
      exact .putMiss hmiss
    · rw [OpFuture.doPut, hx]
      refine h.after hc hf rfl hcache ⟨fun r => ?_, fun r => ?_⟩
        ⟨rfl, rfl, ⟨rfl, rfl, rfl⟩, ?_, by simp⟩
      · simpa [Outcome.lift, PutFuture.posting] using hg r
      · simpa [Outcome.lift, PutFuture.posting] using countPosts_eq hq' hnone hp r
      · exact inFlight_postedTo hq' hnone (by simp) fun _ _ _ => rfl

include hq in
/-- Starting a Get. -/
theorem Sim.doGet (h : Sim L s a) (hc : c < L.numClients) (hf : f < L.asyncParallelism)
    (hi : ((s.clients c).futures f).isDone = true) (k : ℕ) :
    ∃ w, Move L c f (a.view c f) (.invokeGet c f k) w ∧
      Sim L (s.after c f (((s.clients c).futures f).doGet (.ofClient L c) (s.clients c).state k))
        (a.setView c f w) := by
  have hq' : (DsConf.ofClient L c).quorum ≤ (DsConf.ofClient L c).layout.numServers := hq
  obtain ⟨hidle, hnone, hg, hp⟩ := h.of_idle hi
  refine ⟨⟨a.cells, a.cache c, .getRead k fun _ => none⟩, ?_, ?_⟩
  · rw [Proto.view, hidle]
    exact .getStart
  · refine h.after hc hf rfl (h.cache c) ⟨fun r => ?_, fun r => ?_⟩
      ⟨rfl, rfl, ⟨rfl, rfl, rfl⟩, ?_, by simp⟩
    · simpa [OpFuture.doGet, GetFuture.doGet, Outcome.lift, GetFuture.posting]
        using countPosts_eq hq' hnone hg r
    · simpa [OpFuture.doGet, GetFuture.doGet, Outcome.lift, GetFuture.posting] using hp r
    · exact inFlight_postedTo hq' hnone (by simp) fun _ _ _ => rfl

end Step

/-! ## Answers -/

namespace InFlight

variable {d : DsConf} {infl : ℕ → Option Rdma} {got : ℕ → Option Register} {op : ℕ → Rdma}

/-- A request in flight is that of a slot that waits for its answer. -/
theorem slot (h : InFlight d infl got op) {r : ℕ} {o : Rdma} (hr : infl r = some o) :
    ∃ i < d.quorum, d.quorumIndices i = r ∧ got i = none ∧ o = op i := by
  by_cases hs : ∃ i < d.quorum, d.quorumIndices i = r
  · obtain ⟨i, hi, rfl⟩ := hs
    rw [h.1 i hi] at hr
    split at hr
    · next hg => exact ⟨i, hi, rfl, hg, (Option.some.inj hr).symm⟩
    · exact absurd hr (by simp)
  · push Not at hs
    rw [h.2 r hs] at hr
    exact absurd hr (by simp)

/-- The request of the slot `i` is answered. -/
theorem answer (hq : d.quorum ≤ d.layout.numServers) (h : InFlight d infl got op) {i : ℕ}
    (hi : i < d.quorum) (x : Register) :
    InFlight d (update infl (d.quorumIndices i) none) (update got i (some x)) op := by
  refine ⟨fun j hj => ?_, fun r hr => ?_⟩
  · by_cases hji : j = i
    · subst hji
      simp
    · rw [update_of_ne fun e => hji (DsConf.quorumIndices_inj hq hj hi e), update_of_ne hji]
      exact h.1 j hj
  · rw [update_of_ne (hr i hi).symm]
    exact h.2 r hr

/-- Nothing is in flight outside the servers. -/
theorem none_of_lt (hn : 0 < d.layout.numServers) (h : InFlight d infl got op)
    (hr : ∀ r < d.layout.numServers, infl r = none) (r : ℕ) : infl r = none := by
  by_cases hs : ∃ i < d.quorum, d.quorumIndices i = r
  · obtain ⟨i, _, rfl⟩ := hs
    exact hr _ (DsConf.quorumIndices_lt hn i)
  · push Not at hs
    exact h.2 r hs

/-- With nothing in flight, every slot has got its answer. -/
theorem answered (h : InFlight d infl got op) (hr : ∀ r, infl r = none) {i : ℕ}
    (hi : i < d.quorum) : got i ≠ none := by
  intro hg
  have := h.1 i hi
  rw [hr, if_pos hg] at this
  exact absurd this (by simp)

/-- With nothing in flight, the slots have got what the buffers hold. -/
theorem got_eq (h : InFlight d infl got op) (hr : ∀ r, infl r = none) {buf : ℕ → Register}
    (hb : ∀ i < d.quorum, ∀ x, got i = some x → buf (d.quorumIndices i) = x) :
    ∀ i < d.quorum, got i = some (buf (d.quorumIndices i)) := by
  intro i hi
  obtain ⟨x, hx⟩ := Option.ne_none_iff_exists'.1 (h.answered hr hi)
  rw [hx, hb i hi x hx]

end InFlight

/-- An answer goes to the buffer of its server. -/
theorem buffer_answer {d : DsConf} (hq : d.quorum ≤ d.layout.numServers) {buf : ℕ → Register}
    {got : ℕ → Option Register} {i j : ℕ} (hi : i < d.quorum) (hj : j < d.quorum) (y : Register)
    (hb : ∀ x, got j = some x → buf (d.quorumIndices j) = x) :
    ∀ x, update got i (some y) j = some x →
      update buf (d.quorumIndices i) y (d.quorumIndices j) = x := by
  intro x hx
  by_cases hji : j = i
  · subst hji
    rw [update_self] at hx ⊢
    exact Option.some.inj hx
  · rw [update_of_ne hji] at hx
    rw [update_of_ne fun e => hji (DsConf.quorumIndices_inj hq hj hi e)]
    exact hb x hx

/-- A completion takes one request off the counter of the current kind. -/
theorem Counts.complete {o : OpFuture} {infl : ℕ → Option Rdma} (h : Counts o infl) {r : ℕ}
    (hr : (infl r).isSome) : Counts (o.addToOngoingRDMA r (-1)) (update infl r none) := by
  have hg := h.get
  have hp := h.put
  constructor <;> intro r' <;> by_cases hrr : r' = r
  all_goals
    first | subst hrr | skip
    cases hk : o.kind <;>
      simp_all [OpFuture.addToOngoingRDMA, GetFuture.addToOngoingRDMA, PutFuture.addToOngoingRDMA]

/-- A completion does not change the phase, but by its answer. -/
theorem PhaseSim.addToOngoingRDMA {d : DsConf} {o : OpFuture} {bufs : Scratch}
    {infl : ℕ → Option Rdma} {ph : Phase} (h : PhaseSim d o bufs infl ph) (r : ℕ) (n : ℤ) :
    PhaseSim d (o.addToOngoingRDMA r n) bufs infl ph := by
  obtain ⟨kind, g, p, x⟩ := o
  cases kind <;> cases ph <;> exact h

/-- The completion of a request only has to be checked on its future. -/
theorem Sim.complete (h : Sim L s a) (hc : c < L.numClients) (hf : f < L.asyncParallelism) {r : ℕ}
    (hr : (s.inflight c f r).isSome) {bufs : Scratch} (hcells : s'.cells = w.cells)
    (hclients : s'.clients = s.clients) (hinfl : s'.inflight = s.inflight)
    (hcache : w.cache = a.cache c)
    (hphase : PhaseSim (.ofClient L c) ((s.clients c).futures f) bufs
      (update (s.inflight c f) r none) w.phase) :
    Sim L (s'.complete c f r bufs) (a.setView c f w) := by
  refine h.setView hc hf hcells (fun c' hne => ?_) ?_ (fun f' hne => ?_) (fun c' f' hne => ?_) ?_ ?_
  · simp [Cluster.complete, Cluster.setClient, Cluster.setInflight, hne, hclients]
  · rw [hcache, ← h.cache c]
    simp [Cluster.complete, Cluster.setClient, Cluster.setInflight, DsClient.complete, hclients]
  · simp [Cluster.complete, Cluster.setClient, Cluster.setInflight, DsClient.complete,
      hclients, hne]
  · by_cases hcc : c' = c
    · subst hcc
      simp [Cluster.complete, Cluster.setClient, Cluster.setInflight, hinfl,
        hne.resolve_left (not_not.2 rfl)]
    · simp [Cluster.complete, Cluster.setClient, Cluster.setInflight, hinfl, hcc]
  · simpa [Cluster.complete, Cluster.setClient, Cluster.setInflight, DsClient.complete, hclients,
      hinfl] using (h.counts c f).complete hr
  · simpa [Cluster.complete, Cluster.setClient, Cluster.setInflight, DsClient.complete, hclients,
      hinfl] using hphase.addToOngoingRDMA r (-1)

theorem Cluster.ite_setCell (r k : ℕ) (e t : Register) :
    (if s.cells r k = e then s.setCell r k t else s) =
      { s with cells := casCell s.cells r k e t } := by
  rw [casCell]
  split <;> rfl

section Rdma

variable (hq : L.effectiveMajority ≤ L.numServers)

include hq in
/-- The execution of a request is a move. -/
theorem Sim.rdma (h : Sim L s a) {r : ℕ} {op : Rdma} (hr : s.inflight c f r = some op) {e : Event}
    (he : s.execute c f r op = some (e, s')) :
    c < L.numClients ∧ f < L.asyncParallelism ∧
      ∃ w, Move L c f (a.view c f) e w ∧ Sim L s' (a.setView c f w) := by
  have hq' : (DsConf.ofClient L c).quorum ≤ (DsConf.ofClient L c).layout.numServers := hq
  have hp := h.phase c f
  have hrange := h.range c f
  have hsome : (s.inflight c f r).isSome := by simp [hr]
  rw [Proto.view, ← h.cells]
  cases hph : a.phase c f with
  | idle =>
    rw [hph] at hp
    rw [hp.2.2 r] at hr
    exact absurd hr (by simp)
  | putRead k v got =>
    rw [hph] at hp hrange
    obtain ⟨hc, hf⟩ := hrange (by simp)
    obtain ⟨hk, hs, hd, hi, hb⟩ := hp
    obtain ⟨i, hi', rfl, hg, rfl⟩ := hi.slot hr
    obtain ⟨rfl, rfl⟩ := Prod.mk.inj (Option.some.inj he)
    exact ⟨hc, hf, _, .readPut hi' hg, h.complete hc hf hsome rfl rfl rfl rfl
      ⟨hk, hs, hd, hi.answer hq' hi' _, fun j hj => buffer_answer hq' hi' hj _ (hb j hj)⟩⟩
  | putChain k v cached got =>
    rw [hph] at hp hrange
    obtain ⟨hc, hf⟩ := hrange (by simp)
    obtain ⟨hk, hs, hd, hne, hi, hb⟩ := hp
    obtain ⟨i, hi', rfl, hg, rfl⟩ := hi.slot hr
    obtain ⟨rfl, rfl⟩ := Prod.mk.inj (Option.some.inj he)
    rw [hk]
    refine ⟨hc, hf, _, .casChain hi' hg, h.complete hc hf hsome ?_ ?_ ?_ rfl
      ⟨hk, hs, hd, hne, hi.answer hq' hi' _, fun j hj => buffer_answer hq' hi' hj _ (hb j hj)⟩⟩
    all_goals rw [Cluster.ite_setCell]
  | putCas k v t need exp got =>
    rw [hph] at hp hrange
    obtain ⟨hc, hf⟩ := hrange (by simp)
    obtain ⟨hk, hs, hd, hne, hi, hb⟩ := hp
    obtain ⟨i, hi', rfl, hg, rfl⟩ := hi.slot hr
    obtain ⟨rfl, rfl⟩ := Prod.mk.inj (Option.some.inj he)
    rw [hk]
    refine ⟨hc, hf, _, .casPut hi' hg, h.complete hc hf hsome ?_ ?_ ?_ rfl
      ⟨hk, hs, hd, hne, hi.answer hq' hi' _, fun j hj => buffer_answer hq' hi' hj _ (hb j hj)⟩⟩
    all_goals rw [Cluster.ite_setCell]
  | getRead k got =>
    rw [hph] at hp hrange
    obtain ⟨hc, hf⟩ := hrange (by simp)
    obtain ⟨hk, hs, hd, hi, hb⟩ := hp
    obtain ⟨i, hi', rfl, hg, rfl⟩ := hi.slot hr
    obtain ⟨rfl, rfl⟩ := Prod.mk.inj (Option.some.inj he)
    exact ⟨hc, hf, _, .readGet hi' hg, h.complete hc hf hsome rfl rfl rfl rfl
      ⟨hk, hs, hd, hi.answer hq' hi' _, fun j hj => buffer_answer hq' hi' hj _ (hb j hj)⟩⟩
  | getBack k m exp got =>
    rw [hph] at hp hrange
    obtain ⟨hc, hf⟩ := hrange (by simp)
    obtain ⟨hk, hs, hd, hi, hb⟩ := hp
    obtain ⟨i, hi', rfl, hg, rfl⟩ := hi.slot hr
    obtain ⟨rfl, rfl⟩ := Prod.mk.inj (Option.some.inj he)
    rw [hk]
    refine ⟨hc, hf, _, .casGet hi' hg, h.complete hc hf hsome ?_ ?_ ?_ rfl
      ⟨hk, hs, hd, hi.answer hq' hi' _, fun j hj hjm => buffer_answer hq' hi' hj _ (hb j hj hjm)⟩⟩
    all_goals rw [Cluster.ite_setCell]

end Rdma

/-! ## Steps forward -/

section Posting

variable {d : DsConf} {o : OpFuture} {infl : ℕ → Option Rdma} {id : ℕ} {sel : ℕ → Bool}
  {op : ℕ → Rdma}

/-- Posting the requests of a Put, with nothing in flight, counts them. -/
theorem Counts.posting_put (hq : d.quorum ≤ d.layout.numServers) (h : Counts o infl)
    (hk : o.kind = .put) (hnone : ∀ r, infl r = none) {p : PutFuture}
    (hp : p.ongoingPerServer = o.putF.ongoingPerServer) (st : DsState) :
    Counts { o with putF := (p.posting st (d.postSlots id sel op)).future }
      (postedTo (d.postSlots id sel op) infl) where
  get r := by simp [(h.zero hnone).1 r, hk]
  put r := by
    simpa [PutFuture.posting, hk, hp] using countPosts_eq hq hnone (h.zero hnone).2 r

/-- Posting the requests of a Get, with nothing in flight, counts them. -/
theorem Counts.posting_get (hq : d.quorum ≤ d.layout.numServers) (h : Counts o infl)
    (hk : o.kind = .get) (hnone : ∀ r, infl r = none) {g : GetFuture}
    (hg : g.ongoingPerServer = o.getF.ongoingPerServer) (st : DsState) :
    Counts { o with getF := (g.posting st (d.postSlots id sel op)).future }
      (postedTo (d.postSlots id sel op) infl) where
  get r := by
    simpa [GetFuture.posting, hk, hg] using countPosts_eq hq hnone (h.zero hnone).1 r
  put r := by simp [(h.zero hnone).2 r, hk]

end Posting

section StepEvent

variable {o o' : OpFuture}

theorem stepEvent_put (hk : o.kind = .put) (hs : o'.putF.step ≠ .done) :
    Cluster.stepEvent c f o o' = .stepped c f := by
  simp [Cluster.stepEvent, hk, hs]

theorem stepEvent_putDone (hk : o.kind = .put) (hs : o.putF.step ≠ .done)
    (hs' : o'.putF.step = .done) :
    Cluster.stepEvent c f o o' = .putDone c f o'.putF.key o'.putF.value o'.putF.targetReg := by
  simp [Cluster.stepEvent, hk, hs, hs']

theorem stepEvent_getDone (hk : o.kind = .get) (hs : o.getF.step ≠ .done)
    (hs' : o'.getF.step = .done) :
    Cluster.stepEvent c f o o' = .getDone c f o'.getF.key o'.getF.maxReg o'.getF.getValue := by
  simp [Cluster.stepEvent, hk, hs, hs']

theorem stepEvent_getMax (hk : o.kind = .get) (hs : o.getF.step = .reading)
    (hs' : o'.getF.step = .writingBack) :
    Cluster.stepEvent c f o o' = .getMax c f o'.getF.key o'.getF.maxReg := by
  simp [Cluster.stepEvent, hk, hs, hs']

theorem stepEvent_self (o : OpFuture) : Cluster.stepEvent c f o o = .stepped c f := by
  cases hk : o.kind
  case get => cases hs : o.getF.step <;> simp [Cluster.stepEvent, hk, hs]
  case put => cases hs : o.putF.step <;> simp [Cluster.stepEvent, hk, hs]
  all_goals simp [Cluster.stepEvent, hk]

end StepEvent

/-- What a step makes of the cache. -/
theorem cache_toCache {st : DsState} {ca : Cache} (h : st.cache = ca) (k : ℕ) (reg : Register) :
    (if L.regCacheEnabled then { st with cache := st.cache.put k reg } else st).cache =
      toCache L ca k reg := by
  subst h
  rw [toCache]
  split <;> rfl

/-- A future that is free to step has nothing in flight. -/
theorem inflight_of_ready {d : DsConf} (hn : 0 < d.layout.numServers) {infl : ℕ → Option Rdma}
    {got : ℕ → Option Register} {op : ℕ → Rdma} (hi : InFlight d infl got op) {ongoing : ℕ → ℤ}
    (hc : ∀ r, ongoing r = if (infl r).isSome then 1 else 0) (hr : d.Ready ongoing) (r : ℕ) :
    infl r = none := by
  refine hi.none_of_lt hn (fun r hlt => ?_) r
  have hle := hr r hlt
  rw [hc r] at hle
  by_contra hne
  exact hle (by simp [Option.isSome_iff_ne_none.2 hne])

/-- A future that is not free to step has a slot that has not got its answer. -/
theorem waiting_of_not_ready {d : DsConf} {infl : ℕ → Option Rdma} {got : ℕ → Option Register}
    {op : ℕ → Rdma} (hi : InFlight d infl got op) {ongoing : ℕ → ℤ}
    (hc : ∀ r, ongoing r = if (infl r).isSome then 1 else 0) (hr : ¬d.Ready ongoing) :
    ∃ i < d.quorum, got i = none := by
  simp only [DsConf.Ready, not_forall, not_not] at hr
  obtain ⟨r, _, hpos⟩ := hr
  rw [hc r] at hpos
  have hsome : (infl r).isSome = true := by
    by_contra hno
    simp [hno] at hpos
  by_cases hs : ∃ i < d.quorum, d.quorumIndices i = r
  · obtain ⟨i, hiq, rfl⟩ := hs
    refine ⟨i, hiq, ?_⟩
    by_contra hgot
    simp [hi.1 i hiq, hgot] at hsome
  · push Not at hs
    simp [hi.2 r hs] at hsome

/-- A Put that is not free to step is waiting for an answer. -/
theorem PhaseSim.waiting_put {d : DsConf} {o : OpFuture} {bufs : Scratch} {infl : ℕ → Option Rdma}
    {ph : Phase} (hp : PhaseSim d o bufs infl ph) (hk : o.kind = .put)
    (hc : ∀ r, o.putF.ongoingPerServer r = if (infl r).isSome then 1 else 0)
    (hr : ¬d.Ready o.putF.ongoingPerServer) : ph.Waiting d.quorum := by
  cases ph with
  | idle => trivial
  | putRead => exact waiting_of_not_ready hp.2.2.2.1 hc hr
  | putChain => exact waiting_of_not_ready hp.2.2.2.2.1 hc hr
  | putCas => exact waiting_of_not_ready hp.2.2.2.2.1 hc hr
  | getRead => exact absurd (hk.symm.trans hp.1) (by simp)
  | getBack => exact absurd (hk.symm.trans hp.1) (by simp)

/-- A Get that is not free to step is waiting for an answer. -/
theorem PhaseSim.waiting_get {d : DsConf} {o : OpFuture} {bufs : Scratch} {infl : ℕ → Option Rdma}
    {ph : Phase} (hp : PhaseSim d o bufs infl ph) (hk : o.kind = .get)
    (hc : ∀ r, o.getF.ongoingPerServer r = if (infl r).isSome then 1 else 0)
    (hr : ¬d.Ready o.getF.ongoingPerServer) : ph.Waiting d.quorum := by
  cases ph with
  | idle => trivial
  | getRead => exact waiting_of_not_ready hp.2.2.2.1 hc hr
  | getBack => exact waiting_of_not_ready hp.2.2.2.1 hc hr
  | putRead => exact absurd (hk.symm.trans hp.1) (by simp)
  | putChain => exact absurd (hk.symm.trans hp.1) (by simp)
  | putCas => exact absurd (hk.symm.trans hp.1) (by simp)

/-- The cluster after a step of the Put part of the future `f` of the client `c`. -/
def Cluster.afterPut (s : Cluster) (c f : ℕ) (x : Outcome PutFuture) : Cluster :=
  s.after c f (x.lift fun p => { (s.clients c).futures f with putF := p })

/-- The cluster after a step of the Get part of the future `f` of the client `c`. -/
def Cluster.afterGet (s : Cluster) (c f : ℕ) (x : Outcome GetFuture) : Cluster :=
  s.after c f (x.lift fun g => { (s.clients c).futures f with getF := g })

/-- A step of the Put part of a future, leaving `x`, is a move. -/
def PutMove (L : Layout) (s : Cluster) (a : Proto) (c f : ℕ) (x : Outcome PutFuture) : Prop :=
  ∃ w, Move L c f (a.view c f) (Cluster.stepEvent c f ((s.clients c).futures f)
      { (s.clients c).futures f with putF := x.future }) w ∧
    Sim L (s.afterPut c f x) (a.setView c f w)

/-- A step of the Get part of a future, leaving `x`, is a move. -/
def GetMove (L : Layout) (s : Cluster) (a : Proto) (c f : ℕ) (x : Outcome GetFuture) : Prop :=
  ∃ w, Move L c f (a.view c f) (Cluster.stepEvent c f ((s.clients c).futures f)
      { (s.clients c).futures f with getF := x.future }) w ∧
    Sim L (s.afterGet c f x) (a.setView c f w)

section StepForward

variable (hq : L.effectiveMajority ≤ L.numServers) (h : Sim L s a) (hc : c < L.numClients)
  (hf : f < L.asyncParallelism) (hnone : ∀ r, s.inflight c f r = none) {k : ℕ} {v : UInt64}
  {got : ℕ → Option Register}

include hq h hc hf hnone

/-- A Put, with nothing in flight, posts its next requests. -/
theorem Sim.posting_put (hk : ((s.clients c).futures f).kind = .put) {id : ℕ} {sel : ℕ → Bool}
    {op : ℕ → Rdma} (p : PutFuture)
    (hp : p.ongoingPerServer = ((s.clients c).futures f).putF.ongoingPerServer) (ph : Phase)
    (hphase : PhaseSim (.ofClient L c) { (s.clients c).futures f with
        putF := (p.posting (s.clients c).state ((DsConf.ofClient L c).postSlots id sel op)).future }
      ((s.clients c).scratch f)
      (postedTo ((DsConf.ofClient L c).postSlots id sel op) (s.inflight c f)) ph) :
    Sim L (s.afterPut c f (p.posting (s.clients c).state
        ((DsConf.ofClient L c).postSlots id sel op)))
      (a.setView c f ⟨a.cells, a.cache c, ph⟩) :=
  h.after hc hf rfl (h.cache c) ((h.counts c f).posting_put (d := .ofClient L c) hq hk hnone hp _)
    hphase

omit hq in
/-- A Put, with nothing in flight, is over. -/
theorem Sim.finish_put (hk : ((s.clients c).futures f).kind = .put) (p : PutFuture)
    (hp : p.ongoingPerServer = ((s.clients c).futures f).putF.ongoingPerServer) :
    Sim L (s.afterPut c f (p.finish (.ofClient L c) (s.clients c).state))
      (a.setView c f ⟨a.cells, toCache L (a.cache c) p.key p.targetReg, .idle⟩) := by
  refine h.after hc hf rfl (cache_toCache (h.cache c) _ _) ⟨fun r => ?_, fun r => ?_⟩
    ⟨?_, ?_, hnone⟩
  · exact (h.counts c f).get r
  · exact (congrFun hp r).trans ((h.counts c f).put r)
  · simp [OpFuture.isDone, hk, PutFuture.isDone, Outcome.lift, PutFuture.finish]
  · simp [Outcome.lift, hk]

/-- A Put has read its quorum. -/
theorem Sim.stepReadSeq (hph : a.phase c f = .putRead k v got) :
    PutMove L s a c f (((s.clients c).futures f).putF.stepReadSeq (.ofClient L c)
      ((s.clients c).scratch f) (s.clients c).state) := by
  have hp := h.phase c f
  rw [hph] at hp
  obtain ⟨hk, hs, ⟨rfl, rfl, hz⟩, hi, hb⟩ := hp
  set p := ((s.clients c).futures f).putF with hpdef
  set bufs := (s.clients c).scratch f with hbufs
  obtain ⟨z, needs, exp, hle, hz', hne, hx⟩ :=
    PutFuture.stepReadSeq_spec (d := .ofClient L c) p bufs (s.clients c).state
  rw [hx]
  refine ⟨⟨a.cells, a.cache c, .putCas p.key p.value (regOf L c (z + 1) p.value) (fun _ => true)
    (fun i => bufs.readBufs (srv L c i)) fun _ => none⟩, ?_, ?_⟩
  · rw [stepEvent_put hk (by simp [PutFuture.posting]), Proto.view, hph]
    exact .readDone (hi.got_eq hnone hb) hle hz'
  · have hcount : Nat.count (fun i => needs (srv L c i) = false) (DsConf.ofClient L c).quorum = 0 :=
      Nat.count_of_forall_not fun {j} hj => by simp [(hne j hj).1]
    refine h.posting_put hq hc hf hnone hk _ ?_ _ ?_
    · rfl
    · refine ⟨hk, rfl, ⟨rfl, rfl, rfl, hz.trans hcount.symm⟩, hne, ?_, by simp⟩
      exact inFlight_postedTo (d := .ofClient L c) hq hnone (by simp) fun _ _ _ => rfl

/-- An optimistic chain is over. -/
theorem Sim.stepOptimisticChain {cached : Register} (hph : a.phase c f = .putChain k v cached got) :
    PutMove L s a c f (((s.clients c).futures f).putF.stepOptimisticChain (.ofClient L c)
      ((s.clients c).scratch f) (s.clients c).state) := by
  have hp := h.phase c f
  rw [hph] at hp
  obtain ⟨hk, hs, ⟨rfl, rfl, hz, ht⟩, hn, hi, hb⟩ := hp
  set p := ((s.clients c).futures f).putF with hpdef
  set bufs := (s.clients c).scratch f with hbufs
  have hgot := hi.got_eq hnone hb
  obtain ⟨z, needs, exp, hle, hz', hne, hx⟩ :=
    PutFuture.stepOptimisticChain_spec (d := .ofClient L c) hq bufs (s.clients c).state hn hz
  have hseq : p.targetReg.seq - 1 = cached.seq := by
    rw [ht]
    change cached.seq + 1 - 1 = cached.seq
    grind
  rw [hseq] at hle hz'
  rw [hx]
  split
  · next hall =>
    refine ⟨_, ?_, h.finish_put hc hf hnone hk _ rfl⟩
    rw [stepEvent_putDone hk (by simp [← hpdef, hs]) rfl, Proto.view, hph]
    simp only [PutFuture.finish]
    rw [ht]
    exact .chainDone fun i hi' => by rw [hgot i hi', hall i hi']
  · next hall =>
    push Not at hall
    refine ⟨⟨a.cells, a.cache c, .putCas p.key p.value (regOf L c (z + 1) p.value)
      (fun i => decide (bufs.swapBufs (srv L c i) ≠ cached))
      (fun i => if bufs.swapBufs (srv L c i) = cached then regOf L c (cached.seq + 1) p.value
        else bufs.swapBufs (srv L c i))
      fun i => if bufs.swapBufs (srv L c i) = cached then some (bufs.swapBufs (srv L c i))
        else none⟩, ?_, ?_⟩
    · rw [stepEvent_put hk (by simp [PutFuture.posting]), Proto.view, hph]
      exact .chainRetry hgot hall hle hz'
    · refine h.posting_put hq hc hf hnone hk _ ?_ _ ?_
      · rfl
      refine ⟨hk, rfl, ⟨rfl, rfl, rfl, ?_⟩, fun i hi' => ?_, ?_, fun i hi' x hx => ?_⟩
      · refine PutFuture.count_congr fun i hi' => ?_
        simp [PutFuture.posting, (hne i hi').1]
      · have hnei := hne i hi'
        rw [ht] at hnei
        exact hnei
      · refine inFlight_postedTo (d := .ofClient L c) hq hnone (fun i _ => by simp)
          fun i _ hsel => ?_
        dsimp only
        rw [if_neg (by simpa using hsel)]
      · dsimp only at hx
        split at hx
        · exact Option.some.inj hx
        · exact absurd hx (by simp)

/-- The CASes of a Put are over. -/
theorem Sim.stepCas {t : Register} {need : ℕ → Bool} {exp : ℕ → Register}
    (hph : a.phase c f = .putCas k v t need exp got) :
    PutMove L s a c f (((s.clients c).futures f).putF.stepCas (.ofClient L c)
      ((s.clients c).scratch f) (s.clients c).state) := by
  have hp := h.phase c f
  rw [hph] at hp
  obtain ⟨hk, hs, ⟨rfl, rfl, rfl, hz⟩, hn, hi, hb⟩ := hp
  set p := ((s.clients c).futures f).putF with hpdef
  set bufs := (s.clients c).scratch f with hbufs
  have hgot := hi.got_eq hnone hb
  have hout : ∀ i < L.effectiveMajority, p.Outrun (.ofClient L c) bufs i ↔ need i = true ∧
      bufs.swapBufs (srv L c i) ≠ exp i ∧ p.targetReg.seq ≤ (bufs.swapBufs (srv L c i)).seq :=
    fun i hi' => by rw [PutFuture.Outrun, (hn i hi').1, (hn i hi').2]
  by_cases hno : ∀ i < L.effectiveMajority, ¬p.Outrun (.ofClient L c) bufs i
  · obtain ⟨needs, exp', hne, hx⟩ :=
      PutFuture.stepCas_of_not_outrun (d := .ofClient L c) hq (s.clients c).state hno hz
    have hne' : ∀ i < L.effectiveMajority,
        needs (srv L c i) = (need i && decide (bufs.swapBufs (srv L c i) ≠ exp i)) ∧
        exp' i = if need i then bufs.swapBufs (srv L c i) else exp i := by
      intro i hi'
      rw [← (hn i hi').1, ← (hn i hi').2]
      exact hne i hi'
    rw [hx]
    split
    · next hall =>
      refine ⟨_, ?_, h.finish_put hc hf hnone hk _ rfl⟩
      rw [stepEvent_putDone hk (by simp [← hpdef, hs]) rfl, Proto.view, hph]
      refine .casDone hgot fun i hi' hneed => ?_
      have hfalse := (hne' i hi').1.symm.trans (hall i hi')
      simpa [hneed] using hfalse
    · next hall =>
      push Not at hall
      refine ⟨⟨a.cells, a.cache c, .putCas p.key p.value p.targetReg
        (fun i => need i && decide (bufs.swapBufs (srv L c i) ≠ exp i))
        (fun i => if need i then bufs.swapBufs (srv L c i) else exp i)
        fun i => if need i = true ∧ bufs.swapBufs (srv L c i) ≠ exp i then none
          else some (bufs.swapBufs (srv L c i))⟩, ?_, ?_⟩
      · rw [stepEvent_put hk (by simp [PutFuture.posting, hs]), Proto.view, hph]
        refine .casRetry hgot ?_ fun i hi' hneed hne => ?_
        · obtain ⟨i, hi', hneed⟩ := hall
          refine ⟨i, hi', ?_⟩
          rw [ne_eq, Bool.not_eq_false, (hne' i hi').1] at hneed
          simpa using hneed
        · have := (hout i hi').not.1 (hno i hi')
          by_contra hge
          exact this ⟨hneed, hne, UInt16.not_lt.1 hge⟩
      · refine h.posting_put hq hc hf hnone hk _ ?_ _ ?_
        · rfl
        refine ⟨hk, hs, ⟨rfl, rfl, rfl, rfl⟩, hne', ?_, fun i hi' x hx => ?_⟩
        · refine inFlight_postedTo (d := .ofClient L c) hq hnone (fun i hi' => ?_)
            fun i hi' hsel => ?_
          · rw [(hne' i hi').1]
            simp
          · rw [(hne' i hi').2]
        · dsimp only at hx
          split at hx
          · exact absurd hx (by simp)
          · exact Option.some.inj hx
  · -- the first slot outrun
    push Not at hno
    obtain ⟨hm, hm'⟩ := Nat.find_spec hno
    have hmin : ∀ i < Nat.find hno, ¬p.Outrun (.ofClient L c) bufs i :=
      fun i hi' ho => Nat.find_min hno hi' ⟨hi'.trans hm, ho⟩
    set m := Nat.find hno
    obtain ⟨needs, exp', hne, hx⟩ :=
      PutFuture.stepCas_of_outrun (d := .ofClient L c) hq (s.clients c).state hm hm' hmin
    rw [hx]
    refine ⟨⟨a.cells, a.cache c, .putCas p.key p.value
      (regOf L c ((bufs.swapBufs (srv L c m)).seq + 1) p.value) (fun i => decide (i ≤ m))
      (fun i => bufs.swapBufs (srv L c i))
      fun i => if i ≤ m then none else some (bufs.swapBufs (srv L c i))⟩, ?_, ?_⟩
    · rw [stepEvent_put hk (by simp [PutFuture.posting, hs]), Proto.view, hph]
      refine .casReset hgot hm ((hout m hm).1 hm') fun i hi' hneed hne => ?_
      have hno' := (hout i (hi'.trans hm)).not.1 (hmin i hi')
      by_contra hge
      exact hno' ⟨hneed, hne, UInt16.not_lt.1 hge⟩
    · refine h.posting_put hq hc hf hnone hk _ ?_ _ ?_
      · rfl
      refine ⟨hk, hs, ⟨rfl, rfl, rfl, ?_⟩, hne, ?_, fun i hi' x hx => ?_⟩
      · refine (PutFuture.count_gt m _).symm.trans (PutFuture.count_congr fun i hi' => ?_)
        simp [PutFuture.posting, (hne i hi').1]
      · exact inFlight_postedTo (d := .ofClient L c) hq hnone (fun i _ => by simp) fun _ _ _ => rfl
      · dsimp only at hx
        split at hx
        · exact absurd hx (by simp)
        · exact Option.some.inj hx

omit hq in
/-- A Get, with nothing in flight, is over. -/
theorem Sim.finish_get (hk : ((s.clients c).futures f).kind = .get) (g : GetFuture) (st : DsState)
    (hg : g.ongoingPerServer = ((s.clients c).futures f).getF.ongoingPerServer)
    (hs : g.step = .done) :
    Sim L (s.afterGet c f ⟨g, st, [], true⟩) (a.setView c f ⟨a.cells, st.cache, .idle⟩) := by
  refine h.after hc hf rfl rfl ⟨fun r => ?_, fun r => ?_⟩ ⟨?_, ?_, hnone⟩
  · exact (congrFun hg r).trans ((h.counts c f).get r)
  · exact (h.counts c f).put r
  · simp [OpFuture.isDone, hk, GetFuture.isDone, Outcome.lift, hs]
  · simp [Outcome.lift, hk]

/-- A Get has read its quorum. -/
theorem Sim.stepReading (hph : a.phase c f = .getRead k got) :
    GetMove L s a c f (((s.clients c).futures f).getF.stepReading (.ofClient L c)
      ((s.clients c).scratch f) (s.clients c).state) := by
  have hp := h.phase c f
  rw [hph] at hp
  obtain ⟨hk, hs, ⟨rfl, h0, hz⟩, hi, hb⟩ := hp
  set g := ((s.clients c).futures f).getF with hgdef
  set bufs := (s.clients c).scratch f with hbufs
  have hgot := hi.got_eq hnone hb
  obtain ⟨m, exp, n, hle, hm, hpos, hexp, hx⟩ :=
    GetFuture.stepReading_spec (d := .ofClient L c) bufs (s.clients c).state h0 hz
  rw [hx]
  dsimp only
  split
  · next hback =>
    obtain ⟨hen, hex⟩ := hback
    refine ⟨⟨a.cells, toCache L (a.cache c) g.key m, .getBack g.key m
      (fun i => bufs.readBufs (srv L c i))
      fun i => if bufs.readBufs (srv L c i) = m then some m else none⟩, ?_, ?_⟩
    · rw [stepEvent_getMax hk hs rfl, Proto.view, hph]
      exact .getMax hgot hle hm hen hex hpos
    · refine h.after hc hf rfl (cache_toCache (h.cache c) _ _)
        ((h.counts c f).posting_get (d := .ofClient L c) hq hk hnone ?_ _) ?_
      · rfl
      refine ⟨hk, rfl, ⟨rfl, rfl, rfl, hexp⟩, ?_, fun i hi' hne x hx => ?_⟩
      · refine inFlight_postedTo (d := .ofClient L c) hq hnone (fun i _ => by simp) fun i _ _ => rfl
      · dsimp only at hx
        rw [if_neg hne] at hx
        exact absurd hx (by simp)
  · next hback =>
    refine ⟨⟨a.cells, toCache L (a.cache c) g.key m, .idle⟩, ?_, ?_⟩
    · rw [stepEvent_getDone hk (by simp [← hgdef, hs]) rfl, Proto.view, hph]
      refine .getDone hgot hle hm (fun hen i hi' => ?_) hpos
      by_contra hne
      exact hback ⟨hen, i, hi', hne⟩
    · rw [← cache_toCache (h.cache c)]
      exact h.finish_get hc hf hnone hk _ _ rfl rfl

omit hq in
/-- A Get has heard from its writeback. -/
theorem Sim.stepWritingBack {m : Register} {exp : ℕ → Register}
    (hph : a.phase c f = .getBack k m exp got) :
    GetMove L s a c f ⟨{ ((s.clients c).futures f).getF with step := .done },
      (s.clients c).state, [], true⟩ := by
  have hp := h.phase c f
  rw [hph] at hp
  obtain ⟨hk, hs, ⟨rfl, rfl, hv, _⟩, hi, _⟩ := hp
  refine ⟨⟨a.cells, a.cache c, .idle⟩, ?_, ?_⟩
  · rw [stepEvent_getDone hk (by simp [hs]) rfl, Proto.view, hph]
    simp only [GetFuture.getValue, hv]
    exact .backDone fun i hi' => hi.answered hnone hi'
  · rw [← h.cache c]
    exact h.finish_get hc hf hnone hk _ _ rfl rfl

end StepForward

/-! ## Runs -/

section Kind

variable {d : DsConf} {o : OpFuture} {bufs : Scratch} {st : DsState}

theorem tryStepForward_put (hk : o.kind = .put) : o.tryStepForward d bufs st =
    (bufs, (o.putF.tryStepForward d bufs st).lift fun p => { o with putF := p }) := by
  obtain ⟨kind, g, p, x⟩ := o
  subst hk
  rfl

theorem tryStepForward_get (hk : o.kind = .get) : o.tryStepForward d bufs st =
    (bufs, (o.getF.tryStepForward d bufs st).lift fun g => { o with getF := g }) := by
  obtain ⟨kind, g, p, x⟩ := o
  subst hk
  rfl

end Kind

section Run

variable (hq : L.effectiveMajority ≤ L.numServers) (hn : 0 < L.numServers)

include hq hn in
/-- A step forward of a future is a move. -/
theorem Sim.tryStepForward (h : Sim L s a) (hc : c < L.numClients) (hf : f < L.asyncParallelism)
    {x : Scratch × Outcome OpFuture}
    (hx : x = ((s.clients c).futures f).tryStepForward (.ofClient L c) ((s.clients c).scratch f)
      (s.clients c).state) :
    x.1 = (s.clients c).scratch f ∧
      ∃ w, Move L c f (a.view c f)
          (Cluster.stepEvent c f ((s.clients c).futures f) x.2.future) w ∧
        Sim L (s.after c f x.2) (a.setView c f w) := by
  have hp := h.phase c f
  have hcounts := h.counts c f
  cases hk : ((s.clients c).futures f).kind with
  | none =>
    simp only [OpFuture.tryStepForward, hk] at hx
    subst hx
    have hidle : (a.phase c f).Waiting L.effectiveMajority := by
      cases hph : a.phase c f <;> rw [hph] at hp
      case idle => trivial
      all_goals exact absurd (hk.symm.trans hp.1) (by simp)
    exact ⟨rfl, _, by rw [stepEvent_self]; exact .stutter hidle, h.stutter hc hf⟩
  | range =>
    cases hph : a.phase c f <;> rw [hph] at hp
    case idle => exact absurd hk hp.2.1
    all_goals exact absurd (hk.symm.trans hp.1) (by simp)
  | put =>
    rw [tryStepForward_put hk, PutFuture.tryStepForward] at hx
    subst hx
    refine ⟨rfl, ?_⟩
    have hct : ∀ r, ((s.clients c).futures f).putF.ongoingPerServer r =
        if (s.inflight c f r).isSome then 1 else 0 := by simpa [hk] using hcounts.put
    split
    · next hr =>
      cases hph : a.phase c f with
      | idle =>
        rw [hph] at hp
        have hd : ((s.clients c).futures f).putF.step = .done := by
          simpa [OpFuture.isDone, hk, PutFuture.isDone] using hp.1
        simp only [hd]
        refine ⟨_, ?_, h.stutter hc hf⟩
        rw [Outcome.lift, stepEvent_self]
        exact .stutter (by rw [Proto.view, hph]; trivial)
      | putRead k v got =>
        rw [hph] at hp
        simp only [hp.2.1]
        exact h.stepReadSeq hq hc hf (inflight_of_ready hn hp.2.2.2.1 hct hr) hph
      | putChain k v cached got =>
        rw [hph] at hp
        simp only [hp.2.1]
        exact h.stepOptimisticChain hq hc hf (inflight_of_ready hn hp.2.2.2.2.1 hct hr) hph
      | putCas k v t need exp got =>
        rw [hph] at hp
        simp only [hp.2.1]
        exact h.stepCas hq hc hf (inflight_of_ready hn hp.2.2.2.2.1 hct hr) hph
      | getRead k got =>
        rw [hph] at hp
        exact absurd (hk.symm.trans hp.1) (by simp)
      | getBack k m exp got =>
        rw [hph] at hp
        exact absurd (hk.symm.trans hp.1) (by simp)
    · next hr =>
      refine ⟨_, ?_, h.stutter hc hf⟩
      rw [Outcome.lift, stepEvent_self]
      exact .stutter (hp.waiting_put hk hct hr)
  | get =>
    rw [tryStepForward_get hk, GetFuture.tryStepForward] at hx
    subst hx
    refine ⟨rfl, ?_⟩
    have hct : ∀ r, ((s.clients c).futures f).getF.ongoingPerServer r =
        if (s.inflight c f r).isSome then 1 else 0 := by simpa [hk] using hcounts.get
    split
    · next hr =>
      cases hph : a.phase c f with
      | idle =>
        rw [hph] at hp
        have hd : ((s.clients c).futures f).getF.step = .done := by
          simpa [OpFuture.isDone, hk, GetFuture.isDone] using hp.1
        simp only [hd]
        refine ⟨_, ?_, h.stutter hc hf⟩
        rw [Outcome.lift, stepEvent_self]
        exact .stutter (by rw [Proto.view, hph]; trivial)
      | getRead k got =>
        rw [hph] at hp
        simp only [hp.2.1]
        exact h.stepReading hq hc hf (inflight_of_ready hn hp.2.2.2.1 hct hr) hph
      | getBack k m exp got =>
        rw [hph] at hp
        simp only [hp.2.1]
        exact h.stepWritingBack hc hf (inflight_of_ready hn hp.2.2.2.1 hct hr) hph
      | putRead k v got =>
        rw [hph] at hp
        exact absurd (hk.symm.trans hp.1) (by simp)
      | putChain k v cached got =>
        rw [hph] at hp
        exact absurd (hk.symm.trans hp.1) (by simp)
      | putCas k v t need exp got =>
        rw [hph] at hp
        exact absurd (hk.symm.trans hp.1) (by simp)
    · next hr =>
      refine ⟨_, ?_, h.stutter hc hf⟩
      rw [Outcome.lift, stepEvent_self]
      exact .stutter (hp.waiting_get hk hct hr)

include hq hn in
/-- Every step of the cluster is a move. -/
theorem Sim.step (h : Sim L s a) {act : Action} {e : Event} (hst : s.step L act = some (e, s')) :
    ∃ c f w, c < L.numClients ∧ f < L.asyncParallelism ∧ Move L c f (a.view c f) e w ∧
      Sim L s' (a.setView c f w) := by
  cases act with
  | doPut c f k v =>
    simp only [Cluster.step] at hst
    split at hst
    · next hi =>
      obtain ⟨rfl, rfl⟩ := Prod.mk.inj (Option.some.inj hst)
      obtain ⟨w, hm, hs⟩ := h.doPut hq hi.1 hi.2.1 hi.2.2 k v
      exact ⟨c, f, w, hi.1, hi.2.1, hm, hs⟩
    · exact absurd hst (by simp)
  | doGet c f k =>
    simp only [Cluster.step] at hst
    split at hst
    · next hi =>
      obtain ⟨rfl, rfl⟩ := Prod.mk.inj (Option.some.inj hst)
      obtain ⟨w, hm, hs⟩ := h.doGet hq hi.1 hi.2.1 hi.2.2 k
      exact ⟨c, f, w, hi.1, hi.2.1, hm, hs⟩
    · exact absurd hst (by simp)
  | rdma c f r =>
    simp only [Cluster.step] at hst
    split at hst
    · next op hr =>
      obtain ⟨hc, hf, w, hm, hs⟩ := h.rdma hq hr hst
      exact ⟨c, f, w, hc, hf, hm, hs⟩
    · exact absurd hst (by simp)
  | tryStepForward c f =>
    simp only [Cluster.step] at hst
    split at hst
    · next hi =>
      obtain ⟨rfl, rfl⟩ := Prod.mk.inj (Option.some.inj hst)
      obtain ⟨hb, w, hm, hs⟩ := h.tryStepForward hq hn hi.1 hi.2 rfl
      refine ⟨c, f, w, hi.1, hi.2, ?_, ?_⟩
      · simpa [DsClient.tryStepForward, DsClient.setFuture] using hm
      · have hcl : (s.clients c).tryStepForward (.ofClient L c) f =
            ((s.clients c).setFuture f (((s.clients c).futures f).tryStepForward (.ofClient L c)
              ((s.clients c).scratch f) (s.clients c).state).2,
            (((s.clients c).futures f).tryStepForward (.ofClient L c)
              ((s.clients c).scratch f) (s.clients c).state).2.posted) := by
          simp only [DsClient.tryStepForward, hb, update_eq_self]
          rfl
        rw [hcl]
        exact hs
    · exact absurd hst (by simp)

include hq hn in
/-- Every trace of the cluster, with events that all satisfy `Q`, is a trace of
    the protocol. -/
theorem Sim.trace {G : Cluster → Action → Prop} {H : Proto → Event → Prop} {Q : Event → Prop}
    (hG : ∀ s a act e s', Sim L s a → G s act → s.step L act = some (e, s') → H a e)
    (h : Sim L s a) {tr : List Event} (ht : Lib.Trace ((Cluster.machine L).Step G) s tr s')
    (hQ : ∀ e ∈ tr, Q e) :
    ∃ a', Lib.Trace (Proto.Step L fun a e => H a e ∧ Q e) a tr a' ∧ Sim L s' a' := by
  refine (ht.guard hQ).simulate h fun s a e s' hs ⟨⟨act, hg, hst⟩, he⟩ => ?_
  obtain ⟨c, f, w, hc, hf, hm, hs'⟩ := hs.step hq hn hst
  exact ⟨_, ⟨c, f, w, hc, hf, ⟨hG _ _ _ _ _ hs hg hst, he⟩, hm, rfl⟩, hs'⟩

include hq hn in
/-- Every run of the cluster, with events that all satisfy `Q`, is a run of the
    protocol, with the same events. -/
theorem exists_run {G : Cluster → Action → Prop} {H : Proto → Event → Prop} {Q : Event → Prop}
    (hG : ∀ s a act e s', Sim L s a → G s act → s.step L act = some (e, s') → H a e)
    {tr : List Event} (h : (Cluster.machine L).Run G tr s) (hQ : ∀ e ∈ tr, Q e) :
    ∃ a, Proto.Run L (fun a e => H a e ∧ Q e) tr a ∧ Sim L s a :=
  (Sim.init L).trace hq hn hG h hQ

end Run

end DiscoSkip
