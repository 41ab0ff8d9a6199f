import Mathlib.Algebra.BigOperators.Ring.Finset
import DiscoSkip.Lib.Machine
import DiscoSkip.Posts

/-!
# The accounting of the completions

The completion of a request is a bare id. It should be credited to the counter
of the part of the future that posted it, its *owner*. A *ledger* is a client
with the requests it has outstanding, each under its owner. The servers may
complete them in any order, and leave anything in the scratchpads.

As long as no range read is run in an operation future, the books are balanced
(`Balanced`): the counter of every owner counts its outstanding requests. A range
read in an operation future, though, posts under the id of the range future of
the same index, and it is the latter that is credited for it.
-/

namespace DiscoSkip

open Function

/-- The part of a future that posts a request: the Get, the Put or the range part
    of the operation future `i`, or the range future `i`. -/
inductive Owner
  | get (i : ℕ)
  | put (i : ℕ)
  | opRange (i : ℕ)
  | range (i : ℕ)
  deriving DecidableEq, Repr

/-- The part of the operation future `i` of a kind. -/
def Kind.owner (i : ℕ) : Kind → Owner
  | .get => .get i
  | .put => .put i
  | .range | .none => .opRange i

/-- The counters of the parts of an operation future. -/
def OpFuture.ongoing (o : OpFuture) : Kind → ℕ → ℤ
  | .get => o.getF.ongoingPerServer
  | .put => o.putF.ongoingPerServer
  | .range | .none => o.rangeF.ongoingPerServer

/-- The counters of an owner. -/
def DsClient.ongoing (cl : DsClient) : Owner → ℕ → ℤ
  | .get i => (cl.futures i).ongoing .get
  | .put i => (cl.futures i).ongoing .put
  | .opRange i => (cl.futures i).ongoing .range
  | .range i => (cl.rangeFutures i).ongoingPerServer

/-- A client, with the requests it has outstanding. -/
structure Ledger where
  client : DsClient := {}
  outstanding : Multiset (Owner × Wr) := 0

/-- What can be done with a client; a call that throws is not a step. -/
inductive Call
  | doGet (i k : ℕ)
  | doPut (i k : ℕ) (v : UInt64)
  | doRange (i : ℕ) (sk ek : UInt64)
  /-- A range read in a range future. -/
  | doRangeFuture (i : ℕ) (sk ek : UInt64)
  | tryStepForward (i : ℕ)
  | tryStepForwardRange (i : ℕ)
  /-- The servers write into a scratchpad. -/
  | answer (i : ℕ) (bufs : Scratch)
  /-- The completion queue of the server `s` returns `cq s`. -/
  | tickRdma (cq : ℕ → List (Owner × Wr))

namespace Ledger

variable (d : DsConf) (x : Ledger)

/-- The requests posted by an owner are outstanding. -/
def post (o : Owner) (y : DsClient × List Wr) : Ledger :=
  ⟨y.1, x.outstanding + ↑(y.2.map (Prod.mk o))⟩

/-- The completions a poll takes: those of the servers that have something to poll for. -/
def taken (cq : ℕ → List (Owner × Wr)) : List (Owner × Wr) :=
  (List.range d.layout.numServers).flatMap fun s =>
    if x.client.state.toPollPerServer s ≤ 0 then [] else cq s

/-- The completion queues may return `cq`: outstanding requests, from each server
    its own, and no more than are asked for. -/
def Polled (cq : ℕ → List (Owner × Wr)) : Prop :=
  (↑(x.taken d cq) : Multiset (Owner × Wr)) ≤ x.outstanding ∧
    ∀ s < d.layout.numServers, 0 < x.client.state.toPollPerServer s →
      ((cq s).length : ℤ) ≤ x.client.state.toPollPerServer s ∧ ∀ p ∈ cq s, p.2.server = s

instance (cq : ℕ → List (Owner × Wr)) : Decidable (x.Polled d cq) :=
  inferInstanceAs (Decidable (_ ∧ ∀ s < _, _ → _ ∧ ∀ p ∈ _, _))

/-- The step of a call, if it is enabled. -/
def step : Call → Option (Unit × Ledger)
  | .doGet i k =>
    if i < d.layout.asyncParallelism ∧ (x.client.futures i).isDone then
      some ((), x.post (.get i) (x.client.doGet d i k))
    else none
  | .doPut i k v =>
    if i < d.layout.asyncParallelism ∧ (x.client.futures i).isDone then
      some ((), x.post (.put i) (x.client.doPut d i k v))
    else none
  | .doRange i sk ek =>
    if i < d.layout.asyncParallelism ∧ (x.client.futures i).isDone then
      match x.client.doRange d i sk ek with
      | .ok y => some ((), x.post (.opRange i) y)
      | .error _ => none
    else none
  | .doRangeFuture i sk ek =>
    if i < d.layout.asyncParallelism ∧ (x.client.rangeFutures i).isDone then
      match x.client.doRangeFuture d i sk ek with
      | .ok y => some ((), x.post (.range i) y)
      | .error _ => none
    else none
  | .tryStepForward i =>
    if i < d.layout.asyncParallelism then
      some ((), x.post ((x.client.futures i).kind.owner i) (x.client.tryStepForward d i))
    else none
  | .tryStepForwardRange i =>
    if i < d.layout.asyncParallelism then
      some ((), x.post (.range i) (x.client.tryStepForwardRange d i))
    else none
  | .answer i bufs =>
    some ((), { x with client := { x.client with scratch := update x.client.scratch i bufs } })
  | .tickRdma cq =>
    if x.Polled d cq then
      match x.client.tickRdma d fun s => (cq s).map fun p => p.2.wrId with
      | .ok cl => some ((), ⟨cl, x.outstanding - ↑(x.taken d cq)⟩)
      | .error _ => none
    else none

/-- The client of the configuration `d`, with all its futures idle. -/
def machine : Lib.Machine Ledger Call Unit := ⟨{}, Ledger.step d⟩

/-- What the accounting should be. -/
structure Accounted : Prop where
  /-- What is to be polled for is what the futures wait for. -/
  toPoll : ∀ s < d.layout.numServers, x.client.state.toPollPerServer s =
    ∑ i ∈ Finset.range d.layout.asyncParallelism, (x.client.ongoing (.get i) s +
      x.client.ongoing (.put i) s + x.client.ongoing (.opRange i) s + x.client.ongoing (.range i) s)
  nonneg : ∀ o s, 0 ≤ x.client.ongoing o s
  /-- A poll credits every owner for its completions, and nothing else. -/
  credited : ∀ cq, x.Polled d cq → ∃ x', x.step d (.tickRdma cq) = some ((), x') ∧
    ∀ o s, x'.client.ongoing o s =
      x.client.ongoing o s - (x.taken d cq).countP fun p => p.1 = o ∧ p.2.server = s
  /-- With all its requests completed, an owner is free to step. -/
  ready : ∀ o, (∀ p ∈ x.outstanding, p.1 ≠ o) → d.Ready (x.client.ongoing o)

end Ledger

/-! ## Balanced books -/

/-- The completion of a request of an owner under an id is credited to the owner. -/
def DsClient.Routes (d : DsConf) (cl : DsClient) : Owner → ℕ → Prop
  | .get i, id => i < d.layout.asyncParallelism ∧ id = i ∧ (cl.futures i).kind = .get
  | .put i, id => i < d.layout.asyncParallelism ∧ id = i ∧ (cl.futures i).kind = .put
  | .opRange _, _ => False
  | .range i, id => i < d.layout.asyncParallelism ∧ id = i ||| RangeFuture.rangeBit

/-- The counters count the outstanding requests, all of which are routed to their
    owners. -/
structure Balanced (d : DsConf) (x : Ledger) : Prop where
  own : ∀ o s, x.client.ongoing o s = x.outstanding.countP fun p => p.1 = o ∧ p.2.server = s
  toPoll : ∀ s, x.client.state.toPollPerServer s = x.outstanding.countP fun p => p.2.server = s
  routed : ∀ p ∈ x.outstanding, p.2.server < d.layout.numServers ∧ x.client.Routes d p.1 p.2.wrId
  idle : ∀ i, (x.client.futures i).isDone = true → ∀ p ∈ x.outstanding, p.1 ≠ .get i ∧ p.1 ≠ .put i
  kind : ∀ i, (x.client.futures i).kind ≠ .range
  futureId : ∀ i, (x.client.futures i).getF.futureId = i ∧ (x.client.futures i).putF.futureId = i ∧
    (x.client.rangeFutures i).futureId = i

section Balanced

variable {d : DsConf} {x : Ledger} {cl : DsClient} {wrs : List Wr} {i : ℕ}

theorem Balanced.init : Balanced d {} where
  own o s := by cases o <;> rfl
  toPoll _ := rfl
  routed p hp := absurd hp (Multiset.notMem_zero p)
  idle _ _ p hp := absurd hp (Multiset.notMem_zero p)
  kind _ := by simp [OpFuture.idle]
  futureId _ := ⟨rfl, rfl, rfl⟩

/-- An owner that is free to step has no requests outstanding. -/
theorem Balanced.none_of_ready (h : Balanced d x) {o : Owner} (hr : d.Ready (x.client.ongoing o)) :
    ∀ p ∈ x.outstanding, p.1 ≠ o := by
  intro p hp ho
  refine hr p.2.server (h.routed p hp).1 ?_
  rw [h.own, Int.natCast_pos, Multiset.countP_pos]
  exact ⟨p, hp, ho, rfl⟩

/-- The requests outstanding of an operation future are those of its kind. -/
theorem Balanced.kind_of_mem (h : Balanced d x) {p : Owner × Wr} (hp : p ∈ x.outstanding) :
    (p.1 = .get i → (x.client.futures i).kind = .get) ∧
      (p.1 = .put i → (x.client.futures i).kind = .put) := by
  have hr := (h.routed p hp).2
  constructor <;> intro ho <;> rw [ho] at hr <;> exact hr.2.2

/-- The requests of an owner, among those outstanding, after posting. -/
theorem countP_post (o o' : Owner) (s : ℕ) :
    (x.post o (cl, wrs)).outstanding.countP (fun p => p.1 = o' ∧ p.2.server = s) =
      x.outstanding.countP (fun p => p.1 = o' ∧ p.2.server = s) +
        if o' = o then wrs.countP fun w => w.server = s else 0 := by
  rw [Ledger.post, Multiset.countP_add, Multiset.coe_countP, List.countP_map]
  congr 1
  split
  · next ho =>
    subst ho
    exact List.countP_congr fun w _ => by simp
  · next ho =>
    rw [List.countP_eq_zero]
    intro w _
    simpa using fun h => absurd h.symm ho

theorem countP_post_server (o : Owner) (s : ℕ) :
    (x.post o (cl, wrs)).outstanding.countP (fun p => p.2.server = s) =
      x.outstanding.countP (fun p => p.2.server = s) + wrs.countP fun w => w.server = s := by
  rw [Ledger.post, Multiset.countP_add, Multiset.coe_countP, List.countP_map]
  rfl

theorem mem_post {o : Owner} {p : Owner × Wr} :
    p ∈ (x.post o (cl, wrs)).outstanding ↔ p ∈ x.outstanding ∨ p.1 = o ∧ p.2 ∈ wrs := by
  rw [Ledger.post, Multiset.mem_add, Multiset.mem_coe, List.mem_map]
  refine or_congr_right ⟨?_, fun h => ⟨p.2, h.2, by rw [← h.1]⟩⟩
  rintro ⟨w, hw, rfl⟩
  exact ⟨rfl, hw⟩

/-- Posting, in a step that counts what it posts. -/
theorem Balanced.post (h : Balanced d x) {o : Owner}
    (hown : cl.ongoing o = countPosts wrs (x.client.ongoing o))
    (hother : ∀ o' ≠ o, cl.ongoing o' = x.client.ongoing o')
    (htp : cl.state.toPollPerServer = countPosts wrs x.client.state.toPollPerServer)
    (hwrs : ∀ w ∈ wrs, w.server < d.layout.numServers ∧ cl.Routes d o w.wrId)
    (hrouted : ∀ p ∈ x.outstanding, cl.Routes d p.1 p.2.wrId)
    (hidle : ∀ i, (cl.futures i).isDone = true → ∀ p ∈ (x.post o (cl, wrs)).outstanding,
      p.1 ≠ .get i ∧ p.1 ≠ .put i)
    (hkind : ∀ i, (cl.futures i).kind ≠ .range)
    (hid : ∀ i, (cl.futures i).getF.futureId = i ∧ (cl.futures i).putF.futureId = i ∧
      (cl.rangeFutures i).futureId = i) : Balanced d (x.post o (cl, wrs)) where
  own o' s := by
    rw [countP_post]
    by_cases ho : o' = o
    · subst ho
      rw [if_pos rfl, Nat.cast_add, ← h.own]
      exact congrFun hown s
    · rw [if_neg ho, add_zero, ← h.own]
      exact congrFun (hother o' ho) s
  toPoll s := by
    rw [countP_post_server, Nat.cast_add, ← h.toPoll]
    exact congrFun htp s
  routed p hp := by
    rcases mem_post.1 hp with hp | ⟨ho, hw⟩
    · exact ⟨(h.routed p hp).1, hrouted p hp⟩
    · rw [ho]
      exact hwrs p.2 hw
  idle := hidle
  kind := hkind
  futureId := hid

/-- A step of an operation future, as a Get or a Put. -/
theorem Balanced.postOp (h : Balanced d x) {k : Kind} (hk : k = .get ∨ k = .put)
    (hi : i < d.layout.asyncParallelism) {o' : OpFuture}
    (hfut : cl.futures = update x.client.futures i o')
    (hrange : cl.rangeFutures = x.client.rangeFutures)
    (htp : cl.state.toPollPerServer = countPosts wrs x.client.state.toPollPerServer)
    (hkind : o'.kind = k)
    (hbusy : (x.client.futures i).isDone = true ∨ (x.client.futures i).kind = k)
    (hown : o'.ongoing k = countPosts wrs ((x.client.futures i).ongoing k))
    (hother : ∀ k' ≠ k, o'.ongoing k' = (x.client.futures i).ongoing k')
    (hwrs : ∀ w ∈ wrs, w.wrId = i ∧ w.server < d.layout.numServers)
    (hdone : o'.isDone = true → wrs = [] ∧
      ((x.client.futures i).isDone = true ∨ d.Ready ((x.client.futures i).ongoing k)))
    (hid : o'.getF.futureId = (x.client.futures i).getF.futureId ∧
      o'.putF.futureId = (x.client.futures i).putF.futureId) :
    Balanced d (x.post (k.owner i) (cl, wrs)) := by
  have hself : cl.futures i = o' := by rw [hfut, update_self]
  have hne : ∀ j ≠ i, cl.futures j = x.client.futures j := fun j hj => by
    rw [hfut, update_of_ne hj]
  -- what is outstanding of this future is of the kind it goes on as
  have hout : ∀ p ∈ x.outstanding, (p.1 = .get i → k = .get) ∧ (p.1 = .put i → k = .put) := by
    intro p hp
    rcases hbusy with hd | hk'
    · obtain ⟨hg, hp'⟩ := h.idle i hd p hp
      exact ⟨fun ho => absurd ho hg, fun ho => absurd ho hp'⟩
    · rw [← hk']
      exact h.kind_of_mem hp
  refine h.post ?_ (fun o'' ho => ?_) htp (fun w hw => ?_) (fun p hp => ?_) (fun j hj p hp => ?_)
    (fun j => ?_) fun j => ?_
  · rcases hk with rfl | rfl <;> simpa [Kind.owner, DsClient.ongoing, hself] using hown
  · cases o'' with
    | range j => rw [DsClient.ongoing, hrange, DsClient.ongoing]
    | get j =>
      by_cases hj : j = i
      · subst hj
        rw [DsClient.ongoing, hself, DsClient.ongoing]
        exact hother .get fun hk' => ho (by rw [← hk']; rfl)
      · rw [DsClient.ongoing, hne j hj, DsClient.ongoing]
    | put j =>
      by_cases hj : j = i
      · subst hj
        rw [DsClient.ongoing, hself, DsClient.ongoing]
        exact hother .put fun hk' => ho (by rw [← hk']; rfl)
      · rw [DsClient.ongoing, hne j hj, DsClient.ongoing]
    | opRange j =>
      by_cases hj : j = i
      · subst hj
        rw [DsClient.ongoing, hself, DsClient.ongoing]
        exact hother .range (by rcases hk with rfl | rfl <;> simp)
      · rw [DsClient.ongoing, hne j hj, DsClient.ongoing]
  · obtain ⟨hid', hs⟩ := hwrs w hw
    refine ⟨hs, ?_⟩
    rcases hk with rfl | rfl <;> exact ⟨hi, hid', by rw [hself, hkind]⟩
  · have hr := (h.routed p hp).2
    obtain ⟨hg, hp'⟩ := hout p hp
    cases ho : p.1 with
    | range j => simpa [ho, DsClient.Routes] using hr
    | opRange j => simp [ho, DsClient.Routes] at hr
    | get j =>
      rw [ho] at hr hg
      refine ⟨hr.1, hr.2.1, ?_⟩
      by_cases hj : j = i
      · subst hj
        rw [hself, hkind, hg rfl]
      · rw [hne j hj, hr.2.2]
    | put j =>
      rw [ho] at hr hp'
      refine ⟨hr.1, hr.2.1, ?_⟩
      by_cases hj : j = i
      · subst hj
        rw [hself, hkind, hp' rfl]
      · rw [hne j hj, hr.2.2]
  · by_cases hji : j = i
    · subst hji
      rw [hself] at hj
      obtain ⟨rfl, hd⟩ := hdone hj
      have hp : p ∈ x.outstanding := (mem_post.1 hp).resolve_right fun h => List.not_mem_nil h.2
      rcases hd with hd | hr
      · exact h.idle j hd p hp
      · have hno := h.none_of_ready (o := k.owner j) (by
          rcases hk with rfl | rfl <;> exact hr) p hp
        obtain ⟨hg, hp'⟩ := hout p hp
        exact ⟨fun ho => hno (by rw [ho, hg ho]; rfl), fun ho => hno (by rw [ho, hp' ho]; rfl)⟩
    · rw [hne j hji] at hj
      rcases mem_post.1 hp with hp | ⟨ho, _⟩
      · exact h.idle j hj p hp
      · rw [ho]
        rcases hk with rfl | rfl <;> simp [Kind.owner, Ne.symm hji]
  · by_cases hji : j = i
    · subst hji
      rw [hself, hkind]
      rcases hk with rfl | rfl <;> simp
    · rw [hne j hji]
      exact h.kind j
  · rw [hrange]
    by_cases hji : j = i
    · subst hji
      rw [hself, hid.1, hid.2]
      exact h.futureId j
    · rw [hne j hji]
      exact h.futureId j

/-- A step of a range future. -/
theorem Balanced.postRange (h : Balanced d x) (hi : i < d.layout.asyncParallelism)
    {f' : RangeFuture} (hfut : cl.futures = x.client.futures)
    (hrange : cl.rangeFutures = update x.client.rangeFutures i f')
    (htp : cl.state.toPollPerServer = countPosts wrs x.client.state.toPollPerServer)
    (hown : f'.ongoingPerServer = countPosts wrs (x.client.rangeFutures i).ongoingPerServer)
    (hwrs : ∀ w ∈ wrs, w.wrId = i ||| RangeFuture.rangeBit ∧ w.server < d.layout.numServers)
    (hid : f'.futureId = (x.client.rangeFutures i).futureId) :
    Balanced d (x.post (.range i) (cl, wrs)) := by
  have hself : cl.rangeFutures i = f' := by rw [hrange, update_self]
  have hne : ∀ j ≠ i, cl.rangeFutures j = x.client.rangeFutures j := fun j hj => by
    rw [hrange, update_of_ne hj]
  refine h.post ?_ (fun o'' ho => ?_) htp (fun w hw => ?_) (fun p hp => ?_) (fun j hj p hp => ?_)
    (fun j => by rw [hfut]; exact h.kind j) fun j => ?_
  · rw [DsClient.ongoing, hself, hown, DsClient.ongoing]
  · cases o'' with
    | range j => rw [DsClient.ongoing, hne j fun hj => ho (by rw [hj]), DsClient.ongoing]
    | _ => rw [DsClient.ongoing, hfut, DsClient.ongoing]
  · exact ⟨(hwrs w hw).2, hi, (hwrs w hw).1⟩
  · have hr := (h.routed p hp).2
    cases ho : p.1 with
    | opRange => simp [ho, DsClient.Routes] at hr
    | _ => simpa [ho, DsClient.Routes, hfut] using hr
  · rw [hfut] at hj
    rcases mem_post.1 hp with hp | ⟨ho, _⟩
    · exact h.idle j hj p hp
    · rw [ho]
      simp
  · rw [hfut]
    refine ⟨(h.futureId j).1, (h.futureId j).2.1, ?_⟩
    by_cases hji : j = i
    · subst hji
      rw [hself, hid]
      exact (h.futureId j).2.2
    · rw [hne j hji]
      exact (h.futureId j).2.2

variable (hn : 0 < d.layout.numServers) (h : Balanced d x) (hi : i < d.layout.asyncParallelism)

include hn h hi

theorem Balanced.doGet (hd : (x.client.futures i).isDone = true) (k : ℕ) :
    Balanced d (x.post (.get i) (x.client.doGet d i k)) := by
  have hc := GetFuture.counted_doGet (x.client.futures i).getF x.client.state hn k
  have hwrs := hc.wrs
  rw [(h.futureId i).1] at hwrs
  refine h.postOp (k := .get) (.inl rfl) hi rfl rfl hc.toPoll rfl (.inl hd) hc.counter
    (fun k' hk' => ?_) hwrs (fun hd' => ⟨(hc.done hd').1, .inl hd⟩) ⟨hc.futureId, rfl⟩
  cases k' <;> first | rfl | exact absurd rfl hk'

theorem Balanced.doPut (hd : (x.client.futures i).isDone = true) (k : ℕ) (v : UInt64) :
    Balanced d (x.post (.put i) (x.client.doPut d i k v)) := by
  have hc := PutFuture.counted_doPut (x.client.futures i).putF x.client.state hn k v
  have hwrs := hc.wrs
  rw [(h.futureId i).2.1] at hwrs
  refine h.postOp (k := .put) (.inr rfl) hi rfl rfl hc.toPoll rfl (.inl hd) hc.counter
    (fun k' hk' => ?_) hwrs (fun hd' => ⟨(hc.done hd').1, .inl hd⟩) ⟨rfl, hc.futureId⟩
  cases k' <;> first | rfl | exact absurd rfl hk'

theorem Balanced.doRangeFuture {sk ek : UInt64} {y : DsClient × List Wr}
    (hy : x.client.doRangeFuture d i sk ek = .ok y) : Balanced d (x.post (.range i) y) := by
  rw [DsClient.doRangeFuture] at hy
  cases hf : (x.client.rangeFutures i).doRange d x.client.state sk ek with
  | error e =>
    rw [hf] at hy
    exact absurd hy (by simp [Except.map])
  | ok z =>
    rw [hf] at hy
    obtain rfl := Except.ok.inj hy
    have hc := RangeFuture.counted_doRange hn hf
    have hwrs := hc.wrs
    rw [(h.futureId i).2.2] at hwrs
    exact h.postRange hi rfl rfl hc.toPoll hc.counter hwrs hc.futureId

theorem Balanced.tryStepForward : Balanced d (x.post ((x.client.futures i).kind.owner i)
    (x.client.tryStepForward d i)) := by
  cases hk : (x.client.futures i).kind with
  | get =>
    have hc := GetFuture.counted_tryStepForward (x.client.futures i).getF x.client.state
      (x.client.scratch i) hn
    have hwrs := hc.wrs
    rw [(h.futureId i).1] at hwrs
    simp only [DsClient.tryStepForward, OpFuture.tryStepForward, hk]
    refine h.postOp (k := .get) (.inl rfl) hi rfl rfl hc.toPoll rfl (.inr hk) hc.counter
      (fun k' hk' => ?_) hwrs (fun hd' => ?_) ⟨hc.futureId, rfl⟩
    · cases k' <;> first | rfl | exact absurd rfl hk'
    · simp only [OpFuture.isDone, Outcome.lift, hk] at hd' ⊢
      exact hc.done hd'
  | put =>
    have hc := PutFuture.counted_tryStepForward (x.client.futures i).putF x.client.state
      (x.client.scratch i) hn
    have hwrs := hc.wrs
    rw [(h.futureId i).2.1] at hwrs
    simp only [DsClient.tryStepForward, OpFuture.tryStepForward, hk]
    refine h.postOp (k := .put) (.inr rfl) hi rfl rfl hc.toPoll rfl (.inr hk) hc.counter
      (fun k' hk' => ?_) hwrs (fun hd' => ?_) ⟨rfl, hc.futureId⟩
    · cases k' <;> first | rfl | exact absurd rfl hk'
    · simp only [OpFuture.isDone, Outcome.lift, hk] at hd' ⊢
      exact hc.done hd'
  | range => exact absurd hk (h.kind i)
  | none =>
    simp only [DsClient.tryStepForward, OpFuture.tryStepForward, hk, DsClient.setFuture,
      update_eq_self]
    exact ⟨by simpa [Ledger.post] using h.own, by simpa [Ledger.post] using h.toPoll,
      by simpa [Ledger.post] using h.routed, by simpa [Ledger.post] using h.idle, h.kind,
      h.futureId⟩

omit hn in
theorem Balanced.tryStepForwardRange :
    Balanced d (x.post (.range i) (x.client.tryStepForwardRange d i)) := by
  have hc := RangeFuture.counted_tryStepForward (d := d) (x.client.rangeFutures i) x.client.state
    (x.client.scratch i)
  have hwrs := hc.wrs
  rw [(h.futureId i).2.2] at hwrs
  exact h.postRange hi rfl rfl hc.toPoll hc.counter hwrs hc.futureId

end Balanced

/-! ## Polling -/

/-- Crediting completions changes nothing of what the futures are doing. -/
structure DsClient.Kept (cl cl' : DsClient) : Prop where
  kind : ∀ i, (cl'.futures i).kind = (cl.futures i).kind
  isDone : ∀ i, (cl'.futures i).isDone = (cl.futures i).isDone
  futureId : ∀ i, (cl'.futures i).getF.futureId = (cl.futures i).getF.futureId ∧
    (cl'.futures i).putF.futureId = (cl.futures i).putF.futureId ∧
    (cl'.rangeFutures i).futureId = (cl.rangeFutures i).futureId

theorem DsClient.Kept.refl (cl : DsClient) : cl.Kept cl :=
  ⟨fun _ => rfl, fun _ => rfl, fun _ => ⟨rfl, rfl, rfl⟩⟩

theorem DsClient.Kept.trans {cl cl' cl'' : DsClient} (h : cl.Kept cl') (h' : cl'.Kept cl'') :
    cl.Kept cl'' where
  kind i := (h'.kind i).trans (h.kind i)
  isDone i := (h'.isDone i).trans (h.isDone i)
  futureId i := ⟨(h'.futureId i).1.trans (h.futureId i).1,
    (h'.futureId i).2.1.trans (h.futureId i).2.1, (h'.futureId i).2.2.trans (h.futureId i).2.2⟩

theorem DsClient.Kept.routes {d : DsConf} {cl cl' : DsClient} (h : cl.Kept cl') {o : Owner} {id : ℕ}
    (hr : cl.Routes d o id) : cl'.Routes d o id := by
  cases o with
  | opRange => exact hr
  | _ => simpa [DsClient.Routes, h.kind] using hr

section Tick

variable {d : DsConf} {cl : DsClient}

/-- The id of a range future comes back as it was posted. -/
theorem DsClient.route_range {i s : ℕ} (hi : i < d.layout.asyncParallelism) (h63 : i < 2 ^ 63) :
    cl.route d s (i ||| RangeFuture.rangeBit) = .ok { cl with
      rangeFutures := update cl.rangeFutures i ((cl.rangeFutures i).addToOngoingRDMA s (-1))
      rangeProgress := update cl.rangeProgress i true } := by
  have hor : i ||| RangeFuture.rangeBit = i + 2 ^ 63 := by
    rw [RangeFuture.rangeBit, Nat.one_shiftLeft, Nat.or_two_pow_eq_add_of_lt h63]
  have hclean : (i + 2 ^ 63) &&& (2 ^ 63 - 1) = i := by
    rw [Nat.and_two_pow_sub_one_eq_mod]
    omega
  have hbit : (i + 2 ^ 63) >>> 63 = 1 := by
    rw [Nat.shiftRight_eq_div_pow]
    omega
  simp only [route, hor, hclean, hbit, ne_eq, one_ne_zero, not_false_eq_true, if_true,
    if_neg (not_le.2 hi)]

/-- A completion is credited to the part of the current kind. -/
theorem OpFuture.ongoing_addToOngoingRDMA {o : OpFuture} (h : o.kind = .get ∨ o.kind = .put)
    (k : Kind) (s s' : ℕ) (n : ℤ) : (o.addToOngoingRDMA s n).ongoing k s' =
      o.ongoing k s' + if k = o.kind ∧ s' = s then n else 0 := by
  by_cases hs : s' = s
  · subst hs
    rcases h with hk | hk <;> cases k <;>
      simp [OpFuture.addToOngoingRDMA, hk, OpFuture.ongoing, GetFuture.addToOngoingRDMA,
        PutFuture.addToOngoingRDMA]
  · rcases h with hk | hk <;> cases k <;>
      simp [OpFuture.addToOngoingRDMA, hk, OpFuture.ongoing, GetFuture.addToOngoingRDMA,
        PutFuture.addToOngoingRDMA, hs]

/-- Crediting changes nothing else of an operation future. -/
theorem OpFuture.kept_addToOngoingRDMA (o : OpFuture) (s : ℕ) (n : ℤ) :
    (o.addToOngoingRDMA s n).kind = o.kind ∧ (o.addToOngoingRDMA s n).isDone = o.isDone ∧
      (o.addToOngoingRDMA s n).getF.futureId = o.getF.futureId ∧
      (o.addToOngoingRDMA s n).putF.futureId = o.putF.futureId := by
  obtain ⟨kind, g, p, r⟩ := o
  cases kind <;> exact ⟨rfl, rfl, rfl, rfl⟩

/-- The completion of a request of an operation future. -/
theorem DsClient.route_op {i : ℕ} (hi : i < d.layout.asyncParallelism) (h63 : i < 2 ^ 63)
    (h : (cl.futures i).kind = .get ∨ (cl.futures i).kind = .put) (s : ℕ) :
    ∃ cl', cl.route d s i = .ok cl' ∧ cl.Kept cl' ∧ cl'.state = cl.state ∧
      ∀ o s', cl'.ongoing o s' =
        cl.ongoing o s' - if o = (cl.futures i).kind.owner i ∧ s' = s then 1 else 0 := by
  refine ⟨_, route_future hi h63, ⟨fun j => ?_, fun j => ?_, fun j => ?_⟩, rfl, fun o s' => ?_⟩
  · by_cases hj : j = i
    · subst hj
      simpa using (OpFuture.kept_addToOngoingRDMA _ s (-1)).1
    · simp [hj]
  · by_cases hj : j = i
    · subst hj
      simpa using (OpFuture.kept_addToOngoingRDMA _ s (-1)).2.1
    · simp [hj]
  · by_cases hj : j = i
    · subst hj
      simpa using (OpFuture.kept_addToOngoingRDMA _ s (-1)).2.2
    · simp [hj]
  · have hadd := OpFuture.ongoing_addToOngoingRDMA h
    cases o with
    | range j => rcases h with hk | hk <;> simp [DsClient.ongoing, hk, Kind.owner]
    | _ j =>
      by_cases hj : j = i
      · subst hj
        rcases h with hk | hk <;> simp [DsClient.ongoing, hadd, hk, Kind.owner, sub_eq_add_neg] <;>
          split <;> rfl
      · rcases h with hk | hk <;> simp [DsClient.ongoing, hk, Kind.owner, hj]

/-- A completion is credited to its owner. -/
theorem DsClient.route_spec (h63 : d.layout.asyncParallelism ≤ 2 ^ 63) {o : Owner} {id : ℕ}
    (h : cl.Routes d o id) (s : ℕ) :
    ∃ cl', cl.route d s id = .ok cl' ∧ cl.Kept cl' ∧ cl'.state = cl.state ∧
      ∀ o' s', cl'.ongoing o' s' = cl.ongoing o' s' - if o' = o ∧ s' = s then 1 else 0 := by
  cases o with
  | get i =>
    obtain ⟨hi, rfl, hk⟩ := h
    simpa [hk, Kind.owner] using route_op hi (by omega) (.inl hk) s
  | put i =>
    obtain ⟨hi, rfl, hk⟩ := h
    simpa [hk, Kind.owner] using route_op hi (by omega) (.inr hk) s
  | opRange i => exact h.elim
  | range i =>
    obtain ⟨hi, rfl⟩ := h
    refine ⟨_, route_range hi (by omega), ⟨fun _ => rfl, fun _ => rfl, fun j => ⟨rfl, rfl, ?_⟩⟩,
      rfl, fun o' s' => ?_⟩
    · by_cases hj : j = i
      · subst hj
        simp [RangeFuture.addToOngoingRDMA]
      · simp [hj]
    · cases o' with
      | range j =>
        by_cases hj : j = i
        · subst hj
          by_cases hs : s' = s
          · subst hs
            simp [DsClient.ongoing, RangeFuture.addToOngoingRDMA, sub_eq_add_neg]
          · simp [DsClient.ongoing, RangeFuture.addToOngoingRDMA, hs]
        · simp [DsClient.ongoing, hj]
      | _ => simp [DsClient.ongoing]

variable (h63 : d.layout.asyncParallelism ≤ 2 ^ 63)

include h63

/-- The completions of a server are credited to their owners. -/
theorem DsClient.foldlM_route_spec (s : ℕ) {wcs : List (Owner × Wr)}
    (h : ∀ p ∈ wcs, cl.Routes d p.1 p.2.wrId) :
    ∃ cl', (wcs.map fun p => p.2.wrId).foldlM (fun cl rawId => cl.route d s rawId) cl = .ok cl' ∧
      cl.Kept cl' ∧ cl'.state = cl.state ∧
      ∀ o s', cl'.ongoing o s' =
        cl.ongoing o s' - if s' = s then (wcs.countP fun p => p.1 = o : ℤ) else 0 := by
  induction wcs generalizing cl with
  | nil => exact ⟨cl, rfl, .refl cl, rfl, fun o s' => by simp⟩
  | cons p wcs ih =>
    obtain ⟨cl₁, hr, hk, hst, hon⟩ := cl.route_spec h63 (h p List.mem_cons_self) s
    have hroutes : ∀ q ∈ wcs, cl₁.Routes d q.1 q.2.wrId := fun q hq =>
      hk.routes (h q (List.mem_cons_of_mem _ hq))
    obtain ⟨cl', hr', hk', hst', hon'⟩ := ih hroutes
    refine ⟨cl', ?_, hk.trans hk', hst'.trans hst, fun o s' => ?_⟩
    · rw [List.map_cons, List.foldlM_cons, hr]
      exact hr'
    · rw [hon', hon, List.countP_cons]
      by_cases hs : s' = s
      · by_cases ho : p.1 = o
        · simp only [hs, ho, and_self, if_true, decide_true]
          omega
        · simp only [hs, ho, Ne.symm ho, false_and, if_true, if_false, decide_false]
          simp
      · simp [hs]

/-- What the completions of one server do. -/
theorem DsClient.tickServer_spec (s : ℕ) {wcs : List (Owner × Wr)}
    (h : ∀ p ∈ wcs, cl.Routes d p.1 p.2.wrId) :
    ∃ cl', tickServer d s (wcs.map fun p => p.2.wrId) cl = .ok cl' ∧ cl.Kept cl' ∧
      (∀ o s', cl'.ongoing o s' =
        cl.ongoing o s' - if s' = s then (wcs.countP fun p => p.1 = o : ℤ) else 0) ∧
      ∀ s', cl'.state.toPollPerServer s' =
        cl.state.toPollPerServer s' - if s' = s then (wcs.length : ℤ) else 0 := by
  obtain ⟨cl₁, hr, hk, hst, hon⟩ := DsClient.foldlM_route_spec h63 s h
  refine ⟨{ cl₁ with
      state := { cl₁.state with
        toPollPerServer := update cl₁.state.toPollPerServer s
          (cl₁.state.toPollPerServer s - wcs.length) } },
    ?_, ⟨hk.kind, hk.isDone, hk.futureId⟩, hon, fun s' => ?_⟩
  · rw [tickServer, hr, List.length_map]
    rfl
  · rw [hst]
    by_cases hs : s' = s
    · subst hs
      simp
    · simp [hs]

omit h63 in
theorem lt_succ_iff_of_ne {s n : ℕ} (h : s ≠ n) : s < n + 1 ↔ s < n := by omega

/-- What a poll of the first `n` servers does. -/
theorem DsClient.tickServers_spec (cq : ℕ → List (Owner × Wr)) (n : ℕ)
    (h : ∀ s < n, 0 < cl.state.toPollPerServer s → ∀ p ∈ cq s, cl.Routes d p.1 p.2.wrId) :
    ∃ cl', (List.range n).foldlM (fun cl s =>
          if cl.state.toPollPerServer s ≤ 0 then .ok cl
          else tickServer d s ((cq s).map fun p => p.2.wrId) cl) cl = .ok cl' ∧ cl.Kept cl' ∧
      (∀ o s, cl'.ongoing o s = cl.ongoing o s -
        if s < n ∧ 0 < cl.state.toPollPerServer s then ((cq s).countP fun p => p.1 = o : ℤ)
          else 0) ∧
      ∀ s, cl'.state.toPollPerServer s = cl.state.toPollPerServer s -
        if s < n ∧ 0 < cl.state.toPollPerServer s then ((cq s).length : ℤ) else 0 := by
  induction n with
  | zero => exact ⟨cl, rfl, .refl cl, fun o s => by simp, fun s => by simp⟩
  | succ n ih =>
    obtain ⟨cl₁, hr, hk, hon, htp⟩ := ih fun s hs => h s (by omega)
    have hn : cl₁.state.toPollPerServer n = cl.state.toPollPerServer n := by simp [htp]
    rw [List.range_succ, List.foldlM_append, hr]
    by_cases hpos : 0 < cl.state.toPollPerServer n
    · have hroutes : ∀ p ∈ cq n, cl₁.Routes d p.1 p.2.wrId := fun p hp =>
        hk.routes (h n (by omega) hpos p hp)
      obtain ⟨cl', hr', hk', hon', htp'⟩ := cl₁.tickServer_spec h63 n hroutes
      refine ⟨cl', ?_, hk.trans hk', fun o s => ?_, fun s => ?_⟩
      · change (List.foldlM (fun cl s => _) cl₁ [n] : Except String DsClient) = _
        rw [List.foldlM_cons, if_neg (by omega), hr']
        rfl
      · rw [hon', hon]
        by_cases hs : s = n
        · subst hs
          simp [hpos]
        · simp [hs, lt_succ_iff_of_ne hs]
      · rw [htp', htp]
        by_cases hs : s = n
        · subst hs
          simp [hpos]
        · simp [hs, lt_succ_iff_of_ne hs]
    · have hlt : ∀ s, s < n + 1 ∧ 0 < cl.state.toPollPerServer s ↔
          s < n ∧ 0 < cl.state.toPollPerServer s := by
        intro s
        refine and_congr_left fun hs => lt_succ_iff_of_ne ?_
        rintro rfl
        exact hpos hs
      simp only [hlt]
      refine ⟨cl₁, ?_, hk, hon, htp⟩
      change (List.foldlM (fun cl s => _) cl₁ [n] : Except String DsClient) = _
      rw [List.foldlM_cons, if_pos (by omega)]
      rfl

end Tick

/-- Counting what only the part `s` of a concatenation has. -/
theorem countP_flatMap_range {α : Type*} {g : ℕ → List α} {P : α → Bool} {s : ℕ} {n : ℕ}
    (h : ∀ t < n, t ≠ s → ∀ a ∈ g t, ¬P a = true) :
    ((List.range n).flatMap g).countP P = if s < n then (g s).countP P else 0 := by
  induction n with
  | zero => rfl
  | succ n ih =>
    rw [List.range_succ, List.flatMap_append, List.countP_append, ih fun t ht => h t (by omega),
      List.flatMap_singleton]
    by_cases hs : s = n
    · subst hs
      simp
    · rw [List.countP_eq_zero.2 (h n (by omega) (Ne.symm hs))]
      simp [lt_succ_iff_of_ne hs]

section Run

variable {d : DsConf} {x : Ledger} {cq : ℕ → List (Owner × Wr)}

/-- The completions of a server that a poll takes. -/
theorem countP_taken (h : x.Polled d cq) {P : Owner × Wr → Bool} {s : ℕ}
    (hP : ∀ p, P p = true → p.2.server = s) :
    (x.taken d cq).countP P =
      if s < d.layout.numServers ∧ 0 < x.client.state.toPollPerServer s then (cq s).countP P
      else 0 := by
  rw [Ledger.taken, countP_flatMap_range (s := s) fun t ht hts p hp hPp => ?_, ite_and]
  · congr 1
    by_cases hpos : 0 < x.client.state.toPollPerServer s
    · rw [if_neg (by omega), if_pos hpos]
    · rw [if_pos (by omega), if_neg hpos]
      rfl
  · split at hp
    · exact List.not_mem_nil hp
    · exact hts (((h.2 t ht (by omega)).2 p hp).symm.trans (hP p hPp))

/-- A poll credits every owner for its completions, and the books stay balanced. -/
theorem Balanced.tickRdma (h63 : d.layout.asyncParallelism ≤ 2 ^ 63) (h : Balanced d x)
    (hcq : x.Polled d cq) :
    ∃ x', x.step d (.tickRdma cq) = some ((), x') ∧ Balanced d x' ∧
      ∀ o s, x'.client.ongoing o s =
        x.client.ongoing o s - (x.taken d cq).countP fun p => p.1 = o ∧ p.2.server = s := by
  have hmem : ∀ s < d.layout.numServers, 0 < x.client.state.toPollPerServer s → ∀ p ∈ cq s,
      p ∈ x.outstanding := by
    intro s hs hpos p hp
    refine Multiset.mem_of_le hcq.1 (Multiset.mem_coe.2 (List.mem_flatMap.2
      ⟨s, List.mem_range.2 hs, ?_⟩))
    rw [if_neg (by omega)]
    exact hp
  obtain ⟨cl', hr, hk, hon, htp⟩ := x.client.tickServers_spec h63 cq d.layout.numServers
    fun s hs hpos p hp => (h.routed p (hmem s hs hpos p hp)).2
  have hon' : ∀ o s, cl'.ongoing o s =
      x.client.ongoing o s - (x.taken d cq).countP fun p => p.1 = o ∧ p.2.server = s := by
    intro o s
    rw [hon, countP_taken hcq (s := s) fun p hp => (of_decide_eq_true hp).2]
    split
    · next hs =>
      congr 2
      refine List.countP_congr fun p hp => ?_
      simp [(hcq.2 s hs.1 hs.2).2 p hp]
    · rfl
  have htp' : ∀ s, cl'.state.toPollPerServer s =
      x.client.state.toPollPerServer s - (x.taken d cq).countP fun p => p.2.server = s := by
    intro s
    rw [htp, countP_taken hcq (s := s) fun p hp => of_decide_eq_true hp]
    split
    · next hs =>
      congr 2
      refine (List.countP_eq_length.2 fun p hp => ?_).symm
      simp [(hcq.2 s hs.1 hs.2).2 p hp]
    · rfl
  refine ⟨⟨cl', x.outstanding - ↑(x.taken d cq)⟩, ?_, ?_, hon'⟩
  · rw [Ledger.step, if_pos hcq, DsClient.tickRdma, hr]
  · have hle := fun (P : Owner × Wr → Prop) [DecidablePred P] =>
      Multiset.countP_le_of_le P hcq.1
    have hsub : ∀ p ∈ x.outstanding - ↑(x.taken d cq), p ∈ x.outstanding := fun p hp =>
      Multiset.mem_of_le (Multiset.sub_le_self _ _) hp
    refine ⟨fun o s => ?_, fun s => ?_, fun p hp => ?_, fun i hd p hp => ?_, fun i => ?_,
      fun i => ?_⟩
    · rw [hon', h.own, Multiset.countP_sub hcq.1, Nat.cast_sub (hle _), Multiset.coe_countP]
    · rw [htp', h.toPoll, Multiset.countP_sub hcq.1, Nat.cast_sub (hle _), Multiset.coe_countP]
    · exact ⟨(h.routed p (hsub p hp)).1, hk.routes (h.routed p (hsub p hp)).2⟩
    · rw [hk.isDone] at hd
      exact h.idle i hd p (hsub p hp)
    · rw [hk.kind]
      exact h.kind i
    · rw [(hk.futureId i).1, (hk.futureId i).2.1, (hk.futureId i).2.2]
      exact h.futureId i

/-- The index of the future of an owner. -/
def Owner.index : Owner → ℕ
  | .get i | .put i | .opRange i | .range i => i

/-- The requests to a server, by their owners. -/
theorem countP_server {m : Multiset (Owner × Wr)} {n : ℕ} (h : ∀ p ∈ m, p.1.index < n) (s : ℕ) :
    m.countP (fun p => p.2.server = s) = ∑ i ∈ Finset.range n,
      (m.countP (fun p => p.1 = .get i ∧ p.2.server = s) +
        m.countP (fun p => p.1 = .put i ∧ p.2.server = s) +
        m.countP (fun p => p.1 = .opRange i ∧ p.2.server = s) +
        m.countP fun p => p.1 = .range i ∧ p.2.server = s) := by
  induction m using Multiset.induction with
  | empty => simp
  | cons p m ih =>
    rw [Multiset.countP_cons, ih fun q hq => h q (Multiset.mem_cons_of_mem hq)]
    have hp := h p (Multiset.mem_cons_self p m)
    simp only [Multiset.countP_cons]
    have hone : ∑ i ∈ Finset.range n, ((if p.1 = .get i ∧ p.2.server = s then 1 else 0) +
        (if p.1 = .put i ∧ p.2.server = s then 1 else 0) +
        (if p.1 = .opRange i ∧ p.2.server = s then 1 else 0) +
        if p.1 = .range i ∧ p.2.server = s then 1 else 0) = if p.2.server = s then 1 else 0 := by
      obtain ⟨o, w⟩ := p
      by_cases hs : w.server = s
      · cases o <;> simpa [hs, Owner.index] using hp
      · simp [hs]
    rw [← hone, ← Finset.sum_add_distrib]
    refine Finset.sum_congr rfl fun i _ => ?_
    omega

/-- With balanced books, the accounting is what it should be. -/
theorem Balanced.accounted (h63 : d.layout.asyncParallelism ≤ 2 ^ 63) (h : Balanced d x) :
    x.Accounted d where
  toPoll s _ := by
    have hidx : ∀ p ∈ x.outstanding, p.1.index < d.layout.asyncParallelism := by
      intro p hp
      have hr := (h.routed p hp).2
      cases ho : p.1 <;> rw [ho] at hr
      case opRange => exact hr.elim
      all_goals exact hr.1
    rw [h.toPoll, countP_server hidx s, Nat.cast_sum]
    refine Finset.sum_congr rfl fun i _ => ?_
    simp only [Nat.cast_add, h.own]
  nonneg o s := by
    rw [h.own]
    exact Int.natCast_nonneg _
  credited cq hcq := by
    obtain ⟨x', hst, _, hon⟩ := h.tickRdma h63 hcq
    exact ⟨x', hst, hon⟩
  ready o ho s _ := by
    rw [h.own, Multiset.countP_eq_zero.2 fun p hp hps => ho p hp hps.1]
    simp

end Run

/-- Any call. -/
def Ledger.Any : Ledger → Call → Prop := fun _ _ => True

instance (x : Ledger) (c : Call) : Decidable (x.Any c) := .isTrue trivial

/-- Any call but of a range read in an operation future. -/
def Ledger.NoOpRange : Ledger → Call → Prop
  | _, .doRange .. => False
  | _, _ => True

instance (x : Ledger) : DecidablePred x.NoOpRange
  | .doRange .. => .isFalse id
  | .doGet .. | .doPut .. | .doRangeFuture .. | .tryStepForward .. | .tryStepForwardRange ..
  | .answer .. | .tickRdma .. => .isTrue trivial

/-- Every call keeps the books balanced. -/
theorem Balanced.step {d : DsConf} {x x' : Ledger} {c : Call} (hn : 0 < d.layout.numServers)
    (h63 : d.layout.asyncParallelism ≤ 2 ^ 63) (h : Balanced d x) (hc : x.NoOpRange c)
    (hst : x.step d c = some ((), x')) : Balanced d x' := by
  cases c with
  | doGet i k =>
    simp only [Ledger.step, Option.ite_none_right_eq_some, Option.some.injEq] at hst
    obtain ⟨⟨hi, hd⟩, he⟩ := hst
    exact (Prod.mk.inj he).2 ▸ h.doGet hn hi hd k
  | doPut i k v =>
    simp only [Ledger.step, Option.ite_none_right_eq_some, Option.some.injEq] at hst
    obtain ⟨⟨hi, hd⟩, he⟩ := hst
    exact (Prod.mk.inj he).2 ▸ h.doPut hn hi hd k v
  | doRange => exact hc.elim
  | doRangeFuture i sk ek =>
    simp only [Ledger.step, Option.ite_none_right_eq_some] at hst
    obtain ⟨⟨hi, _⟩, he⟩ := hst
    split at he
    · next y hy =>
      obtain rfl := (Prod.mk.inj (Option.some.inj he)).2
      exact h.doRangeFuture hn hi hy
    · exact absurd he (by simp)
  | tryStepForward i =>
    simp only [Ledger.step, Option.ite_none_right_eq_some, Option.some.injEq] at hst
    exact (Prod.mk.inj hst.2).2 ▸ h.tryStepForward hn hst.1
  | tryStepForwardRange i =>
    simp only [Ledger.step, Option.ite_none_right_eq_some, Option.some.injEq] at hst
    exact (Prod.mk.inj hst.2).2 ▸ h.tryStepForwardRange hst.1
  | answer i bufs =>
    obtain rfl := (Prod.mk.inj (Option.some.inj hst)).2
    exact ⟨h.own, h.toPoll, h.routed, h.idle, h.kind, h.futureId⟩
  | tickRdma cq =>
    have hcq : x.Polled d cq := by
      by_contra hno
      rw [Ledger.step, if_neg hno] at hst
      exact absurd hst (by simp)
    obtain ⟨x₁, hst₁, hb, _⟩ := h.tickRdma h63 hcq
    obtain rfl := (Prod.mk.inj (Option.some.inj (hst₁.symm.trans hst))).2
    exact hb

/-- In every run admitted by `G`, the accounting is what it should be. -/
def AccountingHolds (d : DsConf) (G : Ledger → Call → Prop) : Prop :=
  ∀ tr x, (Ledger.machine d).Run G tr x → x.Accounted d

/-- The accounting of a client is what it should be, as long as no range read is
    run in an operation future. (A vector of futures has less than 2 ^ 63 of them.) -/
theorem accountingHolds {d : DsConf} (hn : 0 < d.layout.numServers)
    (h63 : d.layout.asyncParallelism ≤ 2 ^ 63) : AccountingHolds d Ledger.NoOpRange := by
  intro tr x h
  have hb : Balanced d x := by
    refine h.invariant (P := fun _ x => Balanced d x) Balanced.init ?_
    rintro tr x e x' _ hx ⟨c, hc, hst⟩
    exact hx.step hn h63 hc hst
  exact hb.accounted h63

/-- For instance, where a Put and a range read, in the futures of the same index,
    have their completions mixed up. -/
theorem accountingHolds_threeServers :
    AccountingHolds (.ofClient (.threeServers 1 true true) 0) Ledger.NoOpRange ∧
      ∃ x, (Ledger.machine (.ofClient (.threeServers 1 true true) 0)).Run Ledger.NoOpRange
        [(), (), (), (), ()] x :=
  ⟨accountingHolds (by decide) (by decide), Lib.Machine.run_of_play
    [.doPut 0 7 11, .doRangeFuture 0 2 3,
      .tickRdma fun s => if s = 0 then [(.range 0, ⟨0, 2 ^ 63, .bulk 2 16⟩),
        (.put 0, ⟨0, 0, .read 7⟩)] else [],
      .tickRdma fun s => if s = 1 then [(.put 0, ⟨1, 0, .read 7⟩)] else [],
      .tryStepForward 0] (by decide +kernel)⟩

/-- In general, it is not: a range read in an operation future has the range
    future of the same index credited for its completion. -/
theorem not_accountingHolds :
    ¬AccountingHolds (.ofClient (.threeServers 1 true true) 0) Ledger.Any := by
  intro h
  obtain ⟨tr, x, hx, hneg⟩ := Lib.Machine.exists_run_of_play
    (m := Ledger.machine (.ofClient (.threeServers 1 true true) 0)) (G := Ledger.Any)
    (fun r => r.2.client.ongoing (.range 0) 0) (b := -1)
    [.doRange 0 2 3,
      .tickRdma fun s => if s = 0 then [(.opRange 0, ⟨0, 2 ^ 63, .bulk 2 16⟩)] else []]
    (by decide +kernel)
  have hnn := (h tr x hx).nonneg (.range 0) 0
  exact absurd (hneg ▸ hnn) (by decide)

end DiscoSkip
