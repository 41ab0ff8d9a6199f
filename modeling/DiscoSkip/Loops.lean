import DiscoSkip.ScanRegular
import DiscoSkip.WaitFree

/-!
# The loops of the clients

A client does not step its futures all the time. Its loops go round the futures
(`getFreeFuture`, `getFreeRangeFuture`, `finishAllFutures`) and step those that are
flagged: a completion sets the flag of the future that it is credited to, and the step
clears it.

`Loops.machine` is the cluster with its scans, where the flags are cleared, and
`Loops.Flagged` admits the steps of the loops. The flags only spare the clients steps that
do nothing (`onlyIdleStepsSkipped`): a future that is not flagged would be left as it is, and
if it is not done, there is a request of it in flight whose completion will flag it. So
whatever can be seen of the cluster can also be seen with the loops, and nothing else
(`loopsAgree`).
-/

namespace DiscoSkip

open Function

/-! ## The machine -/

namespace Scans

variable (s : Scans)

/-- The client `c` has stepped its operation future `f`. -/
def clearProgress (c f : ℕ) : Scans :=
  s.setClient c { s.cluster.clients c with
    progress := update (s.cluster.clients c).progress f false }

/-- The client `c` has stepped its range future `f`. -/
def clearRangeProgress (c f : ℕ) : Scans :=
  s.setClient c { s.cluster.clients c with
    rangeProgress := update (s.cluster.clients c).rangeProgress f false }

end Scans

namespace Loops

variable (L : Layout)

/-- The flag of a future is cleared after its step. -/
def settle (s : Scans) : ScanAction → Scans
  | .op (.tryStepForward c f) => s.clearProgress c f
  | .tryStepForwardRange c f => s.clearRangeProgress c f
  | .op (.doPut ..) | .op (.doGet ..) | .op (.rdma ..) | .doRange .. | .readWord ..
  | .complete .. => s

/-- The step of an action, if it is enabled. -/
def step (s : Scans) (act : ScanAction) : Option (ScanEvent × Scans) :=
  (s.step L act).map fun x => (x.1, settle x.2 act)

/-- A loop only steps a future that is flagged. -/
def Flagged (s : Scans) : ScanAction → Prop
  | .op (.tryStepForward c f) => (s.cluster.clients c).progress f = true
  | .tryStepForwardRange c f => (s.cluster.clients c).rangeProgress f = true
  | .op (.doPut ..) | .op (.doGet ..) | .op (.rdma ..) | .doRange .. | .readWord ..
  | .complete .. => True

instance (s : Scans) : DecidablePred (Flagged s)
  | .op (.tryStepForward ..) | .tryStepForwardRange .. =>
    inferInstanceAs (Decidable (_ = true))
  | .op (.doPut ..) | .op (.doGet ..) | .op (.rdma ..) | .doRange .. | .readWord ..
  | .complete .. => .isTrue trivial

/-- The cluster of the layout `L` with the scans and the loops of its clients. -/
def machine : Lib.Machine Scans ScanAction ScanEvent := ⟨{}, step L⟩

end Loops

/-! ## The flags -/

namespace DsClient

section Flags

variable {d : DsConf} {cl : DsClient} {p q : ℕ → Bool} {i r : ℕ}

/-- The client with the flags `p` and `q`. -/
def withFlags (cl : DsClient) (p q : ℕ → Bool) : DsClient :=
  { cl with progress := p, rangeProgress := q }

@[simp] theorem withFlags_futures : (cl.withFlags p q).futures = cl.futures := rfl

@[simp] theorem withFlags_rangeFutures : (cl.withFlags p q).rangeFutures = cl.rangeFutures := rfl

@[simp] theorem doPut_withFlags {k : ℕ} {v : UInt64} : (cl.withFlags p q).doPut d i k v =
    ((cl.doPut d i k v).1.withFlags p q, (cl.doPut d i k v).2) := rfl

@[simp] theorem doGet_withFlags {k : ℕ} : (cl.withFlags p q).doGet d i k =
    ((cl.doGet d i k).1.withFlags p q, (cl.doGet d i k).2) := rfl

@[simp] theorem tryStepForward_withFlags : (cl.withFlags p q).tryStepForward d i =
    ((cl.tryStepForward d i).1.withFlags p q, (cl.tryStepForward d i).2) := rfl

@[simp] theorem doRangeFuture_withFlags {sk ek : UInt64} :
    (cl.withFlags p q).doRangeFuture d i sk ek =
      (cl.doRangeFuture d i sk ek).map fun x => (x.1.withFlags p q, x.2) := by
  rw [doRangeFuture, doRangeFuture, withFlags_rangeFutures]
  change Except.map _ ((cl.rangeFutures i).doRange d cl.state sk ek) = _
  cases (cl.rangeFutures i).doRange d cl.state sk ek <;> rfl

end Flags

end DsClient

/-- The flags `p`, with that of the future `f` of the client `c` set to `b`. -/
def setFlag (p : ℕ → ℕ → Bool) (c f : ℕ) (b : Bool) : ℕ → ℕ → Bool :=
  update p c (update (p c) f b)

@[simp] theorem setFlag_self (p : ℕ → ℕ → Bool) (c f : ℕ) (b : Bool) : setFlag p c f b c f = b := by
  simp [setFlag]

theorem setFlag_ne (p : ℕ → ℕ → Bool) {c f c' f' : ℕ} (b : Bool) (h : c' ≠ c ∨ f' ≠ f) :
    setFlag p c f b c' f' = p c' f' := by
  by_cases hc : c' = c
  · subst hc
    simp [setFlag, h.resolve_left (not_not.2 rfl)]
  · simp [setFlag, hc]

/-- The flags of the operation futures after an action: an answer sets that of its future. -/
def Action.flags (p : ℕ → ℕ → Bool) : Action → ℕ → ℕ → Bool
  | .rdma c f _ => setFlag p c f true
  | .doPut .. | .doGet .. | .tryStepForward .. => p

namespace Cluster

section Flags

variable {L : Layout} {s : Cluster} {p q : ℕ → ℕ → Bool} {c f r : ℕ}

/-- The cluster with the flags `p` and `q` of the clients. -/
def withFlags (s : Cluster) (p q : ℕ → ℕ → Bool) : Cluster :=
  { s with clients := fun c => (s.clients c).withFlags (p c) (q c) }

@[simp] theorem withFlags_clients :
    (s.withFlags p q).clients c = (s.clients c).withFlags (p c) (q c) := rfl

@[simp] theorem withFlags_inflight : (s.withFlags p q).inflight = s.inflight := rfl

theorem setClient_withFlags (cl : DsClient) (x y : ℕ → Bool) :
    (s.withFlags p q).setClient c (cl.withFlags x y) =
      (s.setClient c cl).withFlags (update p c x) (update q c y) := by
  simp only [setClient, withFlags, Cluster.mk.injEq, true_and, and_true]
  funext c'
  by_cases hc : c' = c
  · subst hc
    simp only [update_self]
  · simp only [update_of_ne hc]

@[simp] theorem setClient_withFlags_self (cl : DsClient) :
    (s.withFlags p q).setClient c (cl.withFlags (p c) (q c)) =
      (s.setClient c cl).withFlags p q := by
  rw [setClient_withFlags, update_eq_self, update_eq_self]

@[simp] theorem send_withFlags {wrs : List Wr} :
    (s.withFlags p q).send c f wrs = (s.send c f wrs).withFlags p q := by
  induction wrs generalizing s with
  | nil => rfl
  | cons w wrs ih => exact ih (s := s.setInflight c f w.server (some w.op))

theorem complete_withFlags {bufs : Scratch} : (s.withFlags p q).complete c f r bufs =
    (s.complete c f r bufs).withFlags (setFlag p c f true) q := by
  have h := setClient_withFlags (s := s) (p := p) (q := q) (c := c)
    ({ s.clients c with scratch := update (s.clients c).scratch f bufs }.complete f r)
    (update (p c) f true) (q c)
  rw [update_eq_self] at h
  exact congrArg (·.setInflight c f r none) h

/-- No step depends on the flags. -/
theorem step_withFlags (act : Action) : (s.withFlags p q).step L act =
    (s.step L act).map fun x => (x.1, x.2.withFlags (act.flags p) q) := by
  cases act with
  | doPut c f k v | doGet c f k | tryStepForward c f =>
    simp only [step, withFlags_clients, DsClient.withFlags_futures, DsClient.doPut_withFlags,
      DsClient.doGet_withFlags, DsClient.tryStepForward_withFlags, setClient_withFlags_self,
      send_withFlags]
    split <;> rfl
  | rdma c f r =>
    simp only [step, withFlags_inflight]
    split
    · next op _ =>
      cases op with
      | read k => exact congrArg some (congrArg (Prod.mk _) complete_withFlags)
      | cas k x t =>
        have h : (if s.cells r k = x then (s.withFlags p q).setCell r k t else s.withFlags p q) =
            (if s.cells r k = x then s.setCell r k t else s).withFlags p q := by
          split <;> rfl
        refine congrArg some (congrArg (Prod.mk _) (Eq.trans ?_ complete_withFlags))
        rw [← h]
        rfl
      | bulk => rfl
    · rfl

theorem withFlags_self : s.withFlags (fun c => (s.clients c).progress)
    (fun c => (s.clients c).rangeProgress) = s := rfl

/-- What becomes of the flags. -/
theorem step_flags {s' : Cluster} {act : Action} {e : Event} (h : s.step L act = some (e, s')) :
    s' = s'.withFlags (act.flags fun c => (s.clients c).progress)
      fun c => (s.clients c).rangeProgress := by
  have hw := step_withFlags (L := L) (s := s) (p := fun c => (s.clients c).progress)
    (q := fun c => (s.clients c).rangeProgress) act
  rw [withFlags_self, h, Option.map_some] at hw
  exact (Prod.mk.inj (Option.some.inj hw)).2

end Flags

end Cluster

/-- The flags of the range futures after an action: a completion sets that of its future. -/
def ScanAction.flags (q : ℕ → ℕ → Bool) : ScanAction → ℕ → ℕ → Bool
  | .complete c f _ => setFlag q c f true
  | .op _ | .doRange .. | .readWord .. | .tryStepForwardRange .. => q

/-- The flags of the operation futures after an action. -/
def ScanAction.opFlags (p : ℕ → ℕ → Bool) : ScanAction → ℕ → ℕ → Bool
  | .op act => act.flags p
  | .complete .. | .doRange .. | .readWord .. | .tryStepForwardRange .. => p

namespace Scans

section Flags

variable {L : Layout} {s : Scans} {p q : ℕ → ℕ → Bool} {c f r : ℕ}

/-- The cluster and its scans with the flags `p` and `q` of the clients. -/
def withFlags (s : Scans) (p q : ℕ → ℕ → Bool) : Scans :=
  { s with cluster := s.cluster.withFlags p q }

theorem setClient_withFlags (cl : DsClient) (x y : ℕ → Bool) :
    (s.withFlags p q).setClient c (cl.withFlags x y) =
      (s.setClient c cl).withFlags (update p c x) (update q c y) := by
  rw [setClient, withFlags, Cluster.setClient_withFlags]
  rfl

theorem setClient_withFlags_self (cl : DsClient) :
    (s.withFlags p q).setClient c (cl.withFlags (p c) (q c)) =
      (s.setClient c cl).withFlags p q := by
  rw [setClient_withFlags, update_eq_self, update_eq_self]

theorem send_withFlags (wrs : List Wr) :
    (s.withFlags p q).send c f wrs = (s.send c f wrs).withFlags p q := by
  induction wrs generalizing s with
  | nil => rfl
  | cons w wrs ih =>
    obtain ⟨r, id, op⟩ := w
    cases op with
    | read k => exact ih (s := s)
    | cas k x t => exact ih (s := s)
    | bulk k len => exact ih (s := s.setBulk c f r (some ⟨k, List.range (len / 8)⟩))

theorem post_withFlags (cl : DsClient) (wrs : List Wr) :
    ((s.withFlags p q).setClient c (cl.withFlags (p c) (q c))).send c f wrs =
      ((s.setClient c cl).send c f wrs).withFlags p q := by
  rw [setClient_withFlags_self, send_withFlags]

/-- No step depends on the flags. -/
theorem step_withFlags (act : ScanAction) : (s.withFlags p q).step L act =
    (s.step L act).map fun x => (x.1, x.2.withFlags (act.opFlags p) (act.flags q)) := by
  cases act with
  | op act =>
    simp only [step, withFlags, Cluster.step_withFlags, Option.map_map]
    rfl
  | doRange c f sk ek =>
    simp only [step, withFlags, Cluster.withFlags_clients, DsClient.withFlags_rangeFutures,
      DsClient.doRangeFuture_withFlags]
    split
    · cases (s.cluster.clients c).doRangeFuture (.ofClient L c) f sk ek with
      | error msg => rfl
      | ok x =>
        exact congrArg some (congrArg (Prod.mk _) (post_withFlags x.1 x.2))
    · rfl
  | readWord c f r off =>
    simp only [step]
    cases hb : s.bulks c f r with
    | none => simp [withFlags, hb]
    | some b =>
      simp only [withFlags, hb]
      split
      · have h := setClient_withFlags_self (s := s) (p := p) (q := q) (c := c)
          { s.cluster.clients c with
            scratch := update (s.cluster.clients c).scratch f
              { (s.cluster.clients c).scratch f with
                bulkBufs := update ((s.cluster.clients c).scratch f).bulkBufs r
                  (update (((s.cluster.clients c).scratch f).bulkBufs r) off
                    (s.cluster.cells r (b.key + off))) } }
        exact congrArg some (congrArg (Prod.mk _)
          (congrArg (·.setBulk c f r (some ⟨b.key, b.todo.filter (· ≠ off)⟩)) h))
      · rfl
  | complete c f r =>
    simp only [step]
    cases hb : s.bulks c f r with
    | none => simp [withFlags, hb]
    | some b =>
      simp only [withFlags, hb]
      split
      · refine congrArg some (congrArg (Prod.mk _) ?_)
        have h := setClient_withFlags (s := s) (p := p) (q := q) (c := c)
          ((s.cluster.clients c).completeRange f r) (p c) (update (q c) f true)
        rw [update_eq_self] at h
        exact congrArg (·.setBulk c f r none) h
      · rfl
  | tryStepForwardRange c f =>
    simp only [step]
    split
    · exact congrArg some (congrArg (Prod.mk _)
        (post_withFlags ((s.cluster.clients c).tryStepForwardRange (.ofClient L c) f).1 _))
    · rfl

theorem withFlags_self : s.withFlags (fun c => (s.cluster.clients c).progress)
    (fun c => (s.cluster.clients c).rangeProgress) = s := rfl

/-- What becomes of the flags. -/
theorem step_flags {s' : Scans} {act : ScanAction} {e : ScanEvent}
    (h : s.step L act = some (e, s')) :
    s' = s'.withFlags (act.opFlags fun c => (s.cluster.clients c).progress)
      (act.flags fun c => (s.cluster.clients c).rangeProgress) := by
  have hw := step_withFlags (L := L) (s := s) (p := fun c => (s.cluster.clients c).progress)
    (q := fun c => (s.cluster.clients c).rangeProgress) act
  rw [withFlags_self, h, Option.map_some] at hw
  exact (Prod.mk.inj (Option.some.inj hw)).2

theorem setClient_self : s.setClient c (s.cluster.clients c) = s := by
  simp [setClient, Cluster.setClient]

theorem clearProgress_eq : s.clearProgress c f =
    s.withFlags (setFlag (fun c => (s.cluster.clients c).progress) c f false)
      fun c => (s.cluster.clients c).rangeProgress := by
  have h := setClient_withFlags (s := s) (p := fun c => (s.cluster.clients c).progress)
    (q := fun c => (s.cluster.clients c).rangeProgress) (c := c) (s.cluster.clients c)
    (update (s.cluster.clients c).progress f false) (s.cluster.clients c).rangeProgress
  rwa [update_eq_self c fun c => (s.cluster.clients c).rangeProgress, withFlags_self,
    setClient_self] at h

theorem clearRangeProgress_eq : s.clearRangeProgress c f =
    s.withFlags (fun c => (s.cluster.clients c).progress)
      (setFlag (fun c => (s.cluster.clients c).rangeProgress) c f false) := by
  have h := setClient_withFlags (s := s) (p := fun c => (s.cluster.clients c).progress)
    (q := fun c => (s.cluster.clients c).rangeProgress) (c := c) (s.cluster.clients c)
    (s.cluster.clients c).progress (update (s.cluster.clients c).rangeProgress f false)
  rwa [update_eq_self c fun c => (s.cluster.clients c).progress, withFlags_self,
    setClient_self] at h

end Flags

end Scans

/-- The flags of the operation futures after an action of the loops: a step clears that of
    its future. -/
def ScanAction.progress (p : ℕ → ℕ → Bool) : ScanAction → ℕ → ℕ → Bool
  | .op (.rdma c f _) => setFlag p c f true
  | .op (.tryStepForward c f) => setFlag p c f false
  | .op (.doPut ..) | .op (.doGet ..) | .doRange .. | .readWord .. | .complete ..
  | .tryStepForwardRange .. => p

/-- The flags of the range futures after an action of the loops. -/
def ScanAction.rangeProgress (q : ℕ → ℕ → Bool) : ScanAction → ℕ → ℕ → Bool
  | .complete c f _ => setFlag q c f true
  | .tryStepForwardRange c f => setFlag q c f false
  | .op _ | .doRange .. | .readWord .. => q

/-- A step of the loops is one of the cluster, and then sets the flags. -/
theorem Loops.step_cases {L : Layout} {s s' : Scans} {act : ScanAction} {e : ScanEvent}
    (h : Loops.step L s act = some (e, s')) : ∃ s₁, s.step L act = some (e, s₁) ∧
      s' = s₁.withFlags (act.progress fun c => (s.cluster.clients c).progress)
        (act.rangeProgress fun c => (s.cluster.clients c).rangeProgress) := by
  obtain ⟨⟨e, s₁⟩, hst, hs⟩ := Option.map_eq_some_iff.1 h
  obtain ⟨rfl, rfl⟩ := Prod.mk.inj hs
  refine ⟨s₁, hst, ?_⟩
  have hflags := Scans.step_flags hst
  cases act with
  | op act =>
    cases act with
    | tryStepForward c f =>
      rw [settle, Scans.clearProgress_eq, hflags]
      rfl
    | doPut | doGet | rdma => exact hflags
  | tryStepForwardRange c f =>
    rw [settle, Scans.clearRangeProgress_eq, hflags]
    rfl
  | doRange | readWord | complete => exact hflags

/-! ## What the loops skip -/

/-- After a move that is not an answer, the future is idle or waits for an answer. -/
theorem Move.waiting {L : Layout} {c f : ℕ} {w w' : View} {e : Event} (hm : Move L c f w e w')
    (he : ¬e.Answers c f) : w'.phase.Waiting L.effectiveMajority := by
  cases hm with
  | stutter h => exact h
  | putHit | putMiss | getStart | readDone => exact ⟨0, L.effectiveMajority_pos, rfl⟩
  | readPut | readGet | casChain | casPut | casGet => exact absurd ⟨rfl, rfl⟩ he
  | chainDone | casDone | getDone | backDone => trivial
  | chainRetry _ hex =>
    obtain ⟨i, hi, hne⟩ := hex
    exact ⟨i, hi, if_neg hne⟩
  | casRetry _ hex =>
    obtain ⟨i, hi, hne⟩ := hex
    exact ⟨i, hi, if_pos hne⟩
  | casReset _ hm => exact ⟨_, hm, if_pos le_rfl⟩
  | getMax _ _ _ _ hex =>
    obtain ⟨i, hi, hne⟩ := hex
    exact ⟨i, hi, if_neg hne⟩

/-- A future that waits for an answer is not free to step, and the answer can come. -/
theorem PhaseSim.of_waiting {d : DsConf} {o : OpFuture} {bufs : Scratch}
    {infl : ℕ → Option Rdma} {ph : Phase} (h : PhaseSim d o bufs infl ph) (hne : ph ≠ .idle)
    (hw : ph.Waiting d.quorum) : ∃ i < d.quorum, ∃ op, infl (d.quorumIndices i) = some op ∧
      ∀ k n, op ≠ .bulk k n := by
  obtain ⟨got, op, hi, hbulk, hwait⟩ := h.inFlight hne
  obtain ⟨i, hiq, hg⟩ := hwait hw
  exact ⟨i, hiq, op i, (hi.1 i hiq).trans (if_pos hg), hbulk i⟩

/-- With a request in flight, a future is not free to step. -/
theorem not_ready {d : DsConf} (hn : 0 < d.layout.numServers) {ongoing : ℕ → ℤ} {i : ℕ}
    (h : ongoing (d.quorumIndices i) = 1) : ¬d.Ready ongoing := fun hr =>
  hr _ (DsConf.quorumIndices_lt hn i) (h ▸ Int.one_pos)

/-- The Get of a future that is over, or not free to step, is left as it is. -/
theorem GetFuture.tryStepForward_idle {d : DsConf} {g : GetFuture} {bufs : Scratch}
    {st : DsState} (h : g.step = .done ∨ ¬d.Ready g.ongoingPerServer) :
    ∃ b, g.tryStepForward d bufs st = ⟨g, st, [], b⟩ := by
  rw [GetFuture.tryStepForward]
  split
  · next hr =>
    rw [h.resolve_right (not_not.2 hr)]
    exact ⟨_, rfl⟩
  · exact ⟨_, rfl⟩

/-- The Put of a future that is over, or not free to step, is left as it is. -/
theorem PutFuture.tryStepForward_idle {d : DsConf} {p : PutFuture} {bufs : Scratch}
    {st : DsState} (h : p.step = .done ∨ ¬d.Ready p.ongoingPerServer) :
    ∃ b, p.tryStepForward d bufs st = ⟨p, st, [], b⟩ := by
  rw [PutFuture.tryStepForward]
  split
  · next hr =>
    rw [h.resolve_right (not_not.2 hr)]
    exact ⟨_, rfl⟩
  · exact ⟨_, rfl⟩

/-- A step of a future that waits for an answer, or is idle, changes nothing of it. -/
theorem PhaseSim.tryStepForward_of_waiting {d : DsConf} {o : OpFuture} {bufs : Scratch}
    {infl : ℕ → Option Rdma} {ph : Phase} (hn : 0 < d.layout.numServers)
    (h : PhaseSim d o bufs infl ph) (hct : Counts o infl) (hw : ph.Waiting d.quorum)
    (st : DsState) : ∃ b, o.tryStepForward d bufs st = (bufs, ⟨o, st, [], b⟩) := by
  -- the future is done, or a request of it is in flight
  have hcases : o.isDone = true ∧ o.kind ≠ .range ∨
      (o.kind = .get ∨ o.kind = .put) ∧ ∃ i, (infl (d.quorumIndices i)).isSome = true := by
    by_cases hidle : ph = .idle
    · subst hidle
      exact .inl ⟨h.1, h.2.1⟩
    · obtain ⟨i, -, op, hop, -⟩ := h.of_waiting hidle hw
      refine .inr ⟨?_, i, by rw [hop]; rfl⟩
      cases ph with
      | idle => exact absurd rfl hidle
      | putRead | putChain | putCas => exact .inr h.1
      | getRead | getBack => exact .inl h.1
  cases hk : o.kind with
  | none => exact ⟨true, by rw [OpFuture.tryStepForward, hk]⟩
  | get =>
    have hd : o.getF.step = .done ∨ ¬d.Ready o.getF.ongoingPerServer := by
      rcases hcases with ⟨hd, -⟩ | ⟨-, i, hi⟩
      · exact .inl (by simpa [OpFuture.isDone, GetFuture.isDone, hk] using hd)
      · exact .inr (not_ready hn (i := i) (by rw [hct.get, if_pos ⟨hk, hi⟩]))
    obtain ⟨b, hb⟩ := GetFuture.tryStepForward_idle hd
    exact ⟨b, by rw [tryStepForward_get hk, hb]; rfl⟩
  | put =>
    have hd : o.putF.step = .done ∨ ¬d.Ready o.putF.ongoingPerServer := by
      rcases hcases with ⟨hd, -⟩ | ⟨-, i, hi⟩
      · exact .inl (by simpa [OpFuture.isDone, PutFuture.isDone, hk] using hd)
      · exact .inr (not_ready hn (i := i) (by rw [hct.put, if_pos ⟨hk, hi⟩]))
    obtain ⟨b, hb⟩ := PutFuture.tryStepForward_idle hd
    exact ⟨b, by rw [tryStepForward_put hk, hb]; rfl⟩
  | range =>
    rcases hcases with ⟨-, hr⟩ | ⟨hr | hr, -⟩
    · exact absurd hk hr
    · cases hk.symm.trans hr
    · cases hk.symm.trans hr

section Idle

variable {L : Layout} {s : Cluster} {a : Proto} {c f : ℕ}

/-- A step of a future that waits for an answer, or is idle, changes nothing. -/
theorem Sim.step_of_waiting (hn : 0 < L.numServers) (h : Sim L s a) (hc : c < L.numClients)
    (hf : f < L.asyncParallelism) (hw : (a.phase c f).Waiting L.effectiveMajority) :
    s.step L (.tryStepForward c f) = some (.stepped c f, s) := by
  obtain ⟨b, hsame⟩ := (h.phase c f).tryStepForward_of_waiting (d := .ofClient L c) hn
    (h.counts c f) hw (s.clients c).state
  rw [Cluster.step, if_pos ⟨hc, hf⟩]
  simp only [DsClient.tryStepForward, hsame, DsClient.setFuture, update_eq_self]
  rw [stepEvent_self]
  simp [Cluster.send, Cluster.setClient]

theorem Sim.withFlags (h : Sim L s a) {p q : ℕ → ℕ → Bool} : Sim L (s.withFlags p q) a :=
  ⟨h.cells, h.cache, h.counts, h.phase, h.range⟩

/-- A future that waits for an answer, and is not idle, can get it, and is flagged then. -/
theorem Sim.answer_of_waiting (h : Sim L s a) (hne : a.phase c f ≠ .idle)
    (hw : (a.phase c f).Waiting L.effectiveMajority) :
    ∃ r e s', s.step L (.rdma c f r) = some (e, s') ∧ (s'.clients c).progress f = true := by
  obtain ⟨i, -, op, hop, hbulk⟩ := (h.phase c f).of_waiting hne hw
  obtain ⟨e, s', hx, -⟩ := s.execute_isSome (c := c) (f := f) (r := srv L c i) hbulk
  have hst : s.step L (.rdma c f (srv L c i)) = some (e, s') := by
    simp only [Cluster.step, hop, hx]
  refine ⟨srv L c i, e, s', hst, ?_⟩
  rw [Cluster.step_flags hst]
  exact setFlag_self (fun c => (s.clients c).progress) c f true

end Idle

/-- A step of a scan posts nothing, and ends it unless one of its bulk reads is in flight. -/
theorem RangeFuture.tryStepForward_cases (d : DsConf) (fu : RangeFuture) (bufs : Scratch)
    (st : DsState) : (fu.tryStepForward d bufs st).2.posted = [] ∧
      (fu.tryStepForward d bufs st).1.readBufs = bufs.readBufs ∧
      (fu.tryStepForward d bufs st).1.swapBufs = bufs.swapBufs ∧
      (fu.tryStepForward d bufs st).2.future.ongoingPerServer = fu.ongoingPerServer ∧
      ((fu.tryStepForward d bufs st).2.future.step = .done ∧ d.Ready fu.ongoingPerServer ∨
        ¬d.Ready fu.ongoingPerServer ∧
          fu.tryStepForward d bufs st = (bufs, ⟨fu, st, [], false⟩)) := by
  rw [tryStepForward]
  split
  · next hr =>
    cases hs : fu.step with
    | reading => exact ⟨rfl, rfl, rfl, rfl, .inl ⟨rfl, hr⟩⟩
    | done => exact ⟨rfl, rfl, rfl, rfl, .inl ⟨hs, hr⟩⟩
  · next hr => exact ⟨rfl, rfl, rfl, rfl, .inr ⟨hr, rfl⟩⟩

/-- The counters of the range future `fu` count its bulk reads in flight, which are on servers
    of its quorum, and there are none when it is done. -/
structure BulksOk (L : Layout) (c : ℕ) (fu : RangeFuture) (bulks : ℕ → Option Bulk) : Prop where
  counts : ∀ r, fu.ongoingPerServer r = if (bulks r).isSome then 1 else 0
  slot : ∀ r, (bulks r).isSome = true → ∃ i < L.effectiveMajority, srv L c i = r
  done : fu.step = .done → ∀ r, bulks r = none

/-- The correspondence of the cluster with its scans and the protocol, where a future that is
    not flagged is idle or waits for an answer. -/
structure LoopSim (L : Layout) (s : Scans) (a : Proto) : Prop where
  ops : Sim L s.cluster a
  scans : ∀ c f, BulksOk L c ((s.cluster.clients c).rangeFutures f) (s.bulks c f)
  wake : ∀ c f, (s.cluster.clients c).progress f = false →
    (a.phase c f).Waiting L.effectiveMajority
  wakeRange : ∀ c f, (s.cluster.clients c).rangeProgress f = false →
    ((s.cluster.clients c).rangeFutures f).step = .done ∨ ∃ r, (s.bulks c f r).isSome = true

section LoopSim

variable {L : Layout} {s s₁ : Scans} {a : Proto} {c f : ℕ}

theorem LoopSim.init (L : Layout) : LoopSim L {} {} where
  ops := Sim.init L
  scans _ _ := ⟨fun _ => rfl, fun _ h => absurd h (by simp), fun _ _ => rfl⟩
  wake _ _ _ := trivial
  wakeRange _ _ _ := .inl rfl

/-- A step of one scan only has to be checked on its range future. -/
theorem LoopSim.of_scan (h : LoopSim L s a) {cl : DsClient} {q : ℕ → ℕ → Bool}
    (hcluster : s₁.cluster = s.cluster.setClient c cl)
    (hfutures : cl.futures = (s.cluster.clients c).futures)
    (hscratch : ∀ f', (cl.scratch f').readBufs = ((s.cluster.clients c).scratch f').readBufs ∧
      (cl.scratch f').swapBufs = ((s.cluster.clients c).scratch f').swapBufs)
    (hother : ∀ f' ≠ f, cl.rangeFutures f' = (s.cluster.clients c).rangeFutures f')
    (hbulks : ∀ c' f', c' ≠ c ∨ f' ≠ f → s₁.bulks c' f' = s.bulks c' f')
    (hq : ∀ c' f', c' ≠ c ∨ f' ≠ f → q c' f' = (s.cluster.clients c').rangeProgress f')
    (hself : BulksOk L c (cl.rangeFutures f) (s₁.bulks c f))
    (hwake : q c f = false →
      (cl.rangeFutures f).step = .done ∨ ∃ r, (s₁.bulks c f r).isSome = true) :
    LoopSim L (s₁.withFlags (fun c => (s.cluster.clients c).progress) q)
      { a with cache := update a.cache c cl.state.cache } := by
  have hfut : ∀ c' f', c' ≠ c ∨ f' ≠ f →
      (s₁.cluster.clients c').rangeFutures f' = (s.cluster.clients c').rangeFutures f' := by
    intro c' f' hne
    rw [hcluster, Cluster.setClient_clients]
    split
    · next hc =>
      subst hc
      exact hother f' (hne.resolve_left (not_not.2 rfl))
    · rfl
  have hfut' : (s₁.cluster.clients c).rangeFutures f = cl.rangeFutures f := by
    rw [hcluster, Cluster.setClient_clients, if_pos rfl]
  refine ⟨?_, fun c' f' => ?_, h.wake, fun c' f' (hflag : q c' f' = false) => ?_⟩
  · have hops := h.ops.setClient hfutures hscratch
    rw [← hcluster] at hops
    exact hops.withFlags
  · change BulksOk L c' ((s₁.cluster.clients c').rangeFutures f') (s₁.bulks c' f')
    by_cases hne : c' ≠ c ∨ f' ≠ f
    · rw [hfut c' f' hne, hbulks c' f' hne]
      exact h.scans c' f'
    · push Not at hne
      obtain ⟨rfl, rfl⟩ := hne
      rw [hfut']
      exact hself
  · change ((s₁.cluster.clients c').rangeFutures f').step = .done ∨
      ∃ r, (s₁.bulks c' f' r).isSome = true
    by_cases hne : c' ≠ c ∨ f' ≠ f
    · rw [hfut c' f' hne, hbulks c' f' hne]
      exact h.wakeRange c' f' ((hq c' f' hne).symm.trans hflag)
    · push Not at hne
      obtain ⟨rfl, rfl⟩ := hne
      rw [hfut']
      exact hwake hflag

/-- A range future starts a scan. -/
theorem LoopSim.doRange (hq : L.effectiveMajority ≤ L.numServers) (h : LoopSim L s a)
    (hd : ((s.cluster.clients c).rangeFutures f).isDone = true) {sk ek : UInt64} {cl : DsClient}
    {wrs : List Wr}
    (hx : (s.cluster.clients c).doRangeFuture (.ofClient L c) f sk ek = .ok (cl, wrs)) :
    ∃ a', LoopSim L (((s.setClient c cl).send c f wrs).withFlags
      (fun c => (s.cluster.clients c).progress)
      fun c => (s.cluster.clients c).rangeProgress) a' := by
  obtain ⟨-, hcl, hwrs⟩ := DsClient.doRangeFuture_spec hx
  set fu := (s.cluster.clients c).rangeFutures f with hfu
  have hok := h.scans c f
  have hnone := hok.done (of_decide_eq_true hd)
  obtain ⟨hcluster, hbulks, hbulk, hcounts⟩ := Scans.send_slots (f := f) (s := s.setClient c cl)
    hq hwrs hnone fu.ongoingPerServer fun r => by rw [hok.counts, hnone]; rfl
  have hfut : cl.rangeFutures f = { fu with
      startKey := sk, rangeLen := ek - sk + 1, step := .reading,
      ongoingPerServer := countPosts wrs fu.ongoingPerServer } := by
    rw [hcl]
    exact update_self ..
  refine ⟨_, h.of_scan hcluster (by rw [hcl]) (fun _ => by rw [hcl]; exact ⟨rfl, rfl⟩)
    (fun f' hf' => ?_) hbulks (fun _ _ _ => rfl) ?_ fun _ => .inr ⟨srv L c 0, ?_⟩⟩
  · rw [hcl]
    exact update_of_ne hf' ..
  · rw [hfut]
    refine ⟨hcounts, fun r hr => ?_, fun hs => absurd hs (by simp)⟩
    rw [hbulk] at hr
    split at hr
    · next hslot => exact hslot
    · cases hr
  · rw [hbulk, if_pos ⟨0, L.effectiveMajority_pos, rfl⟩]
    rfl

/-- A server reads a word of a bulk read. -/
theorem LoopSim.readWord (h : LoopSim L s a) {r off : ℕ} {b : Bulk}
    (hb : s.bulks c f r = some b) {bufs : Scratch}
    (hread : bufs.readBufs = ((s.cluster.clients c).scratch f).readBufs)
    (hswap : bufs.swapBufs = ((s.cluster.clients c).scratch f).swapBufs) :
    ∃ a', LoopSim L (((s.setClient c { s.cluster.clients c with
        scratch := update (s.cluster.clients c).scratch f bufs }).setBulk c f r
          (some ⟨b.key, b.todo.filter (· ≠ off)⟩)).withFlags
      (fun c => (s.cluster.clients c).progress)
      fun c => (s.cluster.clients c).rangeProgress) a' := by
  have hbulks : ((s.setClient c { s.cluster.clients c with
      scratch := update (s.cluster.clients c).scratch f bufs }).setBulk c f r
        (some ⟨b.key, b.todo.filter (· ≠ off)⟩)).bulks c f =
      update (s.bulks c f) r (some ⟨b.key, b.todo.filter (· ≠ off)⟩) := Scans.setBulk_self
  -- as many bulk reads are in flight
  have hsome : ∀ r', (update (s.bulks c f) r
      (some ⟨b.key, b.todo.filter (· ≠ off)⟩) r').isSome = (s.bulks c f r').isSome := by
    intro r'
    by_cases hr : r' = r
    · subst hr
      simp [hb]
    · rw [update_of_ne hr]
  have hok := h.scans c f
  refine ⟨_, h.of_scan (c := c) (f := f) rfl rfl (fun f' => ?_) (fun _ _ => rfl)
    (fun c' f' hne => Scans.setBulk_ne hne) (fun _ _ _ => rfl) ?_ fun hflag => ?_⟩
  · by_cases hf' : f' = f
    · subst hf'
      simp [hread, hswap]
    · simp [hf']
  · rw [hbulks]
    refine ⟨fun r' => ?_, fun r' => ?_, fun hs r' => ?_⟩
    · rw [hsome]
      exact hok.counts r'
    · rw [hsome]
      exact hok.slot r'
    · rw [← Option.not_isSome_iff_eq_none, hsome, hok.done hs r']
      simp
  · simp only [hbulks, hsome]
    exact h.wakeRange c f hflag

/-- A bulk read completes, and flags its range future. -/
theorem LoopSim.complete (h : LoopSim L s a) {r : ℕ} {b : Bulk} (hb : s.bulks c f r = some b) :
    ∃ a', LoopSim L (((s.setClient c ((s.cluster.clients c).completeRange f r)).setBulk c f r
      none).withFlags (fun c => (s.cluster.clients c).progress)
        (setFlag (fun c => (s.cluster.clients c).rangeProgress) c f true)) a' := by
  have hbulks : ((s.setClient c ((s.cluster.clients c).completeRange f r)).setBulk c f r
      none).bulks c f = update (s.bulks c f) r none := Scans.setBulk_self
  have hfut : ((s.cluster.clients c).completeRange f r).rangeFutures f =
      ((s.cluster.clients c).rangeFutures f).addToOngoingRDMA r (-1) := update_self ..
  have hok := h.scans c f
  refine ⟨_, h.of_scan (c := c) (f := f) rfl rfl (fun _ => ⟨rfl, rfl⟩)
    (fun f' hf' => update_of_ne hf' ..) (fun c' f' hne => Scans.setBulk_ne hne)
    (fun c' f' hne => setFlag_ne _ _ hne) ?_ fun hflag => ?_⟩
  · rw [hbulks, hfut]
    refine ⟨fun r' => ?_, fun r' => ?_, fun hs r' => ?_⟩
    all_goals by_cases hr : r' = r
    · subst hr
      simp [RangeFuture.addToOngoingRDMA, hok.counts, hb]
    · simp [RangeFuture.addToOngoingRDMA, hok.counts, hr]
    · subst hr
      simp
    · rw [update_of_ne hr]
      exact hok.slot r'
    · subst hr
      exact update_self ..
    · rw [update_of_ne hr]
      exact hok.done hs r'
  · rw [setFlag_self] at hflag
    cases hflag

/-- A range future steps forward, and is not flagged any more: it is done, or one of its bulk
    reads is in flight. -/
theorem LoopSim.tryStepForwardRange (hn : 0 < L.numServers) (h : LoopSim L s a) :
    ∃ a', LoopSim L (((s.setClient c
      ((s.cluster.clients c).tryStepForwardRange (.ofClient L c) f).1).send c f
        ((s.cluster.clients c).tryStepForwardRange (.ofClient L c) f).2).withFlags
          (fun c => (s.cluster.clients c).progress)
          (setFlag (fun c => (s.cluster.clients c).rangeProgress) c f false)) a' := by
  have hok := h.scans c f
  set fu := (s.cluster.clients c).rangeFutures f with hfu
  obtain ⟨hposted, hread, hswap, hcounts, hcases⟩ := fu.tryStepForward_cases (.ofClient L c)
    ((s.cluster.clients c).scratch f) (s.cluster.clients c).state
  -- none of them is in flight if the future is free to step, and else one of them is
  have hnone : (DsConf.ofClient L c).Ready fu.ongoingPerServer → ∀ r, s.bulks c f r = none := by
    intro hr r
    by_contra hne
    have hsome := Option.isSome_iff_ne_none.2 hne
    obtain ⟨i, -, rfl⟩ := hok.slot r hsome
    exact not_ready (d := .ofClient L c) hn ((hok.counts _).trans (if_pos hsome)) hr
  have hsome : ¬(DsConf.ofClient L c).Ready fu.ongoingPerServer →
      ∃ r, (s.bulks c f r).isSome = true := by
    intro hr
    simp only [DsConf.Ready, not_forall, not_not] at hr
    obtain ⟨r, -, hpos⟩ := hr
    rw [hok.counts] at hpos
    by_contra hno
    push Not at hno
    rw [if_neg (hno r)] at hpos
    exact absurd hpos (lt_irrefl 0)
  have hfut : ((s.cluster.clients c).tryStepForwardRange (.ofClient L c) f).1.rangeFutures f =
      (fu.tryStepForward (.ofClient L c) ((s.cluster.clients c).scratch f)
        (s.cluster.clients c).state).2.future := update_self ..
  have hscratch : ((s.cluster.clients c).tryStepForwardRange (.ofClient L c) f).1.scratch =
      update (s.cluster.clients c).scratch f (fu.tryStepForward (.ofClient L c)
        ((s.cluster.clients c).scratch f) (s.cluster.clients c).state).1 := rfl
  have hsend : (s.setClient c ((s.cluster.clients c).tryStepForwardRange (.ofClient L c) f).1).send
      c f ((s.cluster.clients c).tryStepForwardRange (.ofClient L c) f).2 =
      s.setClient c ((s.cluster.clients c).tryStepForwardRange (.ofClient L c) f).1 :=
    congrArg (Scans.send _ c f) hposted
  rw [hsend]
  refine ⟨_, h.of_scan (c := c) (f := f) rfl rfl (fun f' => ?_)
    (fun f' hf' => update_of_ne hf' ..) (fun _ _ _ => rfl)
    (fun c' f' hne => setFlag_ne _ _ hne) ?_ fun _ => ?_⟩
  · rw [hscratch]
    by_cases hf' : f' = f
    · subst hf'
      rw [update_self]
      exact ⟨hread, hswap⟩
    · rw [update_of_ne hf']
      exact ⟨rfl, rfl⟩
  · rw [hfut]
    refine ⟨fun r => (congrFun hcounts r).trans (hok.counts r), hok.slot, fun hs => ?_⟩
    rcases hcases with ⟨-, hr⟩ | ⟨-, hsame⟩
    · exact hnone hr
    · rw [hsame] at hs
      exact hok.done hs
  · rw [hfut]
    exact hcases.imp And.left fun h => hsome h.1

/-- The answers come from the servers. -/
theorem Cluster.rdma_of_answers {s s' : Cluster} {act : Action} {e : Event}
    (h : s.step L act = some (e, s')) (he : e.Answers c f) : ∃ r, act = .rdma c f r := by
  rcases Cluster.step_cases h with ⟨c, f, k, v, rfl, rfl⟩ | ⟨c, f, k, rfl, rfl⟩ |
    ⟨_, _, r, _, _, rfl, rfl⟩ | ⟨_, _, r, _, _, _, _, _, rfl, rfl⟩ | ⟨c, f, rfl, rfl⟩
  · exact he.elim
  · exact he.elim
  · obtain ⟨rfl, rfl⟩ := he
    exact ⟨r, rfl⟩
  · obtain ⟨rfl, rfl⟩ := he
    exact ⟨r, rfl⟩
  · rcases Cluster.stepEvent_cases c f ((s.clients c).futures f) _ with
      hev | ⟨_, _, _, hev⟩ | ⟨_, _, hev⟩ | ⟨_, _, _, _, _, _, hev⟩ <;>
    · rw [hev] at he
      exact he.elim

/-- An operation makes a move, and is flagged by an answer. -/
theorem LoopSim.op (hq : L.effectiveMajority ≤ L.numServers) (hn : 0 < L.numServers)
    (h : LoopSim L s a) {s' : Cluster} {act : Action} {e : Event}
    (hst : s.cluster.step L act = some (e, s')) :
    ∃ a', LoopSim L (({ s with cluster := s' } : Scans).withFlags
      (ScanAction.progress (fun c => (s.cluster.clients c).progress) (.op act))
      fun c => (s.cluster.clients c).rangeProgress) a' := by
  obtain ⟨c, f, w, -, -, hm, hs⟩ := h.ops.step hq hn hst
  have howner : act.owner = (c, f) := (Cluster.step_owner hst).symm.trans hm.owner_eq
  refine ⟨_, hs.withFlags, fun c' f' => ?_, fun c' f' hflag => ?_, fun c' f' hflag => ?_⟩
  · have hfut := congrFun (Cluster.step_scan hq hn h.ops hst c' f').1 f'
    change BulksOk L c' ((s'.clients c').rangeFutures f') _
    rw [hfut]
    exact h.scans c' f'
  · change ScanAction.progress _ (.op act) c' f' = false at hflag
    by_cases hne : c' ≠ c ∨ f' ≠ f
    · rw [Proto.setView_phase_ne _ _ hne]
      refine h.wake c' f' (Eq.trans ?_ hflag)
      cases act with
      | doPut | doGet => rfl
      | rdma c₀ f₀ r | tryStepForward c₀ f₀ =>
        obtain ⟨rfl, rfl⟩ := Prod.mk.inj howner
        exact (setFlag_ne (fun c => (s.cluster.clients c).progress) _ hne).symm
    · push Not at hne
      obtain ⟨rfl, rfl⟩ := hne
      rw [Proto.setView_phase_self]
      refine hm.waiting fun he => ?_
      obtain ⟨r, rfl⟩ := Cluster.rdma_of_answers hst he
      rw [ScanAction.progress, setFlag_self] at hflag
      cases hflag
  · have hfut := congrFun (Cluster.step_scan hq hn h.ops hst c' f').1 f'
    change ((s'.clients c').rangeFutures f').step = _ ∨ _
    rw [hfut]
    exact h.wakeRange c' f' hflag

/-- A step of the loops keeps to the correspondence. -/
theorem LoopSim.step (hq : L.effectiveMajority ≤ L.numServers) (hn : 0 < L.numServers)
    (h : LoopSim L s a) {s' : Scans} {act : ScanAction} {e : ScanEvent}
    (hst : Loops.step L s act = some (e, s')) : ∃ a', LoopSim L s' a' := by
  obtain ⟨s₁, hst₁, rfl⟩ := Loops.step_cases hst
  clear hst
  cases act with
  | op act =>
    obtain ⟨⟨e, t⟩, hst, heq⟩ := Option.map_eq_some_iff.1 hst₁
    obtain ⟨rfl, rfl⟩ := Prod.mk.inj heq
    exact h.op hq hn hst
  | doRange c f sk ek =>
    rw [Scans.step] at hst₁
    split at hst₁
    · next hi =>
      split at hst₁
      · cases hst₁
      · next cl wrs hx =>
        obtain ⟨rfl, rfl⟩ := Prod.mk.inj (Option.some.inj hst₁)
        exact h.doRange hq hi.2.2 hx
    · cases hst₁
  | readWord c f r off =>
    rw [Scans.step] at hst₁
    split at hst₁
    · next k todo hb =>
      split at hst₁
      · obtain ⟨rfl, rfl⟩ := Prod.mk.inj (Option.some.inj hst₁)
        exact h.readWord (b := ⟨k, todo⟩) hb rfl rfl
      · cases hst₁
    · cases hst₁
  | complete c f r =>
    rw [Scans.step] at hst₁
    split at hst₁
    · next b hb =>
      split at hst₁
      · obtain ⟨rfl, rfl⟩ := Prod.mk.inj (Option.some.inj hst₁)
        exact h.complete hb
      · cases hst₁
    · cases hst₁
  | tryStepForwardRange c f =>
    rw [Scans.step] at hst₁
    split at hst₁
    · obtain ⟨rfl, rfl⟩ := Prod.mk.inj (Option.some.inj hst₁)
      exact h.tryStepForwardRange hn
    · cases hst₁

/-- A range future that is not flagged is left as it is by a step. -/
theorem LoopSim.idle_range (hn : 0 < L.numServers) (h : LoopSim L s a) (hc : c < L.numClients)
    (hf : f < L.asyncParallelism) (hflag : (s.cluster.clients c).rangeProgress f = false) :
    s.step L (.tryStepForwardRange c f) = some (.stepped c f, s) := by
  have hok := h.scans c f
  have hsame : ∃ b, ((s.cluster.clients c).rangeFutures f).tryStepForward (.ofClient L c)
      ((s.cluster.clients c).scratch f) (s.cluster.clients c).state =
      ((s.cluster.clients c).scratch f,
        ⟨(s.cluster.clients c).rangeFutures f, (s.cluster.clients c).state, [], b⟩) := by
    rw [RangeFuture.tryStepForward]
    split
    · next hr =>
      -- it is done, as nothing of it is in flight
      have hd : ((s.cluster.clients c).rangeFutures f).step = .done := by
        refine (h.wakeRange c f hflag).resolve_right ?_
        rintro ⟨r, hr'⟩
        obtain ⟨i, -, rfl⟩ := hok.slot r hr'
        exact not_ready (d := .ofClient L c) hn ((hok.counts _).trans (if_pos hr')) hr
      rw [hd]
      exact ⟨_, rfl⟩
    · exact ⟨_, rfl⟩
  obtain ⟨b, hb⟩ := hsame
  rw [Scans.step, if_pos ⟨hc, hf⟩]
  simp only [DsClient.tryStepForwardRange, hb, update_eq_self]
  have hev : ∀ fu acc, Scans.stepEvent c f fu fu acc = .stepped c f := by
    intro fu acc
    rw [Scans.stepEvent, if_neg]
    rintro ⟨hreading, hdone⟩
    cases hreading.symm.trans hdone
  exact congrArg some (Prod.ext (hev _ _) Scans.setClient_self)

theorem LoopSim.run (hq : L.effectiveMajority ≤ L.numServers) {tr : List ScanEvent}
    (h : (Loops.machine L).Run Loops.Flagged tr s) : ∃ a, LoopSim L s a := by
  have hn : 0 < L.numServers := L.effectiveMajority_pos.trans_le hq
  refine h.invariant (P := fun _ s => ∃ a, LoopSim L s a) ⟨_, LoopSim.init L⟩ ?_
  rintro _ s e s' - ⟨a, hs⟩ ⟨act, -, hst⟩
  exact hs.step hq hn hst

end LoopSim

/-- A future that is not flagged would be left as it is by a step, and if it is not done, the
    answer of a server can come and flag it; with a bulk read, once its words have been read. -/
theorem onlyIdleStepsSkipped {L : Layout} (hq : L.effectiveMajority ≤ L.numServers)
    {tr : List ScanEvent} {s : Scans} (h : (Loops.machine L).Run Loops.Flagged tr s) {c f : ℕ}
    (hc : c < L.numClients) (hf : f < L.asyncParallelism) :
    ((s.cluster.clients c).progress f = false →
      s.step L (.op (.tryStepForward c f)) = some (.op (.stepped c f), s) ∧
        (((s.cluster.clients c).futures f).isDone = false → ∃ r e s',
          s.step L (.op (.rdma c f r)) = some (e, s') ∧
            (s'.cluster.clients c).progress f = true)) ∧
    ((s.cluster.clients c).rangeProgress f = false →
      s.step L (.tryStepForwardRange c f) = some (.stepped c f, s) ∧
        (((s.cluster.clients c).rangeFutures f).isDone = false → ∃ r b, s.bulks c f r = some b ∧
          (b.todo = [] → ∃ e s', s.step L (.complete c f r) = some (e, s') ∧
            (s'.cluster.clients c).rangeProgress f = true))) := by
  have hn : 0 < L.numServers := L.effectiveMajority_pos.trans_le hq
  obtain ⟨a, hs⟩ := LoopSim.run hq h
  refine ⟨fun hflag => ⟨?_, fun hd => ?_⟩, fun hflag =>
    ⟨hs.idle_range hn hc hf hflag, fun hd => ?_⟩⟩
  · rw [Scans.step, hs.ops.step_of_waiting hn hc hf (hs.wake c f hflag)]
    rfl
  · have hne : a.phase c f ≠ .idle := by
      intro hidle
      have hp := hs.ops.phase c f
      rw [hidle] at hp
      exact absurd (hp.1.symm.trans hd) (by simp)
    obtain ⟨r, e, s', hst, hflag'⟩ := hs.ops.answer_of_waiting hne (hs.wake c f hflag)
    exact ⟨r, .op e, { s with cluster := s' }, by rw [Scans.step, hst]; rfl, hflag'⟩
  · rcases hs.wakeRange c f hflag with hdone | ⟨r, hr⟩
    · rw [RangeFuture.isDone, hdone] at hd
      cases hd
    · obtain ⟨b, hb⟩ := Option.isSome_iff_exists.1 hr
      refine ⟨r, b, hb, fun hnil => ?_⟩
      have hst : s.step L (.complete c f r) = some (.stepped c f,
          (s.setClient c ((s.cluster.clients c).completeRange f r)).setBulk c f r none) := by
        simp only [Scans.step, hb, if_pos hnil]
      refine ⟨_, _, hst, ?_⟩
      rw [Scans.step_flags hst]
      exact setFlag_self (fun c => (s.cluster.clients c).rangeProgress) c f true

/-- For instance, where a Put of the client 0 has heard from one of its two servers, and has
    been stepped since. -/
theorem onlyIdleStepsSkipped_threeServers :
    ∃ tr s, (Loops.machine (.threeServers 1 true false)).Run Loops.Flagged tr s ∧
      (s.cluster.clients 0).progress 0 = false ∧
      s.step (.threeServers 1 true false) (.op (.tryStepForward 0 0)) =
        some (.op (.stepped 0 0), s) ∧
      ∃ r e s', s.step (.threeServers 1 true false) (.op (.rdma 0 0 r)) = some (e, s') ∧
        (s'.cluster.clients 0).progress 0 = true := by
  obtain ⟨tr, s, hrun, hf⟩ := Lib.Machine.exists_run_of_play
    (m := Loops.machine (.threeServers 1 true false)) (G := Loops.Flagged)
    (fun r => decide ((r.2.cluster.clients 0).progress 0 = false ∧
      ((r.2.cluster.clients 0).futures 0).isDone = false))
    [.op (.doPut 0 0 7 5), .op (.rdma 0 0 1), .op (.tryStepForward 0 0)] (b := true)
    (by decide +kernel)
  obtain ⟨hflag, hd⟩ := of_decide_eq_true hf
  obtain ⟨hidle, hanswer⟩ :=
    (onlyIdleStepsSkipped (by decide) hrun (c := 0) (f := 0) (by decide) (by decide)).1 hflag
  exact ⟨tr, s, hrun, hflag, hidle, hanswer hd⟩

/-! ## The runs of the loops -/

/-- The event is seen from outside: something is started, read, CASed or over. -/
def ScanEvent.Visible : ScanEvent → Bool
  | .op (.stepped ..) | .stepped .. => false
  | .op (.invokePut ..) | .op (.invokeGet ..) | .op (.read ..) | .op (.cas ..) | .op (.getMax ..)
  | .op (.putDone ..) | .op (.getDone ..) | .invokeRange .. | .readWord .. | .rangeDone .. => true

section Runs

variable {L : Layout} {s t t' : Scans} {a : Proto} {act : ScanAction} {e : ScanEvent}

/-- A step that the loops skip cannot be seen, and changes nothing. -/
theorem LoopSim.skipped (hn : 0 < L.numServers) (h : LoopSim L t a) (hskip : ¬Loops.Flagged t act)
    (hst : t.step L act = some (e, t')) : e.Visible = false ∧ t' = t := by
  cases act with
  | op act =>
    cases act with
    | tryStepForward c f =>
      have hflag := Bool.eq_false_of_not_eq_true hskip
      have hi : c < L.numClients ∧ f < L.asyncParallelism := by
        by_contra hi
        rw [Scans.step, Cluster.step, if_neg hi] at hst
        cases hst
      rw [Scans.step, h.ops.step_of_waiting hn hi.1 hi.2 (h.wake c f hflag)] at hst
      obtain ⟨rfl, rfl⟩ := Prod.mk.inj (Option.some.inj hst)
      exact ⟨rfl, rfl⟩
    | doPut | doGet | rdma => exact absurd trivial hskip
  | tryStepForwardRange c f =>
    have hflag := Bool.eq_false_of_not_eq_true hskip
    have hi : c < L.numClients ∧ f < L.asyncParallelism := by
      by_contra hi
      rw [Scans.step, if_neg hi] at hst
      cases hst
    rw [h.idle_range hn hi.1 hi.2 hflag] at hst
    obtain ⟨rfl, rfl⟩ := Prod.mk.inj (Option.some.inj hst)
    exact ⟨rfl, rfl⟩
  | doRange | readWord | complete => exact absurd trivial hskip

/-- A step of the cluster, whatever the flags. -/
theorem Scans.step_of_flags {p q : ℕ → ℕ → Bool} (h : (s.withFlags p q).step L act = some (e, t')) :
    ∃ s' p' q', s.step L act = some (e, s') ∧ t' = s'.withFlags p' q' := by
  rw [step_withFlags] at h
  obtain ⟨⟨e, s'⟩, hst, heq⟩ := Option.map_eq_some_iff.1 h
  obtain ⟨rfl, rfl⟩ := Prod.mk.inj heq
  exact ⟨s', _, _, hst, rfl⟩

end Runs

/-- With a guard that does not depend on the flags, the runs of the cluster and those of the
    loops of its clients cannot be told from each other. -/
theorem loopsAgree {L : Layout} (hq : L.effectiveMajority ≤ L.numServers)
    {G : Scans → ScanAction → Prop} (hG : ∀ s act p q, G (s.withFlags p q) act ↔ G s act)
    (seen : List ScanEvent) :
    (∃ tr s, (Scans.machine L).Run G tr s ∧ tr.filter ScanEvent.Visible = seen) ↔
      ∃ tr s, (Loops.machine L).Run (fun s act => Loops.Flagged s act ∧ G s act) tr s ∧
        tr.filter ScanEvent.Visible = seen := by
  have hn : 0 < L.numServers := L.effectiveMajority_pos.trans_le hq
  constructor
  · rintro ⟨tr, s, h, rfl⟩
    obtain ⟨tr', t, a, hrun, hvis, -⟩ : ∃ tr' t a,
        (Loops.machine L).Run (fun s act => Loops.Flagged s act ∧ G s act) tr' t ∧
        tr'.filter ScanEvent.Visible = tr.filter ScanEvent.Visible ∧ LoopSim L t a ∧
        ∃ p q, t = s.withFlags p q := by
      refine h.invariant (P := fun tr s => ∃ tr' t a,
        (Loops.machine L).Run (fun s act => Loops.Flagged s act ∧ G s act) tr' t ∧
        tr'.filter ScanEvent.Visible = tr.filter ScanEvent.Visible ∧ LoopSim L t a ∧
        ∃ p q, t = s.withFlags p q) ⟨[], _, _, .nil, rfl, LoopSim.init L, _, _, rfl⟩ ?_
      rintro tr s e s' - ⟨tr', t, a, hrun, hvis, hs, p, q, rfl⟩ ⟨act, hg, hst⟩
      have hst' : (s.withFlags p q).step L act =
          some (e, s'.withFlags (act.opFlags p) (act.flags q)) := by
        rw [Scans.step_withFlags]
        exact congrArg (Option.map _) hst
      by_cases hflag : Loops.Flagged (s.withFlags p q) act
      · have hloop : Loops.step L (s.withFlags p q) act = some (e, _) :=
          congrArg (Option.map _) hst'
        obtain ⟨a', hs'⟩ := hs.step hq hn hloop
        obtain ⟨s₁, hst₁, heq⟩ := Loops.step_cases hloop
        obtain ⟨-, rfl⟩ := Prod.mk.inj (Option.some.inj (hst'.symm.trans hst₁))
        refine ⟨e :: tr', _, a', .cons hrun ⟨act, ⟨hflag, (hG _ _ _ _).2 hg⟩, hloop⟩, ?_, hs', _, _,
          heq⟩
        rw [List.filter_cons, List.filter_cons, hvis]
      · obtain ⟨he, heq⟩ := hs.skipped hn hflag hst'
        refine ⟨tr', _, a, hrun, ?_, hs, _, _, heq.symm⟩
        rw [hvis, List.filter_cons_of_neg (by simp [he])]
    exact ⟨tr', t, hrun, hvis⟩
  · rintro ⟨tr, t, h, rfl⟩
    have h0 : ∃ p q, (Loops.machine L).init = (Scans.machine L).init.withFlags p q := ⟨_, _, rfl⟩
    have hsim : ∃ s, (Scans.machine L).Run G tr s ∧ ∃ p q, t = s.withFlags p q := by
      refine h.simulate (C := fun t s => ∃ p q, t = Scans.withFlags s p q) h0 ?_
      rintro t s e t' ⟨p, q, rfl⟩ ⟨act, ⟨-, hg⟩, hst⟩
      obtain ⟨s₁, hst₁, rfl⟩ := Loops.step_cases hst
      obtain ⟨s', p', q', hst', rfl⟩ := Scans.step_of_flags hst₁
      exact ⟨s', ⟨act, (hG _ _ _ _).1 hg, hst'⟩, _, _, rfl⟩
    obtain ⟨s, hrun, -⟩ := hsim
    exact ⟨tr, s, hrun, rfl⟩

/-- For instance, the scan that finds the Put that is over, and not the one that is not. -/
theorem loopsAgree_threeServers :
    ∃ tr s, (Loops.machine (.threeServers 1 true false)).Run
        (fun s act => Loops.Flagged s act ∧ Scans.Steady (.threeServers 1 true false) s act) tr s ∧
      .rangeDone 1 0 7 [(⟨5, 0, 1⟩, 5), (.zero, 0)] ∈ tr.filter ScanEvent.Visible := by
  obtain ⟨tr, s, hrun, hf⟩ := Lib.Machine.exists_run_of_play
    (m := Scans.machine (.threeServers 1 true false))
    (G := Scans.Steady (.threeServers 1 true false))
    (fun r => decide (.rangeDone 1 0 7 [(⟨5, 0, 1⟩, 5), (.zero, 0)] ∈
      r.1.filter ScanEvent.Visible)) scanActions (b := true) (by decide +kernel)
  obtain ⟨tr', s', hrun', hseen⟩ := (loopsAgree (L := .threeServers 1 true false) (by decide)
    (fun _ _ _ _ => Iff.rfl) _).1 ⟨tr, s, hrun, rfl⟩
  exact ⟨tr', s', hrun', hseen ▸ of_decide_eq_true hf⟩

end DiscoSkip
