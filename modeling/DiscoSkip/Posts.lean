import DiscoSkip.Client

/-!
# What the steps of the futures post

Every request is counted twice when it is posted, by the future that posts it and
by its client. This holds of every step of a future (`Outcome.Counted`), whatever
it finds in its buffers; and a future is done only when all it has posted has
completed.
-/

namespace DiscoSkip

open Function

/-- A step of a future with the counters `ctr` and the id `fid`, which posts under
    `wrId`: what it posts is counted twice, and it is done only after all it had
    posted has completed. -/
structure Outcome.Counted {F : Type} (d : DsConf) (ctr : F → ℕ → ℤ) (done : F → Bool) (fid : F → ℕ)
    (wrId : ℕ) (f : F) (st : DsState) (x : Outcome F) : Prop where
  futureId : fid x.future = fid f
  counter : ctr x.future = countPosts x.posted (ctr f)
  toPoll : x.state.toPollPerServer = countPosts x.posted st.toPollPerServer
  wrs : ∀ w ∈ x.posted, w.wrId = wrId ∧ w.server < d.layout.numServers
  done : done x.future = true → x.posted = [] ∧ (done f = true ∨ d.Ready (ctr f))

theorem countPosts_nil (ctr : ℕ → ℤ) : countPosts [] ctr = ctr := by
  funext r
  simp [countPosts]

section Posts

variable {d : DsConf}

/-- A step that posts nothing, and changes no counter. -/
theorem Outcome.Counted.of_nil {F : Type} {ctr : F → ℕ → ℤ} {done : F → Bool} {fid : F → ℕ}
    {wrId : ℕ} {f f' : F} {st st' : DsState} {b : Bool} (hid : fid f' = fid f)
    (hctr : ctr f' = ctr f)
    (hst : st'.toPollPerServer = st.toPollPerServer) (hd : done f = true ∨ d.Ready (ctr f)) :
    Outcome.Counted d ctr done fid wrId f st ⟨f', st', [], b⟩ where
  futureId := hid
  counter := by rw [countPosts_nil, hctr]
  toPoll := by rw [countPosts_nil, hst]
  wrs _ hw := absurd hw List.not_mem_nil
  done _ := ⟨rfl, hd⟩

/-- A future that is not free to step stays as it is. -/
theorem Outcome.Counted.of_not_ready {F : Type} {ctr : F → ℕ → ℤ} {done : F → Bool} {fid : F → ℕ}
    {wrId : ℕ} {f : F} {st : DsState} {b : Bool} :
    Outcome.Counted d ctr done fid wrId f st ⟨f, st, [], b⟩ where
  futureId := rfl
  counter := (countPosts_nil _).symm
  toPoll := (countPosts_nil _).symm
  wrs _ hw := absurd hw List.not_mem_nil
  done h := ⟨rfl, .inl h⟩

theorem wrs_postSlots (hn : 0 < d.layout.numServers) (id : ℕ) (sel : ℕ → Bool) (op : ℕ → Rdma) :
    ∀ w ∈ d.postSlots id sel op, w.wrId = id ∧ w.server < d.layout.numServers := by
  intro w hw
  obtain ⟨i, _, _, rfl⟩ := mem_postSlots.1 hw
  exact ⟨rfl, d.quorumIndices_lt hn i⟩

namespace PutFuture

/-- The loops of a Put change neither its id, nor its counters, nor its step. -/
structure Kept (p p' : PutFuture) : Prop where
  futureId : p'.futureId = p.futureId
  ongoing : p'.ongoingPerServer = p.ongoingPerServer
  step : p'.step = p.step

theorem Kept.refl (p : PutFuture) : Kept p p := ⟨rfl, rfl, rfl⟩

theorem Kept.trans {p p' p'' : PutFuture} (h : Kept p p') (h' : Kept p' p'') : Kept p p'' :=
  ⟨h'.1.trans h.1, h'.2.trans h.2, h'.3.trans h.3⟩

theorem kept_fold {n : ℕ} {g : (i : ℕ) → i < n → PutFuture → PutFuture}
    (h : ∀ i hi p, Kept p (g i hi p)) (p : PutFuture) : Kept p (n.fold g p) :=
  Lib.fold_inv (P := fun _ x => Kept p x) (.refl p) fun i hi b hb => hb.trans (h i hi b)

theorem kept_fold_snd {n : ℕ} {g : (i : ℕ) → i < n → UInt16 × PutFuture → UInt16 × PutFuture}
    (h : ∀ i hi x, Kept x.2 (g i hi x).2) (x : UInt16 × PutFuture) : Kept x.2 (n.fold g x).2 :=
  Lib.fold_inv (P := fun _ y => Kept x.2 y.2) (.refl x.2) fun i hi b hb => hb.trans (h i hi b)

theorem kept_reset (bufs : Scratch) (s : UInt16) (p : PutFuture) : Kept p (reset d bufs s p) :=
  have h := kept_fold (n := d.quorum)
    (g := fun j _ => expect d j (bufs.swapBufs (d.quorumIndices j))) (fun _ _ _ => ⟨rfl, rfl, rfl⟩)
    { p with targetReg := d.register (s + 1) p.value }
  ⟨h.1, h.2, h.3⟩

theorem kept_chainSlot (bufs : Scratch) (i : ℕ) (x : UInt16 × PutFuture) :
    Kept x.2 (chainSlot d bufs i x).2 := by
  rw [chainSlot]
  dsimp only
  split <;> exact ⟨rfl, rfl, rfl⟩

theorem kept_expectTarget (i : ℕ) (p : PutFuture) : Kept p (expectTarget d i p) := by
  rw [expectTarget]
  split <;> exact ⟨rfl, rfl, rfl⟩

theorem kept_casSlot (bufs : Scratch) (i : ℕ) (p : PutFuture) : Kept p (casSlot d bufs i p) := by
  rw [casSlot]
  dsimp only
  split
  · split
    · exact ⟨rfl, rfl, rfl⟩
    · split
      · have h := kept_reset (d := d) bufs (bufs.swapBufs (d.quorumIndices i)).seq
          { p with expected := update p.expected i (bufs.swapBufs (d.quorumIndices i)) }
        exact ⟨h.1, h.2, h.3⟩
      · exact ⟨rfl, rfl, rfl⟩
  · exact .refl p

variable {p : PutFuture} {st : DsState} {bufs : Scratch} (hn : 0 < d.layout.numServers)

/-- The counters of a Put. -/
abbrev Counted (d : DsConf) (p : PutFuture) : DsState → Outcome PutFuture → Prop :=
  Outcome.Counted d ongoingPerServer isDone futureId p.futureId p

include hn in
theorem counted_posting {p' : PutFuture} (hid : p'.futureId = p.futureId)
    (hp : p'.ongoingPerServer = p.ongoingPerServer) (hs : p'.step ≠ .done) (sel : ℕ → Bool)
    (op : ℕ → Rdma) :
    p.Counted d st (p'.posting st (d.postSlots p.futureId sel op)) where
  futureId := hid
  counter := by rw [posting, hp]
  toPoll := rfl
  wrs := wrs_postSlots hn _ _ _
  done h := absurd (of_decide_eq_true h) hs

theorem counted_finish {p' : PutFuture} (hid : p'.futureId = p.futureId)
    (hp : p'.ongoingPerServer = p.ongoingPerServer)
    (hr : d.Ready p.ongoingPerServer) : p.Counted d st (p'.finish d st) := by
  refine .of_nil hid hp ?_ (.inr hr)
  split <;> rfl

variable (p st) in
include hn in
theorem counted_doPut (k : ℕ) (v : UInt64) : p.Counted d st (p.doPut d st k v) := by
  rw [doPut]
  dsimp only
  split
  · next cached _ =>
    have h := kept_fold (n := d.quorum) (g := fun i _ => expect d i cached)
      (fun _ _ _ => ⟨rfl, rfl, rfl⟩) { p with
        key := k, value := v, successCount := 0, needsCas := fun _ => false
        targetReg := d.register (cached.seq + 1) v }
    rw [postOptimisticChain]
    dsimp only
    rw [h.1]
    refine counted_posting hn ?_ ?_ ?_ _ _
    · rfl
    · exact h.2
    · simp
  · refine counted_posting hn ?_ ?_ ?_ _ _
    · rfl
    · rfl
    · simp

variable (p st bufs) in
include hn in
theorem counted_tryStepForward : p.Counted d st (p.tryStepForward d bufs st) := by
  rw [tryStepForward]
  split
  · next hr =>
    split
    · have h := kept_fold_snd (n := d.quorum) (g := fun i _ => readSlot d bufs i)
        (fun _ _ _ => ⟨rfl, rfl, rfl⟩) (0, p)
      rw [stepReadSeq]
      dsimp only
      rw [postCas]
      dsimp only
      rw [h.1]
      refine counted_posting hn ?_ ?_ ?_ _ _
      · rfl
      · exact h.2
      · simp
    · have h := (kept_fold_snd (n := d.quorum) (g := fun i _ => chainSlot d bufs i)
        (fun i _ => kept_chainSlot bufs i) (p.targetReg.seq - 1, p)).trans
        (kept_fold (n := d.quorum) (g := fun i _ => expectTarget d i)
          (fun i _ => kept_expectTarget i) _)
      rw [stepOptimisticChain]
      dsimp only
      split
      · exact counted_finish h.1 h.2 hr
      · rw [postCas]
        dsimp only
        rw [h.1]
        refine counted_posting hn ?_ ?_ ?_ _ _
        · rfl
        · exact h.2
        · simp
    · next hs =>
      have h := kept_fold (n := d.quorum) (g := fun i _ => casSlot d bufs i)
        (fun i _ => kept_casSlot bufs i) p
      rw [stepCas]
      split
      · exact counted_finish h.1 h.2 hr
      · rw [postCas, h.1]
        exact counted_posting hn h.1 h.2 (by rw [h.3, hs]; simp) _ _
    · exact .of_not_ready
  · exact .of_not_ready

end PutFuture

namespace GetFuture

variable {g : GetFuture} {st : DsState} {bufs : Scratch} (hn : 0 < d.layout.numServers)

/-- The counters of a Get. -/
abbrev Counted (d : DsConf) (g : GetFuture) : DsState → Outcome GetFuture → Prop :=
  Outcome.Counted d ongoingPerServer isDone futureId g.futureId g

theorem kept_readLoop (bufs : Scratch) (g : GetFuture) :
    (d.quorum.fold (fun i _ => readSlot d bufs i) g).futureId = g.futureId ∧
      (d.quorum.fold (fun i _ => readSlot d bufs i) g).ongoingPerServer = g.ongoingPerServer := by
  refine Lib.fold_inv (P := fun _ (x : GetFuture) => x.futureId = g.futureId ∧
    x.ongoingPerServer = g.ongoingPerServer) ⟨rfl, rfl⟩ fun i _ b hb => ?_
  rw [readSlot]
  dsimp only
  split
  · exact hb
  · split <;> exact hb

include hn in
theorem counted_posting {g' : GetFuture} {st' : DsState} (hid : g'.futureId = g.futureId)
    (hg : g'.ongoingPerServer = g.ongoingPerServer)
    (hst : st'.toPollPerServer = st.toPollPerServer) (hs : g'.step ≠ .done) (sel : ℕ → Bool)
    (op : ℕ → Rdma) : g.Counted d st (g'.posting st' (d.postSlots g.futureId sel op)) where
  futureId := hid
  counter := by rw [posting, hg]
  toPoll := by rw [posting, hst]
  wrs := wrs_postSlots hn _ _ _
  done h := absurd (of_decide_eq_true h) hs

variable (g st) in
include hn in
theorem counted_doGet (k : ℕ) : g.Counted d st (g.doGet d st k) := by
  refine counted_posting hn ?_ ?_ rfl ?_ _ _
  · rfl
  · rfl
  · simp

variable (g st bufs) in
include hn in
theorem counted_tryStepForward : g.Counted d st (g.tryStepForward d bufs st) := by
  rw [tryStepForward]
  split
  · next hr =>
    split
    · obtain ⟨hid, hong⟩ := kept_readLoop (d := d) bufs g
      have hst : ∀ k reg, (if d.layout.regCacheEnabled then { st with cache := st.cache.put k reg }
          else st).toPollPerServer = st.toPollPerServer := fun k reg => by split <;> rfl
      rw [stepReading]
      dsimp only
      split
      · rw [postWriteback]
        dsimp only
        rw [hid]
        refine counted_posting hn ?_ ?_ (hst _ _) ?_ _ _
        · rfl
        · exact hong
        · simp
      · exact .of_nil hid hong (hst _ _) (.inr hr)
    · exact .of_nil rfl rfl rfl (.inr hr)
    · exact .of_not_ready
  · exact .of_not_ready

end GetFuture

namespace RangeFuture

variable {f : RangeFuture} {st : DsState} {bufs : Scratch} (hn : 0 < d.layout.numServers)

/-- The counters of a range read, which posts under its id with the top bit set. -/
abbrev Counted (d : DsConf) (f : RangeFuture) : DsState → Outcome RangeFuture → Prop :=
  Outcome.Counted d ongoingPerServer isDone futureId (f.futureId ||| rangeBit) f

include hn in
theorem counted_doRange {sk ek : UInt64} {x : Outcome RangeFuture}
    (h : f.doRange d st sk ek = .ok x) : f.Counted d st x := by
  rw [doRange] at h
  dsimp only at h
  split at h
  · exact absurd h (by simp)
  · obtain rfl := Except.ok.inj h
    exact ⟨rfl, rfl, rfl, wrs_postSlots hn _ _ _,
      fun h => absurd (of_decide_eq_true h) (by simp [postBulkReads, posting])⟩

variable (f st bufs) in
theorem counted_tryStepForward : f.Counted d st (f.tryStepForward d bufs st).2 := by
  rw [tryStepForward]
  split
  · next hr =>
    split
    · exact .of_nil rfl rfl rfl (.inr hr)
    · exact .of_not_ready
  · exact .of_not_ready

end RangeFuture

end Posts

end DiscoSkip
