import DiscoSkip.BulkRead
import DiscoSkip.Scan
import DiscoSkip.Simulation
import DiscoSkip.Unique

/-!
# Scans are Gets

The cluster with its scans refines the protocol (`Scans.exists_run`), with a Get for every
key of a scan. Such a Get starts with the scan, hears from the slot `i` of its quorum when
the server of this slot has read the word of its key, and ends with the scan.

It does so without writing back, whence this holds only where the Gets do not write back
either.
-/

namespace DiscoSkip

open Function

/-! ## The protocol with the readers -/

section Readers

variable {L : Layout} {c f n : ℕ} {w w' : View} {e : Event} {a : Proto}

/-- A move does not depend on how many futures there are. -/
theorem Move.withReaders (h : Move L c f w e w') : Move L.withReaders c f w e w' := by
  cases h with
  | stutter h => exact .stutter h
  | putHit h₁ h₂ => exact .putHit h₁ h₂
  | putMiss h => exact .putMiss h
  | getStart => exact .getStart
  | readPut h₁ h₂ => exact .readPut h₁ h₂
  | readGet h₁ h₂ => exact .readGet h₁ h₂
  | casChain h₁ h₂ => exact .casChain h₁ h₂
  | casPut h₁ h₂ => exact .casPut h₁ h₂
  | casGet h₁ h₂ => exact .casGet h₁ h₂
  | readDone h₁ h₂ h₃ => exact .readDone h₁ h₂ h₃
  | chainDone h => exact .chainDone h
  | chainRetry h₁ h₂ h₃ h₄ => exact .chainRetry h₁ h₂ h₃ h₄
  | casDone h₁ h₂ => exact .casDone h₁ h₂
  | casRetry h₁ h₂ h₃ => exact .casRetry h₁ h₂ h₃
  | casReset h₁ h₂ h₃ h₄ => exact .casReset h₁ h₂ h₃ h₄
  | getDone h₁ h₂ h₃ h₄ h₅ => exact .getDone h₁ h₂ h₃ h₄ h₅
  | getMax h₁ h₂ h₃ h₄ h₅ h₆ => exact .getMax h₁ h₂ h₃ h₄ h₅ h₆
  | backDone h => exact .backDone h

namespace Proto

/-- The protocol without the futures from `n` on. -/
def upTo (n : ℕ) (a : Proto) : Proto :=
  { a with phase := fun c f => if f < n then a.phase c f else .idle }

theorem upTo_view (hf : f < n) : (a.upTo n).view c f = a.view c f := by
  simp [upTo, view, hf]

theorem upTo_setView (hf : f < n) : (a.setView c f w).upTo n = (a.upTo n).setView c f w := by
  simp only [upTo, setView, Proto.mk.injEq, true_and]
  funext c' f'
  by_cases hc : c' = c
  · subst hc
    by_cases hf' : f' = f
    · subst hf'
      simp [hf]
    · simp [hf']
  · simp [hc]

/-- The futures below `n` are as they were. -/
theorem upTo_eq {a' : Proto} (hcells : a'.cells = a.cells)
    (hphase : ∀ c, ∀ f < n, a'.phase c f = a.phase c f) :
    a'.upTo n = { a.upTo n with cache := a'.cache } := by
  simp only [upTo, Proto.mk.injEq, hcells, true_and]
  funext c f
  split
  · next hf => exact hphase c f hf
  · rfl

/-- The readers of the keys of a scan move one after the other. -/
theorem trace_readers {H : Proto → Event → Prop} (hc : c < L.numClients)
    (hf : f < L.asyncParallelism) (hn : n ≤ L.maxRange) (ev : ℕ → Event) (ph : ℕ → Phase)
    (upd : ℕ → Cache → Cache) (hH : ∀ a, ∀ off < n, H a (ev off))
    (hm : ∀ off < n, ∀ ca, Move L.withReaders c (L.reader f off)
      ⟨a.cells, ca, a.phase c (L.reader f off)⟩ (ev off) ⟨a.cells, upd off ca, ph off⟩) :
    ∃ a', Lib.Trace (Step L.withReaders H) a ((List.range n).reverse.map ev) a' ∧
      a'.cells = a.cells ∧
      a'.cache = update a.cache c (n.fold (fun off _ ca => upd off ca) (a.cache c)) ∧
      (∀ off < n, a'.phase c (L.reader f off) = ph off) ∧
      ∀ c' f', (c' = c → ∀ off < n, f' ≠ L.reader f off) → a'.phase c' f' = a.phase c' f' := by
  induction n with
  | zero => exact ⟨a, .nil, rfl, (update_eq_self c a.cache).symm, by simp, fun _ _ _ => rfl⟩
  | succ n ih =>
    obtain ⟨a₁, htr, hcells, hcache, hph, hne⟩ := ih (Nat.le_of_succ_le hn)
      (fun a off hoff => hH a off (Nat.lt_succ_of_lt hoff))
      fun off hoff => hm off (Nat.lt_succ_of_lt hoff)
    have hother : ∀ off < n, L.reader f off ≠ L.reader f n := fun off hoff h =>
      hoff.ne (Layout.reader_inj (hoff.trans hn) hn h).2
    have hview : a₁.view c (L.reader f n) = ⟨a.cells, a₁.cache c, a.phase c (L.reader f n)⟩ := by
      rw [view, hcells, hne c _ fun _ off hoff => (hother off hoff).symm]
    have hmove := hm n n.lt_succ_self (a₁.cache c)
    rw [← hview] at hmove
    refine ⟨a₁.setView c (L.reader f n) ⟨a.cells, upd n (a₁.cache c), ph n⟩, ?_, rfl, ?_,
      fun off hoff => ?_, fun c' f' hcf => ?_⟩
    · rw [List.range_succ, List.reverse_append, List.reverse_singleton, List.singleton_append,
        List.map_cons]
      exact .cons htr ⟨c, _, _, hc, Layout.reader_lt hf hn, hH _ n n.lt_succ_self, hmove, rfl⟩
    · rw [setView, hcache, Nat.fold_succ, update_self, update_idem]
    · rcases Nat.lt_succ_iff_lt_or_eq.1 hoff with hlt | rfl
      · rw [setView_phase_ne _ _ (.inr (hother off hlt))]
        exact hph off hlt
      · exact setView_phase_self ..
    · by_cases hcc : c' = c
      · rw [setView_phase_ne _ _ (.inr (hcf hcc n n.lt_succ_self))]
        exact hne c' f' fun h off hoff => hcf h off (Nat.lt_succ_of_lt hoff)
      · rw [setView_phase_ne _ _ (.inl hcc)]
        exact hne c' f' fun h => absurd h hcc

end Proto

end Readers

/-! ## What the registers found are -/

section Positive

variable {L : Layout} {H : Proto → Event → Prop} {k : ℕ} {tr : List Event} {a : Proto}

/-- What a Put issues is above the initial register. -/
theorem tag_of_issued (hH : ∀ a e, H a e → e.SeqBelow) (h : Proto.Run L H tr a) :
    ∀ c t, Issued c k tr t → Register.zero.tag < t.tag := by
  have hpos : ∀ x y : UInt16, x < y → Register.zero.seq < y := fun x y hxy =>
    UInt16.lt_of_le_of_lt (UInt16.le_iff_toNat_le.2 (Nat.zero_le _)) hxy
  refine h.invariant (P := fun tr _ => ∀ c t, Issued c k tr t → Register.zero.tag < t.tag) ?_
    fun tr a e a' hr ih hs c t hi => ?_
  · rintro c t ⟨_, _, _, _, hmem⟩
    exact absurd hmem List.not_mem_nil
  rcases hi.of_cons with hi | ⟨f, r, x, y, rfl⟩
  · exact ih c t hi
  obtain ⟨c', f', w, _, _, _, hm, _⟩ := hs
  obtain ⟨rfl, rfl⟩ := Prod.mk.inj hm.owner_eq
  have hok : PhaseOk L (a.view c f).phase := (Bounded.run hH hr).phase c f
  generalize a.view c f = w₀ at hok hm
  cases hm with
  | casChain =>
    exact Register.tag_lt_of_seq (hpos _ _ (Register.seq_lt_succ hok.1 (UInt16.le_refl _)))
  | casPut hi' hnone =>
    exact Register.tag_lt_of_seq (hpos _ _ (hok.exp_lt _ hi' (hok.need_of_none _ hi' hnone)))

/-- What is known of a key is the initial register, or above it. -/
theorem Known.zero_or (hH : ∀ a e, H a e → e.SeqBelow) (h : Proto.Run L H tr a) {reg : Register}
    (hk : Known L k tr reg) : reg = .zero ∨ Register.zero.tag < reg.tag := by
  rcases hk with rfl | ⟨c, _, hi⟩
  · exact .inl rfl
  · exact .inr (tag_of_issued hH h c reg hi)

end Positive

/-- The latest of registers is one of them, or the initial one, and not below any. -/
theorem Register.latest_spec (rd : ℕ → Register) (n : ℕ) :
    (∀ i < n, (rd i).tag ≤ (latest rd n).tag) ∧
      (latest rd n = .zero ∨ ∃ i < n, latest rd n = rd i) ∧
      (latest rd n = .zero ∨ zero.tag < (latest rd n).tag) := by
  induction n with
  | zero => exact ⟨by simp, .inl rfl, .inl rfl⟩
  | succ n ih =>
    obtain ⟨hle, hmem, hpos⟩ := ih
    rw [latest]
    split
    · next hlt =>
      refine ⟨fun i hi => ?_, .inr ⟨n, n.lt_succ_self, rfl⟩,
        .inr ((zero_tag_le _).trans_lt (lt_iff.1 hlt))⟩
      rcases Nat.lt_succ_iff_lt_or_eq.1 hi with hi | rfl
      · exact (hle i hi).trans (lt_iff.1 hlt).le
      · exact le_rfl
    · next hno =>
      refine ⟨fun i hi => ?_, ?_, hpos⟩
      · rcases Nat.lt_succ_iff_lt_or_eq.1 hi with hi | rfl
        · exact hle i hi
        · exact not_lt_iff.1 hno
      · exact hmem.imp_right (Exists.imp fun i => And.imp_left n.lt_succ_self.trans')

/-! ## The correspondence -/

/-- The scan of the future `fu`, with its scratchpad and its bulk reads in flight: the readers
    of its keys, whose phases are `ph`, are reading. -/
structure Scanning (L : Layout) (c f : ℕ) (fu : RangeFuture) (bufs : Scratch)
    (bulks : ℕ → Option Bulk) (ph : ℕ → Phase) : Prop where
  range : c < L.numClients ∧ f < L.asyncParallelism
  len_le : fu.rangeLen.toNat ≤ L.maxRange
  bulk : ∀ r b, bulks r = some b → (∃ i < L.effectiveMajority, srv L c i = r) ∧
    b.key = fu.startKey.toNat ∧ ∀ off ∈ b.todo, off < fu.rangeLen.toNat
  reads : ∀ off < fu.rangeLen.toNat, ∃ got, ph off = .getRead (fu.startKey.toNat + off) got ∧
    ∀ i < L.effectiveMajority,
      (got i = none ↔ ∃ b, bulks (srv L c i) = some b ∧ off ∈ b.todo) ∧
      ∀ x, got i = some x → bufs.bulkBufs (srv L c i) off = x
  idle : ∀ off < L.maxRange, fu.rangeLen.toNat ≤ off → ph off = .idle

/-- The range future `fu` and the phases `ph` of the readers of its keys. -/
structure ScanOk (L : Layout) (c f : ℕ) (fu : RangeFuture) (bufs : Scratch)
    (bulks : ℕ → Option Bulk) (ph : ℕ → Phase) : Prop where
  counts : ∀ r, fu.ongoingPerServer r = if (bulks r).isSome then 1 else 0
  done : fu.step = .done → (∀ r, bulks r = none) ∧ ∀ off < L.maxRange, ph off = .idle
  reading : fu.step = .reading → Scanning L c f fu bufs bulks ph

/-- The correspondence of the cluster with its scans and the protocol with the readers. -/
structure ScanSim (L : Layout) (s : Scans) (a : Proto) : Prop where
  ops : Sim L s.cluster (a.upTo L.asyncParallelism)
  scan : ∀ c f, ScanOk L c f ((s.cluster.clients c).rangeFutures f)
    ((s.cluster.clients c).scratch f) (s.bulks c f) fun off => a.phase c (L.reader f off)

theorem ScanOk.congr {L : Layout} {c f : ℕ} {fu : RangeFuture} {bufs bufs' : Scratch}
    {bulks : ℕ → Option Bulk} {ph ph' : ℕ → Phase} (h : ScanOk L c f fu bufs bulks ph)
    (hbufs : bufs'.bulkBufs = bufs.bulkBufs) (hph : ∀ off < L.maxRange, ph' off = ph off) :
    ScanOk L c f fu bufs' bulks ph' := by
  refine ⟨h.counts, fun hs => ⟨(h.done hs).1, fun off hoff => ?_⟩, fun hs => ?_⟩
  · rw [hph off hoff]
    exact (h.done hs).2 off hoff
  · obtain ⟨hr, hle, hb, hreads, hidle⟩ := h.reading hs
    refine ⟨hr, hle, hb, fun off hoff => ?_, fun off hoff hlen => ?_⟩
    · rw [hph off (hoff.trans_le hle), hbufs]
      exact hreads off hoff
    · rw [hph off hoff]
      exact hidle off hoff hlen

/-- The operations do not see what is kept for the scans. -/
theorem Sim.congr {L : Layout} {s s' : Cluster} {a : Proto} {cache : ℕ → Cache} (h : Sim L s a)
    (hcells : s'.cells = s.cells) (hinfl : s'.inflight = s.inflight)
    (hfutures : ∀ c, (s'.clients c).futures = (s.clients c).futures)
    (hscratch : ∀ c f, ((s'.clients c).scratch f).readBufs = ((s.clients c).scratch f).readBufs ∧
      ((s'.clients c).scratch f).swapBufs = ((s.clients c).scratch f).swapBufs)
    (hcache : ∀ c, (s'.clients c).state.cache = cache c) : Sim L s' { a with cache := cache } := by
  refine ⟨hcells.trans h.cells, hcache, fun c f => ?_, fun c f => ?_, h.range⟩
  · rw [hfutures, hinfl]
    exact h.counts c f
  · have hp := h.phase c f
    rw [hfutures, hinfl]
    obtain ⟨hread, hswap⟩ := hscratch c f
    revert hp hread hswap
    generalize (s'.clients c).scratch f = bufs'
    generalize (s.clients c).scratch f = bufs
    obtain ⟨rd, sw, bk⟩ := bufs
    obtain ⟨rd', sw', bk'⟩ := bufs'
    rintro hp rfl rfl
    change PhaseSim _ _ _ _ (a.phase c f)
    cases hph : a.phase c f <;> rw [hph] at hp <;> exact hp

theorem Cluster.setClient_clients (s : Cluster) (c : ℕ) (cl : DsClient) (c' : ℕ) :
    (s.setClient c cl).clients c' = if c' = c then cl else s.clients c' := update_apply ..

/-- The operations do not see a change of what one client keeps for its scans. -/
theorem Sim.setClient {L : Layout} {s : Cluster} {a : Proto} {c : ℕ} {cl : DsClient}
    (h : Sim L s a) (hfutures : cl.futures = (s.clients c).futures)
    (hscratch : ∀ f, (cl.scratch f).readBufs = ((s.clients c).scratch f).readBufs ∧
      (cl.scratch f).swapBufs = ((s.clients c).scratch f).swapBufs) :
    Sim L (s.setClient c cl) { a with cache := update a.cache c cl.state.cache } := by
  refine h.congr rfl rfl (fun c' => ?_) (fun c' f' => ?_) fun c' => ?_
  all_goals
    rw [Cluster.setClient_clients]
    by_cases hc : c' = c
  · rw [if_pos hc, hfutures, hc]
  · rw [if_neg hc]
  · rw [if_pos hc, hc]
    exact hscratch f'
  · rw [if_neg hc]
    exact ⟨rfl, rfl⟩
  · rw [if_pos hc, hc, update_self]
  · rw [if_neg hc, update_of_ne hc]
    exact h.cache c'

section Frame

variable {L : Layout} {s s' : Scans} {a a' : Proto} {c f : ℕ}

/-- A step of one scan only has to be checked on its range future, and on the readers of its
    keys. -/
theorem ScanSim.of_scan (h : ScanSim L s a) {cl : DsClient}
    (hcluster : s'.cluster = s.cluster.setClient c cl)
    (hfutures : cl.futures = (s.cluster.clients c).futures)
    (hscratch : ∀ f', (cl.scratch f').readBufs = ((s.cluster.clients c).scratch f').readBufs ∧
      (cl.scratch f').swapBufs = ((s.cluster.clients c).scratch f').swapBufs)
    (hother : ∀ f' ≠ f, cl.rangeFutures f' = (s.cluster.clients c).rangeFutures f' ∧
      cl.scratch f' = (s.cluster.clients c).scratch f')
    (hbulks : ∀ c' f', c' ≠ c ∨ f' ≠ f → s'.bulks c' f' = s.bulks c' f')
    (hcells : a'.cells = a.cells) (hcache : a'.cache = update a.cache c cl.state.cache)
    (hph : ∀ c' f', (c' = c → ∀ off < L.maxRange, f' ≠ L.reader f off) →
      a'.phase c' f' = a.phase c' f')
    (hself : ScanOk L c f (cl.rangeFutures f) (cl.scratch f) (s'.bulks c f)
      fun off => a'.phase c (L.reader f off)) : ScanSim L s' a' := by
  refine ⟨?_, fun c' f' => ?_⟩
  · rw [Proto.upTo_eq hcells fun c' f' hf' => hph c' f' fun _ off _ =>
      (hf'.trans_le (L.le_reader f off)).ne, hcluster, hcache]
    exact h.ops.setClient hfutures hscratch
  · rw [hcluster, Cluster.setClient_clients]
    by_cases hc : c' = c
    · subst hc
      rw [if_pos rfl]
      by_cases hf : f' = f
      · subst hf
        exact hself
      · obtain ⟨hfut, hscr⟩ := hother f' hf
        rw [hfut, hscr, hbulks _ _ (.inr hf)]
        refine (h.scan c' f').congr rfl fun off hoff => hph _ _ fun _ off' hoff' he => ?_
        exact hf (Layout.reader_inj hoff hoff' he).1
    · rw [if_neg hc, hbulks _ _ (.inl hc)]
      exact (h.scan c' f').congr rfl fun off _ => hph _ _ fun h => absurd h hc

end Frame

/-! ## Operations -/

section Ops

variable {L : Layout} {a : Proto}

/-- The operations leave the range futures alone, and what their bulk reads have found. -/
theorem Cluster.step_scan {s s' : Cluster} {act : Action} {e : Event}
    (hq : L.effectiveMajority ≤ L.numServers) (hn : 0 < L.numServers) (h : Sim L s a)
    (hst : s.step L act = some (e, s')) (c' f' : ℕ) :
    (s'.clients c').rangeFutures = (s.clients c').rangeFutures ∧
      ((s'.clients c').scratch f').bulkBufs = ((s.clients c').scratch f').bulkBufs := by
  -- only the client of the action is changed
  have hset : ∀ (s : Cluster) c (cl : DsClient), cl.rangeFutures = (s.clients c).rangeFutures →
      (cl.scratch f').bulkBufs = ((s.clients c).scratch f').bulkBufs →
      ((s.setClient c cl).clients c').rangeFutures = (s.clients c').rangeFutures ∧
        (((s.setClient c cl).clients c').scratch f').bulkBufs =
          ((s.clients c').scratch f').bulkBufs := by
    intro s c cl hfut hscr
    by_cases hc : c' = c
    · subst hc
      simp only [setClient, update_self]
      exact ⟨hfut, hscr⟩
    · exact ⟨by simp [setClient, hc], by simp [setClient, hc]⟩
  cases act with
  | doPut c f k v | doGet c f k =>
    simp only [step] at hst
    split at hst
    · obtain ⟨rfl, rfl⟩ := Prod.mk.inj (Option.some.inj hst)
      rw [send_clients]
      exact hset s c _ rfl rfl
    · exact absurd hst (by simp)
  | rdma c f r =>
    have hcomplete : ∀ (s : Cluster) (bufs : Scratch),
        bufs.bulkBufs = ((s.clients c).scratch f).bulkBufs →
        ((s.complete c f r bufs).clients c').rangeFutures = (s.clients c').rangeFutures ∧
          (((s.complete c f r bufs).clients c').scratch f').bulkBufs =
            ((s.clients c').scratch f').bulkBufs := by
      intro s bufs hbufs
      refine hset s c _ rfl ?_
      by_cases hf : f' = f
      · subst hf
        simpa [DsClient.complete] using hbufs
      · simp [DsClient.complete, hf]
    simp only [step] at hst
    split at hst
    · next op _ =>
      cases op with
      | read k =>
        obtain ⟨rfl, rfl⟩ := Prod.mk.inj (Option.some.inj hst)
        exact hcomplete s _ rfl
      | cas k x t =>
        obtain ⟨rfl, rfl⟩ := Prod.mk.inj (Option.some.inj hst)
        split
        · exact hcomplete (s.setCell r k t) _ rfl
        · exact hcomplete s _ rfl
      | bulk => exact absurd hst (by simp [execute])
    · exact absurd hst (by simp)
  | tryStepForward c f =>
    simp only [step] at hst
    split at hst
    · next hi =>
      obtain ⟨rfl, rfl⟩ := Prod.mk.inj (Option.some.inj hst)
      obtain ⟨hb, -⟩ := h.tryStepForward hq hn hi.1 hi.2 rfl
      rw [send_clients]
      refine hset s c _ rfl ?_
      simp only [DsClient.tryStepForward, hb, update_eq_self]
    · exact absurd hst (by simp)

/-- A step of the operations is a move, and keeps the scans as they are. -/
theorem ScanSim.op {s : Scans} {s' : Cluster} {act : Action} {e : Event}
    (hq : L.effectiveMajority ≤ L.numServers) (hn : 0 < L.numServers) (h : ScanSim L s a)
    (hst : s.cluster.step L act = some (e, s')) :
    ∃ c f w, c < L.numClients ∧ f < L.asyncParallelism ∧ Move L.withReaders c f (a.view c f) e w ∧
      ScanSim L { s with cluster := s' } (a.setView c f w) := by
  obtain ⟨c, f, w, hc, hf, hm, hs⟩ := h.ops.step hq hn hst
  rw [Proto.upTo_view hf] at hm
  rw [← Proto.upTo_setView hf] at hs
  refine ⟨c, f, w, hc, hf, hm.withReaders, hs, fun c' f' => ?_⟩
  obtain ⟨hfut, hscr⟩ := Cluster.step_scan hq hn h.ops hst c' f'
  have hfut' := congrFun hfut f'
  change ScanOk L c' f' ((s'.clients c').rangeFutures f') ((s'.clients c').scratch f') _ _
  rw [hfut']
  refine (h.scan c' f').congr hscr fun off _ => ?_
  exact Proto.setView_phase_ne _ _ (.inr (hf.trans_le (L.le_reader f' off)).ne')

end Ops

/-! ## Steps of the scans -/

section Steps

variable {L : Layout} {s : Scans} {a : Proto} {c f : ℕ}

theorem Scans.setBulk_self {r : ℕ} {b : Option Bulk} :
    (s.setBulk c f r b).bulks c f = update (s.bulks c f) r b := by
  simp [setBulk]

theorem Scans.setBulk_ne {r c' f' : ℕ} {b : Option Bulk} (h : c' ≠ c ∨ f' ≠ f) :
    (s.setBulk c f r b).bulks c' f' = s.bulks c' f' := by
  by_cases hc : c' = c
  · subst hc
    simp [setBulk, h.resolve_left (not_not.2 rfl)]
  · simp [setBulk, hc]

/-- Bulk reads of the same keys go in flight. -/
theorem Scans.send_spec (k len : ℕ) (wrs : List Wr) (hwrs : ∀ w ∈ wrs, w.op = .bulk k len)
    (s : Scans) : (s.send c f wrs).cluster = s.cluster ∧
      (∀ c' f', c' ≠ c ∨ f' ≠ f → (s.send c f wrs).bulks c' f' = s.bulks c' f') ∧
      ∀ r, (s.send c f wrs).bulks c f r =
        if ∃ w ∈ wrs, w.server = r then some ⟨k, List.range (len / 8)⟩ else s.bulks c f r := by
  induction wrs generalizing s with
  | nil => exact ⟨rfl, fun _ _ _ => rfl, fun r => by simp [send]⟩
  | cons w wrs ih =>
    obtain ⟨hcluster, hne, hself⟩ := ih (fun w hw => hwrs w (List.mem_cons_of_mem _ hw))
      (s.setBulk c f w.server (some ⟨k, List.range (len / 8)⟩))
    have hsend : s.send c f (w :: wrs) =
        (s.setBulk c f w.server (some ⟨k, List.range (len / 8)⟩)).send c f wrs := by
      rw [send, List.foldl_cons, hwrs w List.mem_cons_self]
      rfl
    rw [hsend]
    refine ⟨hcluster, fun c' f' h => (hne c' f' h).trans (setBulk_ne h),
      fun r => (hself r).trans ?_⟩
    · simp only [List.mem_cons, exists_eq_or_imp]
      by_cases hr : w.server = r
      · subst hr
        simp [setBulk]
      · simp [setBulk, hr, Ne.symm hr]

/-- One bulk read for each server of the quorum goes in flight, and is counted. -/
theorem Scans.send_slots (hq : L.effectiveMajority ≤ L.numServers) {id k len : ℕ} {wrs : List Wr}
    (hwrs : wrs = (DsConf.ofClient L c).postSlots id (fun _ => true) fun _ => .bulk k len)
    (hnone : ∀ r, s.bulks c f r = none) (ctr : ℕ → ℤ) (hctr : ∀ r, ctr r = 0) :
    (s.send c f wrs).cluster = s.cluster ∧
      (∀ c' f', c' ≠ c ∨ f' ≠ f → (s.send c f wrs).bulks c' f' = s.bulks c' f') ∧
      (∀ r, (s.send c f wrs).bulks c f r =
        if ∃ i < L.effectiveMajority, srv L c i = r then some ⟨k, List.range (len / 8)⟩
        else none) ∧
      ∀ r, countPosts wrs ctr r = if ((s.send c f wrs).bulks c f r).isSome then 1 else 0 := by
  obtain ⟨hcluster, hne, hself⟩ := Scans.send_spec (c := c) (f := f) k len wrs (by
    intro w hw
    rw [hwrs, mem_postSlots] at hw
    obtain ⟨_, _, _, rfl⟩ := hw
    rfl) s
  have hposted : ∀ r, (∃ w ∈ wrs, w.server = r) ↔ ∃ i < L.effectiveMajority, srv L c i = r := by
    intro r
    rw [hwrs]
    simp only [mem_postSlots, true_and]
    exact ⟨fun ⟨_, ⟨i, hi, rfl⟩, hr⟩ => ⟨i, hi, hr⟩, fun ⟨i, hi, hr⟩ => ⟨_, ⟨i, hi, rfl⟩, hr⟩⟩
  have hbulk : ∀ r, (s.send c f wrs).bulks c f r =
      if ∃ i < L.effectiveMajority, srv L c i = r then some ⟨k, List.range (len / 8)⟩
      else none := fun r => (hself r).trans (if_congr (hposted r) rfl (hnone r))
  refine ⟨hcluster, hne, hbulk, fun r => ?_⟩
  rw [hbulk, hwrs]
  split
  · next hr =>
    obtain ⟨i, hi', rfl⟩ := hr
    rw [countPosts_slot (d := .ofClient L c) hq hi', hctr]
    rfl
  · next hr =>
    push Not at hr
    rw [countPosts_of_notMem (d := .ofClient L c) hr, hctr]
    rfl

/-- What starting a scan comes to. -/
theorem DsClient.doRangeFuture_spec {cl cl' : DsClient} {d : DsConf} {sk ek : UInt64}
    {wrs : List Wr} (h : cl.doRangeFuture d f sk ek = .ok (cl', wrs)) :
    (ek - sk + 1).toNat ≤ d.layout.maxRange ∧
      cl' = { cl with
        state := { cl.state with toPollPerServer := countPosts wrs cl.state.toPollPerServer }
        rangeFutures := update cl.rangeFutures f
          { cl.rangeFutures f with
            startKey := sk, rangeLen := ek - sk + 1, step := .reading,
            ongoingPerServer := countPosts wrs (cl.rangeFutures f).ongoingPerServer } } ∧
      wrs = d.postSlots ((cl.rangeFutures f).futureId ||| RangeFuture.rangeBit) (fun _ => true)
        fun _ => .bulk sk.toNat ((ek - sk + 1) * 8).toUInt32.toNat := by
  rw [DsClient.doRangeFuture, RangeFuture.doRange] at h
  dsimp only at h
  split at h
  · cases h
  · next hle =>
    obtain ⟨rfl, rfl⟩ := Prod.mk.inj (Except.ok.inj h)
    exact ⟨not_lt.1 hle, rfl, rfl⟩

/-- An idle range future starts a scan. -/
theorem ScanSim.doRange {H : Proto → Event → Prop} (hq : L.effectiveMajority ≤ L.numServers)
    (hmax : L.maxRange < 2 ^ 29) (hH : ∀ a c f k, H a (.invokeGet c f k)) (h : ScanSim L s a)
    (hc : c < L.numClients) (hf : f < L.asyncParallelism)
    (hi : ((s.cluster.clients c).rangeFutures f).isDone = true) {sk ek : UInt64} {cl : DsClient}
    {wrs : List Wr}
    (hx : (s.cluster.clients c).doRangeFuture (.ofClient L c) f sk ek = .ok (cl, wrs)) :
    ∃ a', Lib.Trace (Proto.Step L.withReaders H) a
        (ScanEvent.gets L (.invokeRange c f sk.toNat (cl.rangeFutures f).rangeLen.toNat)) a' ∧
      ScanSim L ((s.setClient c cl).send c f wrs) a' := by
  set fu := (s.cluster.clients c).rangeFutures f with hfu
  have hstep : fu.step = .done := of_decide_eq_true hi
  have hok := h.scan c f
  obtain ⟨hnone, hidle⟩ := hok.done hstep
  set n := (ek - sk + 1).toNat with hn
  -- what has been started
  obtain ⟨hlen, hcl, hwrs⟩ := DsClient.doRangeFuture_spec hx
  rw [← hn] at hlen
  have hwords : ((ek - sk + 1) * 8).toUInt32.toNat / 8 = n := by
    have hlt : n < 2 ^ 29 := hlen.trans_lt hmax
    have h8 : (8 : UInt64).toNat = 8 := rfl
    rw [UInt64.toNat_toUInt32, UInt64.toNat_mul, ← hn, h8]
    omega
  obtain ⟨hcluster, hbulks, hbulk, hcounts⟩ := Scans.send_slots (f := f) (s := s.setClient c cl)
    hq hwrs hnone fu.ongoingPerServer fun r => by rw [hok.counts, hnone]; rfl
  rw [hwords] at hbulk
  -- the readers start
  obtain ⟨a', htr, hcells, hcache, hph, hne⟩ := a.trace_readers (H := H) hc hf hlen
    (fun off => .invokeGet c (L.reader f off) (sk.toNat + off))
    (fun off => .getRead (sk.toNat + off) fun _ => none) (fun _ ca => ca) (fun a _ _ => hH a c _ _)
    fun off hoff ca => by
      rw [hidle off (hoff.trans_le hlen)]
      exact .getStart
  have hfut : cl.rangeFutures f = { fu with
      startKey := sk, rangeLen := ek - sk + 1, step := .reading,
      ongoingPerServer := countPosts wrs fu.ongoingPerServer } := by
    rw [hcl]
    exact update_self ..
  have hcache' : ∀ m : ℕ, m.fold (fun _ _ ca => ca) (a.cache c) = a.cache c := fun m =>
    Lib.fold_inv (P := fun _ ca => ca = a.cache c) rfl fun _ _ _ h => h
  refine ⟨a', ?_, h.of_scan hcluster (by rw [hcl]) (fun f' => ?_) (fun f' hf' => ?_)
    (fun c' f' hne' => hbulks c' f' hne') hcells ?_ ?_ ?_⟩
  · rw [hfut]
    exact htr
  · rw [hcl]
    exact ⟨rfl, rfl⟩
  · rw [hcl]
    exact ⟨update_of_ne hf' .., rfl⟩
  · rw [hcache, hcache', hcl]
    exact congrArg _ (h.ops.cache c).symm
  · exact fun c' f' hcf => hne c' f' fun hc off hoff => hcf hc off (hoff.trans_le hlen)
  · rw [hfut]
    refine ⟨hcounts, fun hs => absurd hs (by simp), fun _ => ⟨⟨hc, hf⟩, hlen, fun r b hb => ?_,
      fun off hoff => ⟨_, hph off hoff, fun i hi' => ⟨iff_of_true rfl ?_, by simp⟩⟩,
      fun off hoff hle => ?_⟩⟩
    · rw [hbulk] at hb
      split at hb
      · next hr =>
        obtain rfl := Option.some.inj hb
        exact ⟨hr, rfl, fun off hoff => List.mem_range.1 hoff⟩
      · cases hb
    · refine ⟨_, (hbulk _).trans (if_pos ⟨i, hi', rfl⟩), List.mem_range.2 hoff⟩
    · rw [hne c (L.reader f off) fun _ off' hoff' he => ?_]
      · exact hidle off hoff
      · have := (Layout.reader_inj hoff (hoff'.trans_le hlen) he).2
        exact absurd hoff' (not_lt.2 (this ▸ hle))

section Answer

variable {fu : RangeFuture} {bufs bufs' : Scratch} {bulks : ℕ → Option Bulk} {ph ph' : ℕ → Phase}
  {i off : ℕ} {todo : List ℕ} {got : ℕ → Option Register} {x : Register}

/-- The reader at the offset `off` gets the answer of the slot `i`. -/
theorem Scanning.answer (h : Scanning L c f fu bufs bulks ph)
    (hq : L.effectiveMajority ≤ L.numServers) (hi : i < L.effectiveMajority)
    (hb : bulks (srv L c i) = some ⟨fu.startKey.toNat, todo⟩) (hoff : off ∈ todo)
    (hgot : ph off = .getRead (fu.startKey.toNat + off) got)
    (hbufs : ∀ r o, bufs'.bulkBufs r o =
      if r = srv L c i ∧ o = off then x else bufs.bulkBufs r o)
    (hself : ph' off = .getRead (fu.startKey.toNat + off) (update got i (some x)))
    (hother : ∀ o < L.maxRange, o ≠ off → ph' o = ph o) :
    Scanning L c f fu bufs' (update bulks (srv L c i)
      (some ⟨fu.startKey.toNat, todo.filter (· ≠ off)⟩)) ph' := by
  obtain ⟨-, -, htodo⟩ := h.bulk _ _ hb
  -- what is still to be read
  have hmem : ∀ r o, (∃ b, update bulks (srv L c i)
        (some ⟨fu.startKey.toNat, todo.filter (· ≠ off)⟩) r = some b ∧ o ∈ b.todo) ↔
      (∃ b, bulks r = some b ∧ o ∈ b.todo) ∧ ¬(r = srv L c i ∧ o = off) := by
    intro r o
    by_cases hr : r = srv L c i
    · subst hr
      simp [hb]
    · simp [hr]
  refine ⟨h.range, h.len_le, fun r b hr => ?_, fun o ho => ?_, fun o ho hle => ?_⟩
  · by_cases hri : r = srv L c i
    · subst hri
      rw [update_self] at hr
      obtain rfl := Option.some.inj hr
      exact ⟨⟨i, hi, rfl⟩, rfl, fun o ho => htodo o (List.mem_of_mem_filter ho)⟩
    · rw [update_of_ne hri] at hr
      exact h.bulk r b hr
  · obtain ⟨got', hgot', hreads⟩ := h.reads o ho
    by_cases hoo : o = off
    · subst hoo
      obtain rfl := (Phase.getRead.inj (hgot.symm.trans hgot')).2
      refine ⟨_, hself, fun j hj => ?_⟩
      obtain ⟨hnone, hsome⟩ := hreads j hj
      rw [hmem, hbufs]
      by_cases hji : j = i
      · subst hji
        simp [eq_comm]
      · have hne : srv L c j ≠ srv L c i := fun he =>
          hji (DsConf.quorumIndices_inj (d := .ofClient L c) hq hj hi he)
        rw [update_of_ne hji, hnone, if_neg fun h => hne h.1]
        exact ⟨(and_iff_left fun h => hne h.1).symm, hsome⟩
    · refine ⟨got', (hother o (ho.trans_le h.len_le) hoo).trans hgot', fun j hj => ?_⟩
      obtain ⟨hnone, hsome⟩ := hreads j hj
      rw [hmem, hbufs, hnone, if_neg fun h => hoo h.2]
      exact ⟨(and_iff_left fun h => hoo h.2).symm, hsome⟩
  · have hne : o ≠ off := by
      rintro rfl
      exact absurd (htodo o hoff) (not_lt.2 hle)
    rw [hother o ho hne]
    exact h.idle o ho hle

end Answer

/-- A server reads a word of a bulk read. -/
theorem ScanSim.readWord {H : Proto → Event → Prop} (hq : L.effectiveMajority ≤ L.numServers)
    (hH : ∀ a c f r k x, H a (.read c f r k x)) (h : ScanSim L s a) {r k off : ℕ} {todo : List ℕ}
    (hb : s.bulks c f r = some ⟨k, todo⟩) (hoff : off ∈ todo) {bufs : Scratch}
    (hbufs : bufs = { (s.cluster.clients c).scratch f with
      bulkBufs := update ((s.cluster.clients c).scratch f).bulkBufs r
        (update (((s.cluster.clients c).scratch f).bulkBufs r) off
          (s.cluster.cells r (k + off))) }) :
    ∃ a', Lib.Trace (Proto.Step L.withReaders H) a
        (ScanEvent.gets L (.readWord c f r (k + off) off (s.cluster.cells r (k + off)))) a' ∧
      ScanSim L ((s.setClient c { s.cluster.clients c with
        scratch := update (s.cluster.clients c).scratch f bufs }).setBulk c f r
          (some ⟨k, todo.filter (· ≠ off)⟩)) a' := by
  have hok := h.scan c f
  have hstep : ((s.cluster.clients c).rangeFutures f).step = .reading := by
    cases hs : ((s.cluster.clients c).rangeFutures f).step with
    | reading => rfl
    | done => cases hb.symm.trans ((hok.done hs).1 r)
  have hscan := hok.reading hstep
  obtain ⟨⟨i, hi, rfl⟩, rfl, htodo⟩ := hscan.bulk r _ hb
  obtain ⟨got, hph, hgot⟩ := hscan.reads off (htodo off hoff)
  have hnone : got i = none := (hgot i hi).1.2 ⟨_, hb, hoff⟩
  have hlt : off < L.maxRange := (htodo off hoff).trans_le hscan.len_le
  set k := ((s.cluster.clients c).rangeFutures f).startKey.toNat with hk
  set x := s.cluster.cells (srv L c i) (k + off) with hx
  have hview : a.view c (L.reader f off) = ⟨a.cells, a.cache c, .getRead (k + off) got⟩ := by
    rw [Proto.view, hph]
  have hmove : Move L c (L.reader f off) (a.view c (L.reader f off))
      (.read c (L.reader f off) (srv L c i) (k + off) x)
      ⟨a.cells, a.cache c, .getRead (k + off) (update got i (some x))⟩ := by
    have hcells : s.cluster.cells = a.cells := h.ops.cells
    rw [hview, hx, hcells]
    exact .readGet hi hnone
  refine ⟨_, .cons .nil ⟨c, _, _, hscan.range.1, Layout.reader_lt hscan.range.2 hlt,
    hH _ _ _ _ _ _, hmove.withReaders, rfl⟩, ?_⟩
  have hbulks : ((s.setClient c { s.cluster.clients c with
      scratch := update (s.cluster.clients c).scratch f bufs }).setBulk c f (srv L c i)
        (some ⟨k, todo.filter (· ≠ off)⟩)).bulks c f =
      update (s.bulks c f) (srv L c i) (some ⟨k, todo.filter (· ≠ off)⟩) := Scans.setBulk_self
  have hphase : ∀ c' f', c' ≠ c ∨ f' ≠ L.reader f off → (a.setView c (L.reader f off)
      ⟨a.cells, a.cache c, .getRead (k + off) (update got i (some x))⟩).phase c' f' =
        a.phase c' f' := fun _ _ h => Proto.setView_phase_ne _ _ h
  refine h.of_scan (c := c) (f := f) rfl rfl (fun f' => ?_)
    (fun f' hf' => ⟨rfl, update_of_ne hf' ..⟩) (fun c' f' hne => ?_) rfl
    (congrArg (update a.cache c) (h.ops.cache c).symm) (fun c' f' hne => hphase c' f' ?_) ?_
  · by_cases hf' : f' = f
    · subst hf'
      simp only [update_self, hbufs]
      exact ⟨trivial, trivial⟩
    · simp [hf']
  · exact Scans.setBulk_ne hne
  · by_cases hc : c' = c
    · exact .inr (hne hc off hlt)
    · exact .inl hc
  · rw [hbulks]
    refine ⟨fun r => (hok.counts r).trans ?_, fun hs => absurd (hstep.symm.trans hs) (by simp),
      fun _ => ?_⟩
    · by_cases hr : r = srv L c i
      · subst hr
        simp [hb]
      · rw [update_of_ne hr]
    · refine hscan.answer hq hi hb hoff hph (fun r o => ?_) (Proto.setView_phase_self ..)
        fun o ho hne => hphase _ _ (.inr fun he => hne (Layout.reader_inj ho hlt he).2)
      change (update (s.cluster.clients c).scratch f bufs f).bulkBufs r o = _
      rw [update_self, hbufs]
      by_cases hr : r = srv L c i
      · subst hr
        by_cases ho : o = off
        · subst ho
          simp [hx]
        · simp [ho]
      · simp [hr]

/-- A bulk read of which all words have been read completes. -/
theorem ScanSim.complete (h : ScanSim L s a) {r k : ℕ} (hb : s.bulks c f r = some ⟨k, []⟩) :
    ScanSim L ((s.setClient c ((s.cluster.clients c).completeRange f r)).setBulk c f r none) a := by
  have hok := h.scan c f
  have hstep : ((s.cluster.clients c).rangeFutures f).step = .reading := by
    cases hs : ((s.cluster.clients c).rangeFutures f).step with
    | reading => rfl
    | done => cases hb.symm.trans ((hok.done hs).1 r)
  have hscan := hok.reading hstep
  have hbulks : ((s.setClient c ((s.cluster.clients c).completeRange f r)).setBulk c f r
      none).bulks c f = update (s.bulks c f) r none := Scans.setBulk_self
  refine h.of_scan (c := c) (f := f) rfl rfl (fun _ => ⟨rfl, rfl⟩)
    (fun f' hf' => ⟨update_of_ne hf' .., rfl⟩) (fun c' f' hne => ?_) rfl
    ((update_eq_self c a.cache).symm.trans (congrArg (update a.cache c) (h.ops.cache c).symm))
    (fun _ _ _ => rfl) ?_
  · exact Scans.setBulk_ne hne
  have hfut : ((s.cluster.clients c).completeRange f r).rangeFutures f =
      ((s.cluster.clients c).rangeFutures f).addToOngoingRDMA r (-1) := update_self ..
  rw [hbulks, hfut]
  -- nothing was left to read
  have hmem : ∀ r' off, (∃ b, update (s.bulks c f) r none r' = some b ∧ off ∈ b.todo) ↔
      ∃ b, s.bulks c f r' = some b ∧ off ∈ b.todo := by
    intro r' off
    by_cases hr : r' = r
    · subst hr
      simp [hb]
    · rw [update_of_ne hr]
  refine ⟨fun r' => ?_, fun hs => absurd (hstep.symm.trans hs) (by simp), fun _ =>
    ⟨hscan.range, hscan.len_le, fun r' b hr => ?_, fun off hoff => ?_, hscan.idle⟩⟩
  · by_cases hr : r' = r
    · subst hr
      simp [RangeFuture.addToOngoingRDMA, hok.counts, hb]
    · simp [RangeFuture.addToOngoingRDMA, hok.counts, hr]
  · by_cases hr' : r' = r
    · subst hr'
      rw [update_self] at hr
      cases hr
    · rw [update_of_ne hr'] at hr
      exact hscan.bulk r' b hr
  · obtain ⟨got, hph, hgot⟩ := hscan.reads off hoff
    exact ⟨got, hph, fun i hi => by rw [hmem]; exact hgot i hi⟩

/-- What is found for a key by a scan that has heard from all its servers: each reader has its
    answers, of which the register of the key is the latest. -/
theorem Scanning.found {fu : RangeFuture} {bufs : Scratch} {bulks : ℕ → Option Bulk}
    {ph : ℕ → Phase} (h : Scanning L c f fu bufs bulks ph) {off : ℕ}
    (hnone : ∀ i < L.effectiveMajority, bulks (srv L c i) = none) (hoff : off < fu.rangeLen.toNat)
    (hpos : ∀ got, ph off = .getRead (fu.startKey.toNat + off) got → ∀ i x, got i = some x →
      x = .zero ∨ Register.zero.tag < x.tag) :
    ∃ got, ph off = .getRead (fu.startKey.toNat + off) got ∧
      (∀ i < L.effectiveMajority, got i = some (bufs.bulkBufs (srv L c i) off)) ∧
      RangeFuture.merged (.ofClient L c) fu bufs off =
        Register.latest (fun i => bufs.bulkBufs (srv L c i) off) L.effectiveMajority := by
  obtain ⟨got, hph, hgot⟩ := h.reads off hoff
  have hall : ∀ i < L.effectiveMajority, got i = some (bufs.bulkBufs (srv L c i) off) := by
    intro i hi
    have hne : got i ≠ none := fun hg => by
      obtain ⟨b, hb, _⟩ := (hgot i hi).1.1 hg
      cases (hnone i hi).symm.trans hb
    obtain ⟨x, hx⟩ := Option.ne_none_iff_exists'.1 hne
    rw [hx, (hgot i hi).2 x hx]
  refine ⟨got, hph, hall, (RangeFuture.merged_apply hoff).trans
    (RangeFuture.mergedAt_eq fun htag => ?_)⟩
  have h0 := hall 0 L.effectiveMajority_pos
  exact (hpos got hph 0 _ h0).resolve_right fun hlt => hlt.ne htag.symm

/-- A scan that has heard from all its servers merges what they hold, and so do the readers of
    its keys. -/
theorem ScanSim.stepReading {H : Proto → Event → Prop} (hwb : L.regWritebackEnabled = false)
    (hH : ∀ a c f k m v, H a (.getDone c f k m v)) (h : ScanSim L s a)
    (hstep : ((s.cluster.clients c).rangeFutures f).step = .reading)
    (hnone : ∀ i < L.effectiveMajority, s.bulks c f (srv L c i) = none)
    (hpos : ∀ f k got, a.phase c f = .getRead k got → ∀ i x, got i = some x →
      x = .zero ∨ Register.zero.tag < x.tag) {bufs : Scratch} {x : Outcome RangeFuture}
    (hx : ((s.cluster.clients c).rangeFutures f).stepReading (.ofClient L c)
      ((s.cluster.clients c).scratch f) (s.cluster.clients c).state = (bufs, x)) :
    ∃ a', Lib.Trace (Proto.Step L.withReaders H) a
        (ScanEvent.gets L (Scans.stepEvent c f ((s.cluster.clients c).rangeFutures f) x.future
          (bufs.bulkBufs (srv L c 0)))) a' ∧
      ScanSim L (s.setClient c { s.cluster.clients c with
        state := x.state
        rangeFutures := update (s.cluster.clients c).rangeFutures f x.future
        scratch := update (s.cluster.clients c).scratch f bufs }) a' := by
  have hok := h.scan c f
  have hscan := hok.reading hstep
  set fu := (s.cluster.clients c).rangeFutures f with hfu
  set n := fu.rangeLen.toNat with hn
  set k := fu.startKey.toNat with hk
  set bufs₀ := (s.cluster.clients c).scratch f
  set m := fu.merged (.ofClient L c) bufs₀ with hm
  have hlen := hscan.len_le
  obtain ⟨rfl, rfl⟩ := Prod.mk.inj hx
  -- the readers end
  have hmove : ∀ off < n, ∀ ca, Move L.withReaders c (L.reader f off)
      ⟨a.cells, ca, a.phase c (L.reader f off)⟩
      (.getDone c (L.reader f off) (k + off) (m off) (m off).value.toUInt64)
      ⟨a.cells, toCache L ca (k + off) (m off), .idle⟩ := by
    intro off hoff ca
    obtain ⟨got, hph, hgot, hlatest⟩ := hscan.found hnone hoff fun got hph => hpos _ _ got hph
    obtain ⟨hle, hmem, hpos'⟩ := Register.latest_spec (fun i => bufs₀.bulkBufs (srv L c i) off)
      L.effectiveMajority
    rw [← hlatest] at hle hmem hpos'
    have hph : a.phase c (L.reader f off) = .getRead (k + off) got := hph
    rw [hph]
    exact (Move.getDone hgot hle hmem (fun h => absurd (hwb.symm.trans h) (by simp))
      hpos').withReaders
  obtain ⟨a', htr, hcells, hcache, hph, hne⟩ := a.trace_readers (H := H) hscan.range.1
    hscan.range.2 hlen (fun off => .getDone c (L.reader f off) (k + off) (m off)
      (m off).value.toUInt64) (fun _ => .idle)
    (fun off ca => toCache L ca (k + off) (m off)) (fun a _ _ => hH a _ _ _ _ _) hmove
  refine ⟨a', ?_, ?_⟩
  · -- the event is seen as the ends of the readers
    have hacc : ∀ off, update bufs₀.bulkBufs (srv L c 0) m (srv L c 0) off = m off := fun off =>
      congrFun (update_self ..) off
    have hgets : ∀ (acc : ℕ → Register) (results : List UInt64), (∀ off, acc off = m off) →
        (∀ off < n, results.getD off 0 = (m off).value.toUInt64) →
        ScanEvent.gets L (.rangeDone c f k
          ((List.range n).map fun off => (acc off, results.getD off 0))) =
        (List.range n).reverse.map fun off =>
          .getDone c (L.reader f off) (k + off) (m off) (m off).value.toUInt64 := by
      intro acc results hacc hres
      rw [ScanEvent.gets, List.length_map, List.length_range]
      refine List.map_congr_left fun off hoff => ?_
      have hoff : off < n := List.mem_range.1 (List.mem_reverse.1 hoff)
      simpa [hoff, hacc] using hres off hoff
    rw [Scans.stepEvent, if_pos ⟨hstep, rfl⟩, hgets _ _ hacc fun off hoff => ?_]
    · exact htr
    · simp [← hn, hoff, ← hm]
  · refine h.of_scan (c := c) (f := f) rfl rfl (fun f' => ?_)
      (fun f' hf' => ⟨update_of_ne hf' .., update_of_ne hf' ..⟩) (fun _ _ _ => rfl) hcells ?_
      (fun c' f' hcf => hne c' f' fun hc off hoff => hcf hc off (hoff.trans_le hlen)) ?_
    · by_cases hf' : f' = f
      · subst hf'
        simp only [update_self]
        exact ⟨rfl, rfl⟩
      · simp [hf']
    · rw [hcache, ← show (s.cluster.clients c).state.cache = a.cache c from h.ops.cache c]
      rfl
    · change ScanOk L c f (update (s.cluster.clients c).rangeFutures f _ f) _ _ _
      rw [update_self]
      have hnone' : ∀ r, s.bulks c f r = none := fun r =>
        Option.eq_none_iff_forall_ne_some.2 fun b hb => by
          obtain ⟨⟨i, hi, rfl⟩, _⟩ := hscan.bulk r b hb
          cases (hnone i hi).symm.trans hb
      refine ⟨hok.counts, fun _ => ⟨hnone', fun off hoff => ?_⟩, fun hs => absurd hs (by
        simp)⟩
      by_cases hlt : off < n
      · exact hph off hlt
      · rw [hne c _ fun _ off' hoff' he => ?_]
        · exact hscan.idle off hoff (not_lt.1 hlt)
        · exact hlt ((Layout.reader_inj hoff (hoff'.trans_le hlen) he).2 ▸ hoff')

/-- A step forward of a range future. -/
theorem ScanSim.tryStepForwardRange {H : Proto → Event → Prop} (hn : 0 < L.numServers)
    (hwb : L.regWritebackEnabled = false) (hH : ∀ a c f k m v, H a (.getDone c f k m v))
    (h : ScanSim L s a)
    (hpos : ∀ f k got, a.phase c f = .getRead k got → ∀ i x, got i = some x →
      x = .zero ∨ Register.zero.tag < x.tag) {cl : DsClient} {wrs : List Wr}
    (hx : (s.cluster.clients c).tryStepForwardRange (.ofClient L c) f = (cl, wrs)) :
    ∃ a', Lib.Trace (Proto.Step L.withReaders H) a
        (ScanEvent.gets L (Scans.stepEvent c f ((s.cluster.clients c).rangeFutures f)
          (cl.rangeFutures f) ((cl.scratch f).bulkBufs (srv L c 0)))) a' ∧
      ScanSim L ((s.setClient c cl).send c f wrs) a' := by
  rw [DsClient.tryStepForwardRange, RangeFuture.tryStepForward] at hx
  -- a step that changes nothing
  have hsame : cl = { s.cluster.clients c with
        state := (s.cluster.clients c).state
        rangeFutures := update (s.cluster.clients c).rangeFutures f
          ((s.cluster.clients c).rangeFutures f)
        scratch := update (s.cluster.clients c).scratch f ((s.cluster.clients c).scratch f) } →
      wrs = [] → ∃ a', Lib.Trace (Proto.Step L.withReaders H) a
        (ScanEvent.gets L (Scans.stepEvent c f ((s.cluster.clients c).rangeFutures f)
          (cl.rangeFutures f) ((cl.scratch f).bulkBufs (srv L c 0)))) a' ∧
        ScanSim L ((s.setClient c cl).send c f wrs) a' := by
    rintro rfl rfl
    simp only [update_eq_self]
    refine ⟨a, ?_, ?_⟩
    · rw [Scans.stepEvent, if_neg]
      · exact .nil
      · rintro ⟨h₁, h₂⟩
        cases h₁.symm.trans h₂
    · have hs : (s.setClient c (s.cluster.clients c)).send c f [] = s := by
        simp [Scans.send, Scans.setClient, Cluster.setClient]
      exact hs.symm ▸ h
  by_cases hr : (DsConf.ofClient L c).Ready
      ((s.cluster.clients c).rangeFutures f).ongoingPerServer
  · rw [if_pos hr] at hx
    cases hstep : ((s.cluster.clients c).rangeFutures f).step with
    | reading =>
      simp only [hstep] at hx
      obtain ⟨rfl, rfl⟩ := Prod.mk.inj hx
      have hnone : ∀ i < L.effectiveMajority, s.bulks c f (srv L c i) = none := by
        intro i _
        have hready := hr (srv L c i) (DsConf.quorumIndices_lt (d := .ofClient L c) hn i)
        rw [(h.scan c f).counts] at hready
        by_contra hne
        rw [if_pos (Option.isSome_iff_ne_none.2 hne)] at hready
        exact hready Int.one_pos
      simp only [update_self]
      exact h.stepReading hwb hH hstep hnone hpos rfl
    | done =>
      simp only [hstep] at hx
      obtain ⟨rfl, rfl⟩ := Prod.mk.inj hx
      exact hsame rfl rfl
  · rw [if_neg hr] at hx
    obtain ⟨rfl, rfl⟩ := Prod.mk.inj hx
    exact hsame rfl rfl

end Steps

/-! ## Runs -/

/-- The sequence number that a CAS of the operations is to install is not the last one. -/
def ScanEvent.SeqBelow : ScanEvent → Prop
  | .op e => e.SeqBelow
  | _ => True

instance : DecidablePred ScanEvent.SeqBelow
  | .op e => inferInstanceAs (Decidable e.SeqBelow)
  | .invokeRange .. | .readWord .. | .stepped .. | .rangeDone .. => .isTrue trivial

/-- The steps of Gets that do not write back are admitted. -/
structure AdmitsGets (H : Proto → Event → Prop) : Prop where
  invoke : ∀ a c f k, H a (.invokeGet c f k)
  read : ∀ a c f r k x, H a (.read c f r k x)
  done : ∀ a c f k m v, H a (.getDone c f k m v)

section Run

variable {L : Layout} {s s' : Scans} {a : Proto}

theorem ScanSim.init (L : Layout) : ScanSim L {} {} where
  ops := by
    have h : ({} : Proto).upTo L.asyncParallelism = {} := by
      simp [Proto.upTo]
    rw [h]
    exact Sim.init L
  scan _ _ := ⟨fun _ => rfl, fun _ => ⟨fun _ => rfl, fun _ _ => rfl⟩, fun hs => by cases hs⟩

theorem Scans.stepEvent_ne_op (c f : ℕ) (fu fu' : RangeFuture) (acc : ℕ → Register) (e : Event) :
    stepEvent c f fu fu' acc ≠ .op e := by
  rw [stepEvent]
  split <;> simp

/-- An event of the operations is that of a step of theirs. -/
theorem Scans.of_step_op {act : ScanAction} {e : Event} (hst : s.step L act = some (.op e, s')) :
    ∃ act' s₁, act = .op act' ∧ s.cluster.step L act' = some (e, s₁) := by
  cases act with
  | op act =>
    obtain ⟨⟨e', s₁⟩, hs, heq⟩ := Option.map_eq_some_iff.1 hst
    obtain ⟨heq, -⟩ := Prod.mk.inj heq
    exact ⟨act, s₁, rfl, ScanEvent.op.inj heq ▸ hs⟩
  | doRange c f sk ek =>
    rw [step] at hst
    split at hst
    · split at hst <;> cases hst
    · cases hst
  | readWord c f r off =>
    rw [step] at hst
    split at hst
    · split at hst <;> cases hst
    · cases hst
  | complete c f r =>
    rw [step] at hst
    split at hst
    · split at hst <;> cases hst
    · cases hst
  | tryStepForwardRange c f =>
    rw [step] at hst
    split at hst
    · obtain ⟨heq, -⟩ := Prod.mk.inj (Option.some.inj hst)
      exact (stepEvent_ne_op _ _ _ _ _ _ heq).elim
    · cases hst

variable (hq : L.effectiveMajority ≤ L.numServers) (hn : 0 < L.numServers)
  (hwb : L.regWritebackEnabled = false) (hmax : L.maxRange < 2 ^ 29)

include hq hn hwb hmax

/-- Every step of the cluster with its scans is seen as some of the protocol. -/
theorem ScanSim.step {H : Proto → Event → Prop} (hH : AdmitsGets H) (h : ScanSim L s a)
    (hpos : ∀ c f k got, a.phase c f = .getRead k got → ∀ i x, got i = some x →
      x = .zero ∨ Register.zero.tag < x.tag) {act : ScanAction} {e : ScanEvent}
    (hop : ∀ e', e = .op e' → H a e') (hst : s.step L act = some (e, s')) :
    ∃ a', Lib.Trace (Proto.Step L.withReaders H) a (e.gets L) a' ∧ ScanSim L s' a' := by
  cases act with
  | op act =>
    obtain ⟨⟨e', s₁⟩, hs, heq⟩ := Option.map_eq_some_iff.1 hst
    obtain ⟨rfl, rfl⟩ := Prod.mk.inj heq
    obtain ⟨c, f, w, hc, hf, hm, hsim⟩ := h.op hq hn hs
    exact ⟨_, .cons .nil ⟨c, f, w, hc, Nat.lt_add_right _ hf, hop e' rfl, hm, rfl⟩, hsim⟩
  | doRange c f sk ek =>
    rw [Scans.step] at hst
    split at hst
    · next hi =>
      split at hst
      · cases hst
      · next hx =>
        obtain ⟨rfl, rfl⟩ := Prod.mk.inj (Option.some.inj hst)
        exact h.doRange hq hmax hH.invoke hi.1 hi.2.1 hi.2.2 hx
    · cases hst
  | readWord c f r off =>
    rw [Scans.step] at hst
    split at hst
    · next k todo hb =>
      split at hst
      · next hoff =>
        obtain ⟨rfl, rfl⟩ := Prod.mk.inj (Option.some.inj hst)
        exact h.readWord hq hH.read hb hoff rfl
      · cases hst
    · cases hst
  | complete c f r =>
    rw [Scans.step] at hst
    split at hst
    · next b hb =>
      split at hst
      · next hnil =>
        obtain ⟨rfl, rfl⟩ := Prod.mk.inj (Option.some.inj hst)
        refine ⟨a, .nil, h.complete (k := b.key) ?_⟩
        rw [hb, ← hnil]
      · cases hst
    · cases hst
  | tryStepForwardRange c f =>
    rw [Scans.step] at hst
    split at hst
    · obtain ⟨rfl, rfl⟩ := Prod.mk.inj (Option.some.inj hst)
      exact h.tryStepForwardRange hn hwb hH.done (hpos c) rfl
    · cases hst

/-- Every run of the cluster with its scans is seen as a run of the protocol, with a Get for
    every key of a scan. -/
theorem Scans.exists_run {G : Scans → ScanAction → Prop} {H : Proto → Event → Prop}
    (hH : AdmitsGets H)
    (hG : ∀ s a act e s', ScanSim L s a → G s (.op act) → s.cluster.step L act = some (e, s') →
      H a e) {tr : List ScanEvent} (h : (machine L).Run G tr s)
    (hseq : ∀ e ∈ tr, e.SeqBelow) :
    ∃ a, Proto.Run L.withReaders (fun a e => H a e ∧ e.SeqBelow) (getsOf L tr) a ∧
      ScanSim L s a := by
  refine (h.guard hseq).expand (ScanEvent.gets L) (.init L) fun tr s a e s' hr hs hst => ?_
  obtain ⟨⟨act, hg, hst⟩, hbelow⟩ := hst
  have hknown := (known_run hr).2
  refine hs.step hq hn hwb hmax (H := fun a e => H a e ∧ e.SeqBelow)
    ⟨fun _ _ _ _ => ⟨hH.invoke .., trivial⟩, fun _ _ _ _ _ _ => ⟨hH.read .., trivial⟩,
      fun _ _ _ _ _ _ => ⟨hH.done .., trivial⟩⟩ (fun c f k got hph i x hx => ?_)
    (fun e' he => ⟨?_, by subst he; exact hbelow⟩) hst
  · have hk := hknown c f
    rw [hph] at hk
    exact (hk i x hx).zero_or (fun _ _ h => h.2) hr
  · subst he
    obtain ⟨act', s₁, rfl, hst'⟩ := Scans.of_step_op hst
    exact hG _ _ _ _ _ hs hg hst'

end Run

end DiscoSkip
