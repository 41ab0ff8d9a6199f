import DiscoSkip.SkipVector.GatherPrevs

/-!
# Reconciling

A call that is made again finds everything done. The sections of the first one leave
the key they insert in its layer, and the boundary they split at: a node with this
first key, that carries the address of the section, or is an orphan, and then the call
has gone no further (`Settled`). The later sections of the call are those of other
layers, or change nothing. So the second call takes the branches that change nothing, at
every level where the first one was (`perform_perform`).
-/

namespace DiscoSkip.SkipVector

open Lib

variable {K A : Type*} [LinearOrder K]

/-! ## Nodes that need no change -/

section Node

variable {T : Type*} {k : K} {addr : A} {q : Node K T A} {r : Option ℕ}

/-- The node is one that a split at `k` leaves, and returns as `r`. -/
structure Settled (k : K) (addr : A) (q : Node K T A) (r : Option ℕ) : Prop where
  first : q.v.first = some k
  usable : q.orphan = true ∧ r = none ∨ q.orphan = false ∧ q.remoteAddr = addr ∧ r = some q.id

theorem Node.insert_self (hv : KeySorted q.v) {y : T} (hk : (k, y) ∈ q.v) (capacity fresh : ℕ)
    (x : T) (addr : A) : q.insert capacity fresh (k, x) addr = ⟨[q], none, fresh⟩ := by
  obtain ⟨lo, hi, hq, hc⟩ := hv.exists_cut k
  rw [hq] at hv hk
  have hf := (VectorSfra.mem_iff_first hv hc).1 ⟨_, hk, rfl⟩
  rw [Node.insert, hq, VectorSfra.insert_eq_exists hv hc hf]

variable [Inhabited A]

theorem Settled.mirrorSplit_self (h : Settled k addr q r) (capacity fresh : ℕ) (x : T) :
    q.mirrorSplit capacity fresh k x addr = ⟨[q], r, fresh⟩ := by
  rw [Node.mirrorSplit, if_pos h.first]
  rcases h.usable with ⟨ho, rfl⟩ | ⟨ho, rfl, rfl⟩
  · rw [if_pos ho]
  · rw [if_neg (by simp [ho])]

/-- Splitting a node at a key leaves one that needs no change; it is the node itself, if
    the split returns none. -/
theorem Node.exists_settled (capacity fresh : ℕ) (k : K) (x : T) (addr : A) (n : Node K T A) :
    ∃ q ∈ (n.mirrorSplit capacity fresh k x addr).nodes,
      Settled k addr q (n.mirrorSplit capacity fresh k x addr).result ∧
      ((n.mirrorSplit capacity fresh k x addr).result = none → q = n) := by
  rw [Node.mirrorSplit]
  split
  · next hmin =>
    split
    · next ho => exact ⟨n, List.mem_singleton_self n, ⟨hmin, .inl ⟨ho, rfl⟩⟩, fun _ => rfl⟩
    · next ho =>
      exact ⟨{ n with remoteAddr := addr }, List.mem_singleton_self _,
        ⟨hmin, .inr ⟨Bool.eq_false_of_not_eq_true ho, rfl, rfl⟩⟩, fun h => absurd h (by simp)⟩
  · split
    · next hc =>
      have hs : ∃ kept stolen, n.v.splitAt k = some (kept, stolen) := by
        -- the key is there, so something is stolen
        obtain ⟨e, he, -⟩ := VectorSfra.keyAt_eq_some.1 (of_decide_eq_true hc)
        obtain ⟨hlt, -⟩ := List.getElem?_eq_some_iff.1 he
        rw [VectorSfra.splitAt]
        exact ⟨_, _, if_neg (Nat.not_le.2 hlt)⟩
      obtain ⟨kept, stolen, hs⟩ := hs
      rw [hs]
      exact ⟨⟨fresh, false, addr, stolen⟩, by simp,
        ⟨VectorSfra.first_of_splitAt hc hs, .inr ⟨rfl, rfl, rfl⟩⟩, fun h => absurd h (by simp)⟩
    · exact ⟨⟨_, false, addr, _⟩, List.mem_cons_of_mem _ List.mem_cons_self,
        ⟨rfl, .inr ⟨rfl, rfl, rfl⟩⟩, fun h => absurd h (by simp)⟩

end Node

section Layer

variable {T : Type*} {capacity fresh : ℕ} {k : K} {ns pre post : List (Node K T A)}
  {n q : Node K T A}

/-- A node with the key is the one that covers it. -/
theorem Covers.eq_of_mem (h : Covers k pre n post) (hq : q ∈ pre ++ n :: post) {y : T}
    (hk : (k, y) ∈ q.v) : q = n := by
  rcases List.mem_append.1 hq with hm | hm
  · exact absurd (h.pre_lt _ (mem_entries.2 ⟨q, hm, hk⟩)) (lt_irrefl k)
  · rcases List.mem_cons.1 hm with rfl | hm
    · rfl
    · exact absurd (h.lt_post _ (mem_entries.2 ⟨q, hm, hk⟩)) (lt_irrefl k)

omit [LinearOrder K] in
theorem exists_mem_of_first (hf : q.v.first = some k) : ∃ y, (k, y) ∈ q.v := by
  obtain ⟨y, t, hv⟩ := VectorSfra.first_eq_some.1 hf
  exact ⟨y, hv ▸ List.mem_cons_self⟩

theorem LayerOk.splice_self (h : LayerOk capacity fresh ns) (hn : n ∈ ns) :
    splice ns n.id [n] = ns := by
  obtain ⟨pre, post, rfl⟩ := List.append_of_mem hn
  rw [splice_eq h.nodup]
  rfl

end Layer

/-! ## Sections that change nothing -/

namespace CacheOk

variable {cfg : Config} {s s' : Cache K A} {k : K} {r : Option ℕ} {L : ℕ}

theorem directorySection_self (h : CacheOk cfg s) {f : ℕ → Node K A A → Edit K A A}
    {q : Node K A A} (hq : q ∈ s.directory) {y : A} (hk : (k, y) ∈ q.v)
    (hf : f s.fresh q = ⟨[q], r, s.fresh⟩) : s.directorySection cfg k f = (s, r) := by
  obtain ⟨pre, n, post, hns, hd, hcov⟩ := h.descendToDirectory_spec k
  obtain rfl := hcov.eq_of_mem (hns ▸ hq) hk
  rw [Cache.directorySection, hd]
  dsimp only
  rw [hf, h.directory.splice_self hq]

theorem indexSection_self (h : CacheOk cfg s) (hL : L + 1 < cfg.layers)
    {f : ℕ → Node K ℕ A → Edit K ℕ A} {q : Node K ℕ A} (hq : q ∈ s.index (L + 1)) {y : ℕ}
    (hk : (k, y) ∈ q.v) (hf : f s.fresh q = ⟨[q], r, s.fresh⟩) :
    s.indexSection cfg k (L + 1) f = (s, r) := by
  obtain ⟨pre, n, post, hns, hd, hcov⟩ := h.descendToIndexLevel_spec k hL
  obtain rfl := hcov.eq_of_mem (hns ▸ hq) hk
  rw [Cache.indexSection, hd]
  dsimp only
  rw [hf, (h.index L hL).splice_self hq, Function.update_eq_self]

/-- A key that is there is not inserted. -/
theorem insertDirectory_self (h : CacheOk cfg s) {y : A} (hk : (k, y) ∈ entries s.directory)
    (x addr : A) : s.insertDirectory cfg k x addr = s := by
  obtain ⟨q, hq, hy⟩ := mem_entries.1 hk
  have hins := Node.insert_self (h.directory.sorted_mem hq) hy cfg.capacity s.fresh x addr
  rw [Cache.insertDirectory, h.directorySection_self hq hy hins]

theorem insertIndex_self (h : CacheOk cfg s) (hL : L + 1 < cfg.layers) {y : ℕ}
    (hk : (k, y) ∈ entries (s.index (L + 1))) (child : ℕ) (addr : A) :
    s.insertIndex cfg k (L + 1) child addr = s := by
  obtain ⟨q, hq, hy⟩ := mem_entries.1 hk
  have hins := Node.insert_self ((h.index L hL).sorted_mem hq) hy cfg.capacity s.fresh child addr
  rw [Cache.insertIndex, h.indexSection_self hL hq hy hins]

variable [Inhabited A] {addr : A}

/-- A split of the directory leaves a node that needs no change. -/
theorem exists_settled_directory (h : CacheOk cfg s) {x : A}
    (hs : s.mirrorSplitDirectory cfg k x addr = (s', r)) :
    ∃ q ∈ s'.directory, Settled k addr q r ∧ (r = none → q ∈ s.directory) := by
  obtain ⟨pre, n, post, hns, hd, -⟩ := h.descendToDirectory_spec k
  obtain ⟨q, hq, hset, hself⟩ := Node.exists_settled cfg.capacity s.fresh k x addr n
  have hdir := h.directory
  rw [hns] at hdir
  rw [Cache.mirrorSplitDirectory, Cache.directorySection, hd] at hs
  obtain ⟨rfl, rfl⟩ := Prod.mk.inj hs
  refine ⟨q, ?_, hset, fun hr => ?_⟩
  · dsimp only
    rw [hns, splice_eq hdir.nodup]
    exact List.mem_append_right _ (List.mem_append_left _ hq)
  · rw [hns, hself hr]
    exact List.mem_append_right _ List.mem_cons_self

theorem exists_settled_index (h : CacheOk cfg s) (hL : L + 1 < cfg.layers) {child : ℕ}
    (hs : s.mirrorSplitIndex cfg k (L + 1) child addr = (s', r)) :
    ∃ q ∈ s'.index (L + 1), Settled k addr q r := by
  obtain ⟨pre, n, post, hns, hd, -⟩ := h.descendToIndexLevel_spec k hL
  obtain ⟨q, hq, hset, -⟩ := Node.exists_settled cfg.capacity s.fresh k child addr n
  have hidx := h.index L hL
  rw [hns] at hidx
  rw [Cache.mirrorSplitIndex, Cache.indexSection, hd] at hs
  obtain ⟨rfl, rfl⟩ := Prod.mk.inj hs
  refine ⟨q, ?_, hset⟩
  dsimp only
  rw [Function.update_self, hns, splice_eq hidx.nodup]
  exact List.mem_append_right _ (List.mem_append_left _ hq)

theorem mirrorSplitDirectory_self (h : CacheOk cfg s) {q : Node K A A} (hq : q ∈ s.directory)
    (hset : Settled k addr q r) (x : A) : s.mirrorSplitDirectory cfg k x addr = (s, r) := by
  obtain ⟨y, hy⟩ := exists_mem_of_first hset.first
  exact h.directorySection_self hq hy (hset.mirrorSplit_self cfg.capacity s.fresh x)

theorem mirrorSplitIndex_self (h : CacheOk cfg s) (hL : L + 1 < cfg.layers) {q : Node K ℕ A}
    (hq : q ∈ s.index (L + 1)) (hset : Settled k addr q r) (child : ℕ) :
    s.mirrorSplitIndex cfg k (L + 1) child addr = (s, r) := by
  obtain ⟨y, hy⟩ := exists_mem_of_first hset.first
  exact h.indexSection_self hL hq hy (hset.mirrorSplit_self cfg.capacity s.fresh child)

end CacheOk

/-! ## Calls made again -/

namespace Cache

variable (cfg : Config) (s : Cache K A)

theorem indexSection_directory (k : K) (level : ℕ) (f : ℕ → Node K ℕ A → Edit K ℕ A) :
    (s.indexSection cfg k level f).1.directory = s.directory := by
  rw [indexSection]
  split <;> rfl

theorem indexSection_index {L level : ℕ} (hL : L ≠ level) (k : K)
    (f : ℕ → Node K ℕ A → Edit K ℕ A) :
    (s.indexSection cfg k level f).1.index L = s.index L := by
  rw [indexSection]
  split
  · exact Function.update_of_ne hL _ _
  · rfl

end Cache

namespace Job

variable [Inhabited A] {cfg : Config} {s s' s₁ : Cache K A} {k : K} {c : Call K A}
  {L child fuel : ℕ} {i j : Job K A}

theorem run_of_none (hs : j.step cfg s = (s₁, none)) : run cfg (fuel + 1) s j = some s₁ := by
  rw [run, hs]

theorem run_of_some (hs : j.step cfg s = (s₁, some i)) :
    run cfg (fuel + 1) s j = run cfg fuel s₁ i := by
  rw [run, hs]

/-- The sections from the layer `L + 1` on leave the layers below alone. -/
structure Above (L : ℕ) (s s' : Cache K A) : Prop where
  directory : s'.directory = s.directory
  index : ∀ L' ≤ L, s'.index L' = s.index L'

omit [LinearOrder K] [Inhabited A] in
theorem Above.trans {s'' : Cache K A} {L' : ℕ} (h : Above L s s') (hle : L ≤ L')
    (h' : Above L' s' s'') : Above L s s'' :=
  ⟨h'.directory.trans h.directory,
    fun i hi => (h'.index i (hi.trans hle)).trans (h.index i hi)⟩

omit [Inhabited A] in
theorem Above.of_section (cfg : Config) (s : Cache K A) (k : K) (L : ℕ)
    (f : ℕ → Node K ℕ A → Edit K ℕ A) :
    Above L s (s.indexSection cfg k (L + 1) f).1 :=
  ⟨s.indexSection_directory cfg k _ f,
    fun _ hi => s.indexSection_index cfg (by omega) k f⟩

/-- Installing the entry of a node, and again. -/
theorem installChild_again (h : CacheOk cfg s)
    (hchild : (child, some k) ∈ s.nonOrphans L) :
    ∃ s', installChild cfg s k c (L + 1) child = (s', none) ∧ CacheOk cfg s' ∧ Above L s s' ∧
      installChild cfg s' k c (L + 1) child = (s', none) := by
  rw [installChild_eq]
  split
  · next hL =>
    obtain ⟨hok, hk, -⟩ := h.indexSection_spec hL hchild
      (insert_editOk cfg.capacity_pos k child (c.addrAt (L + 1))) rfl
    refine ⟨_, rfl, hok, .of_section cfg s k L _, ?_⟩
    rw [installChild_eq, if_pos hL]
    exact congrArg (·, none) (hok.insertIndex_self hL hk child _)
  · next hge => exact ⟨s, rfl, h, ⟨rfl, fun _ _ => rfl⟩, by rw [installChild_eq, if_neg hge]⟩

/-- Climbing the levels, and again. -/
theorem climb_again (h : CacheOk cfg s) (hj : (climb k c (L + 1) child).Ok cfg s)
    (hrun : run cfg fuel s (climb k c (L + 1) child) = some s') :
    CacheOk cfg s' ∧ Above L s s' ∧ run cfg fuel s' (climb k c (L + 1) child) = some s' := by
  induction fuel generalizing s L child with
  | zero => exact absurd hrun (by simp [run])
  | succ fuel ih =>
    obtain ⟨hc, L', hL', hL, hchild⟩ := hj
    obtain rfl := Nat.succ.inj hL'
    by_cases hcl : c.Climbs cfg k (L + 1)
    · have hlt := hc.lt_of_climbs hcl
      obtain ⟨s₁, r, hs⟩ : ∃ s₁ r,
          s.mirrorSplitIndex cfg k (L + 1) child (c.addrAt (L + 1)) = (s₁, r) := ⟨_, _, rfl⟩
      have hstep : (climb k c (L + 1) child).step cfg s =
          (s₁, some (r.elim (install k c (L + 1) child) (climb k c (L + 2)))) := by
        rw [step, if_pos hcl, hs]
        cases r <;> rfl
      have hst := step_stepped h (j := climb k c (L + 1) child) ⟨hc, L, rfl, hL, hchild⟩
      rw [hstep] at hst
      obtain ⟨q, hq, hset⟩ := h.exists_settled_index hlt hs
      have habove : Above L s s₁ := by
        have hab := Above.of_section cfg s k L fun fresh =>
          Node.mirrorSplit cfg.capacity fresh k child (c.addrAt (L + 1))
        rw [← Cache.mirrorSplitIndex, hs] at hab
        exact hab
      -- the second climb finds the node of the first one
      have hagain : ∀ s₂, CacheOk cfg s₂ → q ∈ s₂.index (L + 1) →
          (climb k c (L + 1) child).step cfg s₂ =
            (s₂, some (r.elim (install k c (L + 1) child) (climb k c (L + 2)))) := by
        intro s₂ h₂ hq₂
        rw [step, if_pos hcl, h₂.mirrorSplitIndex_self hlt hq₂ hset child]
        cases r <;> rfl
      rw [run_of_some hstep] at hrun
      cases r with
      | none =>
        -- the node is an orphan, and the entry to be installed is in it
        obtain ⟨y, hy⟩ := exists_mem_of_first hset.first
        have hinst : (install k c (L + 1) child).step cfg s₁ = (s₁, none) := by
          rw [step, installChild_eq, if_pos hlt,
            hst.ok.insertIndex_self hlt (mem_entries.2 ⟨q, hq, hy⟩)]
        rw [Option.elim_none] at hrun
        cases fuel with
        | zero => exact absurd hrun (by simp [run])
        | succ fuel =>
          obtain rfl := Option.some.inj ((run_of_none hinst).symm.trans hrun)
          refine ⟨hst.ok, habove, ?_⟩
          rw [run_of_some (hagain s₁ hst.ok hq)]
          exact run_of_none hinst
      | some n =>
        obtain ⟨hok', habove', hrun'⟩ := ih hst.ok (hst.jobOk _ rfl) hrun
        refine ⟨hok', habove.trans (Nat.le_succ L) habove', ?_⟩
        rw [run_of_some (hagain s' hok' (habove'.index _ (le_refl _) ▸ hq))]
        exact hrun'
    · obtain ⟨s₁, hs₁, hok, habove, hs₂⟩ := installChild_again (c := c) h hchild
      have hstep : ∀ s₂, (climb k c (L + 1) child).step cfg s₂ =
          installChild cfg s₂ k c (L + 1) child := fun s₂ => by rw [step, if_neg hcl]
      obtain rfl := Option.some.inj
        ((run_of_none ((hstep s).trans hs₁)).symm.trans hrun)
      exact ⟨hok, habove, run_of_none ((hstep s₁).trans hs₂)⟩

/-- Splitting the directory and climbing on, and again. -/
theorem splitDirectory_again {x : A} (hj : ∀ s, j.step cfg s = splitDirectory cfg s k x c)
    (h : CacheOk cfg s) (hc : c.Valid cfg) (hrun : run cfg fuel s j = some s') :
    CacheOk cfg s' ∧ s'.directory = (s.mirrorSplitDirectory cfg k x (c.addrAt 0)).1.directory ∧
      (∀ e ∈ entries s.directory, e ∈ entries s'.directory) ∧ run cfg fuel s' j = some s' := by
  cases fuel with
  | zero => exact absurd hrun (by simp [run])
  | succ fuel =>
    obtain ⟨s₁, d, hs⟩ : ∃ s₁ d, s.mirrorSplitDirectory cfg k x (c.addrAt 0) = (s₁, d) :=
      ⟨_, _, rfl⟩
    have hstep : j.step cfg s = (s₁, d.map (climb k c 1)) := by rw [hj, splitDirectory, hs]
    have hst := step_stepped h (j := split k x c) hc
    rw [step, ← hj, hstep] at hst
    have hmono : ∀ e ∈ entries s.directory, e ∈ entries s₁.directory :=
      fun e he => (hst.mem_directory e).2 (.inl he)
    obtain ⟨q, hq, hset, -⟩ := h.exists_settled_directory hs
    -- the second split finds the node of the first one
    have hagain : ∀ s₂, CacheOk cfg s₂ → q ∈ s₂.directory →
        j.step cfg s₂ = (s₂, d.map (climb k c 1)) := by
      intro s₂ h₂ hq₂
      rw [hj, splitDirectory, h₂.mirrorSplitDirectory_self hq₂ hset x]
    cases d with
    | none =>
      obtain rfl := Option.some.inj ((run_of_none hstep).symm.trans hrun)
      exact ⟨hst.ok, by rw [hs], hmono, run_of_none (hagain s₁ hst.ok hq)⟩
    | some n =>
      rw [run_of_some hstep] at hrun
      obtain ⟨hok, habove, hrun'⟩ := climb_again hst.ok (hst.jobOk _ rfl) hrun
      refine ⟨hok, by rw [hs, habove.directory], habove.directory ▸ hmono, ?_⟩
      rw [run_of_some (hagain s' hok (habove.directory ▸ hq))]
      exact hrun'

end Job

section Perform

variable [Inhabited A] {cfg : Config} {s s' : Cache K A}

omit [Inhabited A] in
theorem CacheOk.insertDirectory_spec (h : CacheOk cfg s) (k : K) (x addr : A) :
    CacheOk cfg (s.insertDirectory cfg k x addr) ∧
      ∃ y, (k, y) ∈ entries (s.insertDirectory cfg k x addr).directory := by
  obtain ⟨hok, hw, -⟩ := h.directorySection_spec (insert_editOk cfg.capacity_pos k x addr) rfl
  refine ⟨hok, ?_⟩
  rcases hw.exists_key with hk | ⟨y, hk⟩
  · exact ⟨x, hk⟩
  · exact ⟨y, (hw.mem_entries _).2 (.inl hk)⟩

/-- A call that is made again changes nothing. -/
theorem perform_perform {c : Call K A} (h : CacheOk cfg s) (hc : c.Valid cfg)
    (hs : s.perform cfg c = some s') : s'.perform cfg c = some s' := by
  rw [Cache.perform] at hs ⊢
  cases c with
  | mirrorInsert k height d addrs =>
    by_cases hh : height - 1 = 0
    · have hstep : ∀ s : Cache K A, (Job.called (.mirrorInsert k height d addrs)).step cfg s =
          (s.insertDirectory cfg k d (addrs 0), none) := fun s => by
        rw [Job.step, if_pos hh]
        rfl
      obtain ⟨hok, y, hy⟩ := h.insertDirectory_spec k d (addrs 0)
      obtain rfl := Option.some.inj ((Job.run_of_none (hstep s)).symm.trans hs)
      rw [Job.run_of_none (hstep _), hok.insertDirectory_self hy]
    · have hstep : ∀ s : Cache K A, (Job.called (.mirrorInsert k height d addrs)).step cfg s =
          Job.splitDirectory cfg s k d (.mirrorInsert k height d addrs) := fun s => by
        rw [Job.step, if_neg hh]
      exact (Job.splitDirectory_again hstep h hc hs).2.2.2
  | mirrorReconcile dk da path =>
    have hstep : ∀ s : Cache K A, (Job.called (.mirrorReconcile dk da path)).step cfg s =
        (s.insertDirectory cfg dk da ((Call.mirrorReconcile dk da path).addrAt 0),
          path.head?.map fun p => .split p.kMin p.firstDown (.mirrorReconcile dk da path)) :=
      fun s => rfl
    obtain ⟨hok, y, hy⟩ := h.insertDirectory_spec dk da ((Call.mirrorReconcile dk da path).addrAt 0)
    cases path with
    | nil =>
      obtain rfl := Option.some.inj ((Job.run_of_none (hstep s)).symm.trans hs)
      rw [Job.run_of_none (hstep _), hok.insertDirectory_self hy]
    | cons p path =>
      rw [Job.run_of_some (hstep s)] at hs
      obtain ⟨hok', -, hmono, hrun⟩ := Job.splitDirectory_again (fun s => rfl) hok hc hs
      have hself := hok'.insertDirectory_self (hmono _ hy) da
        ((Call.mirrorReconcile dk da (p :: path)).addrAt 0)
      rw [Job.run_of_some ((hstep s').trans (by rw [hself]; rfl))]
      exact hrun

/-- After any calls, in any interleaving of their sections, a reconciliation that is made
    twice leaves the cache that it leaves when it is made once. -/
theorem mirrorReconcile_mirrorReconcile {tr : List (Threads.Action K A)} {t : Threads K A}
    (h : (Threads.machine cfg).Run (Threads.Guard cfg) tr t) (dataKMin : K) (dataAddr : A)
    (path : List (PathStep K A)) :
    ∃ s, t.cache.perform cfg (.mirrorReconcile dataKMin dataAddr path) = some s ∧
      s.perform cfg (.mirrorReconcile dataKMin dataAddr path) = some s := by
  have hok := (Parented.run h).ok
  obtain ⟨M, hM⟩ := hok.exists_mirrors
  obtain ⟨s, hs, -⟩ := SkipVector.perform_spec (c := .mirrorReconcile dataKMin dataAddr path)
    hok hM trivial
  exact ⟨s, hs, perform_perform hok trivial hs⟩

theorem mirrorReconcile_interleaved : ∃ tr, ∃ t : Threads ℕ ℕ,
    (Threads.machine Config.small).Run (Threads.Guard Config.small) tr t ∧ tr.length = 15 ∧
      ∃ s, t.cache.perform Config.small (.mirrorReconcile 25 125 [⟨20, 7, 220⟩, ⟨20, 8, 221⟩]) =
          some s ∧
        s.perform Config.small (.mirrorReconcile 25 125 [⟨20, 7, 220⟩, ⟨20, 8, 221⟩]) = some s := by
  obtain ⟨tr, t, h, ht⟩ := Machine.exists_run_of_play (G := Threads.Guard Config.small)
    (m := Threads.machine (K := ℕ) (A := ℕ) Config.small) (fun p => p.1.length) interleaved
    (b := 15) (by decide +kernel)
  exact ⟨tr, t, h, ht, mirrorReconcile_mirrorReconcile h 25 125 [⟨20, 7, 220⟩, ⟨20, 8, 221⟩]⟩

end Perform

end DiscoSkip.SkipVector
