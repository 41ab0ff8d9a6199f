import Mathlib.Order.Nat
import DiscoSkip.SkipVector.Descend

/-!
# The structure of the cache

When no call is under way, every layer of the cache is sorted, its entries point
to non-orphans of the layer below, and every non-orphan below the top layer has
one entry (`Structured`), in whatever order the sections of the calls came.

Between the sections of a call this is not so: the node a section has made has no
entry yet. The call *holds* it (`Job.Holds`) until the next section, which is to
install its entry; the invariant (`Parented`) is that every non-orphan has an
entry or is held by a call. If the section finds an entry of the key, that is one
to the same node, as no two boundaries of a layer have the same key.
-/

namespace DiscoSkip.SkipVector

open Lib

variable {K A : Type*}

/-- The structure of a layer: sorted along its nodes, which have at most `capacity`
    entries, and at least one, the leftmost excepted. -/
structure LayerStructured [LinearOrder K] {T : Type*} (capacity : ℕ) (ns : List (Node K T A)) :
    Prop where
  sorted : KeySorted (entries ns)
  size_le : ∀ n ∈ ns, n.v.length ≤ capacity
  nonempty : ∀ n ∈ ns.tail, n.v ≠ []
  /-- The pointers are to different nodes. -/
  nodup : (ns.map Node.id).Nodup

/-- The structure of a cache when no call is under way. -/
structure Structured [LinearOrder K] (cfg : Config) (s : Cache K A) : Prop where
  directory : LayerStructured cfg.capacity s.directory
  index : ∀ L, 1 ≤ L → L < cfg.layers → LayerStructured cfg.capacity (s.index L)
  /-- Every entry points to a non-orphan whose first key is that of the entry. -/
  down : ∀ L, 1 ≤ L → L < cfg.layers → ∀ e ∈ entries (s.index L),
    (e.2, some e.1) ∈ s.nonOrphans (L - 1)
  /-- Every non-orphan has one entry. -/
  parent : ∀ L, L + 1 < cfg.layers → ∀ p ∈ s.nonOrphans L,
    ∃! e, e ∈ entries (s.index (L + 1)) ∧ e.2 = p.1

variable [LinearOrder K] {cfg : Config} {s s' : Cache K A}

section Results

theorem Node.insert_result {T : Type*} {capacity fresh : ℕ} {e : K × T} {addr : A}
    {n : Node K T A} : (Node.insert capacity fresh e addr n).result = none := by
  rw [Node.insert]
  split <;> rfl

theorem Cache.directorySection_result {k : K} {f : ℕ → Node K A A → Edit K A A}
    (hf : ∀ fresh n, (f fresh n).result = none) : (s.directorySection cfg k f).2 = none := by
  rw [Cache.directorySection]
  split
  · exact hf _ _
  · rfl

theorem Cache.indexSection_result {k : K} {level : ℕ} {f : ℕ → Node K ℕ A → Edit K ℕ A}
    (hf : ∀ fresh n, (f fresh n).result = none) : (s.indexSection cfg k level f).2 = none := by
  rw [Cache.indexSection]
  split
  · exact hf _ _
  · rfl

end Results

omit [LinearOrder K] in
/-- The loop over the levels ends at the top layer. -/
theorem Call.Valid.lt_of_climbs {c : Call K A} {k : K} {level : ℕ} (hc : c.Valid cfg)
    (h : c.Climbs cfg k level) : level < cfg.layers := by
  cases c with
  | mirrorInsert k' height d addrs =>
    have hlt : level < height - 1 := h
    have hle := hc.2
    omega
  | mirrorReconcile dk da path =>
    have hlt := h.1
    omega

namespace Job

/-- The call holds the node `c` of the layer `L`. -/
def Holds (L c : ℕ) : Job K A → Prop
  | called _ => False
  | split _ _ _ => False
  | climb _ _ level child => level = L + 1 ∧ child = c
  | install _ _ level child => level = L + 1 ∧ child = c

/-- The call is valid, and the node it holds is a boundary of its key. -/
def Ok (cfg : Config) (s : Cache K A) : Job K A → Prop
  | called c => c.Valid cfg
  | split _ _ c => c.Valid cfg
  | climb k c level child => c.Valid cfg ∧
    ∃ L, level = L + 1 ∧ L < cfg.layers ∧ (child, some k) ∈ s.nonOrphans L
  | install k _ level child =>
    ∃ L, level = L + 1 ∧ L < cfg.layers ∧ (child, some k) ∈ s.nonOrphans L

/-- What the next section of the call writes to the directory. -/
def writes : Job K A → Option (K × A)
  | called (.mirrorInsert k _ newRemoteDataAddr _) => some (k, newRemoteDataAddr)
  | called (.mirrorReconcile dataKMin dataAddr _) => some (dataKMin, dataAddr)
  | split k x _ => some (k, x)
  | climb _ _ _ _ => none
  | install _ _ _ _ => none

omit [LinearOrder K] in
theorem Ok.mono {j : Job K A} (h : j.Ok cfg s)
    (hs : ∀ L p, p ∈ s.nonOrphans L → p ∈ s'.nonOrphans L) : j.Ok cfg s' := by
  cases j with
  | called c => exact h
  | split k x c => exact h
  | climb k c level child =>
    obtain ⟨hc, L, hlevel, hL, hm⟩ := h
    exact ⟨hc, L, hlevel, hL, hs L _ hm⟩
  | install k c level child =>
    obtain ⟨L, hlevel, hL, hm⟩ := h
    exact ⟨L, hlevel, hL, hs L _ hm⟩

/-- What a step of the call `j` does to the cache: what is new is held by the call,
    and what it held has an entry, or is held on. -/
structure Stepped (cfg : Config) (s : Cache K A) (j : Job K A) (s' : Cache K A)
    (j' : Option (Job K A)) : Prop where
  ok : CacheOk cfg s'
  mem_directory : ∀ e, e ∈ entries s'.directory ↔
    e ∈ entries s.directory ∨ j.writes = some e ∧ ∀ e' ∈ entries s.directory, e'.1 ≠ e.1
  entries_mono : ∀ L e, e ∈ entries (s.index L) → e ∈ entries (s'.index L)
  mono : ∀ L p, p ∈ s.nonOrphans L → p ∈ s'.nonOrphans L
  new : ∀ L, ∀ p ∈ s'.nonOrphans L, p ∈ s.nonOrphans L ∨ ∃ i, j' = some i ∧ i.Holds L p.1
  held : ∀ L c, L + 1 < cfg.layers → j.Holds L c →
    (∃ e ∈ entries (s'.index (L + 1)), e.2 = c) ∨ ∃ i, j' = some i ∧ i.Holds L c
  jobOk : ∀ i, j' = some i → i.Ok cfg s'

section Stepped

variable {j : Job K A} {j' : Option (Job K A)} {k : K} {r : Option ℕ}

/-- A section of the directory, by a call that holds nothing. -/
theorem stepped_of_directory {x : A} {f : ℕ → Node K A A → Edit K A A} (h : CacheOk cfg s)
    (hf : EditOk cfg.capacity k x f) (hs : s.directorySection cfg k f = (s', r))
    (hj : ∀ L c, ¬ j.Holds L c) (hw : j.writes = some (k, x))
    (hr : ∀ c, r = some c → ∃ i, j' = some i ∧ i.Holds 0 c)
    (hj' : s.Effect s' 0 k r → ∀ i, j' = some i → i.Ok cfg s') : Stepped cfg s j s' j' := by
  obtain ⟨hok, hwr, heff⟩ := h.directorySection_spec hf hs
  refine ⟨hok, fun e => ?_, heff.entries_mono, fun L p hp => ?_, fun L p hp => ?_,
    fun L c _ hc => absurd hc (hj L c), hj' heff⟩
  · rw [hwr.mem_entries e, hw, Option.some.injEq, eq_comm (a := e)]
    refine or_congr_right (and_congr_right fun he => ?_)
    rw [← he]
  · exact (heff.mem_nonOrphans L p).2 (.inl hp)
  · rcases (heff.mem_nonOrphans L p).1 hp with hp | ⟨rfl, c, hc, rfl⟩
    · exact .inl hp
    · exact .inr (hr c hc)

/-- A section of an index layer, by a call that holds a node of the layer below. -/
theorem stepped_of_index {L child : ℕ} {f : ℕ → Node K ℕ A → Edit K ℕ A} (h : CacheOk cfg s)
    (hL : L + 1 < cfg.layers) (hchild : (child, some k) ∈ s.nonOrphans L)
    (hf : EditOk cfg.capacity k child f) (hs : s.indexSection cfg k (L + 1) f = (s', r))
    (hj : ∀ L' c, j.Holds L' c → L' = L ∧ c = child) (hw : j.writes = none)
    (hr : ∀ c, r = some c → ∃ i, j' = some i ∧ i.Holds (L + 1) c)
    (hj' : s.Effect s' (L + 1) k r → ∀ i, j' = some i → i.Ok cfg s') : Stepped cfg s j s' j' := by
  obtain ⟨hok, hentry, hdir, heff⟩ := h.indexSection_spec hL hchild hf hs
  refine ⟨hok, fun e => ?_, heff.entries_mono, fun L' p hp => ?_, fun L' p hp => ?_,
    fun L' c _ hc => ?_, hj' heff⟩
  · rw [hdir, hw]
    simp
  · exact (heff.mem_nonOrphans L' p).2 (.inl hp)
  · rcases (heff.mem_nonOrphans L' p).1 hp with hp | ⟨rfl, c, hc, rfl⟩
    · exact .inl hp
    · exact .inr (hr c hc)
  · obtain ⟨rfl, rfl⟩ := hj L' c hc
    exact .inl ⟨_, hentry, rfl⟩

theorem insertDirectory_stepped {x : A} (h : CacheOk cfg s) (addr : A)
    (hj : ∀ L c, ¬ j.Holds L c) (hw : j.writes = some (k, x))
    (hj' : ∀ s' i, j' = some i → i.Ok cfg s') :
    Stepped cfg s j (s.insertDirectory cfg k x addr) j' := by
  obtain ⟨s', r, hs⟩ : ∃ s' r, s.directorySection cfg k
      (fun fresh => Node.insert cfg.capacity fresh (k, x) addr) = (s', r) := ⟨_, _, rfl⟩
  have hr : r = none := (congrArg Prod.snd hs).symm.trans
    (Cache.directorySection_result fun fresh n => Node.insert_result)
  rw [Cache.insertDirectory, hs]
  refine stepped_of_directory h (insert_editOk cfg.capacity_pos k x addr) hs hj hw ?_
    fun _ i hi => hj' _ i hi
  rintro c rfl
  exact absurd hr (by simp)

variable [Inhabited A] {c : Call K A}

theorem splitDirectory_stepped {x : A} (h : CacheOk cfg s) (hc : c.Valid cfg)
    (hj : ∀ L c, ¬ j.Holds L c) (hw : j.writes = some (k, x)) :
    Stepped cfg s j (splitDirectory cfg s k x c).1 (splitDirectory cfg s k x c).2 := by
  obtain ⟨s', d, hs⟩ : ∃ s' d, s.mirrorSplitDirectory cfg k x (c.addrAt 0) = (s', d) :=
    ⟨_, _, rfl⟩
  rw [splitDirectory, hs]
  have hpos := cfg.two_le_layers
  refine stepped_of_directory h (mirrorSplit_editOk cfg.capacity_pos k x _) hs hj hw ?_ ?_
  · rintro n rfl
    exact ⟨_, rfl, rfl, rfl⟩
  · intro heff i hi
    obtain ⟨n, rfl, rfl⟩ := Option.map_eq_some_iff.1 hi
    exact ⟨hc, 0, rfl, by omega, (heff.mem_nonOrphans 0 _).2 (.inr ⟨rfl, n, rfl, rfl⟩)⟩

theorem installChild_eq {level child : ℕ} : installChild cfg s k c level child =
    if level < cfg.layers then (s.insertIndex cfg k level child (c.addrAt level), none)
    else (s, none) := by
  cases c <;> rfl

theorem installChild_stepped {L child : ℕ} (h : CacheOk cfg s) (hL : L < cfg.layers)
    (hchild : (child, some k) ∈ s.nonOrphans L)
    (hj : ∀ L' c, j.Holds L' c → L' = L ∧ c = child) (hw : j.writes = none) :
    Stepped cfg s j (installChild cfg s k c (L + 1) child).1
      (installChild cfg s k c (L + 1) child).2 := by
  rw [installChild_eq]
  split
  · next hL =>
    obtain ⟨s', r, hs⟩ : ∃ s' r, s.indexSection cfg k (L + 1) (fun fresh =>
        Node.insert cfg.capacity fresh (k, child) (c.addrAt (L + 1))) = (s', r) := ⟨_, _, rfl⟩
    have hr : r = none := (congrArg Prod.snd hs).symm.trans
      (Cache.indexSection_result fun fresh n => Node.insert_result)
    rw [Cache.insertIndex, hs]
    refine stepped_of_index h hL hchild (insert_editOk cfg.capacity_pos k child _) hs hj hw ?_
      fun _ i hi => absurd hi (by simp)
    rintro c rfl
    exact absurd hr (by simp)
  · next hge =>
    -- the node is one of the top layer
    refine ⟨h, fun e => by simp [hw], fun L e he => he, fun L p hp => hp, fun L p hp => .inl hp,
      fun L' c hL' hc => ?_, fun i hi => absurd hi (by simp)⟩
    obtain ⟨rfl, rfl⟩ := hj L' c hc
    exact absurd hL' hge

/-- The steps of the calls. -/
theorem step_stepped (h : CacheOk cfg s) (hj : j.Ok cfg s) :
    Stepped cfg s j (j.step cfg s).1 (j.step cfg s).2 := by
  cases j with
  | called c =>
    cases c with
    | mirrorInsert k height d addrs =>
      rw [step]
      split
      · exact insertDirectory_stepped h _ (fun _ _ => id) rfl fun _ i hi => absurd hi (by simp)
      · exact splitDirectory_stepped h hj (fun _ _ => id) rfl
    | mirrorReconcile dk da path =>
      refine insertDirectory_stepped h _ (fun _ _ => id) rfl fun s' i hi => ?_
      obtain ⟨p, -, rfl⟩ := Option.map_eq_some_iff.1 hi
      exact trivial
  | split k x c => exact splitDirectory_stepped h hj (fun _ _ => id) rfl
  | climb k c level child =>
    obtain ⟨hc, L, rfl, hL, hchild⟩ := hj
    have hheld : ∀ L' c', (climb k c (L + 1) child).Holds L' c' → L' = L ∧ c' = child :=
      fun L' c' hh => ⟨(Nat.succ.inj hh.1).symm, hh.2.symm⟩
    rw [step]
    split
    · next hcl =>
      have hlt := hc.lt_of_climbs hcl
      obtain ⟨s', n, hs⟩ : ∃ s' n,
          s.mirrorSplitIndex cfg k (L + 1) child (c.addrAt (L + 1)) = (s', n) := ⟨_, _, rfl⟩
      have hf := mirrorSplit_editOk cfg.capacity_pos k child (c.addrAt (L + 1))
      rw [hs]
      cases n with
      | none =>
        refine stepped_of_index h hlt hchild hf hs hheld rfl (fun c hc => absurd hc (by simp)) ?_
        rintro heff i hi
        obtain rfl := Option.some.inj hi
        exact ⟨L, rfl, hL, (heff.mem_nonOrphans L _).2 (.inl hchild)⟩
      | some n =>
        refine stepped_of_index h hlt hchild hf hs hheld rfl ?_ ?_
        · rintro c' hc'
          obtain rfl := Option.some.inj hc'
          exact ⟨_, rfl, rfl, rfl⟩
        · rintro heff i hi
          obtain rfl := Option.some.inj hi
          exact ⟨hc, L + 1, rfl, hlt, (heff.mem_nonOrphans _ _).2 (.inr ⟨rfl, n, rfl, rfl⟩)⟩
    · exact installChild_stepped h hL hchild hheld rfl
  | install k c level child =>
    obtain ⟨L, rfl, hL, hchild⟩ := hj
    exact installChild_stepped h hL hchild
      (fun L' c' hh => ⟨(Nat.succ.inj hh.1).symm, hh.2.symm⟩) rfl

end Stepped

end Job

/-! ## The interleavings -/

/-- The invariant of the interleavings. -/
structure Parented (cfg : Config) (t : Threads K A) : Prop where
  ok : CacheOk cfg t.cache
  jobOk : ∀ j ∈ t.jobs, j.Ok cfg t.cache
  parent : ∀ L, L + 1 < cfg.layers → ∀ p ∈ t.cache.nonOrphans L,
    (∃ e ∈ entries (t.cache.index (L + 1)), e.2 = p.1) ∨ ∃ j ∈ t.jobs, j.Holds L p.1

theorem LayerOk.init {T : Type*} {capacity : ℕ} {addr : A} :
    LayerOk capacity (head + 1) [(⟨head, true, addr, []⟩ : Node K T A)] where
  sorted := .nil
  size_le := by simp
  nonempty := by simp
  leftmost := ⟨_, [], rfl, rfl, rfl⟩
  nodup := by simp
  id_lt := by simp

theorem LayerOk.structured {T : Type*} {capacity fresh : ℕ} {ns : List (Node K T A)}
    (h : LayerOk capacity fresh ns) : LayerStructured capacity ns where
  sorted := h.sorted
  size_le := h.size_le
  nodup := h.nodup
  nonempty n hn h0 := by
    obtain ⟨pre, post, hns⟩ := List.append_of_mem hn
    obtain ⟨m, t, rfl, -⟩ := h.leftmost
    rw [List.tail_cons] at hns
    subst hns
    rw [← List.cons_append] at h
    exact absurd (h.eq_nil_of_head (h.nonempty n (by simp) h0)) (by simp)

section Run

variable [Inhabited A] {t t' : Threads K A}

theorem CacheOk.init : CacheOk cfg (Cache.init : Cache K A) :=
  ⟨LayerOk.init, fun _ _ => LayerOk.init, fun _ _ _ he => absurd he List.not_mem_nil⟩

theorem Parented.init : Parented cfg (Threads.machine (K := K) (A := A) cfg).init := by
  refine ⟨CacheOk.init, by simp [Threads.machine], fun L _ p hp => ?_⟩
  cases L <;> exact absurd hp List.not_mem_nil

/-- A step of the call `j` keeps the invariant. -/
theorem Parented.step {j : Job K A} {l₁ l₂ : List (Job K A)}
    (h : Parented cfg ⟨s, l₁ ++ j :: l₂⟩) :
    Parented cfg ⟨(j.step cfg s).1, l₁ ++ (j.step cfg s).2.toList ++ l₂⟩ := by
  have hst := Job.step_stepped h.ok (h.jobOk j (by simp))
  set s' := (j.step cfg s).1
  set j' := (j.step cfg s).2
  refine ⟨hst.ok, fun i hi => ?_, fun L hL p hp => ?_⟩
  · simp only [List.mem_append, Option.mem_toList] at hi
    rcases hi with (hi | hi) | hi
    · exact (h.jobOk i (by simp [hi])).mono hst.mono
    · exact hst.jobOk i hi
    · exact (h.jobOk i (by simp [hi])).mono hst.mono
  · have hnew : (∃ i, j' = some i ∧ i.Holds L p.1) → ∃ i ∈ l₁ ++ j'.toList ++ l₂, i.Holds L p.1 :=
      fun ⟨i, hi, hh⟩ => ⟨i, by simp [hi], hh⟩
    rcases hst.new L p hp with hp | hp
    · rcases h.parent L hL p hp with ⟨e, he, hep⟩ | ⟨i, hi, hh⟩
      · exact .inl ⟨e, hst.entries_mono _ e he, hep⟩
      · simp only [List.mem_append, List.mem_cons] at hi
        rcases hi with hi | rfl | hi
        · exact .inr ⟨i, by simp [hi], hh⟩
        · exact (hst.held L p.1 hL hh).imp_right hnew
        · exact .inr ⟨i, by simp [hi], hh⟩
    · exact .inr (hnew hp)

/-- Every state of every interleaving satisfies the invariant. -/
theorem Parented.run {tr : List (Threads.Action K A)}
    (h : (Threads.machine cfg).Run (Threads.Guard cfg) tr t) : Parented cfg t := by
  refine Trace.invariant (P := fun _ t => Parented cfg t) Parented.init ?_ h
  rintro tr t a t' - hp ⟨act, hg, hst⟩
  cases act with
  | call c =>
    obtain ⟨rfl, rfl⟩ := Prod.mk.inj (Option.some.inj hst)
    refine ⟨hp.ok, fun j hj => ?_, fun L hL p hpm => ?_⟩
    · rcases List.mem_append.1 hj with hj | hj
      · exact hp.jobOk j hj
      · rw [List.mem_singleton.1 hj]
        exact hg
    · refine (hp.parent L hL p hpm).imp_right ?_
      rintro ⟨j, hj, hh⟩
      exact ⟨j, List.mem_append_left _ hj, hh⟩
  | step i =>
    obtain ⟨j, hj, heq⟩ := Option.map_eq_some_iff.1 hst
    obtain ⟨rfl, rfl⟩ := Prod.mk.inj heq
    obtain ⟨hi, rfl⟩ := List.getElem?_eq_some_iff.1 hj
    refine Parented.step ?_
    rw [← List.drop_eq_getElem_cons hi, List.take_append_drop]
    exact hp

/-- When all calls have returned, the cache has its structure: every layer is
    sorted, the entries point to the non-orphans below with the same first keys, and
    every non-orphan below the top layer has one entry. -/
theorem structured_of_run {tr : List (Threads.Action K A)}
    (h : (Threads.machine cfg).Run (Threads.Guard cfg) tr t) (hret : t.jobs = []) :
    Structured cfg t.cache := by
  have hp := Parented.run h
  have hdown : ∀ L, L + 1 < cfg.layers → ∀ e ∈ entries (t.cache.index (L + 1)),
      (e.2, some e.1) ∈ t.cache.nonOrphans L := hp.ok.down
  refine ⟨hp.ok.directory.structured, fun L h1 hL => ?_, fun L h1 hL => ?_, fun L hL p hpm => ?_⟩
  · obtain ⟨L, rfl⟩ := Nat.exists_eq_add_of_le' h1
    exact (hp.ok.index L hL).structured
  · obtain ⟨L, rfl⟩ := Nat.exists_eq_add_of_le' h1
    exact hdown L hL
  · rcases hp.parent L hL p hpm with ⟨e, he, hep⟩ | ⟨j, hj, -⟩
    · refine ⟨e, ⟨he, hep⟩, fun e' ⟨he', hep'⟩ => ?_⟩
      have hkey := hdown L hL e he
      have hkey' := hdown L hL e' he'
      rw [hep] at hkey
      rw [hep'] at hkey'
      have heq := hp.ok.key_unique (Nat.lt_of_succ_lt hL) hkey' hkey
      exact Prod.ext (Option.some.inj heq) (hep'.trans hep.symm)
    · rw [hret] at hj
      exact absurd hj List.not_mem_nil

end Run

/-- Three layers, of chunks of two entries. -/
def Config.small : Config := ⟨3, 2, Nat.le_succ 2, Nat.two_pos⟩

/-- Two insertions of one key with their sections in turn, and a reconciliation that
    comes between them. -/
def interleaved : List (Threads.Action ℕ ℕ) :=
  [.call (.mirrorInsert 30 1 130 id), .step 0, .call (.mirrorInsert 10 3 110 id),
    .call (.mirrorInsert 10 3 111 id), .step 0, .step 1,
    .call (.mirrorReconcile 20 120 [⟨10, 7, 0⟩, ⟨10, 8, 0⟩]), .step 2, .step 2, .step 0, .step 1,
    .step 2, .step 0, .step 0, .step 0]

theorem structured_interleaved : ∃ tr, ∃ t : Threads ℕ ℕ,
    (Threads.machine Config.small).Run (Threads.Guard Config.small) tr t ∧
      (t.jobs = [] ∧ t.cache.nonOrphans 0 = [(1, some 10)] ∧ t.cache.nonOrphans 1 = [(3, some 10)] ∧
        entries (t.cache.index 2) = [(10, 3)]) ∧ Structured Config.small t.cache := by
  obtain ⟨tr, t, h, ht⟩ := Machine.exists_run_of_play (G := Threads.Guard Config.small)
    (m := Threads.machine (K := ℕ) (A := ℕ) Config.small)
    (fun p => decide (p.2.jobs.length = 0 ∧ p.2.cache.nonOrphans 0 = [(1, some 10)] ∧
      p.2.cache.nonOrphans 1 = [(3, some 10)] ∧ entries (p.2.cache.index 2) = [(10, 3)]))
    interleaved (b := true) (by decide +kernel)
  simp only [decide_eq_true_iff, List.length_eq_zero_iff] at ht
  exact ⟨tr, t, h, ht, structured_of_run h ht.1⟩

end DiscoSkip.SkipVector
