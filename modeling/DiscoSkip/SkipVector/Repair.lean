import DiscoSkip.SkipVector.Reconcile

/-!
# Repairing the addresses

A reconciliation reports the remote node of the directory whose minimum key is `b`, with
its address. If the node of the cache that covers `b` is coarser, it is split there, and
the new one carries the address; if it has this minimum, it takes the address over, if it
is a boundary (`Settled`).

An orphan with this minimum, and the leftmost node, stay as they are: there is no chain
of nodes for `b`, and the call abandons the update (`Node.Abandons`). This is so already
when the leftmost node gets this minimum by the data entry that the call installs
before. Otherwise, the address of `b` is the reported one after the call
(`gatherPrevs_mirrorReconcile`).
-/

namespace DiscoSkip.SkipVector

open Lib

variable {K A : Type*} [LinearOrder K]

/-! ## The data entry -/

section Node

variable {T : Type*}

/-- The minimum key of the node is `b`, when `k` is inserted into it. -/
def Node.Leads (k b : K) (n : Node K T A) : Prop :=
  n.v.first = some b ∨ k = b ∧ ∀ e ∈ n.v, b < e.1

instance (k b : K) (n : Node K T A) : Decidable (n.Leads k b) :=
  inferInstanceAs (Decidable (_ ∨ _))

/-- The node is the one of `b` in the directory, and no boundary, so that a
    reconciliation leaves its address as it is. -/
def Node.Abandons (k b : K) (n : Node K T A) : Prop := n.orphan = true ∧ n.Leads k b

instance (k b : K) (n : Node K T A) : Decidable (n.Abandons k b) :=
  inferInstanceAs (Decidable (_ ∧ _))

variable {k b : K} {x : T} {n n' : Node K T A} {lo hi : VectorSfra K T}

theorem Node.leads_iff (hn : n.v = lo ++ hi) (hv : KeySorted (lo ++ hi)) (hc : Cut k lo hi)
    (hk : hi.first ≠ some k) (hb : b ≤ k) :
    n.Leads k b ↔ VectorSfra.first (lo ++ (k, x) :: hi) = some b := by
  rw [Leads, hn]
  cases lo with
  | nil =>
    change hi.first = some b ∨ (k = b ∧ ∀ e ∈ hi, b < e.1) ↔ some k = some b
    rw [Option.some.injEq]
    constructor
    · rintro (hf | ⟨rfl, -⟩)
      · obtain ⟨y, t, rfl⟩ := VectorSfra.first_eq_some.1 hf
        exact le_antisymm (hc.hi _ List.mem_cons_self) hb
      · rfl
    · rintro rfl
      refine .inr ⟨rfl, fun e he => lt_of_le_of_ne (hc.hi e he) fun heq => hk ?_⟩
      exact (VectorSfra.mem_iff_first hv hc).1 ⟨e, he, heq.symm⟩
  | cons e lo =>
    refine or_iff_left ?_
    rintro ⟨rfl, hall⟩
    exact absurd (hall e (by simp)) (lt_asymm (hc.lo e List.mem_cons_self))

/-- What inserting an entry puts in place of a node: the node itself, and what it sheds,
    with the address of the insertion. -/
theorem Node.insert_nodes {capacity : ℕ} (hcap : 0 < capacity) (hv : KeySorted n.v)
    (hb : b ≤ k) (fresh : ℕ) (x : T) (addr : A) :
    ∃ n' rest, (n.insert capacity fresh (k, x) addr).nodes = n' :: rest ∧
      n'.orphan = n.orphan ∧ n'.remoteAddr = n.remoteAddr ∧
      (n'.v.first = some b ↔ n.Leads k b) ∧ ∀ q ∈ rest, q.remoteAddr = addr := by
  obtain ⟨lo, hi, hn, hc⟩ := hv.exists_cut k
  rw [hn] at hv
  rw [Node.insert, hn]
  by_cases hk : VectorSfra.first hi = some k
  · rw [VectorSfra.insert_eq_exists hv hc hk]
    refine ⟨n, [], rfl, rfl, rfl, (or_iff_left ?_).symm, List.forall_mem_nil _⟩
    rintro ⟨rfl, hall⟩
    obtain ⟨e, he, rfl⟩ := (VectorSfra.mem_iff_first hv hc).2 hk
    exact absurd (hall e (hn ▸ he)) (lt_irrefl _)
  rw [leads_iff hn hv hc hk hb]
  by_cases hfull : (lo ++ hi).length = capacity
  · obtain ⟨a, b', hab, happ, ha, -⟩ :=
      VectorSfra.stealHalfAndInsert_spec hv hc hk hfull hcap (Nat.le_refl _) x
    rw [VectorSfra.insert_eq_overfull hv hc hk hfull]
    dsimp only
    rw [hab]
    refine ⟨{ n with v := a }, [_], rfl, rfl, rfl, ?_, by simp⟩
    rw [← happ]
    cases a with
    | nil => exact absurd ha (by simp)
    | cons e a => exact Iff.rfl
  · rw [VectorSfra.insert_eq_ok hv hc hk hfull]
    exact ⟨{ n with v := lo ++ (k, x) :: hi }, [], rfl, rfl, rfl, Iff.rfl, List.forall_mem_nil _⟩

end Node

variable {cfg : Config} {s s' : Cache K A} {k b : K} {n q : Node K A A}

namespace CacheOk

/-- The data entry goes to the node that covers its key. -/
theorem insertDirectory_eq (h : CacheOk cfg s) (k : K) (x addr : A) :
    ∃ pre m post, s.directory = pre ++ m :: post ∧ s.descendToDirectory cfg k = some m ∧
      (s.insertDirectory cfg k x addr).directory =
        pre ++ ((m.insert cfg.capacity s.fresh (k, x) addr).nodes ++ post) := by
  obtain ⟨pre, m, post, hns, hd, -⟩ := h.descendToDirectory_spec k
  have hdir := h.directory
  refine ⟨pre, m, post, hns, hd, ?_⟩
  rw [hns] at hdir
  rw [Cache.insertDirectory, Cache.directorySection, hd]
  dsimp only
  rw [hns, splice_eq hdir.nodup]

theorem mem_of_descendToDirectory (h : CacheOk cfg s) (hd : s.descendToDirectory cfg b = some n) :
    n ∈ s.directory := by
  obtain ⟨pre, n', post, hns, hd', -⟩ := h.descendToDirectory_spec b
  obtain rfl := Option.some.inj (hd.symm.trans hd')
  exact hns ▸ List.mem_append_right _ List.mem_cons_self

/-- A node with the minimum key `b` is the one that covers it. -/
theorem eq_of_first (h : CacheOk cfg s) (hd : s.descendToDirectory cfg b = some n)
    (hq : q ∈ s.directory) (hf : q.v.first = some b) : q = n := by
  obtain ⟨pre, n', post, hns, hd', hcov⟩ := h.descendToDirectory_spec b
  obtain rfl := Option.some.inj (hd.symm.trans hd')
  obtain ⟨y, hy⟩ := exists_mem_of_first hf
  exact hcov.eq_of_mem (hns ▸ hq) hy

/-- An update that is abandoned finds an orphan with the minimum key and the address of
    the node that covered the key before. -/
theorem exists_of_abandons (h : CacheOk cfg s) (hd : s.descendToDirectory cfg b = some n)
    (hb : b ≤ k) (ha : n.Abandons k b) (x addr : A) :
    ∃ q ∈ (s.insertDirectory cfg k x addr).directory,
      q.v.first = some b ∧ q.orphan = true ∧ q.remoteAddr = n.remoteAddr := by
  obtain ⟨pre, m, post, hns, hm, heq⟩ := h.insertDirectory_eq k x addr
  have hmem := h.mem_of_descendToDirectory hm
  obtain ⟨n', rest, hnodes, ho, haddr, hfirst, -⟩ := Node.insert_nodes cfg.capacity_pos
    (h.directory.sorted_mem hmem) hb s.fresh x addr
  rw [heq, hnodes]
  by_cases hnm : n = m
  · subst hnm
    exact ⟨n', by simp, hfirst.2 ha.2, ho.trans ha.1, haddr⟩
  · -- the entry is put into another node, and its key is another one
    have hf : n.v.first = some b := by
      rcases ha.2 with hf | ⟨rfl, -⟩
      · exact hf
      · exact absurd (Option.some.inj (hd.symm.trans hm)) hnm
    refine ⟨n, ?_, hf, ha.1, rfl⟩
    have hn := h.mem_of_descendToDirectory hd
    rw [hns] at hn
    simp only [List.mem_append, List.mem_cons, hnm, false_or] at hn
    simp only [List.mem_append]
    exact hn.imp_right .inr

/-- An orphan with the minimum key is the node that covered the key before, or the one
    that the entry has put off. -/
theorem abandons_of_mem (h : CacheOk cfg s) (hd : s.descendToDirectory cfg b = some n)
    (hb : b ≤ k) {x addr : A} (hq : q ∈ (s.insertDirectory cfg k x addr).directory)
    (hf : q.v.first = some b) (ho : q.orphan = true) :
    n.Abandons k b ∨ q.remoteAddr = addr := by
  obtain ⟨pre, m, post, hns, hm, heq⟩ := h.insertDirectory_eq k x addr
  have hmem := h.mem_of_descendToDirectory hm
  obtain ⟨n', rest, hnodes, ho', -, hfirst, hrest⟩ := Node.insert_nodes cfg.capacity_pos
    (h.directory.sorted_mem hmem) hb s.fresh x addr
  have hold : q ∈ s.directory → n.Abandons k b := fun hq => by
    obtain rfl := h.eq_of_first hd hq hf
    exact ⟨ho, .inl hf⟩
  rw [heq, hnodes] at hq
  rw [hns] at hold
  rcases List.mem_append.1 hq with hq | hq
  · exact .inl (hold (List.mem_append_left _ hq))
  · rcases List.mem_append.1 hq with hq | hq
    · rcases List.mem_cons.1 hq with rfl | hq
      · have hlead := hfirst.1 hf
        have hmn : m = n := by
          rcases hlead with hf | ⟨rfl, -⟩
          · exact h.eq_of_first hd hmem hf
          · exact Option.some.inj (hm.symm.trans hd)
        subst hmn
        exact .inl ⟨ho'.symm.trans ho, hlead⟩
      · exact .inr (hrest q hq)
    · exact .inl (hold (List.mem_append_right _ (List.mem_cons_of_mem _ hq)))

/-- The address that is gathered for the directory is that of the node with the minimum
    key, if there is one. -/
theorem gatherPrevs_of_first (h : CacheOk cfg s) (hq : q ∈ s.directory)
    (hf : q.v.first = some b) (prev : ℕ → A) : s.gatherPrevs cfg b 1 prev 0 = q.remoteAddr := by
  have hlayers := cfg.two_le_layers
  obtain ⟨p, prev', heq, hp, -⟩ := h.gatherIndex_spec b 1
    (by omega : cfg.layers - 1 < cfg.layers) (h.reaches_head (by omega)) prev
  obtain ⟨pre, n, post, hns, hn, hcov⟩ := h.directory.exists_covers hp
  obtain ⟨y, hy⟩ := exists_mem_of_first hf
  obtain rfl := hcov.eq_of_mem (hns ▸ hq) hy
  rw [Cache.gatherPrevs, heq]
  dsimp only
  rw [hn]
  exact Function.update_self 0 q.remoteAddr prev'

end CacheOk

/-! ## The call -/

variable [Inhabited A]

/-- The address of a boundary after its reconciliation. -/
theorem CacheOk.gatherPrevs_of_perform (h : CacheOk cfg s) {dk : K} {da : A}
    {p : PathStep K A} {path : List (PathStep K A)} (hb : p.kMin ≤ dk)
    (hd : s.descendToDirectory cfg p.kMin = some n)
    (hs : s.perform cfg (.mirrorReconcile dk da (p :: path)) = some s') (prev : ℕ → A) :
    s'.gatherPrevs cfg p.kMin 1 prev 0 =
      if n.Abandons dk p.kMin then n.remoteAddr else p.addr := by
  have hstep : (Job.called (.mirrorReconcile dk da (p :: path))).step cfg s =
      (s.insertDirectory cfg dk da p.addr,
        some (.split p.kMin p.firstDown (.mirrorReconcile dk da (p :: path)))) := rfl
  obtain ⟨hok₁, -⟩ := h.insertDirectory_spec dk da p.addr
  set s₁ := s.insertDirectory cfg dk da p.addr with hs₁
  rw [Cache.perform, Job.run_of_some hstep] at hs
  have hc : (Call.mirrorReconcile dk da (p :: path)).Valid cfg := trivial
  obtain ⟨hok', hdir, -⟩ := Job.splitDirectory_again (fun s => rfl) hok₁ hc hs
  obtain ⟨s₂, r, hs₂⟩ : ∃ s₂ r,
      s₁.mirrorSplitDirectory cfg p.kMin p.firstDown p.addr = (s₂, r) := ⟨_, _, rfl⟩
  have hdir : s'.directory = s₂.directory := hdir.trans (congrArg (·.1.directory) hs₂)
  obtain ⟨q, hq, hset, hself⟩ := hok₁.exists_settled_directory hs₂
  rw [hok'.gatherPrevs_of_first (hdir ▸ hq) hset.first]
  split
  · next ha =>
    -- the orphan is what the split finds, and it is abandoned
    obtain ⟨q₁, hq₁, hf₁, ho₁, haddr⟩ := h.exists_of_abandons hd hb ha da p.addr
    have hset₁ : Settled p.kMin p.addr q₁ none := ⟨hf₁, .inl ⟨ho₁, rfl⟩⟩
    have hnone := hok₁.mirrorSplitDirectory_self hq₁ hset₁ p.firstDown
    obtain ⟨rfl, rfl⟩ := Prod.mk.inj (hnone.symm.trans hs₂)
    obtain ⟨pre, n₁, post, hns, hd₁, -⟩ := hok₁.descendToDirectory_spec p.kMin
    rw [hok₁.eq_of_first hd₁ hq hset.first, ← hok₁.eq_of_first hd₁ hq₁ hf₁, haddr]
  · next ha =>
    rcases hset.usable with ⟨ho, hr⟩ | ⟨-, haddr, -⟩
    · exact (h.abandons_of_mem hd hb (hself hr) hset.first ho).resolve_left ha
    · exact haddr

variable {tr : List (Threads.Action K A)} {t : Threads K A}

/-- After any calls, in any interleaving of their sections, a reconciliation brings the
    address of its boundary to the reported one, but for the updates it abandons: the
    address stays that of the node that covered the boundary before. -/
theorem gatherPrevs_mirrorReconcile (h : (Threads.machine cfg).Run (Threads.Guard cfg) tr t)
    (dk : K) (da : A) (p : PathStep K A) (path : List (PathStep K A)) (hb : p.kMin ≤ dk) :
    ∃ n s, t.cache.descendToDirectory cfg p.kMin = some n ∧
      t.cache.perform cfg (.mirrorReconcile dk da (p :: path)) = some s ∧
      ∀ prev : ℕ → A, s.gatherPrevs cfg p.kMin 1 prev 0 =
        if n.Abandons dk p.kMin then n.remoteAddr else p.addr := by
  have hok := (Parented.run h).ok
  obtain ⟨-, n, -, -, hd, -⟩ := hok.descendToDirectory_spec p.kMin
  obtain ⟨M, hM⟩ := hok.exists_mirrors
  obtain ⟨s, hs, -⟩ := SkipVector.perform_spec (c := .mirrorReconcile dk da (p :: path))
    hok hM trivial
  exact ⟨n, s, hd, hs, hok.gatherPrevs_of_perform hb hd hs⟩

theorem gatherPrevs_interleaved : ∃ tr, ∃ t : Threads ℕ ℕ,
    (Threads.machine Config.small).Run (Threads.Guard Config.small) tr t ∧
      (tr.length = 15 ∧ 15 ≤ 25) ∧
      ∃ n s, t.cache.descendToDirectory Config.small 15 = some n ∧
        t.cache.perform Config.small (.mirrorReconcile 25 125 [⟨15, 215, 7⟩]) = some s ∧
        ∀ prev : ℕ → ℕ, s.gatherPrevs Config.small 15 1 prev 0 =
          if n.Abandons 25 15 then n.remoteAddr else 215 := by
  obtain ⟨tr, t, h, ht⟩ := Machine.exists_run_of_play (G := Threads.Guard Config.small)
    (m := Threads.machine (K := ℕ) (A := ℕ) Config.small) (fun p => p.1.length) interleaved
    (b := 15) (by decide +kernel)
  have hle : 15 ≤ 25 := by decide
  exact ⟨tr, t, h, ⟨ht, hle⟩, gatherPrevs_mirrorReconcile h 25 125 ⟨15, 215, 7⟩ [] hle⟩

/-- The first entry of an empty cache goes to the leftmost node, and its boundary has no
    address then. -/
theorem not_gatherPrevs_addr : ¬ ∀ (tr : List (Threads.Action ℕ ℕ)) (t : Threads ℕ ℕ),
    (Threads.machine Config.small).Run (Threads.Guard Config.small) tr t →
    ∀ (dk da : ℕ) (p : PathStep ℕ ℕ) (path : List (PathStep ℕ ℕ)), p.kMin ≤ dk →
    ∀ s, t.cache.perform Config.small (.mirrorReconcile dk da (p :: path)) = some s →
    ∀ prev : ℕ → ℕ, s.gatherPrevs Config.small p.kMin 1 prev 0 = p.addr := by
  intro h
  have haddr := h [] _ .nil 10 5 ⟨10, 7, 6⟩ [] (le_refl 10) _ rfl fun _ => 0
  exact absurd haddr (by decide)

end DiscoSkip.SkipVector
