import Mathlib.Data.List.Nodup
import DiscoSkip.SkipVector.Layer

/-!
# Descending the layers

A cache is *well formed* (`CacheOk`) if its layers are, and the entries of every
index layer point to non-orphans of the layer below, with the same first keys.

Then a descent is always at a node it can walk to the right from, to the node
that covers the key (`descend_reaches`), whatever entries are missing: it goes
on with a node whose first key is not above the key, or with the head. So the
sections of the layers are at the nodes that cover their keys, and keep the cache
well formed (`directorySection_spec`, `indexSection_spec`).
-/

namespace DiscoSkip.SkipVector

open Lib

section Layer

variable {K T A : Type*} [LinearOrder K]

/-- The node of the pointer `p` is one to walk to the right from. -/
def Reaches (k : K) (ns : List (Node K T A)) (p : ℕ) : Prop :=
  ∃ pre c post, ns = pre ++ c :: post ∧ c.id = p ∧ Before k c

variable {capacity fresh : ℕ} {k k' : K} {ns : List (Node K T A)} {c c' p : ℕ}

/-- The boundaries of a layer are among its nodes. -/
theorem reaches_of_mem_nonOrphans (hm : (c, some k') ∈ nonOrphans ns) (hk : k' ≤ k) :
    Reaches k ns c := by
  obtain ⟨n, hn, -, heq⟩ := mem_nonOrphans.1 hm
  obtain ⟨rfl, hf⟩ := Prod.mk.inj heq
  obtain ⟨pre, post, rfl⟩ := List.append_of_mem hn
  exact ⟨pre, n, post, rfl, rfl, .inr ⟨k', hf.symm, hk⟩⟩

namespace LayerOk

theorem reaches_head (h : LayerOk capacity fresh ns) : Reaches k ns head := by
  obtain ⟨n, t, rfl, hid, -⟩ := h.leftmost
  exact ⟨[], n, t, rfl, hid, .inl hid⟩

/-- The walk to the right ends at the node that covers the key. -/
theorem exists_covers (h : LayerOk capacity fresh ns) (hp : Reaches k ns p) :
    ∃ pre n post, ns = pre ++ n :: post ∧ checkNext k (nodesFrom ns p) = some n ∧
      Covers k pre n post := by
  obtain ⟨pre, c, post, rfl, rfl, hc⟩ := hp
  rw [nodesFrom_eq h.nodup]
  exact h.checkNext_spec hc

theorem mono {fresh' : ℕ} (h : LayerOk capacity fresh ns) (hle : fresh ≤ fresh') :
    LayerOk capacity fresh' ns :=
  { h with id_lt := fun n hn => Nat.lt_of_lt_of_le (h.id_lt n hn) hle }

/-- The boundaries of a layer have different keys. -/
theorem boundary_unique (h : LayerOk capacity fresh ns) (hc : (c, some k) ∈ nonOrphans ns)
    (hc' : (c', some k) ∈ nonOrphans ns) : c = c' := by
  obtain ⟨n, hn, -, heq⟩ := mem_nonOrphans.1 hc
  obtain ⟨n', hn', -, heq'⟩ := mem_nonOrphans.1 hc'
  obtain ⟨rfl, hf⟩ := Prod.mk.inj heq
  obtain ⟨rfl, hf'⟩ := Prod.mk.inj heq'
  obtain ⟨x, t, hv⟩ := VectorSfra.first_eq_some.1 hf.symm
  obtain ⟨x', t', hv'⟩ := VectorSfra.first_eq_some.1 hf'.symm
  have hk : (k, x) ∈ n.v := hv ▸ List.mem_cons_self
  have hk' : (k, x') ∈ n'.v := hv' ▸ List.mem_cons_self
  obtain ⟨pre, post, rfl⟩ := List.append_of_mem hn
  have hs := h.sorted
  rw [entries_append, entries_cons] at hs
  rcases List.mem_append.1 hn' with hm | hm
  · exact absurd (hs.lt_of_append (mem_entries.2 ⟨n', hm, hk'⟩) (List.mem_append_left _ hk))
      (lt_irrefl k)
  · rcases List.mem_cons.1 hm with rfl | hm
    · rfl
    · exact absurd (hs.right.lt_of_append hk (mem_entries.2 ⟨n', hm, hk'⟩)) (lt_irrefl k)

/-- The nodes of a layer have different pointers. -/
theorem key_unique {f f' : Option K} (h : LayerOk capacity fresh ns) (hf : (c, f) ∈ nonOrphans ns)
    (hf' : (c, f') ∈ nonOrphans ns) : f = f' := by
  obtain ⟨n, hn, -, heq⟩ := mem_nonOrphans.1 hf
  obtain ⟨n', hn', -, heq'⟩ := mem_nonOrphans.1 hf'
  obtain ⟨hid, rfl⟩ := Prod.mk.inj heq
  obtain ⟨hid', rfl⟩ := Prod.mk.inj heq'
  rw [List.inj_on_of_nodup_map h.nodup hn hn' (hid.symm.trans hid')]

end LayerOk

/-- The key of a section is there after it. -/
theorem Written.exists_key {x : T} {ns' : List (Node K T A)} {r : Option ℕ}
    (h : Written k x ns ns' r) : (k, x) ∈ entries ns' ∨ ∃ y, (k, y) ∈ entries ns := by
  by_cases hk : ∃ e ∈ entries ns, e.1 = k
  · obtain ⟨⟨k', y⟩, hm, rfl⟩ := hk
    exact .inr ⟨y, hm⟩
  · exact .inl ((h.mem_entries _).2 (.inr ⟨rfl, fun e he heq => hk ⟨e, he, heq⟩⟩))

end Layer

variable {K A : Type*} [LinearOrder K] {cfg : Config} {s : Cache K A} {k : K}

/-- The well-formed caches. -/
structure CacheOk (cfg : Config) (s : Cache K A) : Prop where
  directory : LayerOk cfg.capacity s.fresh s.directory
  index : ∀ L, L + 1 < cfg.layers → LayerOk cfg.capacity s.fresh (s.index (L + 1))
  down : ∀ L, L + 1 < cfg.layers → ∀ e ∈ entries (s.index (L + 1)),
    (e.2, some e.1) ∈ s.nonOrphans L

namespace Cache

/-- The node `p` of the layer `L` is one to walk to the right from. -/
def Reaches (s : Cache K A) (k : K) : ℕ → ℕ → Prop
  | 0, p => SkipVector.Reaches k s.directory p
  | L + 1, p => SkipVector.Reaches k (s.index (L + 1)) p

theorem reaches_of_mem_nonOrphans {L c : ℕ} {k' : K} (hm : (c, some k') ∈ s.nonOrphans L)
    (hk : k' ≤ k) : s.Reaches k L c := by
  cases L with
  | zero => exact SkipVector.reaches_of_mem_nonOrphans hm hk
  | succ L => exact SkipVector.reaches_of_mem_nonOrphans hm hk

end Cache

namespace CacheOk

theorem reaches_head (h : CacheOk cfg s) {L : ℕ} (hL : L < cfg.layers) : s.Reaches k L head := by
  cases L with
  | zero => exact h.directory.reaches_head
  | succ L => exact (h.index L hL).reaches_head

theorem boundary_unique (h : CacheOk cfg s) {L c c' : ℕ} (hL : L < cfg.layers)
    (hc : (c, some k) ∈ s.nonOrphans L) (hc' : (c', some k) ∈ s.nonOrphans L) : c = c' := by
  cases L with
  | zero => exact h.directory.boundary_unique hc hc'
  | succ L => exact (h.index L hL).boundary_unique hc hc'

theorem key_unique (h : CacheOk cfg s) {L c : ℕ} {f f' : Option K} (hL : L < cfg.layers)
    (hf : (c, f) ∈ s.nonOrphans L) (hf' : (c, f') ∈ s.nonOrphans L) : f = f' := by
  cases L with
  | zero => exact h.directory.key_unique hf hf'
  | succ L => exact (h.index L hL).key_unique hf hf'

/-- Down pointers are followed to nodes to walk to the right from. -/
theorem follow_reaches (h : CacheOk cfg s) {L p : ℕ} (hL : L + 1 < cfg.layers)
    (hp : s.Reaches k (L + 1) p) : s.Reaches k L (s.follow k (L + 1) p) := by
  obtain ⟨pre, n, post, hns, hn, hcov⟩ := (h.index L hL).exists_covers hp
  have hmem : n ∈ s.index (L + 1) := hns ▸ List.mem_append_right _ List.mem_cons_self
  rw [Cache.follow, hn]
  dsimp only
  cases hf : n.v.findLte k with
  | none => exact h.reaches_head (Nat.lt_of_succ_lt hL)
  | some e =>
    obtain ⟨he, hek⟩ := VectorSfra.findLte_mem ((h.index L hL).sorted_mem hmem) hf
    exact Cache.reaches_of_mem_nonOrphans (h.down L hL e (mem_entries.2 ⟨n, hmem, he⟩)) hek

theorem descend_reaches (h : CacheOk cfg s) {target d p : ℕ} (hd : target + d < cfg.layers)
    (hp : s.Reaches k (target + d) p) : s.Reaches k target (s.descend k target d p) := by
  induction d generalizing p with
  | zero => exact hp
  | succ d ih => exact ih (Nat.lt_of_succ_lt hd) (h.follow_reaches hd hp)

/-- The descent to the directory ends at the node that covers the key. -/
theorem descendToDirectory_spec (h : CacheOk cfg s) (k : K) :
    ∃ pre n post, s.directory = pre ++ n :: post ∧ s.descendToDirectory cfg k = some n ∧
      Covers k pre n post := by
  have hpos := cfg.two_le_layers
  have hp : s.Reaches k 0 (s.descend k 0 (cfg.layers - 1) head) :=
    h.descend_reaches (by omega) (h.reaches_head (by omega))
  exact h.directory.exists_covers hp

/-- The descent to an index layer ends at the node that covers the key. -/
theorem descendToIndexLevel_spec (h : CacheOk cfg s) (k : K) {L : ℕ} (hL : L + 1 < cfg.layers) :
    ∃ pre n post, s.index (L + 1) = pre ++ n :: post ∧
      s.descendToIndexLevel cfg k (L + 1) = some n ∧ Covers k pre n post := by
  have hp : s.Reaches k (L + 1) (s.descend k (L + 1) (cfg.layers - 1 - (L + 1)) head) :=
    h.descend_reaches (by omega) (h.reaches_head (by omega))
  exact (h.index L hL).exists_covers hp

end CacheOk

/-! ## The sections -/

/-- A section of the layer `L₀` for the key `k` takes the cache `s` to `s'`, and
    returns `r`: the entries of the index layers stay, and so do the non-orphans of
    all, with that of `r` added. -/
structure Cache.Effect (s s' : Cache K A) (L₀ : ℕ) (k : K) (r : Option ℕ) : Prop where
  entries_mono : ∀ L e, e ∈ entries (s.index L) → e ∈ entries (s'.index L)
  mem_nonOrphans : ∀ L p, p ∈ s'.nonOrphans L ↔
    p ∈ s.nonOrphans L ∨ L = L₀ ∧ ∃ c, r = some c ∧ p = (c, some k)

omit [LinearOrder K] in
theorem Written.directory_effect {x : A} {ns : List (Node K A A)} {r : Option ℕ}
    (h : Written k x s.directory ns r) (fresh : ℕ) :
    s.Effect { s with directory := ns, fresh := fresh } 0 k r := by
  refine ⟨fun L e he => he, fun L p => ?_⟩
  cases L with
  | zero => exact (h.mem_nonOrphans p).trans (or_congr_right (and_iff_right rfl).symm)
  | succ L => exact ⟨.inl, fun hp => hp.resolve_right fun hp => absurd hp.1 (by simp)⟩

omit [LinearOrder K] in
theorem Written.index_effect {L child : ℕ} {ns : List (Node K ℕ A)} {r : Option ℕ}
    (h : Written k child (s.index (L + 1)) ns r) (fresh : ℕ) :
    s.Effect { s with index := Function.update s.index (L + 1) ns, fresh := fresh }
      (L + 1) k r := by
  constructor
  · intro L' e he
    by_cases hL : L' = L + 1
    · subst hL
      dsimp only
      rw [Function.update_self]
      exact (h.mem_entries e).2 (.inl he)
    · dsimp only
      rwa [Function.update_of_ne hL]
  · intro L' p
    by_cases hL : L' = L + 1
    · subst hL
      simp only [Cache.nonOrphans, Function.update_self, true_and]
      exact h.mem_nonOrphans p
    · rw [or_iff_left fun hp => hL hp.1]
      cases L' with
      | zero => rfl
      | succ L' => simp only [Cache.nonOrphans, Function.update_of_ne hL]

namespace CacheOk

variable {s' : Cache K A} {r : Option ℕ}

/-- A section of the directory. -/
theorem directorySection_spec (h : CacheOk cfg s) {x : A} {f : ℕ → Node K A A → Edit K A A}
    (hf : EditOk cfg.capacity k x f) (hs : s.directorySection cfg k f = (s', r)) :
    CacheOk cfg s' ∧ Written k x s.directory s'.directory r ∧ s.Effect s' 0 k r := by
  obtain ⟨pre, n, post, hns, hd, hcov⟩ := h.descendToDirectory_spec k
  obtain ⟨hok, hw, hle⟩ := h.directory.splice_edit hns hcov hf
  rw [Cache.directorySection, hd] at hs
  obtain ⟨rfl, rfl⟩ := Prod.mk.inj hs
  have heff := hw.directory_effect (f s.fresh n).fresh
  refine ⟨⟨hok, fun L hL => (h.index L hL).mono hle, fun L hL e he => ?_⟩, hw, heff⟩
  exact (heff.mem_nonOrphans L _).2 (.inl (h.down L hL e he))

/-- A section of an index layer, for a node of the layer below: the node has an
    entry after it. -/
theorem indexSection_spec (h : CacheOk cfg s) {L child : ℕ} (hL : L + 1 < cfg.layers)
    (hchild : (child, some k) ∈ s.nonOrphans L) {f : ℕ → Node K ℕ A → Edit K ℕ A}
    (hf : EditOk cfg.capacity k child f) (hs : s.indexSection cfg k (L + 1) f = (s', r)) :
    CacheOk cfg s' ∧ (k, child) ∈ entries (s'.index (L + 1)) ∧ s'.directory = s.directory ∧
      s.Effect s' (L + 1) k r := by
  obtain ⟨pre, n, post, hns, hd, hcov⟩ := h.descendToIndexLevel_spec k hL
  obtain ⟨hok, hw, hle⟩ := (h.index L hL).splice_edit hns hcov hf
  rw [Cache.indexSection, hd] at hs
  obtain ⟨rfl, rfl⟩ := Prod.mk.inj hs
  have heff := hw.index_effect (f s.fresh n).fresh
  have hmono := fun L' p hp => (heff.mem_nonOrphans L' p).2 (.inl hp)
  refine ⟨⟨h.directory.mono hle, fun L' hL' => ?_, fun L' hL' e he => ?_⟩, ?_, rfl, heff⟩
  · by_cases hne : L' + 1 = L + 1
    · dsimp only
      rwa [hne, Function.update_self]
    · dsimp only
      rw [Function.update_of_ne hne]
      exact (h.index L' hL').mono hle
  · apply hmono
    by_cases hne : L' + 1 = L + 1
    · obtain rfl : L' = L := Nat.succ.inj hne
      dsimp only at he
      rw [Function.update_self] at he
      rcases (hw.mem_entries e).1 he with he | ⟨rfl, -⟩
      · exact h.down L' hL e he
      · exact hchild
    · dsimp only at he
      rw [Function.update_of_ne hne] at he
      exact h.down L' hL' e he
  · dsimp only
    rw [Function.update_self]
    rcases hw.exists_key with hk | ⟨y, hk⟩
    · exact hk
    · -- an entry of the key is one to the same node
      obtain rfl := h.boundary_unique (Nat.lt_of_succ_lt hL) (h.down L hL _ hk) hchild
      exact (hw.mem_entries _).2 (.inl hk)

end CacheOk

end DiscoSkip.SkipVector
