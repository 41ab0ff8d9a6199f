import DiscoSkip.SkipVector.Fidelity
import DiscoSkip.SkipVector.Locate

/-!
# Gathering the addresses for an insertion

To insert a key at the remote index, a client needs at every level the remote node
that covers the key. It gathers their addresses in one descent of its cache
(`Cache.gatherPrevs`): each is that of the node the walk to the right ends at, before
it goes on with the layer below.

In a well-formed cache this is the node that covers the key at its level, wherever the
descent came from: the one with the greatest first key that is not above the key, or
the leftmost one if there is none (`Covered`, `gatherPrevs_covered`).
-/

namespace DiscoSkip.SkipVector

open Lib

namespace Cache

variable {K A : Type*} [LinearOrder K]

/-- Writing the remote address of a node that the walk ended at. -/
def writePrev {T : Type*} (prev : ℕ → A) (level : ℕ) (curr : Option (Node K T A)) : ℕ → A :=
  (curr.map Node.remoteAddr).elim prev (Function.update prev level)

/-- Descending the index layers from `curr` on, writing the addresses of the levels
    below `height`. -/
def gatherIndex (s : Cache K A) (k : K) (height : ℕ) : ℕ → ℕ → (ℕ → A) → ℕ × (ℕ → A)
  | 0, curr, prev => (curr, prev)
  | layer + 1, curr, prev =>
    let prev := if layer + 1 < height then
        writePrev prev (layer + 1) (checkNext k (nodesFrom (s.index (layer + 1)) curr))
      else prev
    s.gatherIndex k height layer (s.follow k (layer + 1) curr) prev

/-- The addresses of the nodes that cover `k` at the levels below `height`, written over
    `prev`. -/
def gatherPrevs (cfg : Config) (s : Cache K A) (k : K) (height : ℕ) (prev : ℕ → A) : ℕ → A :=
  let (curr, prev) := s.gatherIndex k height (cfg.layers - 1) head prev
  writePrev prev 0 (checkNext k (nodesFrom s.directory curr))

/-- The leftmost node of a layer gets its remote address. -/
def setHeadAddr {T : Type*} (a : A) : List (Node K T A) → List (Node K T A)
  | [] => []
  | h :: ns => { h with remoteAddr := a } :: ns

/-- The remote addresses of the leftmost nodes are known. -/
def setHeadRemoteAddrs (cfg : Config) (s : Cache K A) (addrs : ℕ → A) : Cache K A :=
  { s with
    directory := setHeadAddr (addrs 0) s.directory
    index := fun L => if L < cfg.layers then setHeadAddr (addrs L) (s.index L) else s.index L }

end Cache

/-- What a sequential client does with its cache. -/
inductive Op (K A : Type*)
  | call (c : Call K A)
  | setHeadRemoteAddrs (addrs : ℕ → A)

namespace Op

variable {K A : Type*} [LinearOrder K] [Inhabited A]

def Valid (cfg : Config) : Op K A → Prop
  | call c => c.Valid cfg
  | setHeadRemoteAddrs _ => True

instance (cfg : Config) : (o : Op K A) → Decidable (o.Valid cfg)
  | call c => inferInstanceAs (Decidable (c.Valid cfg))
  | setHeadRemoteAddrs _ => inferInstanceAs (Decidable True)

def perform (cfg : Config) (s : Cache K A) : Op K A → Option (Cache K A)
  | call c => s.perform cfg c
  | setHeadRemoteAddrs addrs => some (s.setHeadRemoteAddrs cfg addrs)

/-- One after the other. -/
def performAll (cfg : Config) : List (Op K A) → Cache K A → Option (Cache K A)
  | [], s => some s
  | o :: ops, s => (o.perform cfg s).bind (performAll cfg ops)

end Op

/-! ## Well-formed caches -/

section SetHead

variable {K T A : Type*} {a : A} {ns : List (Node K T A)}

theorem entries_setHeadAddr : entries (Cache.setHeadAddr a ns) = entries ns := by
  cases ns <;> rfl

theorem nonOrphans_setHeadAddr : nonOrphans (Cache.setHeadAddr a ns) = nonOrphans ns := by
  cases ns with
  | nil => rfl
  | cons h ns => cases ho : h.orphan <;> simp [Cache.setHeadAddr, nonOrphans, ho]

theorem LayerOk.setHeadAddr [LinearOrder K] {capacity fresh : ℕ} (h : LayerOk capacity fresh ns) :
    LayerOk capacity fresh (Cache.setHeadAddr a ns) := by
  obtain ⟨n, t, rfl, hid, ho⟩ := h.leftmost
  have hmem {m : Node K T A} (hm : m ∈ Cache.setHeadAddr a (n :: t)) :
      ∃ m' ∈ n :: t, m.id = m'.id ∧ m.v = m'.v := by
    rcases List.mem_cons.1 hm with rfl | hm
    · exact ⟨n, List.mem_cons_self, rfl, rfl⟩
    · exact ⟨m, List.mem_cons_of_mem _ hm, rfl, rfl⟩
  refine ⟨h.sorted, fun m hm => ?_, fun m hm h0 => ?_, ⟨_, t, rfl, hid, ho⟩,
    h.nodup, fun m hm => ?_⟩
  · obtain ⟨m', hm', -, hv⟩ := hmem hm
    rw [hv]
    exact h.size_le m' hm'
  · obtain ⟨m', hm', hid, hv⟩ := hmem hm
    rw [hid]
    exact h.nonempty m' hm' (hv ▸ h0)
  · obtain ⟨m', hm', hid, -⟩ := hmem hm
    rw [hid]
    exact h.id_lt m' hm'

end SetHead

variable {K A : Type*} [LinearOrder K] {cfg : Config} {s : Cache K A}

theorem CacheOk.setHeadRemoteAddrs (h : CacheOk cfg s) (addrs : ℕ → A) :
    CacheOk cfg (s.setHeadRemoteAddrs cfg addrs) := by
  have hent : ∀ L, entries ((s.setHeadRemoteAddrs cfg addrs).index L) = entries (s.index L) := by
    intro L
    dsimp only [Cache.setHeadRemoteAddrs]
    split
    · exact entries_setHeadAddr
    · rfl
  have hnon : ∀ L, (s.setHeadRemoteAddrs cfg addrs).nonOrphans L = s.nonOrphans L := by
    intro L
    cases L with
    | zero => exact nonOrphans_setHeadAddr
    | succ L =>
      dsimp only [Cache.setHeadRemoteAddrs, Cache.nonOrphans]
      split
      · exact nonOrphans_setHeadAddr
      · rfl
  refine ⟨h.directory.setHeadAddr, fun L hL => ?_, fun L hL e he => ?_⟩
  · dsimp only [Cache.setHeadRemoteAddrs]
    rw [if_pos hL]
    exact (h.index L hL).setHeadAddr
  · rw [hent] at he
    rw [hnon]
    exact h.down L hL e he

/-- A well-formed cache has a map. -/
theorem CacheOk.exists_mirrors (h : CacheOk cfg s) : ∃ M, Mirrors M s := by
  classical
  refine ⟨fun k => if hk : ∃ a, (k, a) ∈ entries s.directory then some hk.choose else none,
    fun k a => ?_⟩
  dsimp only
  split
  · next hk =>
    rw [Option.some.injEq]
    refine ⟨fun ha => ha ▸ hk.choose_spec, fun ha => ?_⟩
    exact h.directory.sorted.eq_of_mem hk.choose_spec ha
  · next hk => exact ⟨fun ha => absurd ha (by simp), fun ha => absurd ⟨a, ha⟩ hk⟩

section Perform

variable [Inhabited A]

theorem Op.perform_spec {o : Op K A} (h : CacheOk cfg s) (ho : o.Valid cfg) :
    ∃ s', o.perform cfg s = some s' ∧ CacheOk cfg s' := by
  cases o with
  | call c =>
    obtain ⟨M, hM⟩ := h.exists_mirrors
    obtain ⟨s', hs, hok, -⟩ := SkipVector.perform_spec h hM ho
    exact ⟨s', hs, hok⟩
  | setHeadRemoteAddrs addrs => exact ⟨_, rfl, h.setHeadRemoteAddrs addrs⟩

theorem Op.performAll_spec {ops : List (Op K A)} (h : CacheOk cfg s)
    (hops : ∀ o ∈ ops, o.Valid cfg) :
    ∃ s', performAll cfg ops s = some s' ∧ CacheOk cfg s' := by
  induction ops generalizing s with
  | nil => exact ⟨s, rfl, h⟩
  | cons o ops ih =>
    obtain ⟨s₁, hs₁, hok⟩ := perform_spec h (hops o List.mem_cons_self)
    obtain ⟨s₂, hs₂, hok₂⟩ := ih hok fun o ho => hops o (List.mem_cons_of_mem _ ho)
    refine ⟨s₂, ?_, hok₂⟩
    rw [performAll, hs₁, Option.bind_some, hs₂]

end Perform

/-! ## The nodes that cover a key -/

/-- The address of the node that covers `k`: the one of the greatest first key that is not
    above `k`, or the leftmost one, if no other has such a key. -/
def Covered (ls : List (NodeLabel K A)) (k : K) (a : A) : Prop :=
  (∃ l ∈ ls.tail, l.remoteAddr = a ∧ ∃ f, l.first = some f ∧
      IsGreatest {f | f ≤ k ∧ ∃ l ∈ ls.tail, l.first = some f} f) ∨
    (∀ l ∈ ls.tail, ∀ f, l.first = some f → k < f) ∧ ls.head?.map NodeLabel.remoteAddr = some a

section Layer

variable {T : Type*} {capacity fresh : ℕ} {k : K} {ns pre post : List (Node K T A)}
  {n : Node K T A}

omit [LinearOrder K] in
theorem mem_entries_of_first {f : K} (hn : n ∈ ns) (hf : n.v.first = some f) :
    ∃ x, (f, x) ∈ entries ns := by
  obtain ⟨x, t, hv⟩ := VectorSfra.first_eq_some.1 hf
  exact ⟨x, mem_entries.2 ⟨n, hn, hv ▸ List.mem_cons_self⟩⟩

theorem LayerOk.covered (h : LayerOk capacity fresh (pre ++ n :: post))
    (hcov : Covers k pre n post) :
    Covered ((pre ++ n :: post).map Node.label) k n.remoteAddr := by
  have hpost : ∀ m ∈ post, ∀ f, m.v.first = some f → k < f := by
    intro m hm f hf
    obtain ⟨x, hx⟩ := mem_entries_of_first hm hf
    exact hcov.lt_post _ hx
  rcases hcov.before with hid | ⟨f, hf, hfk⟩
  · obtain rfl := h.eq_nil_of_head hid
    refine .inr ⟨fun l hl f hf => ?_, rfl⟩
    obtain ⟨m, hm, rfl⟩ := List.mem_map.1 hl
    exact hpost m hm f hf
  · cases pre with
    | nil =>
      refine .inr ⟨fun l hl f hf => ?_, rfl⟩
      obtain ⟨m, hm, rfl⟩ := List.mem_map.1 hl
      exact hpost m hm f hf
    | cons m₀ pre =>
      have hmem : n.label ∈ ((m₀ :: pre ++ n :: post).map Node.label).tail :=
        List.mem_map_of_mem (List.mem_append_right _ List.mem_cons_self)
      refine .inl ⟨n.label, hmem, rfl, f, hf, ⟨hfk, n.label, hmem, hf⟩, ?_⟩
      rintro f' ⟨hf'k, l, hl, hf'⟩
      obtain ⟨m, hm, rfl⟩ := List.mem_map.1 hl
      rcases List.mem_append.1 hm with hm | hm
      · -- the keys before the node are below its own
        have hlt := h.lt_of_before (.inr ⟨f, hf, le_refl f⟩)
        obtain ⟨x, hx⟩ := mem_entries_of_first (List.mem_cons_of_mem m₀ hm) hf'
        exact (hlt _ hx).le
      · rcases List.mem_cons.1 hm with rfl | hm
        · exact (Option.some.inj (hf'.symm.trans hf)).le
        · exact absurd hf'k (not_le.2 (hpost m hm f' hf'))

/-- What the walk to the right from a node writes. -/
theorem LayerOk.covered_writePrev (h : LayerOk capacity fresh ns) {p : ℕ} (hp : Reaches k ns p)
    (prev : ℕ → A) (level : ℕ) :
    ∃ a, Covered (ns.map Node.label) k a ∧
      Cache.writePrev prev level (checkNext k (nodesFrom ns p)) = Function.update prev level a := by
  obtain ⟨pre, n, post, rfl, hn, hcov⟩ := h.exists_covers hp
  rw [hn]
  exact ⟨n.remoteAddr, h.covered hcov, rfl⟩

end Layer

variable {k : K} {height : ℕ}

/-- The descent of the index layers writes the levels from `1` to `layer`, below
    `height`. -/
theorem CacheOk.gatherIndex_spec (h : CacheOk cfg s) (k : K) (height : ℕ) {layer curr : ℕ}
    (hL : layer < cfg.layers)
    (hp : s.Reaches k layer curr) (prev : ℕ → A) :
    ∃ p prev', s.gatherIndex k height layer curr prev = (p, prev') ∧ s.Reaches k 0 p ∧
      ∀ L, (0 < L ∧ L ≤ layer ∧ L < height → Covered (s.labels L) k (prev' L)) ∧
        (¬ (0 < L ∧ L ≤ layer ∧ L < height) → prev' L = prev L) := by
  induction layer generalizing curr prev with
  | zero => exact ⟨curr, prev, rfl, hp, fun L => ⟨fun hl => by omega, fun _ => rfl⟩⟩
  | succ layer ih =>
    obtain ⟨a, ha, hw⟩ := (h.index layer hL).covered_writePrev hp prev (layer + 1)
    have hdown := h.follow_reaches hL hp
    rw [Cache.gatherIndex]
    split
    · next hlt =>
      obtain ⟨p, prev', heq, hreach, hall⟩ := ih (Nat.lt_of_succ_lt hL) hdown
        (Cache.writePrev prev (layer + 1) (checkNext k (nodesFrom (s.index (layer + 1)) curr)))
      refine ⟨p, prev', heq, hreach, fun L => ?_⟩
      obtain ⟨hin, hout⟩ := hall L
      rw [hw] at hout
      rcases eq_or_ne L (layer + 1) with rfl | hne
      · rw [hout (by omega), Function.update_self]
        exact ⟨fun _ => ha, fun hn => absurd ⟨Nat.succ_pos _, le_refl _, hlt⟩ hn⟩
      · rw [Function.update_of_ne hne] at hout
        exact ⟨fun hl => hin (by omega), fun hl => hout (by omega)⟩
    · next hge =>
      obtain ⟨p, prev', heq, hreach, hall⟩ := ih (Nat.lt_of_succ_lt hL) hdown prev
      refine ⟨p, prev', heq, hreach, fun L => ?_⟩
      obtain ⟨hin, hout⟩ := hall L
      exact ⟨fun hl => hin (by omega), fun hl => hout (by omega)⟩

/-- The descent writes the levels below `height`, each with the address of the node that
    covers the key. -/
theorem CacheOk.gatherPrevs_spec (h : CacheOk cfg s) (hpos : 1 ≤ height)
    (hle : height ≤ cfg.layers) (prev : ℕ → A) (L : ℕ) :
    (L < height → Covered (s.labels L) k (s.gatherPrevs cfg k height prev L)) ∧
      (height ≤ L → s.gatherPrevs cfg k height prev L = prev L) := by
  have hlayers := cfg.two_le_layers
  obtain ⟨p, prev', heq, hp, hall⟩ := h.gatherIndex_spec k height
    (by omega : cfg.layers - 1 < cfg.layers) (h.reaches_head (by omega)) prev
  obtain ⟨a, ha, hw⟩ := h.directory.covered_writePrev hp prev' 0
  obtain ⟨hin, hout⟩ := hall L
  rw [Cache.gatherPrevs, heq]
  dsimp only
  rw [hw]
  cases L with
  | zero =>
    rw [Function.update_self]
    exact ⟨fun _ => ha, fun hz => absurd hz (by omega)⟩
  | succ L =>
    rw [Function.update_of_ne (Nat.succ_ne_zero L)]
    exact ⟨fun hlt => hin (by omega), fun hge => hout (by omega)⟩

/-- After any insertions, reconciliations and settings of the addresses of the heads, the
    descent for an insertion writes the levels below its height, each with the address of
    the node that covers the key at that level. -/
theorem gatherPrevs_covered [Inhabited A] (ops : List (Op K A)) (hops : ∀ o ∈ ops, o.Valid cfg) :
    ∃ s, Op.performAll cfg ops Cache.init = some s ∧
      ∀ (k : K) (height : ℕ), 1 ≤ height → height ≤ cfg.layers → ∀ (prev : ℕ → A) (L : ℕ),
        (L < height → Covered (s.labels L) k (s.gatherPrevs cfg k height prev L)) ∧
        (height ≤ L → s.gatherPrevs cfg k height prev L = prev L) := by
  obtain ⟨s, hs, hok⟩ := Op.performAll_spec CacheOk.init hops
  exact ⟨s, hs, fun k height hpos hle prev L => hok.gatherPrevs_spec hpos hle prev L⟩

theorem gatherPrevs_mixedCalls : ∃ s,
    Op.performAll Config.small (.setHeadRemoteAddrs (· + 1) :: mixedCalls.map .call) Cache.init =
      some s ∧
    ∀ (k : ℕ) (height : ℕ), 1 ≤ height → height ≤ Config.small.layers → ∀ (prev : ℕ → ℕ) (L : ℕ),
      (L < height → Covered (s.labels L) k (s.gatherPrevs Config.small k height prev L)) ∧
      (height ≤ L → s.gatherPrevs Config.small k height prev L = prev L) :=
  gatherPrevs_covered (.setHeadRemoteAddrs (· + 1) :: mixedCalls.map .call)
    (by decide)

end DiscoSkip.SkipVector
