import DiscoSkip.SkipVector

/-!
# Sections of a layer

A layer is *well formed* (`LayerOk`) if its entries are sorted along its nodes,
which hold at most as many as they can, and at least one, the head excepted.

A walk to the right from a node whose first key is not above `k`, or from the
head, ends at the node that covers `k` (`checkNext_spec`): the entries of the
nodes before it are below `k`, and those of the nodes after it are above.

What a section puts in place of this node (`Edited`) is the node itself, with the
entries it keeps, and new ones with the others; together they have the entries of
the node, and one of the key `k`. So the layer stays well formed and gains this
entry, if it had none of the key, and the boundary the section returns
(`Written`).
-/

namespace DiscoSkip.SkipVector

open Lib

variable {K T A : Type*}

section Basic

variable {ns ms pre post : List (Node K T A)} {n : Node K T A} {p : ℕ × Option K}

@[simp]
theorem entries_nil : entries ([] : List (Node K T A)) = [] := rfl

@[simp]
theorem entries_cons : entries (n :: ns) = n.v ++ entries ns := List.flatMap_cons

@[simp]
theorem entries_append : entries (ns ++ ms) = entries ns ++ entries ms := List.flatMap_append

theorem mem_entries {e : K × T} : e ∈ entries ns ↔ ∃ n ∈ ns, e ∈ n.v := List.mem_flatMap

theorem mem_nonOrphans :
    p ∈ nonOrphans ns ↔ ∃ n ∈ ns, n.orphan = false ∧ p = (n.id, n.v.first) := by
  simp only [nonOrphans, List.mem_map, List.mem_filter, Bool.not_eq_true', and_assoc,
    eq_comm (b := p)]

theorem mem_nonOrphans_append :
    p ∈ nonOrphans (ns ++ ms) ↔ p ∈ nonOrphans ns ∨ p ∈ nonOrphans ms := by
  rw [nonOrphans, List.filter_append, List.map_append, List.mem_append, nonOrphans, nonOrphans]

@[simp]
theorem notMem_nonOrphans_nil : p ∉ nonOrphans ([] : List (Node K T A)) := List.not_mem_nil

@[simp]
theorem mem_nonOrphans_cons :
    p ∈ nonOrphans (n :: ns) ↔ n.orphan = false ∧ p = (n.id, n.v.first) ∨ p ∈ nonOrphans ns := by
  simp only [mem_nonOrphans, List.mem_cons, or_and_right, exists_or, exists_eq_left]

/-- The pointers of a layer find its nodes. -/
theorem nodesFrom_eq (h : ((pre ++ n :: post).map Node.id).Nodup) :
    nodesFrom (pre ++ n :: post) n.id = n :: post := by
  induction pre with
  | nil =>
    rw [nodesFrom, List.nil_append]
    exact List.dropWhile_cons_of_neg (by simp)
  | cons m pre ih =>
    obtain ⟨hm, hd⟩ := List.nodup_cons.1 h
    have hne : m.id ≠ n.id := fun heq => hm (by rw [heq]; simp)
    rw [nodesFrom, List.cons_append, List.dropWhile_cons_of_pos (by simpa using hne)]
    exact ih hd

theorem splice_of_notMem {q : ℕ} (h : ∀ n ∈ ns, n.id ≠ q) : splice ns q ms = ns := by
  induction ns with
  | nil => rfl
  | cons m ns ih =>
    rw [splice, List.flatMap_cons, if_neg (h m List.mem_cons_self)]
    exact congrArg (m :: ·) (ih fun n hn => h n (List.mem_cons_of_mem _ hn))

/-- A splice is at one node. -/
theorem splice_eq (h : ((pre ++ n :: post).map Node.id).Nodup) :
    splice (pre ++ n :: post) n.id ms = pre ++ (ms ++ post) := by
  rw [List.map_append, List.map_cons] at h
  obtain ⟨-, hd, hdisj⟩ := List.nodup_append.1 h
  have hpre : splice pre n.id ms = pre := splice_of_notMem fun m hm =>
    hdisj m.id (List.mem_map_of_mem hm) n.id List.mem_cons_self
  have hpost : splice post n.id ms = post := splice_of_notMem fun m hm heq =>
    (List.nodup_cons.1 hd).1 (heq ▸ List.mem_map_of_mem hm)
  rw [splice] at hpre hpost ⊢
  rw [List.flatMap_append, List.flatMap_cons, hpre, hpost, if_pos rfl]

end Basic

/-- The well-formed layers. -/
structure LayerOk [LinearOrder K] (capacity fresh : ℕ) (ns : List (Node K T A)) : Prop where
  sorted : KeySorted (entries ns)
  size_le : ∀ n ∈ ns, n.v.length ≤ capacity
  nonempty : ∀ n ∈ ns, n.v = [] → n.id = head
  /-- The head comes first, and is an orphan. -/
  leftmost : ∃ h t, ns = h :: t ∧ h.id = head ∧ h.orphan = true
  nodup : (ns.map Node.id).Nodup
  id_lt : ∀ n ∈ ns, n.id < fresh

variable [LinearOrder K]

/-- The node is the head, or its first key is not above `k`. -/
def Before (k : K) (n : Node K T A) : Prop := n.id = head ∨ ∃ f, n.v.first = some f ∧ f ≤ k

/-- The node `n` covers the key `k`, between `pre` and `post`. -/
structure Covers (k : K) (pre : List (Node K T A)) (n : Node K T A) (post : List (Node K T A)) :
    Prop where
  before : Before k n
  pre_lt : ∀ e ∈ entries pre, e.1 < k
  lt_post : ∀ e ∈ entries post, k < e.1

namespace LayerOk

variable {capacity fresh : ℕ} {ns pre post : List (Node K T A)} {n : Node K T A} {k : K}

theorem sorted_mem (h : LayerOk capacity fresh ns) (hn : n ∈ ns) : KeySorted n.v := by
  obtain ⟨pre, post, rfl⟩ := List.append_of_mem hn
  have hs := h.sorted
  rw [entries_append, entries_cons] at hs
  exact hs.right.left

/-- Nothing is before the head. -/
theorem eq_nil_of_head (h : LayerOk capacity fresh (pre ++ n :: post)) (hn : n.id = head) :
    pre = [] := by
  cases pre with
  | nil => rfl
  | cons m pre =>
    obtain ⟨m', t, heq, hm, -⟩ := h.leftmost
    obtain ⟨rfl, rfl⟩ := List.cons_eq_cons.1 heq
    have hd := (List.nodup_cons.1 h.nodup).1
    exact absurd (hm.trans hn.symm) fun heq => hd (by rw [heq]; simp)

/-- The non-orphans are not the head. -/
theorem ne_head (h : LayerOk capacity fresh ns) (hn : n ∈ ns) (ho : n.orphan = false) :
    n.id ≠ head := by
  intro hid
  obtain ⟨pre, post, rfl⟩ := List.append_of_mem hn
  obtain rfl := h.eq_nil_of_head hid
  obtain ⟨m, t, heq, -, hm⟩ := h.leftmost
  obtain ⟨rfl, rfl⟩ := List.cons_eq_cons.1 heq
  rw [ho] at hm
  exact absurd hm (by decide)

/-- The nodes before one whose first key is not above `k` have the keys below `k`. -/
theorem lt_of_before (h : LayerOk capacity fresh (pre ++ n :: post)) (hn : Before k n) :
    ∀ e ∈ entries pre, e.1 < k := by
  intro e he
  rcases hn with hid | ⟨f, hf, hfk⟩
  · rw [h.eq_nil_of_head hid, entries_nil] at he
    exact absurd he List.not_mem_nil
  · obtain ⟨x, t, hv⟩ := VectorSfra.first_eq_some.1 hf
    have hs := h.sorted
    rw [entries_append, entries_cons, hv] at hs
    exact (hs.lt_of_append he (List.mem_append_left _ List.mem_cons_self)).trans_le hfk

/-- The walk to the right ends at the node that covers the key. -/
theorem checkNext_spec {c : Node K T A} {rest : List (Node K T A)}
    (h : LayerOk capacity fresh (pre ++ c :: rest)) (hc : Before k c) :
    ∃ pre' n post, pre ++ c :: rest = pre' ++ n :: post ∧ checkNext k (c :: rest) = some n ∧
      Covers k pre' n post := by
  induction rest generalizing pre c with
  | nil => exact ⟨pre, c, [], rfl, rfl, hc, h.lt_of_before hc, by simp⟩
  | cons next rest ih =>
    have hs := h.sorted
    rw [entries_append, entries_cons] at hs
    have hne : next.v ≠ [] := by
      intro h0
      have hid := h.nonempty next (by simp) h0
      rw [List.append_cons] at h
      exact absurd (h.eq_nil_of_head hid) (by simp)
    rw [checkNext]
    split
    · obtain ⟨⟨f, x⟩, t, hv⟩ := List.exists_cons_of_ne_nil hne
      have hf : next.v.first = some f := VectorSfra.first_eq_some.2 ⟨x, t, hv⟩
      rw [hf]
      dsimp only
      split
      · next hlt =>
        refine ⟨pre, c, next :: rest, rfl, rfl, hc, h.lt_of_before hc, fun e he => ?_⟩
        have hs' := hs.right.right
        rw [entries_cons, hv] at hs' he
        exact hlt.trans_le (hs'.head_le he)
      · next hle =>
        rw [List.append_cons] at h ⊢
        exact ih h (Or.inr ⟨f, hf, not_lt.1 hle⟩)
    · next hlast =>
      -- the last key of the node is not below `k`, and the ones after it are above it
      refine ⟨pre, c, next :: rest, rfl, rfl, hc, h.lt_of_before hc, fun e he => ?_⟩
      cases hl : c.v.last with
      | none =>
        rw [hl] at hlast
        exact absurd rfl hlast
      | some l =>
        rw [hl] at hlast
        obtain ⟨e', he', rfl⟩ := VectorSfra.exists_mem_of_last hl
        have hk : k ≤ e'.1 := by simpa using hlast
        exact hk.trans_lt (hs.right.lt_of_append he' he)

end LayerOk

/-! ## What a section puts in place of a node -/

/-- The nodes `n'` and `rest` come in place of `n`, whose entries `k` cuts in `lo`
    and `hi`; the section returns `r`. -/
structure Edited (capacity fresh : ℕ) (k : K) (x : T) (n : Node K T A) (lo hi : VectorSfra K T)
    (n' : Node K T A) (rest : List (Node K T A)) (r : Option ℕ) (fresh' : ℕ) : Prop where
  id_eq : n'.id = n.id
  orphan_eq : n'.orphan = n.orphan
  entries_eq : n'.v ++ entries rest = if hi.first = some k then lo ++ hi else lo ++ (k, x) :: hi
  first_eq : ∀ f, n.v.first = some f → f ≤ k → n'.v.first = some f
  size_le : n'.v.length ≤ capacity
  rest_nonempty : ∀ m ∈ rest, m.v ≠ []
  rest_size_le : ∀ m ∈ rest, m.v.length ≤ capacity
  rest_id : ∀ m ∈ rest, fresh ≤ m.id ∧ m.id < fresh'
  rest_nodup : (rest.map Node.id).Nodup
  fresh_le : fresh ≤ fresh'
  mem_nonOrphans : ∀ p, p ∈ nonOrphans (n' :: rest) ↔
    p ∈ nonOrphans [n'] ∨ ∃ c, r = some c ∧ p = (c, some k)

/-- What `f` puts in place of a node is an edit of the node. -/
def EditOk (capacity : ℕ) (k : K) (x : T) (f : ℕ → Node K T A → Edit K T A) : Prop :=
  ∀ (fresh : ℕ) (n : Node K T A) (lo hi : VectorSfra K T), n.v = lo ++ hi → KeySorted (lo ++ hi) →
    Cut k lo hi → (lo ++ hi).length ≤ capacity → ∃ n' rest, (f fresh n).nodes = n' :: rest ∧
      Edited capacity fresh k x n lo hi n' rest (f fresh n).result (f fresh n).fresh

/-- The section leaves the node as it is. -/
theorem Edited.unchanged {capacity fresh : ℕ} {k : K} {x : T} {n : Node K T A}
    {lo hi : VectorSfra K T} (hn : n.v = lo ++ hi) (hlen : (lo ++ hi).length ≤ capacity)
    (hk : hi.first = some k) : Edited capacity fresh k x n lo hi n [] none fresh where
  id_eq := rfl
  orphan_eq := rfl
  entries_eq := by rw [if_pos hk, hn, entries_nil, List.append_nil]
  first_eq := fun f hf _ => hf
  size_le := hn ▸ hlen
  rest_nonempty := by simp
  rest_size_le := by simp
  rest_id := by simp
  rest_nodup := by simp
  fresh_le := Nat.le_refl _
  mem_nonOrphans := by simp

section EditOk

variable {capacity : ℕ} (hcap : 0 < capacity) (k : K) (x : T) (addr : A)

include hcap

theorem insert_editOk :
    EditOk capacity k x fun fresh n => Node.insert capacity fresh (k, x) addr n := by
  intro fresh n lo hi hn hv hc hlen
  have hfirst : ∀ f, n.v.first = some f → f ≤ k →
      lo.first = some f ∨ lo = [] ∧ hi.first = some k := fun f hf => by
    rw [hn] at hf
    exact VectorSfra.first_of_cut hc hf
  dsimp only
  rw [Node.insert, hn]
  by_cases hk : hi.first = some k
  · rw [VectorSfra.insert_eq_exists hv hc hk]
    exact ⟨n, [], rfl, .unchanged hn hlen hk⟩
  have hlo : ∀ f, n.v.first = some f → f ≤ k → lo.first = some f := fun f hf hfk =>
    (hfirst f hf hfk).resolve_right fun h => hk h.2
  by_cases hfull : (lo ++ hi).length = capacity
  · obtain ⟨a, b, hab, happ, ha, hb⟩ :=
      VectorSfra.stealHalfAndInsert_spec hv hc hk hfull hcap (Nat.le_refl _) x
    rw [VectorSfra.insert_eq_overfull hv hc hk hfull]
    dsimp only
    rw [hab]
    refine ⟨_, _, rfl, ?_⟩
    exact {
      id_eq := rfl
      orphan_eq := rfl
      entries_eq := by
        rw [if_neg hk, ← happ]
        simp
      first_eq := fun f hf hfk => by
        have happf : (a ++ b).first = some f :=
          happ ▸ VectorSfra.first_append (hlo f hf hfk) ((k, x) :: hi)
        cases a with
        | nil => exact absurd ha (by simp)
        | cons e a => exact happf
      size_le := by
        dsimp only
        omega
      rest_nonempty := by
        simp only [List.mem_singleton, forall_eq]
        rintro rfl
        rw [List.length_nil] at hb
        omega
      rest_size_le := by
        simp only [List.mem_singleton, forall_eq]
        omega
      rest_id := by simp
      rest_nodup := by simp
      fresh_le := Nat.le_succ _
      mem_nonOrphans := by simp }
  · rw [VectorSfra.insert_eq_ok hv hc hk hfull]
    refine ⟨_, [], rfl, ?_⟩
    exact {
      id_eq := rfl
      orphan_eq := rfl
      entries_eq := by rw [if_neg hk, entries_nil, List.append_nil]
      first_eq := fun f hf hfk => VectorSfra.first_append (hlo f hf hfk) ((k, x) :: hi)
      size_le := by
        rw [List.length_append] at hfull hlen
        rw [List.length_append, List.length_cons]
        omega
      rest_nonempty := by simp
      rest_size_le := by simp
      rest_id := by simp
      rest_nodup := by simp
      fresh_le := Nat.le_refl _
      mem_nonOrphans := by simp }

variable [Inhabited A]

/-- A node that is full and above the key keeps its first half. -/
theorem shed_spec {fresh : ℕ} {n : Node K T A} {lo hi : VectorSfra K T} (hn : n.v = lo ++ hi)
    (hv : KeySorted (lo ++ hi)) (hc : Cut k lo hi) (hk : hi.first ≠ some k)
    (hlen : (lo ++ hi).length ≤ capacity) :
    ∃ hi₁ orphans fresh', n.shed capacity fresh k = ({ n with v := lo ++ hi₁ }, orphans, fresh') ∧
      hi = hi₁ ++ entries orphans ∧ hi₁.length < capacity ∧
      (orphans = [] ∧ fresh' = fresh ∨
        ∃ stolen, stolen ≠ [] ∧ stolen.length ≤ capacity ∧ fresh' = fresh + 1 ∧
          orphans = [⟨fresh, true, default, stolen⟩]) := by
  rw [Node.shed, hn]
  split
  · next hfull =>
    obtain ⟨hfull, hany⟩ := hfull
    -- every key is above `k`
    obtain rfl : lo = [] := by
      cases lo with
      | nil => rfl
      | cons e lo =>
        have hlt : k < e.1 := by simpa [VectorSfra.first] using hany
        exact absurd (hc.lo e List.mem_cons_self) (not_lt.2 hlt.le)
    rw [List.nil_append] at hfull ⊢
    refine ⟨hi.take (capacity / 2), _, _, by rw [VectorSfra.stealHalf, hfull]; rfl, ?_, ?_,
      .inr ⟨hi.drop (capacity / 2), ?_, ?_, rfl, rfl⟩⟩
    · simp
    · rw [List.length_take]
      omega
    · intro h0
      have hle := List.drop_eq_nil_iff.1 h0
      omega
    · rw [List.length_drop]
      omega
  · next hfull =>
    refine ⟨hi, [], fresh, by rw [← hn], by simp, ?_, .inl ⟨rfl, rfl⟩⟩
    rw [List.length_append] at hlen hfull
    rcases Nat.lt_or_ge hi.length capacity with hlt | hge
    · exact hlt
    · obtain rfl : lo = [] := List.eq_nil_of_length_eq_zero (by omega)
      cases hi with
      | nil =>
        rw [List.length_nil] at hge
        omega
      | cons e hi =>
        -- the first key is not `k`, so it is above
        have hne : e.1 ≠ k := fun h => hk (congrArg some h)
        have hlt := lt_of_le_of_ne (hc.hi e List.mem_cons_self) hne.symm
        refine absurd ⟨by omega, ?_⟩ hfull
        simpa [VectorSfra.first] using hlt

theorem mirrorSplit_editOk :
    EditOk capacity k x fun fresh n => Node.mirrorSplit capacity fresh k x addr n := by
  intro fresh n lo hi hn hv hc hlen
  dsimp only
  rw [Node.mirrorSplit]
  by_cases hmin : n.v.first = some k
  · -- the key is the first one already
    rw [if_pos hmin]
    have hcut := VectorSfra.first_of_cut hc (hn ▸ hmin) (le_refl k)
    have hk : hi.first = some k := by
      rcases hcut with hlo | ⟨-, hk⟩
      · obtain ⟨y, t, hlo⟩ := VectorSfra.first_eq_some.1 hlo
        exact absurd (hc.lo (k, y) (hlo ▸ List.mem_cons_self)) (lt_irrefl k)
      · exact hk
    split
    · exact ⟨n, [], rfl, .unchanged hn hlen hk⟩
    · next ho =>
      refine ⟨{ n with remoteAddr := addr }, [], rfl, ?_⟩
      exact { Edited.unchanged hn hlen hk with
        mem_nonOrphans := by simp [ho, hmin] }
  rw [if_neg hmin, hn]
  have hlo : ∀ f, n.v.first = some f → f ≤ k → lo.first = some f := by
    intro f hf hfk
    rcases VectorSfra.first_of_cut hc (hn ▸ hf) hfk with h | ⟨rfl, h⟩
    · exact h
    · rw [hn] at hmin
      exact absurd h hmin
  by_cases hk : hi.first = some k
  · -- the key is there, and the node is split at it
    have hne : hi ≠ [] := by
      rintro rfl
      exact absurd hk (by simp [VectorSfra.first])
    rw [if_pos ((VectorSfra.contains_eq_true hv hc).2 hk), VectorSfra.splitAt_eq hv hc hne]
    rw [List.length_append] at hlen
    refine ⟨_, _, rfl, ?_⟩
    exact {
      id_eq := rfl
      orphan_eq := rfl
      entries_eq := by
        rw [if_pos hk]
        simp
      first_eq := hlo
      size_le := by
        dsimp only
        omega
      rest_nonempty := by simpa using hne
      rest_size_le := by
        simp only [List.mem_singleton, forall_eq]
        omega
      rest_id := by simp
      rest_nodup := by simp
      fresh_le := Nat.le_succ _
      mem_nonOrphans := by simp [hk] }
  · -- the key is new, and the node is split where it belongs
    rw [if_neg fun h => hk ((VectorSfra.contains_eq_true hv hc).1 h)]
    obtain ⟨hi₁, orphans, fresh', hshed, hhi, hlen₁, hor⟩ := shed_spec hcap k hn hv hc hk hlen
    have hv₁ : KeySorted (lo ++ hi₁) := by
      rw [hhi, ← List.append_assoc] at hv
      exact hv.left
    have hc₁ : Cut k lo hi₁ := ⟨hc.lo, fun e he => hc.hi e (hhi ▸ List.mem_append_left _ he)⟩
    rw [hshed]
    dsimp only
    rw [VectorSfra.splitInsert_eq hv₁ hc₁]
    rw [List.length_append] at hlen
    refine ⟨_, _, rfl, ?_⟩
    exact {
      id_eq := rfl
      orphan_eq := rfl
      entries_eq := by
        rw [if_neg hk, hhi]
        simp
      first_eq := hlo
      size_le := by
        dsimp only
        omega
      rest_nonempty := by
        rcases hor with ⟨rfl, -⟩ | ⟨stolen, hne, -, -, rfl⟩
        · simp
        · simpa using hne
      rest_size_le := by
        rcases hor with ⟨rfl, -⟩ | ⟨stolen, -, hle, -, rfl⟩
        · simpa using Nat.succ_le_of_lt hlen₁
        · simpa using ⟨Nat.succ_le_of_lt hlen₁, hle⟩
      rest_id := by
        rcases hor with ⟨rfl, rfl⟩ | ⟨stolen, -, -, rfl, rfl⟩
        · simp
        · simp only [List.mem_cons, List.not_mem_nil, or_false]
          rintro m (rfl | rfl) <;> dsimp only <;> omega
      rest_nodup := by
        rcases hor with ⟨rfl, rfl⟩ | ⟨stolen, -, -, rfl, rfl⟩
        · simp
        · simp
      fresh_le := by
        rcases hor with ⟨-, rfl⟩ | ⟨stolen, -, -, rfl, -⟩ <;> omega
      mem_nonOrphans := by
        rcases hor with ⟨rfl, -⟩ | ⟨stolen, -, -, -, rfl⟩
        · simp [VectorSfra.first]
        · simp [VectorSfra.first] }

end EditOk

/-- A section takes the layer `ns` to `ns'`, and returns `r`. -/
structure Written (k : K) (x : T) (ns ns' : List (Node K T A)) (r : Option ℕ) : Prop where
  mem_entries : ∀ e, e ∈ entries ns' ↔
    e ∈ entries ns ∨ e = (k, x) ∧ ∀ e' ∈ entries ns, e'.1 ≠ k
  mem_nonOrphans : ∀ p, p ∈ nonOrphans ns' ↔
    p ∈ nonOrphans ns ∨ ∃ c, r = some c ∧ p = (c, some k)

namespace LayerOk

variable {capacity fresh fresh' : ℕ} {k : K} {x : T} {pre post rest : List (Node K T A)}
  {n n' : Node K T A} {lo hi : VectorSfra K T} {r : Option ℕ}

section Edited

variable (h : LayerOk capacity fresh (pre ++ n :: post)) (hcov : Covers k pre n post)
  (hn : n.v = lo ++ hi) (hc : Cut k lo hi)
  (he : Edited capacity fresh k x n lo hi n' rest r fresh')

omit [LinearOrder K] in
include hn in
theorem entries_eq_cut :
    entries (pre ++ n :: post) = (entries pre ++ lo) ++ (hi ++ entries post) := by
  rw [entries_append, entries_cons, hn, List.append_assoc, List.append_assoc]

include hcov hc in
theorem cut_entries : Cut k (entries pre ++ lo) (hi ++ entries post) := by
  constructor
  · intro e hm
    exact (List.mem_append.1 hm).elim (hcov.pre_lt e) (hc.lo e)
  · intro e hm
    exact (List.mem_append.1 hm).elim (hc.hi e) fun hm => (hcov.lt_post e hm).le

include h hcov hn hc

/-- A key of the layer is in the node that covers it. -/
theorem exists_key_iff : (∃ e ∈ entries (pre ++ n :: post), e.1 = k) ↔ hi.first = some k := by
  have hv : KeySorted (lo ++ hi) := hn ▸ h.sorted_mem (List.mem_append_right _ List.mem_cons_self)
  rw [← VectorSfra.mem_iff_first hv hc, entries_append, entries_cons, hn]
  constructor
  · rintro ⟨e, hm, rfl⟩
    rcases List.mem_append.1 hm with hm | hm
    · exact absurd (hcov.pre_lt e hm) (lt_irrefl _)
    · rcases List.mem_append.1 hm with hm | hm
      · exact ⟨e, hm, rfl⟩
      · exact absurd (hcov.lt_post e hm) (lt_irrefl _)
  · rintro ⟨e, hm, rfl⟩
    exact ⟨e, List.mem_append_right _ (List.mem_append_left _ hm), rfl⟩

include he

omit h hcov hc in
theorem entries_edited : entries (pre ++ (n' :: rest ++ post)) =
    if hi.first = some k then entries (pre ++ n :: post)
    else (entries pre ++ lo) ++ (k, x) :: (hi ++ entries post) := by
  rw [entries_append, entries_append, entries_cons, he.entries_eq, entries_eq_cut hn]
  split <;> simp only [List.append_assoc, List.cons_append]

theorem sorted_edited : KeySorted (entries (pre ++ (n' :: rest ++ post))) := by
  rw [entries_edited hn he]
  split
  · exact h.sorted
  · next hk =>
    have hs := h.sorted
    rw [entries_eq_cut hn] at hs
    refine hs.insert (cut_entries hcov hc) (fun e hm heq => hk ?_) x
    refine (h.exists_key_iff hcov hn hc).1 ⟨e, ?_, heq⟩
    rw [entries_eq_cut hn]
    exact List.mem_append_right _ hm

omit h hn hc in
/-- The first node keeps its first key, if it is not the head. -/
theorem first_edited (hid : n.id ≠ head) : n'.v.first = n.v.first := by
  obtain hid' | ⟨f, hf, hfk⟩ := hcov.before
  · exact absurd hid' hid
  · rw [he.first_eq f hf hfk, hf]

/-- A section keeps the layer well formed. -/
theorem edited : LayerOk capacity fresh' (pre ++ (n' :: rest ++ post)) where
  sorted := h.sorted_edited hcov hn hc he
  size_le := by
    simp only [List.mem_append, List.mem_cons]
    rintro m (hm | (rfl | hm) | hm)
    · exact h.size_le m (List.mem_append_left _ hm)
    · exact he.size_le
    · exact he.rest_size_le m hm
    · exact h.size_le m (List.mem_append_right _ (List.mem_cons_of_mem _ hm))
  nonempty := by
    simp only [List.mem_append, List.mem_cons]
    rintro m (hm | (rfl | hm) | hm) h0
    · exact h.nonempty m (List.mem_append_left _ hm) h0
    · rw [he.id_eq]
      by_contra hid
      have hfirst := first_edited hcov he hid
      obtain hid' | ⟨f, hf, -⟩ := hcov.before
      · exact hid hid'
      · rw [hf, h0] at hfirst
        exact absurd hfirst (by simp [VectorSfra.first])
    · exact absurd h0 (he.rest_nonempty m hm)
    · exact h.nonempty m (List.mem_append_right _ (List.mem_cons_of_mem _ hm)) h0
  leftmost := by
    obtain ⟨m, t, heq, hid, ho⟩ := h.leftmost
    cases pre with
    | nil =>
      obtain ⟨rfl, rfl⟩ := List.cons_eq_cons.1 heq
      exact ⟨n', rest ++ post, rfl, he.id_eq.trans hid, he.orphan_eq.trans ho⟩
    | cons m' pre =>
      obtain ⟨rfl, rfl⟩ := List.cons_eq_cons.1 heq
      exact ⟨m', pre ++ (n' :: rest ++ post), rfl, hid, ho⟩
  nodup := by
    have hperm : (pre ++ (n' :: rest ++ post)).Perm ((pre ++ n' :: post) ++ rest) := by
      rw [List.append_assoc, List.cons_append, List.cons_append]
      exact (List.perm_append_comm.cons n').append_left pre
    have hids : (pre ++ n' :: post).map Node.id = (pre ++ n :: post).map Node.id := by
      simp only [List.map_append, List.map_cons, he.id_eq]
    rw [(hperm.map Node.id).nodup_iff, List.map_append, hids]
    refine List.nodup_append.2 ⟨h.nodup, he.rest_nodup, ?_⟩
    intro a ha b hb heq
    obtain ⟨m, hm, rfl⟩ := List.mem_map.1 ha
    obtain ⟨m', hm', rfl⟩ := List.mem_map.1 hb
    have hlt := h.id_lt m hm
    have hge := (he.rest_id m' hm').1
    omega
  id_lt := by
    have hle := he.fresh_le
    simp only [List.mem_append, List.mem_cons]
    rintro m (hm | (rfl | hm) | hm)
    · exact Nat.lt_of_lt_of_le (h.id_lt m (List.mem_append_left _ hm)) hle
    · rw [he.id_eq]
      exact Nat.lt_of_lt_of_le (h.id_lt n (List.mem_append_right _ List.mem_cons_self)) hle
    · exact (he.rest_id m hm).2
    · exact Nat.lt_of_lt_of_le
        (h.id_lt m (List.mem_append_right _ (List.mem_cons_of_mem _ hm))) hle

/-- What a section does to the entries and the boundaries of the layer. -/
theorem edited_written :
    Written k x (pre ++ n :: post) (pre ++ (n' :: rest ++ post)) r where
  mem_entries e := by
    have hkey := h.exists_key_iff hcov hn hc
    rw [entries_edited hn he]
    split
    · next hk =>
      obtain ⟨e', hm, rfl⟩ := hkey.2 hk
      exact ⟨.inl, fun h' => h'.elim id fun h' => absurd rfl (h'.2 e' hm)⟩
    · next hk =>
      have habs : ∀ e' ∈ entries (pre ++ n :: post), e'.1 ≠ k := fun e' hm heq =>
        hk (hkey.1 ⟨e', hm, heq⟩)
      rw [and_iff_left habs, entries_eq_cut hn]
      simp only [List.mem_append, List.mem_cons]
      tauto
  mem_nonOrphans p := by
    have hnew := he.mem_nonOrphans p
    have hold : p ∈ nonOrphans [n'] ↔ p ∈ nonOrphans [n] := by
      simp only [mem_nonOrphans_cons, notMem_nonOrphans_nil, or_false, he.id_eq, he.orphan_eq]
      refine and_congr_right fun ho => ?_
      rw [first_edited hcov he
        (h.ne_head (List.mem_append_right _ List.mem_cons_self) ho)]
    have hsplit : p ∈ nonOrphans ([n] ++ post) ↔ p ∈ nonOrphans [n] ∨ p ∈ nonOrphans post :=
      mem_nonOrphans_append
    rw [List.singleton_append] at hsplit
    have hcomm := or_comm (a := p ∈ nonOrphans post) (b := ∃ c, r = some c ∧ p = (c, some k))
    rw [mem_nonOrphans_append, mem_nonOrphans_append, hnew, hold, mem_nonOrphans_append, hsplit,
      or_assoc, or_assoc, or_assoc, hcomm]

end Edited

variable {ns : List (Node K T A)} {f : ℕ → Node K T A → Edit K T A}

/-- What a section puts in place of a node of the layer. -/
theorem exists_edited (h : LayerOk capacity fresh (pre ++ n :: post)) (hf : EditOk capacity k x f) :
    ∃ n' rest lo hi, (f fresh n).nodes = n' :: rest ∧ n.v = lo ++ hi ∧ Cut k lo hi ∧
      Edited capacity fresh k x n lo hi n' rest (f fresh n).result (f fresh n).fresh := by
  have hmem : n ∈ pre ++ n :: post := List.mem_append_right _ List.mem_cons_self
  have hv := h.sorted_mem hmem
  have hlen := h.size_le n hmem
  obtain ⟨lo, hi, hn, hc⟩ := hv.exists_cut k
  rw [hn] at hv hlen
  obtain ⟨n', rest, hnodes, he⟩ := hf fresh n lo hi hn hv hc hlen
  exact ⟨n', rest, lo, hi, hnodes, hn, hc, he⟩

/-- A section at the node that covers the key. -/
theorem splice_edit (h : LayerOk capacity fresh ns) (hns : ns = pre ++ n :: post)
    (hcov : Covers k pre n post) (hf : EditOk capacity k x f) :
    LayerOk capacity (f fresh n).fresh (splice ns n.id (f fresh n).nodes) ∧
      Written k x ns (splice ns n.id (f fresh n).nodes) (f fresh n).result ∧
      fresh ≤ (f fresh n).fresh := by
  subst hns
  obtain ⟨n', rest, lo, hi, hnodes, hn, hc, he⟩ := h.exists_edited hf
  rw [splice_eq h.nodup, hnodes]
  exact ⟨h.edited hcov hn hc he, h.edited_written hcov hn hc he, he.fresh_le⟩

end LayerOk

end DiscoSkip.SkipVector
