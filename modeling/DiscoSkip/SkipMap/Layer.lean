import Mathlib.Algebra.Order.Ring.Cast
import Mathlib.Data.List.Nodup
import Mathlib.Tactic.Positivity
import DiscoSkip.SkipMap

/-!
# Layers

A layer is *well formed* (`LayerOk`) if its entries are sorted along its nodes, whose
vectors work, and if its nodes that are not orphans have entries.

A walk from a node that is not above the key `k` ends at the node that *covers* `k`: the
entries of the nodes before it are below `k`, and those of the nodes after it are above
(`LayerOk.walk`). On the way it merges nodes, which changes neither the entries of the
layer nor what an entry of the layer above may point to (`IsHead`).

The other sections of the calls put nodes in place of the one that covers the key.
-/

namespace DiscoSkip.SkipMap

open Lib SortedChunk

variable {K T : Type*} [LinearOrder K]

/-- The entries of a node, in order. -/
def Node.pairs (n : Node K T) : List (K × T) := SortedChunk.pairs n.v

def entries (ns : List (Node K T)) : List (K × T) := ns.flatMap Node.pairs

/-- A layer has a node that is no orphan, with this first key and pointer. -/
def IsHead (ns : List (Node K T)) (e : K × ℕ) : Prop :=
  ∃ n ∈ ns, n.orphan = false ∧ n.id = e.2 ∧ VectorSfra.first n.pairs = some e.1

section Basic

variable {ns ms : List (Node K T)} {n : Node K T} {e : K × ℕ}

@[simp] theorem entries_nil : entries ([] : List (Node K T)) = [] := rfl

@[simp] theorem entries_cons : entries (n :: ns) = n.pairs ++ entries ns := List.flatMap_cons

@[simp] theorem entries_append : entries (ns ++ ms) = entries ns ++ entries ms :=
  List.flatMap_append

theorem mem_entries {e : K × T} : e ∈ entries ns ↔ ∃ n ∈ ns, e ∈ n.pairs := List.mem_flatMap

@[simp] theorem isHead_nil : ¬ IsHead ([] : List (Node K T)) e := fun ⟨_, hn, _⟩ =>
  List.not_mem_nil hn

@[simp] theorem isHead_cons : IsHead (n :: ns) e ↔
    (n.orphan = false ∧ n.id = e.2 ∧ VectorSfra.first n.pairs = some e.1) ∨ IsHead ns e := by
  simp only [IsHead, List.mem_cons, or_and_right, exists_or, exists_eq_left]

@[simp] theorem isHead_append : IsHead (ns ++ ms) e ↔ IsHead ns e ∨ IsHead ms e := by
  simp only [IsHead, List.mem_append, or_and_right, exists_or]

/-- A layer has the key of a head. -/
theorem IsHead.exists_mem (h : IsHead ns e) : ∃ x, (e.1, x) ∈ entries ns := by
  obtain ⟨n, hn, -, -, hf⟩ := h
  obtain ⟨x, t, hp⟩ := VectorSfra.first_eq_some.1 hf
  exact ⟨x, mem_entries.2 ⟨n, hn, hp ▸ List.mem_cons_self⟩⟩

omit [LinearOrder K] in
theorem locate_eq {pre post : List (Node K T)} (h : ((pre ++ n :: post).map Node.id).Nodup) :
    locate n.id (pre ++ n :: post) = some (pre, n, post) := by
  induction pre with
  | nil => exact if_pos rfl
  | cons m pre ih =>
    obtain ⟨hm, hd⟩ := List.nodup_cons.1 h
    have hne : m.id ≠ n.id := fun heq => hm (by rw [heq]; simp)
    rw [List.cons_append, locate, if_neg hne, ih hd]
    rfl

end Basic

/-- The well-formed layers. -/
structure LayerOk (τ : NodeType K T) (fresh : ℕ) (ns : List (Node K T)) : Prop where
  sorted : KeySorted (entries ns)
  vecs : ∀ n ∈ ns, τ.vec.Ok n.v
  nonempty : ∀ n ∈ ns, n.orphan = false → n.v ≠ []
  /-- The head comes first, and is an orphan. -/
  leftmost : ∃ h t, ns = h :: t ∧ h.id = 0 ∧ h.orphan = true
  nodup : (ns.map Node.id).Nodup
  id_lt : ∀ n ∈ ns, n.id < fresh

/-- The node is an orphan, or its first key is not above `k`. -/
def Before (k : K) (n : Node K T) : Prop :=
  n.orphan = false → ∃ f, VectorSfra.first n.pairs = some f ∧ f ≤ k

/-- The node `n` covers the key `k`, between `pre` and `post`. -/
structure Covers (k : K) (pre : List (Node K T)) (n : Node K T) (post : List (Node K T)) :
    Prop where
  before : Before k n
  pre_lt : ∀ e ∈ entries pre, e.1 < k
  lt_post : ∀ e ∈ entries post, k < e.1

theorem Covers.mem_iff {k : K} {pre post : List (Node K T)} {n : Node K T} (h : Covers k pre n post)
    {e : K × T} (he : e.1 = k) : e ∈ entries (pre ++ n :: post) ↔ e ∈ n.pairs := by
  rw [entries_append, entries_cons, List.mem_append, List.mem_append]
  refine ⟨?_, fun hn => .inr (.inl hn)⟩
  rintro (hpre | hn | hpost)
  · exact absurd he (h.pre_lt e hpre).ne
  · exact hn
  · exact absurd he (h.lt_post e hpost).ne'

theorem Node.pairs_eq_nil {n : Node K T} : n.pairs = [] ↔ n.v = [] := SortedChunk.pairs_eq_nil

theorem Node.exists_first {n : Node K T} (h : n.v ≠ []) :
    ∃ f x t, n.pairs = (f, x) :: t ∧ VectorSfra.first n.pairs = some f := by
  obtain ⟨⟨f, x⟩, t, hp⟩ := List.exists_cons_of_ne_nil (Node.pairs_eq_nil.not.2 h)
  exact ⟨f, x, t, hp, by rw [hp]; rfl⟩

theorem layerOk_init (τ : NodeType K T) {fresh : ℕ} (h : 0 < fresh) :
    LayerOk τ fresh [⟨0, true, []⟩] where
  sorted := by
    rw [entries_cons, entries_nil, Node.pairs, pairs_nil]
    exact .nil
  vecs n hn := by
    rw [List.mem_singleton.1 hn]
    exact ok_nil
  nonempty n hn ho := by
    rw [List.mem_singleton.1 hn] at ho
    exact nomatch ho
  leftmost := ⟨_, [], rfl, rfl, rfl⟩
  nodup := List.nodup_singleton 0
  id_lt n hn := by
    rw [List.mem_singleton.1 hn]
    exact h

namespace LayerOk

variable {τ : NodeType K T} {fresh fresh' : ℕ} {ns l w pre post rest : List (Node K T)}
  {n n' c next : Node K T} {k : K}

theorem mono (h : LayerOk τ fresh ns) (hle : fresh ≤ fresh') : LayerOk τ fresh' ns :=
  { h with id_lt := fun n hn => (h.id_lt n hn).trans_le hle }

theorem sorted_mem (h : LayerOk τ fresh ns) (hn : n ∈ ns) :
    KeySorted n.pairs := (h.vecs n hn).sorted

/-- Two heads with a common key are one. -/
theorem isHead_unique (h : LayerOk τ fresh ns) {e e' : K × ℕ} (he : IsHead ns e)
    (he' : IsHead ns e') (hid : e.2 = e'.2) : e = e' := by
  obtain ⟨n, hn, -, hp, hf⟩ := he
  obtain ⟨n', hn', -, hp', hf'⟩ := he'
  have heq : n = n' := List.inj_on_of_nodup_map h.nodup hn hn' (hp.trans (hid.trans hp'.symm))
  subst heq
  exact Prod.ext (Option.some.inj (hf.symm.trans hf')) hid

/-- Nodes put in place of `n` and of those after it that are dropped: the first one keeps
    the pointer, the others are new. -/
theorem replace (h : LayerOk τ fresh (pre ++ (n :: l ++ post)))
    (hsorted : KeySorted (entries (pre ++ (n' :: w ++ post)))) (hid : n'.id = n.id)
    (horphan : n.orphan = true → n'.orphan = true) (hvecs : ∀ m ∈ n' :: w, τ.vec.Ok m.v)
    (hnonempty : ∀ m ∈ n' :: w, m.orphan = false → m.v ≠ [])
    (hids : ∀ m ∈ w, fresh ≤ m.id ∧ m.id < fresh') (hnodup : (w.map Node.id).Nodup)
    (hle : fresh ≤ fresh') : LayerOk τ fresh' (pre ++ (n' :: w ++ post)) := by
  have hold : ∀ {m}, m ∈ pre ∨ m ∈ post → m ∈ pre ++ (n :: l ++ post) := by
    rintro m (hm | hm)
    · exact List.mem_append_left _ hm
    · exact List.mem_append_right _ (List.mem_append_right _ hm)
  have hnew : ∀ {m}, m ∈ pre ++ (n' :: w ++ post) → (m ∈ pre ∨ m ∈ post) ∨ m ∈ n' :: w := by
    intro m hm
    simp only [List.mem_append] at hm
    tauto
  refine ⟨hsorted, fun m hm => ?_, fun m hm => ?_, ?_, ?_, fun m hm => ?_⟩
  · obtain hm | hm := hnew hm
    · exact h.vecs m (hold hm)
    · exact hvecs m hm
  · obtain hm | hm := hnew hm
    · exact h.nonempty m (hold hm)
    · exact hnonempty m hm
  · obtain ⟨h₀, t, heq, h0, ho⟩ := h.leftmost
    cases pre with
    | nil =>
      obtain ⟨rfl, -⟩ := List.cons_eq_cons.1 heq
      exact ⟨n', _, rfl, hid.trans h0, horphan ho⟩
    | cons m pre =>
      obtain ⟨rfl, -⟩ := List.cons_eq_cons.1 heq
      exact ⟨m, _, rfl, h0, ho⟩
  · -- the new pointers are none of the others
    have hperm : ((pre ++ (n' :: w ++ post)).map Node.id).Perm
        (w.map Node.id ++ (pre ++ n :: post).map Node.id) := by
      have hcomm := List.perm_append_comm_assoc (pre.map Node.id ++ [n.id]) (w.map Node.id)
        (post.map Node.id)
      simpa [hid] using hcomm
    rw [hperm.nodup_iff, List.nodup_append]
    refine ⟨hnodup, h.nodup.sublist (List.Sublist.map _ ?_), fun a ha b hb hab => ?_⟩
    · refine List.Sublist.append_left (List.Sublist.cons_cons n ?_) pre
      exact List.sublist_append_right l post
    · obtain ⟨m, hm, rfl⟩ := List.mem_map.1 ha
      obtain ⟨m', hm', rfl⟩ := List.mem_map.1 hb
      have hlt := h.id_lt m' (by simp only [List.mem_append, List.mem_cons] at hm' ⊢; tauto)
      have hge := (hids m hm).1
      omega
  · obtain hm | hm := hnew hm
    · exact (h.id_lt m (hold hm)).trans_le hle
    · obtain rfl | hm := List.mem_cons.1 hm
      · rw [hid]
        exact (h.id_lt n (by simp)).trans_le hle
      · exact (hids m hm).2

end LayerOk

/-! ## Merges and walks -/

section Walk

variable {τ : NodeType K T} {fresh : ℕ} {pre post rest : List (Node K T)} {c next n : Node K T}
  {k : K} {threshold : ℚ} {cleanup again merging : Bool}

theorem fits_eq {v : List (K × T)} (h : τ.vec.Ok v) : τ.fits v = some v := if_pos h.length_le

variable (hthreshold : threshold ≤ 2)

include hthreshold

/-- A node that is to be merged fits. -/
theorem Node.shouldMerge_length (h : c.shouldMerge τ threshold cleanup next)
    (hc : τ.vec.Ok c.v) : c.v.length + next.v.length ≤ getVectorSize τ.exp := by
  obtain ⟨-, h0 | ⟨-, hexp, hlt⟩⟩ := h
  · rw [h0, Nat.add_zero]
    exact hc.length_le
  · rw [getVectorSize, if_pos hexp]
    have hle : threshold * 2 ^ τ.exp.toNat ≤ 2 * 2 ^ τ.exp.toNat :=
      mul_le_mul_of_nonneg_right hthreshold (by positivity)
    have hcast : ((c.v.length + next.v.length : ℕ) : ℚ) ≤ ((2 * 2 ^ τ.exp.toNat : ℕ) : ℚ) := by
      push_cast at hlt ⊢
      exact (hlt.trans_le hle).le
    exact Nat.cast_le.1 hcast

/-- A node with the next one merged into it: the entries are the same, and so are the
    heads. -/
theorem LayerOk.merge (h : LayerOk τ fresh (pre ++ c :: next :: rest))
    (hm : c.shouldMerge τ threshold cleanup next) (hc : Before k c) :
    ∃ c', c.merge τ next = some c' ∧ LayerOk τ fresh (pre ++ c' :: rest) ∧ Before k c' ∧
      entries (c' :: rest) = entries (c :: next :: rest) ∧
      ∀ e, IsHead (c' :: rest) e ↔ IsHead (c :: next :: rest) e := by
  have hvc := h.vecs c (by simp)
  have hvn := h.vecs next (by simp)
  have hs := h.sorted
  rw [entries_append, entries_cons, entries_cons] at hs
  obtain ⟨hok, hp⟩ := hvc.merge hvn
    (fun a ha b hb => hs.right.lt_of_append ha (List.mem_append_left _ hb))
    (Node.shouldMerge_length hthreshold hm hvc)
  let c' : Node K T := { c with v := τ.vec.merge c.v next.v }
  have hpairs : c'.pairs = c.pairs ++ next.pairs := hp
  have hentries : entries (c' :: rest) = entries (c :: next :: rest) := by
    rw [entries_cons, entries_cons, entries_cons, hpairs, List.append_assoc]
  -- a node that is no orphan has a first key, which is the first one after the merge
  have hfirst : c.orphan = false → VectorSfra.first c'.pairs = VectorSfra.first c.pairs := by
    intro ho
    obtain ⟨f, -, -, -, hf⟩ := Node.exists_first (h.nonempty c (by simp) ho)
    rw [hpairs, VectorSfra.first_append hf, hf]
  refine ⟨c', ?_, ?_, fun ho => ?_, hentries, fun e => ?_⟩
  · rw [Node.merge, fits_eq hok]
    rfl
  · refine h.replace (l := [next]) (w := []) ?_ rfl id ?_ ?_ ?_ List.nodup_nil le_rfl
    · rw [List.singleton_append, entries_append, hentries, entries_cons, entries_cons]
      exact hs
    · rintro m hm
      rw [List.mem_singleton.1 hm]
      exact hok
    · rintro m hm ho h0
      rw [List.mem_singleton.1 hm] at ho h0
      have hnil : c.pairs = [] := (List.append_eq_nil_iff.1 (hpairs ▸ Node.pairs_eq_nil.2 h0)).1
      exact h.nonempty c (by simp) ho (Node.pairs_eq_nil.1 hnil)
    · exact fun m hm => absurd hm List.not_mem_nil
  · rw [hfirst ho]
    exact hc ho
  · rw [isHead_cons, isHead_cons, isHead_cons]
    have hnext : next.orphan = true := hm.1
    constructor
    · rintro (⟨ho, hid, hf⟩ | hrest)
      · exact .inl ⟨ho, hid, hfirst ho ▸ hf⟩
      · exact .inr (.inr hrest)
    · rintro (⟨ho, hid, hf⟩ | ⟨ho, -⟩ | hrest)
      · exact .inl ⟨ho, hid, (hfirst ho).trans hf⟩
      · rw [hnext] at ho
        exact nomatch ho
      · exact .inr hrest

omit hthreshold in
/-- The nodes after one whose last key is not below `k`. -/
theorem LayerOk.lt_of_not_below (h : LayerOk τ fresh (pre ++ c :: rest)) (hc : ¬ c.Below τ k) :
    ∀ e ∈ entries rest, k < e.1 := by
  intro e he
  have hs := h.sorted
  rw [entries_append, entries_cons] at hs
  rw [Node.Below, (h.vecs c (by simp)).last_eq] at hc
  cases hl : VectorSfra.last c.pairs with
  | none =>
    rw [Node.pairs] at hl
    rw [hl] at hc
    exact absurd rfl hc
  | some l =>
    obtain ⟨e', he', rfl⟩ := VectorSfra.exists_mem_of_last hl
    rw [Node.pairs] at hl
    rw [hl] at hc
    have hk : k ≤ e'.1 := by simpa using hc
    exact hk.trans_lt (hs.right.lt_of_append he' he)

variable (cleanup again merging) in
/-- A walk ends at the node that covers the key. -/
theorem LayerOk.walk (h : LayerOk τ fresh (pre ++ c :: rest)) (hc : Before k c)
    (hpre : ∀ e ∈ entries pre, e.1 < k) :
    ∃ passed n post, walk τ threshold cleanup again k merging c rest = some (passed, n, post) ∧
      LayerOk τ fresh (pre ++ (passed ++ n :: post)) ∧
      entries (passed ++ n :: post) = entries (c :: rest) ∧
      (∀ e, IsHead (passed ++ n :: post) e ↔ IsHead (c :: rest) e) ∧
      Covers k (pre ++ passed) n post := by
  induction rest generalizing pre c merging with
  | nil => exact ⟨[], c, [], rfl, h, rfl, fun _ => .rfl, hc, by simpa using hpre, by simp⟩
  | cons next rest ih =>
    have hstop : (∀ e ∈ entries (next :: rest), k < e.1) →
        ∃ passed n post, some (([] : List (Node K T)), c, next :: rest) = some (passed, n, post) ∧
          LayerOk τ fresh (pre ++ (passed ++ n :: post)) ∧
          entries (passed ++ n :: post) = entries (c :: next :: rest) ∧
          (∀ e, IsHead (passed ++ n :: post) e ↔ IsHead (c :: next :: rest) e) ∧
          Covers k (pre ++ passed) n post := fun hpost =>
      ⟨[], c, _, rfl, h, rfl, fun _ => .rfl, hc, by simpa using hpre, hpost⟩
    rw [SkipMap.walk]
    split
    · split
      · next hm =>
        obtain ⟨c', hc', hok, hbefore, hentries, hhead⟩ := h.merge hthreshold hm hc
        obtain ⟨passed, n, post, hw, hok', hentries', hhead', hcov⟩ :=
          ih true hok hbefore hpre
        rw [hc', Option.bind_some]
        exact ⟨passed, n, post, hw, hok', hentries'.trans hentries,
          fun e => (hhead' e).trans (hhead e), hcov⟩
      · next hm =>
        split
        · next hbelow => exact hstop (h.lt_of_not_below hbelow.2.2)
        · -- the next node need not be merged, so it has a first key
          have hne : next.v ≠ [] := by
            intro h0
            cases ho : next.orphan with
            | true => exact hm ⟨ho, .inl (by rw [h0]; rfl)⟩
            | false => exact h.nonempty next (by simp) ho h0
          obtain ⟨f, x, t, hp, hf⟩ := Node.exists_first hne
          rw [(h.vecs next (by simp)).first_eq, ← Node.pairs, hf, Option.bind_some]
          have hs := h.sorted
          rw [entries_append, entries_cons, entries_cons, hp] at hs
          split
          · next hlt =>
            refine hstop fun e he => ?_
            rw [entries_cons, hp] at he
            exact hlt.trans_le (hs.right.right.head_le he)
          · next hle =>
            have hfk : f ≤ k := not_lt.1 hle
            rw [List.append_cons] at h
            obtain ⟨passed, n, post, hw, hok', hentries', hhead', hcov⟩ :=
              ih false h (fun _ => ⟨f, hf, hfk⟩) (by
                intro e he
                rw [entries_append, entries_cons, entries_nil, List.append_nil] at he
                rw [← List.append_assoc] at hs
                exact (hs.lt_of_append he List.mem_cons_self).trans_le hfk)
            refine ⟨c :: passed, n, post, by rw [hw]; rfl, ?_, ?_, fun e => ?_, ?_⟩
            · simpa using hok'
            · rw [List.cons_append, entries_cons, hentries']
              rfl
            · rw [List.cons_append, isHead_cons, isHead_cons]
              exact or_congr_right (hhead' e)
            · simpa using hcov
    · next hbelow =>
      exact hstop (h.lt_of_not_below fun hb => hbelow (.inr hb))

end Walk

/-! ### From a pointer on -/

/-- A walk for the key `k` may start at the pointer `p`. -/
def Start (k : K) (p : ℕ) (ns : List (Node K T)) : Prop :=
  ∃ pre c rest, ns = pre ++ c :: rest ∧ c.id = p ∧ Before k c ∧ ∀ e ∈ entries pre, e.1 < k

/-- The layer `ns` becomes `ns'` in a walk that arrives at `n`. -/
structure Visited (τ : NodeType K T) (fresh : ℕ) (k : K) (ns ns' : List (Node K T))
    (n : Node K T) : Prop where
  ok : LayerOk τ fresh ns'
  entries_eq : entries ns' = entries ns
  head_iff : ∀ e, IsHead ns' e ↔ IsHead ns e
  covers : ∃ pre post, ns' = pre ++ n :: post ∧ Covers k pre n post

namespace LayerOk

variable {τ : NodeType K T} {fresh fresh' p : ℕ} {ns pre post : List (Node K T)}
  {n : Node K T} {k : K} {x : T}

theorem start_zero (h : LayerOk τ fresh ns) (k : K) : Start k 0 ns := by
  obtain ⟨h₀, t, rfl, h0, ho⟩ := h.leftmost
  refine ⟨[], h₀, t, rfl, h0, fun ho' => ?_, List.forall_mem_nil _⟩
  rw [ho] at ho'
  exact nomatch ho'

theorem start_of_isHead (h : LayerOk τ fresh ns) {e : K × ℕ} (he : IsHead ns e) (hk : e.1 ≤ k) :
    Start k e.2 ns := by
  obtain ⟨n, hn, -, hid, hf⟩ := he
  obtain ⟨pre, post, rfl⟩ := List.append_of_mem hn
  refine ⟨pre, n, post, rfl, hid, fun _ => ⟨e.1, hf, hk⟩, fun e' he' => ?_⟩
  obtain ⟨x, t, hp⟩ := VectorSfra.first_eq_some.1 hf
  have hs := h.sorted
  rw [entries_append, entries_cons, hp] at hs
  exact (hs.lt_of_append he' (List.mem_append_left _ List.mem_cons_self)).trans_le hk

theorem visit (h : LayerOk τ fresh ns) (hst : Start k p ns) {threshold : ℚ}
    (hthreshold : threshold ≤ 2) (w : Walk) :
    ∃ ns' n, w.visit τ threshold k p ns = some (ns', n) ∧ Visited τ fresh k ns ns' n := by
  obtain ⟨pre, c, rest, rfl, rfl, hc, hpre⟩ := hst
  have hgo : ∀ cleanup again, ∃ ns' n,
      Walk.visit.go τ threshold k c.id (pre ++ c :: rest) cleanup again = some (ns', n) ∧
        Visited τ fresh k (pre ++ c :: rest) ns' n := by
    intro cleanup again
    obtain ⟨passed, n, post, hw, hok, hentries, hhead, hcov⟩ :=
      h.walk cleanup again false hthreshold hc hpre
    refine ⟨_, n, ?_, hok, ?_, fun e => ?_, pre ++ passed, post, ?_, hcov⟩
    · rw [Walk.visit.go, locate_eq h.nodup, Option.bind_some]
      dsimp only
      rw [hw]
      rfl
    · rw [entries_append, hentries, entries_append]
    · rw [isHead_append, hhead e, isHead_append]
    · rw [List.append_assoc]
  cases w with
  | checkNext cleanup => exact hgo cleanup cleanup
  | checkNextSequential => exact hgo true false

end LayerOk

/-! ## What comes in place of a node -/

omit [LinearOrder K] in
theorem editAt_eq {R : Type*} {pre post : List (Node K T)} {n : Node K T}
    (h : ((pre ++ n :: post).map Node.id).Nodup)
    (f : Node K T → Option (List (Node K T) × R)) :
    editAt n.id (pre ++ n :: post) f =
      (f n).map fun (nodes, r) => (pre ++ (nodes ++ post), r) := by
  rw [editAt, locate_eq h]
  rfl

/-- The layer `ns` becomes `ns'` with a new entry, and with a new head of its key if there
    is a pointer. -/
structure Grown (τ : NodeType K T) (fresh : ℕ) (k : K) (x : T) (ns ns' : List (Node K T))
    (new : Option ℕ) : Prop where
  ok : LayerOk τ fresh ns'
  mem_iff : ∀ e, e ∈ entries ns' ↔ e = (k, x) ∨ e ∈ entries ns
  head_iff : ∀ e, IsHead ns' e ↔ (∃ q ∈ new, e = (k, q)) ∨ IsHead ns e

section Edits

variable {τ : NodeType K T} {fresh fresh' : ℕ} {pre post w : List (Node K T)} {n u : Node K T}
  {k : K} {x : T} {lo hi : List (K × T)}

theorem Covers.insert (hcov : Covers k pre n post) (hs : KeySorted (entries (pre ++ n :: post)))
    (hp : n.pairs = lo ++ hi) (hc : Cut k lo hi) (hk : VectorSfra.first hi ≠ some k)
    (hw : entries w = lo ++ (k, x) :: hi) :
    KeySorted (entries (pre ++ (w ++ post))) ∧
      ∀ e, e ∈ entries (pre ++ (w ++ post)) ↔ e = (k, x) ∨ e ∈ entries (pre ++ n :: post) := by
  have hold : entries (pre ++ n :: post) = (entries pre ++ lo) ++ (hi ++ entries post) := by
    rw [entries_append, entries_cons, hp]
    simp
  have hnew : entries (pre ++ (w ++ post)) =
      (entries pre ++ lo) ++ (k, x) :: (hi ++ entries post) := by
    rw [entries_append, entries_append, hw]
    simp
  have hcut : Cut k (entries pre ++ lo) (hi ++ entries post) :=
    ⟨fun e he => (List.mem_append.1 he).elim (hcov.pre_lt e) (hc.lo e),
      fun e he => (List.mem_append.1 he).elim (hc.hi e) fun he => (hcov.lt_post e he).le⟩
  have hne : ∀ e ∈ hi ++ entries post, e.1 ≠ k := by
    intro e he hek
    obtain he | he := List.mem_append.1 he
    · have hsn : KeySorted (lo ++ hi) := by
        rw [entries_append, entries_cons, hp] at hs
        exact hs.right.left
      exact hk ((VectorSfra.mem_iff_first hsn hc).1 ⟨e, List.mem_append_right _ he, hek⟩)
    · exact (hcov.lt_post e he).ne' hek
  rw [hold] at hs
  rw [hnew, hold]
  refine ⟨hs.insert hcut hne x, fun e => ?_⟩
  rw [List.mem_append, List.mem_cons, List.mem_append (s := entries pre ++ lo)]
  tauto

/-- What is put in place of a node: it keeps its first key, and new nodes take what it does
    not keep of its entries with the new one. -/
theorem LayerOk.grown (h : LayerOk τ fresh (pre ++ n :: post)) (hcov : Covers k pre n post)
    (hp : n.pairs = lo ++ hi) (hc : Cut k lo hi) (hk : VectorSfra.first hi ≠ some k)
    (hw : u.pairs ++ entries w = lo ++ (k, x) :: hi) (hid : u.id = n.id)
    (horphan : u.orphan = n.orphan) (hvecs : ∀ m ∈ u :: w, τ.vec.Ok m.v)
    (hkeeps : lo ≠ [] → u.v ≠ []) (hnew : ∀ m ∈ w, m.orphan = false → m.v ≠ [])
    (hids : ∀ m ∈ w, fresh ≤ m.id ∧ m.id < fresh') (hnodup : (w.map Node.id).Nodup)
    (hle : fresh ≤ fresh') {new : Option ℕ}
    (hheads : ∀ e, IsHead w e ↔ ∃ q ∈ new, e = (k, q)) :
    Grown τ fresh' k x (pre ++ n :: post) (pre ++ (u :: w ++ post)) new := by
  obtain ⟨hsorted, hmem⟩ := hcov.insert h.sorted hp hc hk (w := u :: w) hw
  -- the first key of a node that is no orphan is below `k`, and stays
  have hfirst : n.orphan = false → u.v ≠ [] ∧
      VectorSfra.first u.pairs = VectorSfra.first n.pairs := by
    intro ho
    obtain ⟨f, hf, hfk⟩ := hcov.before ho
    have hlo : VectorSfra.first lo = some f := by
      rw [hp] at hf
      exact (VectorSfra.first_of_cut hc hf hfk).resolve_right fun h => hk h.2
    have hne : u.v ≠ [] := hkeeps fun h0 => by
      rw [h0] at hlo
      exact nomatch hlo
    obtain ⟨g, -, -, -, hg⟩ := Node.exists_first hne
    have hg' := VectorSfra.first_append hg (entries w)
    rw [hw, VectorSfra.first_append hlo] at hg'
    exact ⟨hne, by rw [hg, hf, hg']⟩
  refine ⟨h.replace (l := []) hsorted hid (fun ho => horphan.trans ho) hvecs ?_ hids hnodup hle,
    hmem, fun e => ?_⟩
  · intro m hm ho
    obtain rfl | hm := List.mem_cons.1 hm
    · exact (hfirst (horphan.symm.trans ho)).1
    · exact hnew m hm ho
  · rw [isHead_append, isHead_append, isHead_cons, isHead_append, isHead_cons, hheads e, hid,
      horphan]
    constructor
    · rintro (hpre | (⟨ho, hq, hf⟩ | hnew) | hpost)
      · exact .inr (.inl hpre)
      · exact .inr (.inr (.inl ⟨ho, hq, (hfirst ho).2 ▸ hf⟩))
      · exact .inl hnew
      · exact .inr (.inr (.inr hpost))
    · rintro (hnew | hpre | ⟨ho, hq, hf⟩ | hpost)
      · exact .inr (.inl (.inr hnew))
      · exact .inl hpre
      · exact .inr (.inl (.inl ⟨ho, hq, (hfirst ho).2.trans hf⟩))
      · exact .inr (.inr hpost)

theorem getVectorSize_pos (exp : ℤ) : 0 < getVectorSize exp := by
  rw [getVectorSize]
  split
  · exact Nat.mul_pos Nat.two_pos (Nat.pow_pos Nat.two_pos)
  · exact Nat.one_pos

/-- A key that a node does not have cuts its entries. -/
theorem Node.exists_cut (hn : τ.vec.Ok n.v) (hk : ∀ e ∈ n.pairs, e.1 ≠ k) :
    ∃ lo hi, n.pairs = lo ++ hi ∧ Cut k lo hi ∧ VectorSfra.first hi ≠ some k := by
  obtain ⟨lo, hi, hp, hc⟩ := hn.sorted.exists_cut k
  refine ⟨lo, hi, hp, hc, fun hf => ?_⟩
  have hs := hn.sorted
  rw [hp] at hs
  obtain ⟨e, he, hek⟩ := (VectorSfra.mem_iff_first hs hc).2 hf
  rw [← hp] at he
  exact hk e he hek

/-- Inserting a pair of a new key into the node that covers it. -/
theorem LayerOk.insert (h : LayerOk τ fresh (pre ++ n :: post)) (hcov : Covers k pre n post)
    (hk : ∀ e ∈ n.pairs, e.1 ≠ k) (x : T) :
    ∃ ns fresh', n.insert τ fresh (k, x) = some (true, ns, fresh') ∧ fresh ≤ fresh' ∧
      Grown τ fresh' k x (pre ++ n :: post) (pre ++ (ns ++ post)) none := by
  have hn := h.vecs n (by simp)
  obtain ⟨lo, hi, hp, hc, hf⟩ := Node.exists_cut hn hk
  by_cases hfull : n.v.length = getVectorSize τ.exp
  · obtain ⟨hok₁, hok₂, happ, hne⟩ :=
      hn.stealHalfAndInsert hp hc hf (hfull ▸ getVectorSize_pos τ.exp) x
    refine ⟨[{ n with v := (τ.vec.stealHalfAndInsert n.v (k, x)).1 },
      ⟨fresh, true, (τ.vec.stealHalfAndInsert n.v (k, x)).2⟩], fresh + 1, ?_, Nat.le_succ _, ?_⟩
    · rw [Node.insert, hn.insert_overfull hp hc hf hfull]
      dsimp only
      rw [fits_eq hok₁, fits_eq hok₂]
      rfl
    · refine h.grown (u := { n with v := (τ.vec.stealHalfAndInsert n.v (k, x)).1 })
        (w := [⟨fresh, true, (τ.vec.stealHalfAndInsert n.v (k, x)).2⟩]) hcov hp hc hf ?_ rfl rfl ?_
        (fun _ => hne) ?_ ?_ (List.nodup_singleton _) (Nat.le_succ _) fun e => ?_
      · rw [entries_cons, entries_nil, List.append_nil]
        exact happ
      · simp only [List.mem_cons, List.not_mem_nil, or_false, forall_eq_or_imp, forall_eq]
        exact ⟨hok₁, hok₂⟩
      · simp
      · simp
      · simp
  · obtain ⟨u, hu, hok, hpairs⟩ := hn.insert_ok hp hc hf hfull x
    refine ⟨[{ n with v := u }], fresh, ?_, le_rfl, ?_⟩
    · rw [Node.insert, hu]
      dsimp only
      rw [fits_eq hok]
      rfl
    · refine h.grown (u := { n with v := u }) (w := []) hcov hp hc hf ?_ rfl rfl ?_
        (fun _ h0 => ?_) ?_ ?_ List.nodup_nil le_rfl fun e => ?_
      · rw [entries_nil, List.append_nil]
        exact hpairs
      · simpa using hok
      · rw [SortedChunk.pairs_eq_nil.2 h0] at hpairs
        exact absurd hpairs.symm (by simp)
      · simp
      · simp
      · simp

/-- Inserting a pair of a key that the node has. -/
theorem Node.insert_exists (hn : τ.vec.Ok n.v) {y : T} (hy : (k, y) ∈ n.pairs) (x : T) :
    n.insert τ fresh (k, x) = some (false, [n], fresh) := by
  obtain ⟨lo, hi, hp, hc⟩ := hn.sorted.exists_cut k
  have hs := hn.sorted
  rw [Node.pairs] at hy
  rw [hp] at hs hy
  have hf : VectorSfra.first hi = some k :=
    (VectorSfra.mem_iff_first hs hc).1 ⟨(k, y), hy, rfl⟩
  rw [Node.insert, hn.insert_exists hp hc hf x]

/-- A node is left with room for a new entry above what it keeps. -/
theorem Node.shed_spec (hn : τ.vec.Ok n.v) (hp : n.pairs = lo ++ hi) (hc : Cut k lo hi)
    (hf : VectorSfra.first hi ≠ some k) (fresh : ℕ) :
    ∃ n₁ orphans fresh₁ hi₁, n.shed τ fresh k = some (n₁, orphans, fresh₁) ∧ n₁.id = n.id ∧
      n₁.orphan = n.orphan ∧ τ.vec.Ok n₁.v ∧ n₁.pairs = lo ++ hi₁ ∧ hi = hi₁ ++ entries orphans ∧
      hi₁.length + 1 ≤ getVectorSize τ.exp ∧ (∀ m ∈ orphans, τ.vec.Ok m.v ∧ m.orphan = true) ∧
      (orphans = [] ∧ fresh₁ = fresh ∨ orphans.map Node.id = [fresh] ∧ fresh₁ = fresh + 1) := by
  have hlen : lo.length + hi.length = n.v.length := by
    rw [← List.length_append, ← hp, Node.pairs, length_pairs]
  have hle := hn.length_le
  have hfirst : τ.vec.first n.v = VectorSfra.first (lo ++ hi) := hn.first_eq.trans (congrArg _ hp)
  rw [Node.shed]
  split
  · next hshed =>
    obtain ⟨hfull, hany⟩ := hshed
    obtain ⟨hok₁, hok₂, hp₁, hp₂⟩ := hn.stealHalf
    have hpos := getVectorSize_pos τ.exp
    -- all keys are above `k`
    have hlo : lo = [] := by
      cases lo with
      | nil => rfl
      | cons e lo =>
        rw [hfirst] at hany
        have hlt : k < e.1 := by simpa [VectorSfra.first] using hany
        exact absurd (hc.lo e List.mem_cons_self) (not_lt.2 hlt.le)
    subst hlo
    rw [fits_eq hok₁, fits_eq hok₂]
    refine ⟨_, _, _, hi.take (n.v.length / 2), rfl, rfl, rfl, hok₁, ?_, ?_, ?_, ?_, .inr ⟨rfl, rfl⟩⟩
    · rw [Node.pairs, hp₁]
      exact congrArg (List.take (n.v.length / 2)) hp
    · have hdrop : entries [(⟨fresh, true, (τ.vec.stealHalf n.v).2⟩ : Node K T)] =
          hi.drop (n.v.length / 2) := by
        rw [entries_cons, entries_nil, List.append_nil, Node.pairs, hp₂]
        exact congrArg (List.drop (n.v.length / 2)) hp
      rw [hdrop, List.take_append_drop]
    · rw [List.length_take]
      omega
    · intro m hm
      rw [List.mem_singleton.1 hm]
      exact ⟨hok₂, rfl⟩
  · next hshed =>
    refine ⟨n, [], fresh, hi, rfl, rfl, rfl, hn, hp, by simp, ?_, List.forall_mem_nil _,
      .inl ⟨rfl, rfl⟩⟩
    by_cases hfull : n.v.length = getVectorSize τ.exp
    · -- the first key is below `k`
      cases lo with
      | nil =>
        refine absurd ⟨hfull, ?_⟩ hshed
        cases hi with
        | nil =>
          have hpos := getVectorSize_pos τ.exp
          exact absurd (hlen.trans hfull) hpos.ne
        | cons e hi =>
          rw [hfirst]
          have hlt := lt_of_le_of_ne (hc.hi e List.mem_cons_self)
            fun heq => hf (congrArg some heq.symm)
          simpa [VectorSfra.first] using hlt
      | cons e lo =>
        rw [List.length_cons] at hlen
        omega
    · omega

/-- Partitioning the node that covers a new key. -/
theorem LayerOk.partition (h : LayerOk τ fresh (pre ++ n :: post)) (hcov : Covers k pre n post)
    (hk : ∀ e ∈ n.pairs, e.1 ≠ k) (x : T) :
    ∃ ns q fresh', n.partition τ fresh (k, x) = some (ns, q, fresh') ∧ fresh ≤ fresh' ∧
      Grown τ fresh' k x (pre ++ n :: post) (pre ++ (ns ++ post)) (some q) := by
  have hn := h.vecs n (by simp)
  obtain ⟨lo, hi, hp, hc, hf⟩ := Node.exists_cut hn hk
  obtain ⟨n₁, orphans, fresh₁, hi₁, hshed, hid₁, ho₁, hok₁, hp₁, happ, hfit, horphans, hfresh⟩ :=
    Node.shed_spec hn hp hc hf fresh
  have hc₁ : Cut k lo hi₁ := ⟨hc.lo, fun e he => hc.hi e (happ ▸ List.mem_append_left _ he)⟩
  have hf₁ : VectorSfra.first hi₁ ≠ some k := fun hf₁ =>
    hf (happ ▸ VectorSfra.first_append hf₁ (entries orphans))
  obtain ⟨hok₂, hok₃, hp₂, hp₃⟩ := hok₁.splitInsert hp₁ hc₁ hf₁ hfit x
  refine ⟨{ n₁ with v := (τ.vec.splitInsert n₁.v (k, x)).1 } ::
    ⟨fresh₁, false, (τ.vec.splitInsert n₁.v (k, x)).2⟩ :: orphans, fresh₁, fresh₁ + 1, ?_, by omega,
    ?_⟩
  · rw [Node.partition, hshed, Option.bind_some]
    dsimp only
    rw [fits_eq hok₂, fits_eq hok₃]
    rfl
  · refine h.grown (u := { n₁ with v := (τ.vec.splitInsert n₁.v (k, x)).1 }) hcov hp hc hf ?_ hid₁
      ho₁ ?_ (fun hlo h0 => ?_) ?_ ?_ ?_ ?_ fun e => ?_
    · rw [entries_cons, Node.pairs, Node.pairs, hp₂, hp₃, happ, List.cons_append]
    · rintro m hm
      obtain rfl | hm := List.mem_cons.1 hm
      · exact hok₂
      · obtain rfl | hm := List.mem_cons.1 hm
        · exact hok₃
        · exact (horphans m hm).1
    · rw [SortedChunk.pairs_eq_nil.2 h0] at hp₂
      exact hlo hp₂.symm
    · rintro m hm ho h0
      obtain rfl | hm := List.mem_cons.1 hm
      · rw [SortedChunk.pairs_eq_nil.2 h0] at hp₃
        exact nomatch hp₃
      · rw [(horphans m hm).2] at ho
        exact nomatch ho
    · rintro m hm
      obtain rfl | hm := List.mem_cons.1 hm
      · dsimp only
        omega
      · have hm' : m.id ∈ orphans.map Node.id := List.mem_map_of_mem hm
        obtain ⟨rfl, -⟩ | ⟨hids, rfl⟩ := hfresh
        · exact absurd hm List.not_mem_nil
        · rw [hids] at hm'
          rw [List.mem_singleton.1 hm']
          omega
    · obtain ⟨rfl, rfl⟩ | ⟨hids, rfl⟩ := hfresh
      · exact List.nodup_singleton _
      · rw [List.map_cons, hids]
        simp
    · omega
    · have hnone : ¬ IsHead orphans e := by
        rintro ⟨m, hm, ho, -⟩
        rw [(horphans m hm).2] at ho
        exact nomatch ho
      rw [isHead_cons, Node.pairs, hp₃]
      simp only [hnone, or_false, VectorSfra.first, List.head?_cons, Option.map_some, true_and,
        Option.some.injEq, Option.mem_def, exists_eq_left', Prod.ext_iff, eq_comm]
      exact and_comm

end Edits

/-- The layer `ns` becomes `ns'` without the key `k`. -/
structure Shrunk (τ : NodeType K T) (fresh : ℕ) (k : K) (ns ns' : List (Node K T)) : Prop where
  ok : LayerOk τ fresh ns'
  mem_iff : ∀ e, e ∈ entries ns' ↔ e ∈ entries ns ∧ e.1 ≠ k
  head_iff : ∀ e, IsHead ns' e ↔ IsHead ns e ∧ e.1 ≠ k

section Remove

variable {τ : NodeType K T} {fresh : ℕ} {pre post : List (Node K T)} {n : Node K T} {k : K} {x : T}
  {release : Bool}

/-- The first key of a node that is not above another node's key is its own. -/
theorem LayerOk.first_ne (h : LayerOk τ fresh (pre ++ n :: post)) (hx : (k, x) ∈ n.pairs)
    {m : Node K T} (hm : m ∈ pre ∨ m ∈ post) : VectorSfra.first m.pairs ≠ some k := by
  intro hf
  obtain ⟨y, t, hp⟩ := VectorSfra.first_eq_some.1 hf
  have hy : (k, y) ∈ m.pairs := hp ▸ List.mem_cons_self
  have hs := h.sorted
  rw [entries_append, entries_cons] at hs
  obtain hm | hm := hm
  · exact lt_irrefl k (hs.lt_of_append (mem_entries.2 ⟨m, hm, hy⟩) (List.mem_append_left _ hx))
  · exact lt_irrefl k (hs.right.lt_of_append hx (mem_entries.2 ⟨m, hm, hy⟩))

variable (release) in
/-- Removing a key from a node. The node becomes an orphan exactly if the key is its first
    one. -/
theorem LayerOk.remove (h : LayerOk τ fresh (pre ++ n :: post)) (hx : (k, x) ∈ n.pairs)
    (hrelease : n.orphan = true ∨ (release = true ↔ VectorSfra.first n.pairs = some k)) :
    ∃ u, n.remove τ release k = (some x, u) ∧
      Shrunk τ fresh k (pre ++ n :: post) (pre ++ ([u] ++ post)) := by
  have hn := h.vecs n (by simp)
  obtain ⟨lo, hi, hp⟩ := List.append_of_mem hx
  obtain ⟨hval, hok, hpairs⟩ := hn.remove_some hp
  let u : Node K T := ⟨n.id, n.orphan || release, (τ.vec.remove n.v k).2⟩
  have hu : u.pairs = lo ++ hi := hpairs
  have hs := h.sorted
  rw [entries_append, entries_cons, hp] at hs
  have hsub : (lo ++ hi).Sublist (lo ++ (k, x) :: hi) :=
    List.Sublist.append_left (List.sublist_cons_self _ _) _
  have hmem : (k, x) ∈ lo ++ (k, x) :: hi := by simp
  have hne : ∀ e ∈ lo ++ hi, e.1 ≠ k := by
    intro e he
    obtain he | he := List.mem_append.1 he
    · exact (hs.right.left.lt_of_append he List.mem_cons_self).ne
    · exact ((List.pairwise_cons.1 hs.right.left.right).1 e he).ne'
  -- a node that stays no orphan keeps its first key, which is not `k`
  have hfirst : u.orphan = false → n.orphan = false ∧ lo ≠ [] := by
    intro ho
    obtain ⟨ho, hr⟩ := Bool.or_eq_false_iff.1 ho
    refine ⟨ho, fun h0 => ?_⟩
    rw [ho, hr, hp, h0] at hrelease
    obtain h | h := hrelease
    · exact nomatch h
    · exact nomatch h.2 rfl
  have hkeep : ∀ f, lo ≠ [] →
      (VectorSfra.first u.pairs = some f ↔ VectorSfra.first n.pairs = some f) := by
    intro f h0
    obtain ⟨⟨g, y⟩, lo, rfl⟩ := List.exists_cons_of_ne_nil h0
    rw [hu, hp]
    rfl
  refine ⟨u, Prod.ext hval rfl, h.replace (l := []) (w := []) ?_ rfl ?_ ?_ ?_ ?_
    List.nodup_nil le_rfl,
    fun e => ?_, fun e => ?_⟩
  · refine hs.sublist ?_
    rw [List.singleton_append, entries_append, entries_cons, hu]
    exact List.Sublist.append_left (List.Sublist.append_right hsub _) _
  · exact fun ho => Bool.or_eq_true_iff.2 (.inl ho)
  · rintro m hm
    rw [List.mem_singleton.1 hm]
    exact hok
  · rintro m hm ho h0
    rw [List.mem_singleton.1 hm] at ho h0
    have hnil := hu.symm.trans (Node.pairs_eq_nil.2 h0)
    exact (hfirst ho).2 (List.append_eq_nil_iff.1 hnil).1
  · exact fun m hm => absurd hm List.not_mem_nil
  · rw [List.singleton_append, entries_append, entries_cons, entries_append, entries_cons, hu, hp]
    have hpre : ∀ e ∈ entries pre, e.1 ≠ k := fun e he =>
      (hs.lt_of_append he (List.mem_append_left _ hmem)).ne
    have hpost : ∀ e ∈ entries post, e.1 ≠ k := fun e he =>
      (hs.right.lt_of_append hmem he).ne'
    constructor
    · intro he
      simp only [List.mem_append, List.mem_cons] at he ⊢
      obtain he | he | he := he
      · exact ⟨.inl he, hpre e he⟩
      · exact ⟨.inr (.inl (he.imp_right .inr)), hne e (List.mem_append.2 he)⟩
      · exact ⟨.inr (.inr he), hpost e he⟩
    · rintro ⟨he, hek⟩
      simp only [List.mem_append, List.mem_cons] at he ⊢
      obtain he | (he | rfl | he) | he := he
      · exact .inl he
      · exact .inr (.inl (.inl he))
      · exact absurd rfl hek
      · exact .inr (.inl (.inr he))
      · exact .inr (.inr he)
  · rw [List.singleton_append, isHead_append, isHead_cons, isHead_append, isHead_cons]
    constructor
    · rintro (⟨m, hm, ho, hid, hf⟩ | ⟨ho, hid, hf⟩ | ⟨m, hm, ho, hid, hf⟩)
      · exact ⟨.inl ⟨m, hm, ho, hid, hf⟩, fun hek => h.first_ne hx (.inl hm) (hek ▸ hf)⟩
      · obtain ⟨ho, h0⟩ := hfirst ho
        have hf' := (hkeep e.1 h0).1 hf
        refine ⟨.inr (.inl ⟨ho, hid, hf'⟩), ?_⟩
        obtain ⟨y, t, hp'⟩ := VectorSfra.first_eq_some.1 hf
        exact hne (e.1, y) (hu ▸ hp' ▸ List.mem_cons_self)
      · exact ⟨.inr (.inr ⟨m, hm, ho, hid, hf⟩), fun hek => h.first_ne hx (.inr hm) (hek ▸ hf)⟩
    · rintro ⟨hpre | ⟨ho, hid, hf⟩ | hpost, hek⟩
      · exact .inl hpre
      · -- the first key is not `k`, so the node does not become an orphan
        have hf' : VectorSfra.first n.pairs ≠ some k := fun hf' =>
          hek (Option.some.inj (hf.symm.trans hf'))
        have hr : release = false := by
          obtain h | h := hrelease
          · rw [ho] at h
            exact nomatch h
          · exact Bool.eq_false_iff.2 fun hr => hf' (h.1 hr)
        have h0 : lo ≠ [] := fun h0 => hf' (by rw [hp, h0]; rfl)
        exact .inr (.inl ⟨Bool.or_eq_false_iff.2 ⟨ho, hr⟩, hid, (hkeep e.1 h0).2 hf⟩)
      · exact .inr (.inr hpost)

/-- Removing a key that the node does not have. -/
theorem LayerOk.remove_none (h : LayerOk τ fresh (pre ++ n :: post)) (hk : ∀ e ∈ n.pairs, e.1 ≠ k) :
    ∃ u, n.remove τ false k = (none, u) ∧ LayerOk τ fresh (pre ++ ([u] ++ post)) ∧
      entries (pre ++ ([u] ++ post)) = entries (pre ++ n :: post) ∧
      ∀ e, IsHead (pre ++ ([u] ++ post)) e ↔ IsHead (pre ++ n :: post) e := by
  have hn := h.vecs n (by simp)
  obtain ⟨hval, hok, hpairs⟩ := hn.remove_none hk
  let u : Node K T := ⟨n.id, n.orphan || false, (τ.vec.remove n.v k).2⟩
  have hu : u.pairs = n.pairs := hpairs
  have ho : u.orphan = n.orphan := Bool.or_false _
  have hentries : entries (pre ++ ([u] ++ post)) = entries (pre ++ n :: post) := by
    rw [List.singleton_append, entries_append, entries_cons, hu, entries_append, entries_cons]
  refine ⟨u, Prod.ext hval rfl, h.replace (l := []) (w := []) ?_ rfl ?_ ?_ ?_ ?_
    List.nodup_nil le_rfl,
    hentries, fun e => ?_⟩
  · exact hentries ▸ h.sorted
  · exact fun h => ho.trans h
  · rintro m hm
    rw [List.mem_singleton.1 hm]
    exact hok
  · rintro m hm hm' h0
    rw [List.mem_singleton.1 hm] at hm' h0
    have hnil := hu.symm.trans (Node.pairs_eq_nil.2 h0)
    exact h.nonempty n (by simp) (ho.symm.trans hm') (Node.pairs_eq_nil.1 hnil)
  · exact fun m hm => absurd hm List.not_mem_nil
  · rw [List.singleton_append, isHead_append, isHead_cons, isHead_append, isHead_cons, hu, ho]

end Remove

end DiscoSkip.SkipMap
