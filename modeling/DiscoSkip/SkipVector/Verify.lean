import Mathlib.Data.List.Chain
import DiscoSkip.Lock.SvLock
import DiscoSkip.SkipVector

/-!
# The checker

`verify` looks at the nodes of a cache that is at rest, as they are in memory. It walks
along every layer: the vector of each node has to be in order, an empty node that is not
the leftmost one has to be an orphan, and the last key of a node must not be above the
first one of the next. Along an index layer, it traces the layer below: the entries have
to point to the nodes that are no orphans, one after the other.

What it does with a failure depends on the build. With assertions, it throws; without
them, the functions return `false`, and `verify` drops what its helpers return.

So there is more to a well-formed cache (`Memory.Sound`) than it accepts. With
assertions, this is exactly that the borders of the nodes are strict, and that what is
behind the last target of a layer are orphans; without them, it is all that the helpers
look at (`sound_iff_of_verify`).
-/

namespace DiscoSkip.SkipVector

open Lib

/-! ## The nodes in memory -/

/-- A node as it is in memory, with any vector and any lock word. -/
structure RawNode (K T : Type*) where
  /-- The pointer to the node. -/
  id : ℕ
  lock : BitVec 64
  v : VectorSfra K T
deriving DecidableEq

/-- The layers of a cache as they are in memory: the nodes of each, from the head on. A
    node is not twice in a chain. -/
structure Memory (K A : Type*) where
  directory : List (RawNode K A)
  /-- The index layers, the lowest one is `1`. -/
  index : ℕ → List (RawNode K ℕ)
  /-- The number of hazard pointers that are held. -/
  reserved : ℕ
  nodup_directory : (directory.map RawNode.id).Nodup
  nodup_index : ∀ L, ((index L).map RawNode.id).Nodup

/-! ## Verdicts -/

/-- How a function of the checker fails: with an exception, or with the verdict
    `false`. -/
inductive Failure
  | thrown
  | rejected
deriving DecidableEq

/-- A failure, with assertions or without them. -/
def fail {α : Type} (debug : Bool) : Except Failure α :=
  .error (if debug then .thrown else .rejected)

/-- Dropping a verdict: only exceptions are not dropped. -/
def dropVerdict : Except Failure Unit → Except Failure Unit
  | .error .thrown => .error .thrown
  | .error .rejected => .ok ()
  | .ok () => .ok ()

section Verify

variable {K T A τ : Type} [LinearOrder K] (debug : Bool)

/-- The loop over the neighbouring keys. -/
def increasing : List (K × T) → Bool
  | [] => true
  | [_] => true
  | a :: b :: v => if b.1 ≤ a.1 then false else increasing (b :: v)

/-- `verify` of a vector. -/
def verifyVector (capacity : ℕ) (v : VectorSfra K T) : Bool :=
  if capacity < v.length then false else increasing v

namespace RawNode

omit [LinearOrder K] in
/-- `is_orphan_seq` -/
def isOrphan (n : RawNode K T) : Bool := SvLock.isOrphan n.lock

def verifyLock (n : RawNode K T) : Except Failure Unit :=
  if SvLock.isLocked n.lock then fail debug else .ok ()

/-- The checks of a node by itself. -/
def verifyNode (capacity : ℕ) (n : RawNode K T) : Except Failure Unit := do
  dropVerdict (n.verifyLock debug)
  if verifyVector capacity n.v then .ok () else fail debug

/-- The check of a node with the next one that is not empty. -/
def verifyBorder (curr next : RawNode K T) : Except Failure Unit :=
  if curr.v.length = 0 then (if curr.isOrphan then .ok () else fail debug)
  else
    match curr.v.maxKey, next.v.first with
    | some last, some first => if first < last then fail debug else .ok ()
    | _, _ => .ok ()

end RawNode

/-- The walk from the node `curr` on, which was visited. -/
def walkFrom (visit : τ → RawNode K T → Except Failure τ) :
    RawNode K T → List (RawNode K T) → τ → Except Failure τ
  | _, [], t => .ok t
  | curr, next :: rest, t =>
    if next.v.length = 0 then do
      dropVerdict (next.verifyLock debug)
      if next.isOrphan then walkFrom visit curr rest t else fail debug
    else do
      curr.verifyBorder debug next
      let t ← visit t next
      walkFrom visit next rest t

/-- The walk along a layer: its nodes are visited, but for the empty ones after the
    head. -/
def walk (visit : τ → RawNode K T → Except Failure τ) :
    List (RawNode K T) → τ → Except Failure τ
  | [], t => .ok t
  | curr :: rest, t => do
    let t ← visit t curr
    walkFrom debug visit curr rest t

/-- Advancing the trace along the layer below until a down pointer is found. -/
def traceTo (down : Option ℕ) :
    List (RawNode K T) → Except Failure (RawNode K T × List (RawNode K T))
  | [] => fail debug
  | trace :: rest =>
    if down = some trace.id then .ok (trace, rest)
    else if trace.isOrphan then traceTo down rest
    else fail debug

/-- Tracing the down pointers of the entries of the vector `v`. -/
def traceEntries (v : VectorSfra K ℕ) :
    List (K × ℕ) → List (RawNode K T) → Except Failure (List (RawNode K T))
  | [], trace => .ok trace
  | e :: es, trace => do
    let (down, trace) ← traceTo debug (v.containsValue e.1) trace
    if down.isOrphan then fail debug
    else if down.v.length = 0 then fail debug
    else if down.v.first = some e.1 then traceEntries v es trace
    else fail debug

/-- The visit of a node of an index layer. -/
def visitIndex (capacity : ℕ) (trace : List (RawNode K T)) (curr : RawNode K ℕ) :
    Except Failure (List (RawNode K T)) := do
  curr.verifyNode debug capacity
  traceEntries debug curr.v curr.v trace

/-- The check of the index layer `ns` with the layer `trace` below. -/
def verifyIndex (capacity : ℕ) (ns : List (RawNode K ℕ)) (trace : List (RawNode K T)) :
    Except Failure Unit := do
  let _ ← walk debug (visitIndex debug capacity) ns trace
  .ok ()

namespace Memory

/-- The loop over the index layers, from the top one on. -/
def verifyLayers (capacity : ℕ) (s : Memory K A) : ℕ → Except Failure Unit
  | 0 => .ok ()
  | 1 => dropVerdict (verifyIndex debug capacity (s.index 1) s.directory)
  | layer + 2 => do
    dropVerdict (verifyIndex debug capacity (s.index (layer + 2)) (s.index (layer + 1)))
    s.verifyLayers capacity (layer + 1)

def verify (capacity layers : ℕ) (s : Memory K A) : Except Failure Unit :=
  if s.reserved = 0 then do
    s.verifyLayers debug capacity (layers - 1)
    walk debug (fun _ n => n.verifyNode debug capacity) s.directory ()
  else fail debug

end Memory

end Verify

/-! ## What a cache should be -/

section Sound

variable {K T A : Type} [LinearOrder K]

/-- The entries of a layer, in order. -/
def rawEntries (ns : List (RawNode K T)) : List (K × T) := ns.flatMap RawNode.v

/-- The keys of a layer increase strictly, and none of its locks is held. -/
structure LayerSound (ns : List (RawNode K T)) : Prop where
  sorted : KeySorted (rawEntries ns)
  unlocked : ∀ n ∈ ns, SvLock.isLocked n.lock = false

omit [LinearOrder K] in
/-- The entries of the layer `up` point to the non-orphans of the layer `down`, and to
    all of them. -/
structure Parents (up : List (RawNode K ℕ)) (down : List (RawNode K T)) : Prop where
  target : ∀ e ∈ rawEntries up,
    ∃ n ∈ down, n.id = e.2 ∧ n.isOrphan = false ∧ n.v ≠ [] ∧ n.v.first = some e.1
  targeted : ∀ n ∈ down, n.isOrphan = false → ∃ e ∈ rawEntries up, e.2 = n.id

/-- A property of every index layer, but for the top one, and the layer below, the
    directory included. -/
def Memory.Between (layers : ℕ) (s : Memory K A)
    (P : ∀ {T : Type}, List (RawNode K ℕ) → List (RawNode K T) → Prop) : Prop :=
  (1 < layers → P (s.index 1) s.directory) ∧
    ∀ L, 0 < L → L + 1 < layers → P (s.index (L + 1)) (s.index L)

/-- A property of every layer. -/
def Memory.Each (layers : ℕ) (s : Memory K A)
    (P : ∀ {T : Type}, List (RawNode K T) → Prop) : Prop :=
  P s.directory ∧ ∀ L, 0 < L → L < layers → P (s.index L)

/-- What a cache at rest should be. -/
structure Memory.Sound (layers : ℕ) (s : Memory K A) : Prop where
  layer : s.Each layers LayerSound
  parents : s.Between layers Parents

/-- The last key of a node is not the first one of the next that is not empty. -/
def StrictBorders (ns : List (RawNode K T)) : Prop :=
  (ns.filter (·.v ≠ [])).IsChain fun n m => n.v.last ≠ m.v.first

/-- What comes after the targets of the layer `up` in the layer `down` are orphans. -/
def OrphanTail (up : List (RawNode K ℕ)) (down : List (RawNode K T)) : Prop :=
  ∀ pre n post, down = pre ++ n :: post → (∀ e ∈ rawEntries up, ∃ m ∈ pre, m.id = e.2) →
    n.isOrphan = true

/-- What the checker does not look at, without assertions. -/
structure Memory.Unseen (layers : ℕ) (s : Memory K A) : Prop where
  unlocked : ∀ n ∈ s.directory, SvLock.isLocked n.lock = false
  index : ∀ L, 0 < L → L < layers → LayerSound (s.index L)
  parents : s.Between layers Parents

end Sound

/-! ## Exceptions -/

section Throws

variable {α β : Type} {debug : Bool}

theorem bind_eq_ok {x : Except Failure α} {f : α → Except Failure β} {b : β} :
    (x >>= f) = .ok b ↔ ∃ a, x = .ok a ∧ f a = .ok b := by
  cases x with
  | error e =>
    constructor
    · exact fun h => nomatch h
    · rintro ⟨a, h, -⟩
      exact nomatch h
  | ok a =>
    constructor
    · exact fun h => ⟨a, rfl, h⟩
    · rintro ⟨a', h, hf⟩
      exact Except.ok.inj h ▸ hf

/-- It fails with exceptions only. -/
def Throws (x : Except Failure α) : Prop := ∀ e, x = .error e → e = .thrown

theorem Throws.ok (a : α) : Throws (.ok a) := fun _ h => nomatch h

theorem Throws.fail : Throws (fail true : Except Failure α) := fun _ h => (Except.error.inj h).symm

theorem Throws.bind {x : Except Failure α} {f : α → Except Failure β} (hx : Throws x)
    (hf : ∀ a, Throws (f a)) : Throws (x >>= f) := by
  cases x with
  | error e => exact fun e' h => hx e' (Except.error.inj h ▸ rfl)
  | ok a => exact hf a

theorem Throws.dropVerdict (x : Except Failure Unit) : Throws (dropVerdict x) := by
  intro e h
  match x with
  | .error .thrown => exact (Except.error.inj h).symm

theorem Throws.ite {p : Prop} [Decidable p] {x y : Except Failure α} (hx : Throws x)
    (hy : Throws y) : Throws (if p then x else y) := by
  split
  · exact hx
  · exact hy

/-- A verdict that is dropped is not `false`, if failures are exceptions. -/
theorem Throws.of_dropVerdict {x : Except Failure Unit} (hx : Throws x)
    (h : SkipVector.dropVerdict x = .ok ()) : x = .ok () := by
  match x with
  | .ok () => rfl
  | .error .rejected => exact nomatch hx _ rfl

end Throws

section Throws

variable {K T τ : Type} [LinearOrder K] {capacity : ℕ}

omit [LinearOrder K] in
theorem RawNode.verifyLock_throws (n : RawNode K T) : Throws (n.verifyLock true) :=
  .ite .fail (.ok _)

theorem RawNode.verifyNode_throws (n : RawNode K T) : Throws (n.verifyNode true capacity) :=
  (Throws.dropVerdict _).bind fun _ => .ite (.ok _) .fail

theorem RawNode.verifyBorder_throws (n m : RawNode K T) : Throws (n.verifyBorder true m) := by
  refine .ite (.ite (.ok _) .fail) ?_
  split
  · exact .ite .fail (.ok _)
  · exact .ok _

theorem walk_throws {visit : τ → RawNode K T → Except Failure τ} (hv : ∀ t n, Throws (visit t n))
    (ns : List (RawNode K T)) (t : τ) : Throws (walk true visit ns t) := by
  have hfrom : ∀ curr t, Throws (walkFrom true visit curr ns.tail t) := by
    induction ns.tail with
    | nil => exact fun _ t => .ok t
    | cons n ns ih =>
      intro curr t
      refine .ite ((Throws.dropVerdict _).bind fun _ => .ite (ih curr t) .fail) ?_
      exact (curr.verifyBorder_throws n).bind fun _ => (hv t n).bind fun t => ih n t
  cases ns with
  | nil => exact .ok t
  | cons n ns => exact (hv t n).bind fun t => hfrom n t

omit [LinearOrder K] in
theorem traceTo_throws (down : Option ℕ) (trace : List (RawNode K T)) :
    Throws (traceTo true down trace) := by
  induction trace with
  | nil => exact .fail
  | cons n trace ih => exact .ite (.ok _) (.ite ih .fail)

theorem traceEntries_throws (v es : VectorSfra K ℕ) (trace : List (RawNode K T)) :
    Throws (traceEntries true v es trace) := by
  induction es generalizing trace with
  | nil => exact .ok _
  | cons e es ih =>
    exact (traceTo_throws _ trace).bind fun p => .ite .fail (.ite .fail (.ite (ih p.2) .fail))

theorem verifyIndex_throws (ns : List (RawNode K ℕ)) (trace : List (RawNode K T)) :
    Throws (verifyIndex true capacity ns trace) := by
  refine (walk_throws (fun t n => ?_) ns trace).bind fun _ => .ok _
  exact n.verifyNode_throws.bind fun _ => traceEntries_throws _ _ t

end Throws

/-! ## The walk along a layer -/

section Walk

variable {K T τ : Type} [LinearOrder K] {debug : Bool} {capacity : ℕ}

theorem keySorted_of_increasing {v : List (K × T)} (h : increasing v = true) : KeySorted v := by
  refine List.IsChain.pairwise ?_
  induction v with
  | nil => exact .nil
  | cons a v ih =>
    cases v with
    | nil => exact .singleton a
    | cons b v =>
      rw [increasing] at h
      split at h
      · exact nomatch h
      · next hlt => exact .cons_cons (not_le.1 hlt) (ih h)

theorem RawNode.sorted_of_verifyNode {n : RawNode K T}
    (h : n.verifyNode debug capacity = .ok ()) : KeySorted n.v := by
  obtain ⟨-, -, h⟩ := bind_eq_ok.1 h
  split at h
  · next hv =>
    rw [verifyVector] at hv
    split at hv
    · exact nomatch hv
    · exact keySorted_of_increasing hv
  · exact nomatch h

omit [LinearOrder K] in
theorem RawNode.unlocked_of_dropVerdict {n : RawNode K T}
    (h : dropVerdict (n.verifyLock true) = .ok ()) : SvLock.isLocked n.lock = false := by
  have hlock := n.verifyLock_throws.of_dropVerdict h
  rw [RawNode.verifyLock] at hlock
  split at hlock
  · exact nomatch hlock
  · next hn => exact Bool.eq_false_of_not_eq_true hn

theorem RawNode.unlocked_of_verifyNode {n : RawNode K T}
    (h : n.verifyNode true capacity = .ok ()) : SvLock.isLocked n.lock = false := by
  obtain ⟨_, hlock, _⟩ := bind_eq_ok.1 h
  exact unlocked_of_dropVerdict hlock

/-- The keys of the nodes do not decrease at the border. -/
def Border (n m : RawNode K T) : Prop :=
  ∀ last first, n.v.last = some last → m.v.first = some first → last ≤ first

theorem RawNode.border_of_verifyBorder {n m : RawNode K T} (h : n.verifyBorder debug m = .ok ()) :
    Border n m := by
  intro last first hl hf
  rw [RawNode.verifyBorder] at h
  split at h
  · next h0 =>
    rw [List.eq_nil_of_length_eq_zero h0] at hl
    exact nomatch hl
  · rw [VectorSfra.maxKey, ← VectorSfra.last, hl, hf] at h
    dsimp only at h
    split at h
    · exact nomatch h
    · next hle => exact not_lt.1 hle

/-- The nodes that the walk visits: all but the empty ones after the head. -/
def visited : List (RawNode K T) → List (RawNode K T)
  | [] => []
  | n :: ns => n :: ns.filter (·.v ≠ [])

/-- The walk visits the nodes in turn. It looks at the borders between them, and at the
    locks of the other ones. -/
theorem walkFrom_spec {visit : τ → RawNode K T → Except Failure τ} {ns : List (RawNode K T)}
    {curr : RawNode K T} {t t' : τ} (h : walkFrom debug visit curr ns t = .ok t') :
    (ns.filter (·.v ≠ [])).foldlM visit t = .ok t' ∧
      (curr :: ns.filter (·.v ≠ [])).IsChain Border ∧
      (debug = true → ∀ n ∈ ns, n.v = [] → SvLock.isLocked n.lock = false) := by
  induction ns generalizing curr t with
  | nil => exact ⟨h, .singleton curr, fun _ => List.forall_mem_nil _⟩
  | cons n ns ih =>
    rw [walkFrom] at h
    split at h
    · next h0 =>
      have hn := List.eq_nil_of_length_eq_zero h0
      obtain ⟨_, hlock, h⟩ := bind_eq_ok.1 h
      split at h
      · obtain ⟨hfold, hchain, hunlocked⟩ := ih h
        rw [List.filter_cons_of_neg (by simpa using hn)]
        refine ⟨hfold, hchain, fun hd => List.forall_mem_cons.2 ⟨fun _ => ?_, hunlocked hd⟩⟩
        subst hd
        exact RawNode.unlocked_of_dropVerdict hlock
      · exact nomatch h
    · next h0 =>
      have hn : n.v ≠ [] := fun h => h0 (by rw [h, List.length_nil])
      obtain ⟨_, hborder, h⟩ := bind_eq_ok.1 h
      obtain ⟨t₁, hvisit, h⟩ := bind_eq_ok.1 h
      obtain ⟨hfold, hchain, hunlocked⟩ := ih h
      rw [List.filter_cons_of_pos (by simpa using hn)]
      refine ⟨?_, .cons_cons (RawNode.border_of_verifyBorder hborder) hchain,
        fun hd => List.forall_mem_cons.2 ⟨fun h => absurd h hn, hunlocked hd⟩⟩
      rw [List.foldlM_cons, bind_eq_ok]
      exact ⟨t₁, hvisit, hfold⟩

theorem walk_spec {visit : τ → RawNode K T → Except Failure τ} {ns : List (RawNode K T)}
    {t t' : τ} (h : walk debug visit ns t = .ok t') :
    (visited ns).foldlM visit t = .ok t' ∧ (visited ns).IsChain Border ∧
      ∀ n ∈ ns, n ∈ visited ns ∨
        n.v = [] ∧ (debug = true → SvLock.isLocked n.lock = false) := by
  cases ns with
  | nil => exact ⟨h, .nil, List.forall_mem_nil _⟩
  | cons n ns =>
    obtain ⟨t₁, hvisit, h⟩ := bind_eq_ok.1 h
    obtain ⟨hfold, hchain, hunlocked⟩ := walkFrom_spec h
    refine ⟨?_, hchain, fun m hm => ?_⟩
    · rw [visited, List.foldlM_cons, bind_eq_ok]
      exact ⟨t₁, hvisit, hfold⟩
    · rcases List.mem_cons.1 hm with rfl | hm
      · exact .inl List.mem_cons_self
      · by_cases h0 : m.v = []
        · exact .inr ⟨h0, fun hd => hunlocked hd m hm h0⟩
        · exact .inl (List.mem_cons_of_mem _ (List.mem_filter.2 ⟨hm, by simpa using h0⟩))

omit [LinearOrder K] in
theorem rawEntries_filter (ns : List (RawNode K T)) :
    rawEntries (ns.filter (·.v ≠ [])) = rawEntries ns := by
  induction ns with
  | nil => rfl
  | cons n ns ih =>
    by_cases h0 : n.v = []
    · rw [List.filter_cons_of_neg (by simpa using h0), ih]
      simp [rawEntries, h0]
    · rw [List.filter_cons_of_pos (by simpa using h0)]
      exact congrArg (n.v ++ ·) ih

omit [LinearOrder K] in
theorem rawEntries_visited (ns : List (RawNode K T)) : rawEntries (visited ns) = rawEntries ns := by
  cases ns with
  | nil => rfl
  | cons n ns => exact congrArg (n.v ++ ·) (rawEntries_filter ns)

/-- The borders that do not decrease are those between the nodes that are not empty. -/
theorem isChain_filter_of_visited {ns : List (RawNode K T)} (h : (visited ns).IsChain Border) :
    (ns.filter (·.v ≠ [])).IsChain Border := by
  cases ns with
  | nil => exact .nil
  | cons n ns =>
    by_cases h0 : n.v = []
    · rw [List.filter_cons_of_neg (by simpa using h0)]
      exact h.tail
    · rw [List.filter_cons_of_pos (by simpa using h0)]
      exact h

theorem le_of_last {v : List (K × T)} (hv : KeySorted v) {l : K} (hl : VectorSfra.last v = some l)
    {e : K × T} (he : e ∈ v) : e.1 ≤ l := by
  obtain ⟨e', he', rfl⟩ := Option.map_eq_some_iff.1 hl
  obtain ⟨u, rfl⟩ := List.getLast?_eq_some_iff.1 he'
  rcases List.mem_append.1 he with he | he
  · exact (hv.lt_of_append he (List.mem_singleton_self e')).le
  · exact (List.mem_singleton.1 he ▸ le_refl e'.1)

/-- The keys increase along a layer, if they do in the nodes and at the borders. -/
theorem keySorted_of_borders {ns : List (RawNode K T)} (hne : ∀ n ∈ ns, n.v ≠ [])
    (hv : ∀ n ∈ ns, KeySorted n.v) (hb : ns.IsChain Border)
    (hs : ns.IsChain fun n m => n.v.last ≠ m.v.first) : KeySorted (rawEntries ns) := by
  induction ns with
  | nil => exact .nil
  | cons n ns ih =>
    have hrest := ih (fun m hm => hne m (List.mem_cons_of_mem n hm))
      (fun m hm => hv m (List.mem_cons_of_mem n hm)) hb.tail hs.tail
    refine List.pairwise_append.2 ⟨hv n List.mem_cons_self, hrest, fun e he e' he' => ?_⟩
    cases ns with
    | nil => exact absurd he' List.not_mem_nil
    | cons m ns =>
      obtain ⟨⟨f, x⟩, t, hm⟩ := List.exists_cons_of_ne_nil (hne m (by simp))
      have hf : m.v.first = some f := VectorSfra.first_eq_some.2 ⟨x, t, hm⟩
      obtain ⟨l, hl⟩ : ∃ l, n.v.last = some l := by
        rw [VectorSfra.last, List.getLast?_eq_getLast_of_ne_nil (hne n List.mem_cons_self)]
        exact ⟨_, rfl⟩
      -- the last key is below the first one of the next node, which is its least
      have hle := (List.isChain_cons_cons.1 hb).1 l f hl hf
      have hne' : l ≠ f := fun h => (List.isChain_cons_cons.1 hs).1 (by rw [hl, hf, h])
      have hfirst : f ≤ e'.1 := by
        have hcons : rawEntries (m :: ns) = (f, x) :: (t ++ rawEntries ns) := by
          rw [rawEntries, List.flatMap_cons, hm]
          rfl
        change e' ∈ rawEntries (m :: ns) at he'
        rw [hcons] at hrest he'
        exact hrest.head_le he'
      calc e.1 ≤ l := le_of_last (hv n List.mem_cons_self) hl he
        _ < f := lt_of_le_of_ne hle hne'
        _ ≤ e'.1 := hfirst

theorem strictBorders_of_keySorted {ns : List (RawNode K T)} (h : KeySorted (rawEntries ns)) :
    StrictBorders ns := by
  have hcross := (List.pairwise_flatMap.1 h).2.filter (·.v ≠ [])
  refine (hcross.imp_of_mem fun {n m} hn _ hnm heq => ?_).isChain
  have hne : n.v ≠ [] := by simpa using (List.mem_filter.1 hn).2
  obtain ⟨l, hl⟩ : ∃ l, n.v.last = some l := by
    rw [VectorSfra.last, List.getLast?_eq_getLast_of_ne_nil hne]
    exact ⟨_, rfl⟩
  obtain ⟨e, he, rfl⟩ := VectorSfra.exists_mem_of_last hl
  obtain ⟨x, t, hm⟩ := VectorSfra.first_eq_some.1 (heq ▸ hl)
  exact absurd (hnm e he (e.1, x) (hm ▸ List.mem_cons_self)) (lt_irrefl _)

end Walk

/-! ## The trace along the layer below -/

section Trace

variable {K T : Type} [LinearOrder K] {debug : Bool} {capacity : ℕ}

/-- The entries point to nodes of the layer `down` in turn, with orphans between them, and
    `rest` comes after the last one. -/
inductive Traced (rest : List (RawNode K T)) : List (K × ℕ) → List (RawNode K T) → Prop
  | nil : Traced rest [] rest
  | cons {e : K × ℕ} {es : List (K × ℕ)} {orphans down : List (RawNode K T)} {n : RawNode K T} :
      (∀ m ∈ orphans, m.isOrphan = true) → n.id = e.2 → n.isOrphan = false → n.v ≠ [] →
      n.v.first = some e.1 → Traced rest es down → Traced rest (e :: es) (orphans ++ n :: down)

namespace Traced

variable {rest rest' down : List (RawNode K T)} {es es' : List (K × ℕ)}

omit [LinearOrder K]

theorem append (h : Traced rest es down) (h' : Traced rest' es' rest) :
    Traced rest' (es ++ es') down := by
  induction h with
  | nil => exact h'
  | cons horphans hid ho hne hfirst _ ih => exact .cons horphans hid ho hne hfirst ih

/-- The nodes before the rest are the targets, and orphans. -/
theorem exists_split (h : Traced rest es down) : ∃ pre, down = pre ++ rest ∧
    (∀ e ∈ es, ∃ n ∈ pre, n.id = e.2 ∧ n.isOrphan = false ∧ n.v ≠ [] ∧ n.v.first = some e.1) ∧
    ∀ n ∈ pre, n.isOrphan = false → ∃ e ∈ es, e.2 = n.id := by
  induction h with
  | nil => exact ⟨[], rfl, List.forall_mem_nil _, List.forall_mem_nil _⟩
  | @cons e es orphans down n horphans hid ho hne hfirst _ ih =>
    obtain ⟨pre, rfl, htarget, htargeted⟩ := ih
    refine ⟨orphans ++ n :: pre, by simp, fun e' he' => ?_, fun m hm hmo => ?_⟩
    · rcases List.mem_cons.1 he' with rfl | he'
      · exact ⟨n, by simp, hid, ho, hne, hfirst⟩
      · obtain ⟨m, hm, hspec⟩ := htarget e' he'
        exact ⟨m, by simp [hm], hspec⟩
    · rcases List.mem_append.1 hm with hm | hm
      · rw [horphans m hm] at hmo
        exact nomatch hmo
      · rcases List.mem_cons.1 hm with rfl | hm
        · exact ⟨e, List.mem_cons_self, hid.symm⟩
        · obtain ⟨e', he', heq⟩ := htargeted m hm hmo
          exact ⟨e', List.mem_cons_of_mem e he', heq⟩

end Traced

omit [LinearOrder K] in
theorem traceTo_spec {down : Option ℕ} {trace rest : List (RawNode K T)} {n : RawNode K T}
    (h : traceTo debug down trace = .ok (n, rest)) :
    ∃ orphans, trace = orphans ++ n :: rest ∧ (∀ m ∈ orphans, m.isOrphan = true) ∧
      down = some n.id := by
  induction trace with
  | nil => exact nomatch h
  | cons m trace ih =>
    rw [traceTo] at h
    split at h
    · next hdown =>
      obtain ⟨rfl, rfl⟩ := Prod.mk.inj (Except.ok.inj h)
      exact ⟨[], rfl, List.forall_mem_nil _, hdown⟩
    · split at h
      · next ho =>
        obtain ⟨orphans, rfl, horphans, hdown⟩ := ih h
        exact ⟨m :: orphans, rfl, List.forall_mem_cons.2 ⟨ho, horphans⟩, hdown⟩
      · exact nomatch h

theorem traceEntries_spec {v es : VectorSfra K ℕ} {trace rest : List (RawNode K T)}
    (hv : KeySorted v) (hes : ∀ e ∈ es, e ∈ v)
    (h : traceEntries debug v es trace = .ok rest) : Traced rest es trace := by
  induction es generalizing trace with
  | nil => exact Except.ok.inj h ▸ .nil
  | cons e es ih =>
    obtain ⟨⟨n, trace'⟩, hto, hdo⟩ := bind_eq_ok.1 h
    obtain ⟨orphans, rfl, horphans, hdown⟩ := traceTo_spec hto
    rw [VectorSfra.containsValue_eq_some hv (hes e List.mem_cons_self)] at hdown
    dsimp only at hdo
    split at hdo
    · exact nomatch hdo
    · next ho =>
      split at hdo
      · exact nomatch hdo
      · next h0 =>
        split at hdo
        · next hfirst =>
          have hne : n.v ≠ [] := fun hn => h0 (by rw [hn, List.length_nil])
          exact .cons horphans (Option.some.inj hdown).symm (Bool.eq_false_of_not_eq_true ho) hne
            hfirst (ih (fun e' he' => hes e' (List.mem_cons_of_mem e he')) hdo)
        · exact nomatch hdo

/-- The visits of the nodes of an index layer trace its entries. -/
theorem foldlM_visitIndex {ns : List (RawNode K ℕ)} {trace rest : List (RawNode K T)}
    (h : ns.foldlM (visitIndex debug capacity) trace = .ok rest) :
    (∀ n ∈ ns, n.verifyNode debug capacity = .ok ()) ∧ Traced rest (rawEntries ns) trace := by
  induction ns generalizing trace with
  | nil => exact ⟨List.forall_mem_nil _, Except.ok.inj h ▸ .nil⟩
  | cons n ns ih =>
    rw [List.foldlM_cons] at h
    obtain ⟨trace', hvisit, h⟩ := bind_eq_ok.1 h
    obtain ⟨_, hnode, htrace⟩ := bind_eq_ok.1 hvisit
    obtain ⟨hnodes, htraced⟩ := ih h
    have hn := traceEntries_spec (RawNode.sorted_of_verifyNode hnode) (fun _ he => he) htrace
    exact ⟨List.forall_mem_cons.2 ⟨hnode, hnodes⟩, hn.append htraced⟩

theorem foldlM_verifyNode {ns : List (RawNode K T)}
    (h : ns.foldlM (fun _ n => n.verifyNode debug capacity) () = .ok ()) :
    ∀ n ∈ ns, n.verifyNode debug capacity = .ok () := by
  induction ns with
  | nil => exact List.forall_mem_nil _
  | cons n ns ih =>
    rw [List.foldlM_cons] at h
    obtain ⟨_, hnode, h⟩ := bind_eq_ok.1 h
    exact List.forall_mem_cons.2 ⟨hnode, ih h⟩

/-- What an accepted layer is like. -/
structure Walked (debug : Bool) (ns : List (RawNode K T)) : Prop where
  sorted : ∀ n ∈ ns, KeySorted n.v
  borders : (ns.filter (·.v ≠ [])).IsChain Border
  unlocked : debug = true → ∀ n ∈ ns, SvLock.isLocked n.lock = false

theorem Walked.of_visits {ns : List (RawNode K T)} (hchain : (visited ns).IsChain Border)
    (hother : ∀ n ∈ ns, n ∈ visited ns ∨
      n.v = [] ∧ (debug = true → SvLock.isLocked n.lock = false))
    (hnodes : ∀ n ∈ visited ns, n.verifyNode debug capacity = .ok ()) : Walked debug ns where
  sorted n hn := by
    rcases hother n hn with hn | ⟨h0, -⟩
    · exact RawNode.sorted_of_verifyNode (hnodes n hn)
    · exact h0 ▸ .nil
  borders := isChain_filter_of_visited hchain
  unlocked hd n hn := by
    subst hd
    rcases hother n hn with hn | ⟨-, hl⟩
    · exact RawNode.unlocked_of_verifyNode (hnodes n hn)
    · exact hl rfl

theorem Walked.keySorted {ns : List (RawNode K T)} (h : Walked debug ns) (hs : StrictBorders ns) :
    KeySorted (rawEntries ns) := by
  rw [← rawEntries_filter]
  refine keySorted_of_borders (fun n hn => ?_) (fun n hn => ?_) h.borders hs
  · simpa using (List.mem_filter.1 hn).2
  · exact h.sorted n (List.mem_filter.1 hn).1

theorem walked_of_verifyIndex {ns : List (RawNode K ℕ)} {trace : List (RawNode K T)}
    (h : verifyIndex debug capacity ns trace = .ok ()) :
    Walked debug ns ∧ ∃ rest, Traced rest (rawEntries ns) trace := by
  obtain ⟨rest, h, -⟩ := bind_eq_ok.1 h
  obtain ⟨hfold, hchain, hother⟩ := walk_spec h
  obtain ⟨hnodes, htraced⟩ := foldlM_visitIndex hfold
  rw [rawEntries_visited] at htraced
  exact ⟨.of_visits hchain hother hnodes, rest, htraced⟩

omit [LinearOrder K] in
/-- A layer that was traced has its parents, but for what is behind the last target. -/
theorem Traced.parents_iff {up : List (RawNode K ℕ)} {down rest : List (RawNode K T)}
    (h : Traced rest (rawEntries up) down) (hd : (down.map RawNode.id).Nodup) :
    Parents up down ↔ OrphanTail up down := by
  obtain ⟨pre, rfl, htarget, htargeted⟩ := h.exists_split
  constructor
  · rintro hp pre' n post heq htail
    by_contra hn
    rw [heq] at hp hd
    obtain ⟨e, he, hid⟩ := hp.targeted n (by simp) (Bool.eq_false_of_not_eq_true hn)
    obtain ⟨m, hm, hme⟩ := htail e he
    -- the node is a target before itself
    rw [List.map_append, List.map_cons] at hd
    exact (List.nodup_append.1 hd).2.2 m.id (List.mem_map_of_mem hm) n.id List.mem_cons_self
      (hme.trans hid)
  · intro htail
    refine ⟨fun e he => ?_, fun n hn ho => ?_⟩
    · obtain ⟨n, hn, hspec⟩ := htarget e he
      exact ⟨n, List.mem_append_left rest hn, hspec⟩
    · rcases List.mem_append.1 hn with hn | hn
      · exact htargeted n hn ho
      · obtain ⟨u, w, rfl⟩ := List.append_of_mem hn
        have horphan := htail (pre ++ u) n w (by simp) fun e he => by
          obtain ⟨m, hm, hid, -⟩ := htarget e he
          exact ⟨m, List.mem_append_left u hm, hid⟩
        rw [ho] at horphan
        exact nomatch horphan

end Trace

/-! ## The verdict -/

namespace Memory

variable {K A : Type} [LinearOrder K] {s : Memory K A} {capacity layers : ℕ} {debug : Bool}

theorem verifyIndex_of_verifyLayers {n : ℕ} (h : s.verifyLayers true capacity n = .ok ()) :
    (0 < n → verifyIndex true capacity (s.index 1) s.directory = .ok ()) ∧
      ∀ L, 0 < L → L < n → verifyIndex true capacity (s.index (L + 1)) (s.index L) = .ok () := by
  match n with
  | 0 => exact ⟨fun h => absurd h (Nat.lt_irrefl 0), fun L _ h => absurd h (Nat.not_lt_zero L)⟩
  | 1 =>
    exact ⟨fun _ => (verifyIndex_throws _ _).of_dropVerdict h, fun L h0 h1 => by omega⟩
  | n + 2 =>
    obtain ⟨_, htop, h⟩ := bind_eq_ok.1 h
    obtain ⟨hdir, hrest⟩ := verifyIndex_of_verifyLayers h
    refine ⟨fun _ => hdir (Nat.succ_pos n), fun L h0 hL => ?_⟩
    rcases Nat.lt_or_eq_of_le (Nat.lt_succ_iff.1 hL) with hlt | rfl
    · exact hrest L h0 hlt
    · exact (verifyIndex_throws _ _).of_dropVerdict htop

theorem walked_directory (h : s.verify debug capacity layers = .ok ()) :
    Walked debug s.directory := by
  rw [verify] at h
  split at h
  · obtain ⟨_, -, h⟩ := bind_eq_ok.1 h
    obtain ⟨hfold, hchain, hother⟩ := walk_spec h
    exact .of_visits hchain hother (foldlM_verifyNode hfold)
  · exact nomatch h

/-- With assertions, nothing that the helpers find is dropped. -/
theorem verifyLayers_of_verify (h : s.verify true capacity layers = .ok ()) :
    s.verifyLayers true capacity (layers - 1) = .ok () := by
  rw [verify] at h
  split at h
  · obtain ⟨_, hlayers, -⟩ := bind_eq_ok.1 h
    exact hlayers
  · exact nomatch h

theorem walked_index (h : s.verify true capacity layers = .ok ()) {L : ℕ} (h0 : 0 < L)
    (hL : L < layers) : Walked true (s.index L) := by
  obtain ⟨hdir, hidx⟩ := verifyIndex_of_verifyLayers (verifyLayers_of_verify h)
  match L with
  | 1 => exact (walked_of_verifyIndex (hdir (by omega))).1
  | L + 2 => exact (walked_of_verifyIndex (hidx (L + 1) (Nat.succ_pos L) (by omega))).1

/-- Each layer but the top one is traced. -/
theorem between_iff (h : s.verify true capacity layers = .ok ()) :
    s.Between layers Parents ↔ s.Between layers OrphanTail := by
  obtain ⟨hdir, hidx⟩ := verifyIndex_of_verifyLayers (verifyLayers_of_verify h)
  refine and_congr (imp_congr_right fun hL => ?_)
    (forall_congr' fun L => imp_congr_right fun h0 => imp_congr_right fun hL => ?_)
  · obtain ⟨-, rest, htraced⟩ := walked_of_verifyIndex (hdir (by omega))
    exact htraced.parents_iff s.nodup_directory
  · obtain ⟨-, rest, htraced⟩ := walked_of_verifyIndex (hidx L h0 (by omega))
    exact htraced.parents_iff (s.nodup_index L)

theorem each_iff (h : s.verify true capacity layers = .ok ()) :
    s.Each layers LayerSound ↔ s.Each layers StrictBorders := by
  have hdir := walked_directory h
  refine and_congr ?_
    (forall_congr' fun L => imp_congr_right fun h0 => imp_congr_right fun hL => ?_)
  · exact ⟨fun hs => strictBorders_of_keySorted hs.sorted,
      fun hs => ⟨hdir.keySorted hs, hdir.unlocked rfl⟩⟩
  · have hw := walked_index h h0 hL
    exact ⟨fun hs => strictBorders_of_keySorted hs.sorted,
      fun hs => ⟨hw.keySorted hs, hw.unlocked rfl⟩⟩

/-- What else has to hold of the caches that the checker accepts: with assertions, the
    borders are strict, and what is behind the last target of a layer are orphans; without
    them, it is what only the helpers look at. -/
theorem sound_iff_of_verify (h : s.verify debug capacity layers = .ok ()) :
    s.Sound layers ↔
      if debug = true then s.Each layers StrictBorders ∧ s.Between layers OrphanTail
      else StrictBorders s.directory ∧ s.Unseen layers := by
  cases debug with
  | true =>
    rw [if_pos rfl, ← each_iff h, ← between_iff h]
    exact ⟨fun hs => ⟨hs.layer, hs.parents⟩, fun hs => ⟨hs.1, hs.2⟩⟩
  | false =>
    rw [if_neg Bool.false_ne_true]
    have hdir := walked_directory h
    constructor
    · intro hs
      exact ⟨strictBorders_of_keySorted hs.layer.1.sorted,
        ⟨hs.layer.1.unlocked, hs.layer.2, hs.parents⟩⟩
    · rintro ⟨hb, hs⟩
      exact ⟨⟨⟨hdir.keySorted hb, hs.unlocked⟩, hs.index⟩, hs.parents⟩

/-- A cache of two layers: two nodes of the directory with an entry above, and an orphan
    behind them. -/
def twoNodes : Memory ℕ ℕ where
  directory := [⟨0, 1, []⟩, ⟨1, 0, [(5, 50), (7, 70)]⟩, ⟨2, 1, [(9, 90)]⟩]
  index L := if L = 1 then [⟨0, 1, [(5, 1)]⟩] else []
  reserved := 0
  nodup_directory := by decide
  nodup_index L := by split <;> decide

theorem sound_twoNodes : twoNodes.verify true 2 2 = .ok () ∧
    (twoNodes.Sound 2 ↔
      if true = true then twoNodes.Each 2 StrictBorders ∧ twoNodes.Between 2 OrphanTail
      else StrictBorders twoNodes.directory ∧ twoNodes.Unseen 2) := by
  have h : twoNodes.verify true 2 2 = .ok () := by decide
  exact ⟨h, sound_iff_of_verify h⟩

/-- A cache with a key in two nodes of the directory, at their border. -/
def sharedBorder : Memory ℕ ℕ where
  directory := [⟨0, 1, []⟩, ⟨1, 0, [(5, 50), (7, 70)]⟩, ⟨2, 1, [(7, 71)]⟩]
  index L := if L = 1 then [⟨0, 1, [(5, 1)]⟩] else []
  reserved := 0
  nodup_directory := by decide
  nodup_index L := by split <;> decide

theorem not_sound_sharedBorder : sharedBorder.verify true 2 2 = .ok () ∧
    ¬ sharedBorder.Sound 2 := by
  refine ⟨by decide, fun h => ?_⟩
  exact absurd h.layer.1.sorted (by decide)

end Memory

end DiscoSkip.SkipVector
