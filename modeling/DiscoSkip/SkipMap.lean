import Mathlib.Algebra.Order.Ring.Rat
import Mathlib.Data.Rat.Cast.Defs
import DiscoSkip.Lib.Put
import DiscoSkip.SkipMap.SortedChunk

/-!
# The skip vector

`skipvector` is a map: a data layer holds its pairs, and the index layers above lead to
their places. A layer is a chain of nodes, each with a vector. An entry of an index layer
points to a node one layer down, which begins with its key. Nodes that no entry points to
are *orphans*: the leftmost node of a layer, what a node that was full has split off, and
the nodes of a removed key. They are merged into the nodes before them by later calls.

The calls run one after the other, so the locks of the nodes are left out, and the checkpoints
from which a call starts again: no validation of a lock fails. A dangling pointer, the
first key of an empty vector and a write behind the end of a vector are undefined behaviour:
a call that does this is `none`.
-/

namespace DiscoSkip.SkipMap

open Lib

/-! ## The nodes -/

/-- `get_vector_size` of nodes with the exponent `exp`. -/
def getVectorSize (exp : ℤ) : ℕ := if 0 < exp then 2 * 2 ^ exp.toNat else 1

/-- The type of the nodes of a layer: the logarithm of the target size, and the
    implementation of the vectors. -/
structure NodeType (K T : Type*) [LinearOrder K] where
  exp : ℤ
  vec : SortedChunk K T (getVectorSize exp)

/-- A node. The head of a layer has the pointer `0`. -/
structure Node (K T : Type*) where
  /-- The pointer to the node. -/
  id : ℕ
  orphan : Bool
  v : List (K × T)
deriving DecidableEq

section Nodes

variable {K T : Type*} [LinearOrder K] (τ : NodeType K T)

/-- The leftmost node of a layer. -/
def Node.head : Node K T := ⟨0, true, []⟩

/-- A vector that was written, if it fits in the array. -/
def NodeType.fits (v : List (K × T)) : Option (List (K × T)) :=
  if v.length ≤ getVectorSize τ.exp then some v else none

namespace Node

variable (threshold : ℚ) (cleanup : Bool)

/-- `should_merge` -/
def shouldMerge (n next : Node K T) : Prop :=
  next.orphan = true ∧
    (next.v.length = 0 ∨ cleanup = true ∧ 0 < τ.exp ∧
      ((n.v.length + next.v.length : ℕ) : ℚ) < threshold * 2 ^ τ.exp.toNat)

instance (n next : Node K T) : Decidable (n.shouldMerge τ threshold cleanup next) :=
  inferInstanceAs (Decidable (_ ∧ (_ ∨ _ ∧ _ ∧ _)))

def merge (n zombie : Node K T) : Option (Node K T) :=
  (τ.fits (τ.vec.merge n.v zombie.v)).map fun v => { n with v }

/-- Inserting a pair: whether it was inserted, the nodes that come in place of the node,
    and the next unused pointer. -/
def insert (fresh : ℕ) (pair : K × T) (n : Node K T) : Option (Bool × List (Node K T) × ℕ) :=
  match τ.vec.insert n.v pair with
  | .exists => some (false, [n], fresh)
  | .ok v => (τ.fits v).map fun v => (true, [{ n with v }], fresh)
  | .overfull =>
    -- the node is split, and what it does not keep becomes an orphan
    (τ.fits (τ.vec.stealHalfAndInsert n.v pair).1).bind fun v =>
      (τ.fits (τ.vec.stealHalfAndInsert n.v pair).2).map fun stolen =>
        (true, [{ n with v }, ⟨fresh, true, stolen⟩], fresh + 1)

/-- A full node whose keys are all above `k` gives half of them to a new orphan. -/
def shed (fresh : ℕ) (k : K) (n : Node K T) : Option (Node K T × List (Node K T) × ℕ) :=
  if n.v.length = getVectorSize τ.exp ∧ (τ.vec.first n.v).any (k < ·) then
    (τ.fits (τ.vec.stealHalf n.v).1).bind fun v =>
      (τ.fits (τ.vec.stealHalf n.v).2).map fun stolen =>
        ({ n with v }, [⟨fresh, true, stolen⟩], fresh + 1)
  else some (n, [], fresh)

/-- Partitioning a node at the key of a pair: the nodes that come in place of it, the
    pointer to the new one, which begins with the pair, and the next unused pointer. -/
def partition (fresh : ℕ) (pair : K × T) (n : Node K T) :
    Option (List (Node K T) × ℕ × ℕ) :=
  (n.shed τ fresh pair.1).bind fun (n, orphans, fresh) =>
    (τ.fits (τ.vec.splitInsert n.v pair).1).bind fun v =>
      (τ.fits (τ.vec.splitInsert n.v pair).2).map fun stolen =>
        ({ n with v } :: ⟨fresh, false, stolen⟩ :: orphans, fresh, fresh + 1)

/-- Removing a key, the node becoming an orphan or not: the value, and the node. -/
def remove (release : Bool) (k : K) (n : Node K T) : Option T × Node K T :=
  ((τ.vec.remove n.v k).1,
    { n with orphan := n.orphan || release, v := (τ.vec.remove n.v k).2 })

end Node

/-! ## A walk along a layer -/

/-- The last key is below `k`, or there is none. -/
def Node.Below (k : K) (n : Node K T) : Prop :=
  (τ.vec.last n.v).all (· < k) = true

instance (k : K) (n : Node K T) : Decidable (n.Below τ k) := inferInstanceAs (Decidable (_ = _))

/-- The walk from the node `curr` on, to the one for the key `k`: the nodes passed, the
    one arrived at, and the ones after it. Where the walk merges the next node, it is
    `merging`, until this one need not be merged. Then it may start `again` from the
    top, where it looks at the last key. -/
def walk (threshold : ℚ) (cleanup again : Bool) (k : K) :
    Bool → Node K T → List (Node K T) → Option (List (Node K T) × Node K T × List (Node K T))
  | _, curr, [] => some ([], curr, [])
  | merging, curr, next :: rest =>
    if merging = true ∨ curr.Below τ k then
      if curr.shouldMerge τ threshold cleanup next then
        (curr.merge τ next).bind fun curr => walk threshold cleanup again k true curr rest
      else if merging = true ∧ again = true ∧ ¬ curr.Below τ k then some ([], curr, next :: rest)
      else
        (τ.vec.first next.v).bind fun first =>
          if k < first then some ([], curr, next :: rest)
          else
            (walk threshold cleanup again k false next rest).map fun (passed, r) =>
              (curr :: passed, r)
    else some ([], curr, next :: rest)

/-- The nodes before the one with the pointer `p`, this one, and the ones after it. -/
def locate (p : ℕ) : List (Node K T) → Option (List (Node K T) × Node K T × List (Node K T))
  | [] => none
  | n :: ns => if n.id = p then some ([], n, ns) else (locate p ns).map fun (l, r) => (n :: l, r)

/-- How a call walks: `check_next` with cleanup or without, or `check_next_sequential`. -/
inductive Walk
  | checkNext (cleanup : Bool)
  | checkNextSequential

/-- The walk along a layer from the pointer `p`: the layer after it, and the node arrived
    at. -/
def Walk.visit (threshold : ℚ) (k : K) (p : ℕ) (ns : List (Node K T)) :
    Walk → Option (List (Node K T) × Node K T)
  | .checkNext cleanup => go cleanup cleanup
  | .checkNextSequential => go true false
where
  go (cleanup again : Bool) : Option (List (Node K T) × Node K T) :=
    (locate p ns).bind fun (before, curr, rest) =>
      (walk τ threshold cleanup again k false curr rest).map fun (passed, curr, rest) =>
        (before ++ (passed ++ curr :: rest), curr)

/-- Putting nodes in place of the one with the pointer `p`, with a result. -/
def editAt {R : Type*} (p : ℕ) (ns : List (Node K T))
    (f : Node K T → Option (List (Node K T) × R)) : Option (List (Node K T) × R) :=
  (locate p ns).bind fun (before, n, after) =>
    (f n).map fun (nodes, r) => (before ++ (nodes ++ after), r)

end Nodes

/-! ## The skip vector -/

structure Config (K V : Type*) [LinearOrder K] where
  mergeThreshold : ℚ
  threshold_le : mergeThreshold ≤ 2
  /-- The number of index layers. -/
  layers : ℕ
  layers_pos : 0 < layers
  index : NodeType K ℕ
  data : NodeType K V

structure State (K V : Type*) where
  /-- The index layers, the lowest one is `0`. -/
  index : ℕ → List (Node K ℕ)
  data : List (Node K V)
  /-- The next unused pointer. -/
  fresh : ℕ

/-- Where a search for a key stops. -/
inductive Stop
  /-- At a node of an index layer that has the key. -/
  | found (layer p : ℕ)
  /-- Above the data layer, with a pointer to go down. -/
  | down (p : ℕ)

namespace State

variable {K V : Type*}

def init : State K V := ⟨fun _ => [⟨0, true, []⟩], [⟨0, true, []⟩], 1⟩

def setIndex (s : State K V) (layer : ℕ) (ns : List (Node K ℕ)) : State K V :=
  { s with index := put s.index layer ns }

variable [LinearOrder K] (cfg : Config K V) (k : K)

/-- `skip_to`: the way down through the index layers below `layer`, from the pointer `p` in
    the uppermost of them; the pointer to the data node where it ends. -/
def skipTo : (layer p : ℕ) → State K V → Option (ℕ × State K V)
  | 0, p, s => some (p, s)
  | layer + 1, p, s =>
    ((Walk.checkNext false).visit cfg.index cfg.mergeThreshold k p (s.index layer)).bind
      fun (ns, curr) =>
        skipTo layer (((cfg.index.vec.findLte curr.v k).map Prod.snd).getD 0) (s.setIndex layer ns)

/-- The value of a key, if it is there. -/
def contains (s : State K V) : Option (Option V × State K V) :=
  (skipTo cfg k cfg.layers 0 s).bind fun (p, s) =>
    ((Walk.checkNext false).visit cfg.data cfg.mergeThreshold k p s.data).map fun (ns, curr) =>
      (cfg.data.vec.contains curr.v k, { s with data := ns })

/-- The search of an insertion or a removal through the index layers below `layer`, from the
    pointer `p` in the uppermost of them: where it stops, and the nodes it went down from. -/
def search (w : Walk) : (layer p : ℕ) → (ℕ → ℕ) → State K V →
    Option (Stop × (ℕ → ℕ) × State K V)
  | 0, p, nodes, s => some (.down p, nodes, s)
  | layer + 1, p, nodes, s =>
    (w.visit cfg.index cfg.mergeThreshold k p (s.index layer)).bind fun (ns, curr) =>
      match cfg.index.vec.findLte curr.v k with
      | some (foundK, down) =>
        if foundK = k then some (.found layer curr.id, put nodes layer curr.id, s.setIndex layer ns)
        else search w layer down (put nodes layer curr.id) (s.setIndex layer ns)
      -- without an entry to follow, it goes on at the leftmost node
      | none => search w layer 0 (put nodes layer curr.id) (s.setIndex layer ns)

/-- Partitioning the nodes of `n` index layers from `layer` on, with entries of the key that
    point to the new nodes; in the layer above, an entry is inserted. -/
def stitch (nodes : ℕ → ℕ) : (n layer down : ℕ) → State K V → Option (State K V)
  | 0, layer, down, s =>
    (editAt (nodes layer) (s.index layer) fun top =>
      (top.insert cfg.index s.fresh (k, down)).map fun (_, ns, fresh) => (ns, fresh)).map
        fun (ns, fresh) => { s.setIndex layer ns with fresh }
  | n + 1, layer, down, s =>
    (editAt (nodes layer) (s.index layer) (Node.partition cfg.index s.fresh (k, down))).bind
      fun (ns, down, fresh) => stitch nodes n (layer + 1) down { s.setIndex layer ns with fresh }

/-- `insert` and `insert_seq`, which walk in their own way: whether the pair was inserted. -/
def insert (w : Walk) (x : V) (newHeight : ℕ) (s : State K V) : Option (Bool × State K V) :=
  (search cfg k w cfg.layers 0 (fun _ => 0) s).bind fun
    | (.found _ _, _, s) => some (false, s)
    | (.down p, nodes, s) =>
      (w.visit cfg.data cfg.mergeThreshold k p s.data).bind fun (ns, curr) =>
        if newHeight = 0 then
          (editAt curr.id ns fun curr =>
            (curr.insert cfg.data s.fresh (k, x)).map fun (result, ns, fresh) =>
              (ns, result, fresh)).map fun (ns, result, fresh) =>
                (result, { s with data := ns, fresh })
        else if (cfg.data.vec.contains curr.v k).isSome then some (false, { s with data := ns })
        else
          (editAt curr.id ns (Node.partition cfg.data s.fresh (k, x))).bind
            fun (ns, down, fresh) =>
              (stitch cfg k nodes (newHeight - 1) 0 down { s with data := ns, fresh }).map
                fun s => (true, s)

/-- Removing the key in the node `p` of an index layer, and in the nodes below that its
    entries lead to, which become orphans. -/
def removeColumn : (layer p : ℕ) → (release : Bool) → State K V → Option (State K V)
  | layer, p, release, s =>
    (editAt p (s.index layer) fun curr =>
      let (down, curr) := curr.remove cfg.index release k
      down.map fun down => ([curr], down)).bind fun (ns, down) =>
        match layer with
        | layer + 1 => removeColumn layer down true (s.setIndex (layer + 1) ns)
        | 0 =>
          (editAt down s.data fun curr => some ([(curr.remove cfg.data true k).2], ())).map
            fun (data, _) => { s.setIndex 0 ns with data }

/-- An attempt to remove a key: it returns, or has to restart. -/
def tryRemove (s : State K V) : Option (Option Bool × State K V) :=
  (search cfg k (.checkNext true) cfg.layers 0 (fun _ => 0) s).bind fun
    | (.found layer p, _, s) =>
      (locate p (s.index layer)).bind fun (_, curr, _) =>
        -- this is not the uppermost instance of the key
        if curr.orphan = false ∧ cfg.index.vec.first curr.v = some k then some (none, s)
        else (removeColumn cfg k layer p false s).map fun s => (some true, s)
    | (.down p, _, s) =>
      ((Walk.checkNext true).visit cfg.data cfg.mergeThreshold k p s.data).bind fun (ns, curr) =>
        if curr.orphan = false ∧ cfg.data.vec.first curr.v = some k then
          some (none, { s with data := ns })
        else
          (editAt curr.id ns fun curr =>
            some ([(curr.remove cfg.data false k).2], (curr.remove cfg.data false k).1.isSome)).map
              fun (ns, result) => (some result, { s with data := ns })

/-- `remove`, with `fuel` attempts at most: whether the key was there. -/
def remove : (fuel : ℕ) → State K V → Option (Bool × State K V)
  | 0, _ => none
  | fuel + 1, s =>
    (tryRemove cfg k s).bind fun
      | (some result, s) => some (result, s)
      | (none, s) => remove fuel s

end State

/-! ## Calls in a row -/

section Calls

variable {K V : Type*} [LinearOrder K]

/-- A call, with the height that is drawn. -/
inductive Call (K V : Type*) [LinearOrder K] (cfg : Config K V)
  | insert (k : K) (x : V) (newHeight : Fin (cfg.layers + 1))
  | insertSeq (k : K) (x : V) (newHeight : Fin (cfg.layers + 1))
  | remove (k : K)
  | contains (k : K)

/-- What a call returns. -/
inductive Result (V : Type*)
  | done (result : Bool)
  | value (v : Option V)
deriving DecidableEq

variable (cfg : Config K V)

def exec (fuel : ℕ) (s : State K V) : Call K V cfg → Option (Result V × State K V)
  | .insert k x h => (s.insert cfg k (.checkNext true) x h).map fun (r, s) => (.done r, s)
  | .insertSeq k x h => (s.insert cfg k .checkNextSequential x h).map fun (r, s) => (.done r, s)
  | .remove k => (State.remove cfg k fuel s).map fun (r, s) => (.done r, s)
  | .contains k => (s.contains cfg k).map fun (v, s) => (.value v, s)

/-- The calls one after the other: their results, and the state after them. -/
def run (fuel : ℕ) : State K V → List (Call K V cfg) → Option (List (Result V) × State K V)
  | s, [] => some ([], s)
  | s, call :: calls =>
    (exec cfg fuel s call).bind fun (r, s) =>
      (run fuel s calls).map fun (rs, s) => (r :: rs, s)

end Calls

end DiscoSkip.SkipMap
