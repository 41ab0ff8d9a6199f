import Mathlib.Logic.Function.Basic
import DiscoSkip.Lib.Machine
import DiscoSkip.VectorSfra

/-!
# The skip-vector cache

The cache of a client, mirroring the remote index: layers of nodes, each with a
chunk of sorted entries, those of the directory (the layer `0`) to remote
addresses, and those of the index layers to nodes of the layer below.

A layer is the list of its nodes in `next`-order, the leftmost one (its *head*)
first. Nodes are known by their pointers, numbers here: `head` for the heads,
and the others in the order they are allocated, for the layers together.

A call changes the cache in sections, each of one layer: it descends to the node
that covers the key, locks it, and puts some nodes in its place (`Edit`). The
sequence locks of the nodes make a section atomic, and so is it here; between the
sections of a call, those of the others may come (`machine`).
-/

namespace DiscoSkip.SkipVector

open Lib

/-- A node of a layer (`node_t`). -/
structure Node (K T A : Type*) where
  /-- The pointer to the node. -/
  id : ℕ
  orphan : Bool
  /-- The remote node it mirrors, if it is known. -/
  remoteAddr : A
  v : VectorSfra K T
deriving DecidableEq

/-- The pointer to the leftmost node of a layer. -/
def head : ℕ := 0

/-- The template parameters and the configuration of a cache. -/
structure Config where
  /-- The number of layers, the directory included. -/
  layers : ℕ
  /-- The capacity of the chunks. -/
  capacity : ℕ
  two_le_layers : 2 ≤ layers
  capacity_pos : 0 < capacity

/-- The layers of a cache. -/
structure Cache (K A : Type*) where
  directory : List (Node K A A)
  /-- The index layers, the lowest one is `1`. -/
  index : ℕ → List (Node K ℕ A)
  /-- The pointer to the next node to be allocated. -/
  fresh : ℕ

/-! ## The layers -/

section Layer

variable {K T A : Type*}

/-- The entries of a layer, in order. -/
def entries (ns : List (Node K T A)) : VectorSfra K T := ns.flatMap Node.v

/-- The non-orphans of a layer: their pointers and their first keys. -/
def nonOrphans (ns : List (Node K T A)) : List (ℕ × Option K) :=
  (ns.filter fun n => !n.orphan).map fun n => (n.id, n.v.first)

/-- The nodes of a layer from that of the pointer `p` on. -/
def nodesFrom (ns : List (Node K T A)) (p : ℕ) : List (Node K T A) := ns.dropWhile (·.id ≠ p)

/-- The layer with the nodes `ms` in place of that of the pointer `p`. -/
def splice (ns : List (Node K T A)) (p : ℕ) (ms : List (Node K T A)) : List (Node K T A) :=
  ns.flatMap fun n => if n.id = p then ms else [n]

/-- What a section puts in place of the node it locks, the node it returns, and the
    pointer to the next node to be allocated. -/
structure Edit (K T A : Type*) where
  nodes : List (Node K T A)
  result : Option ℕ
  fresh : ℕ

variable [LinearOrder K]

/-- Walking to the right, from the first node on, to the node that covers `k`. -/
def checkNext (k : K) : List (Node K T A) → Option (Node K T A)
  | [] => none
  | [curr] => some curr
  | curr :: next :: rest =>
    if curr.v.last.all (· < k) then
      match next.v.first with
      | some first => if k < first then some curr else checkNext k (next :: rest)
      -- the source reads junk here, if it comes here (it does not, see `LayerOk`)
      | none => some curr
    else some curr

namespace Node

/-- Inserting an entry into a node, which splits if it is full: the latter half
    goes to a new orphan. -/
def insert (capacity fresh : ℕ) (e : K × T) (rAddr : A) (curr : Node K T A) : Edit K T A :=
  match VectorSfra.insert capacity curr.v e with
  | .exists => ⟨[curr], none, fresh⟩
  | .ok v => ⟨[{ curr with v := v }], none, fresh⟩
  | .overfull =>
    let (kept, stolen) := VectorSfra.stealHalfAndInsert capacity curr.v e
    ⟨[{ curr with v := kept }, ⟨fresh, true, rAddr, stolen⟩], none, fresh + 1⟩

variable [Inhabited A]

/-- Shedding the latter half of a full node into an orphan, if the key to split it
    at is below its first one. -/
def shed (capacity fresh : ℕ) (k : K) (curr : Node K T A) : Node K T A × List (Node K T A) × ℕ :=
  if curr.v.length = capacity ∧ curr.v.first.any (k < ·) then
    let (kept, stolen) := curr.v.stealHalf
    ({ curr with v := kept }, [⟨fresh, true, default, stolen⟩], fresh + 1)
  else (curr, [], fresh)

/-- Splitting a node at the key `k`, to be the first one of a new node. -/
def mirrorSplit (capacity fresh : ℕ) (k : K) (x : T) (newRemoteAddr : A) (curr : Node K T A) :
    Edit K T A :=
  if curr.v.first = some k then
    if curr.orphan then ⟨[curr], none, fresh⟩
    else ⟨[{ curr with remoteAddr := newRemoteAddr }], some curr.id, fresh⟩
  else if curr.v.contains k then
    match curr.v.splitAt k with
    | some (kept, stolen) =>
      ⟨[{ curr with v := kept }, ⟨fresh, false, newRemoteAddr, stolen⟩], some fresh, fresh + 1⟩
    | none => ⟨[curr], none, fresh⟩
  else
    let (curr, orphans, fresh) := curr.shed capacity fresh k
    let (kept, stolen) := curr.v.splitInsert (k, x)
    ⟨{ curr with v := kept } :: ⟨fresh, false, newRemoteAddr, stolen⟩ :: orphans, some fresh,
      fresh + 1⟩

end Node

end Layer

namespace Cache

variable {K A : Type*} [LinearOrder K] [Inhabited A]

/-- The cache when it is made: every layer has its head only. -/
def init : Cache K A :=
  ⟨[⟨head, true, default, []⟩], fun _ => [⟨head, true, default, []⟩], head + 1⟩

/-- The non-orphans of the layer `L`. -/
def nonOrphans (s : Cache K A) : ℕ → List (ℕ × Option K)
  | 0 => SkipVector.nonOrphans s.directory
  | L + 1 => SkipVector.nonOrphans (s.index (L + 1))

/-! ## Descending -/

/-- The node of the layer below to go on with, from the node `curr` of `layer`. -/
def follow (s : Cache K A) (k : K) (layer curr : ℕ) : ℕ :=
  match checkNext k (nodesFrom (s.index layer) curr) with
  | some curr => ((curr.v.findLte k).map Prod.snd).getD head
  | none => head

/-- Descending the `d` layers above `target`, from the node `curr`. -/
def descend (s : Cache K A) (k : K) (target : ℕ) : ℕ → ℕ → ℕ
  | 0, curr => curr
  | d + 1, curr => s.descend k target d (s.follow k (target + d + 1) curr)

variable (cfg : Config) (s : Cache K A)

/-- The node of the directory that covers `k`. -/
def descendToDirectory (k : K) : Option (Node K A A) :=
  checkNext k (nodesFrom s.directory (s.descend k 0 (cfg.layers - 1) head))

/-- The node of an index layer that covers `k`. -/
def descendToIndexLevel (k : K) (targetLevel : ℕ) : Option (Node K ℕ A) :=
  checkNext k (nodesFrom (s.index targetLevel)
    (s.descend k targetLevel (cfg.layers - 1 - targetLevel) head))

/-- The remote address of the data node that may contain `k`. -/
def locateData (k : K) : A :=
  match s.descendToDirectory cfg k with
  | some curr => ((curr.v.findLte k).map Prod.snd).getD default
  | none => default

/-! ## The sections -/

/-- A section of the directory: the cache after it, and the node it returns. -/
def directorySection (k : K) (f : ℕ → Node K A A → Edit K A A) : Cache K A × Option ℕ :=
  match s.descendToDirectory cfg k with
  | some curr =>
    let e := f s.fresh curr
    ({ s with directory := splice s.directory curr.id e.nodes, fresh := e.fresh }, e.result)
  | none => (s, none)

/-- A section of an index layer. -/
def indexSection (k : K) (level : ℕ) (f : ℕ → Node K ℕ A → Edit K ℕ A) :
    Cache K A × Option ℕ :=
  match s.descendToIndexLevel cfg k level with
  | some curr =>
    let e := f s.fresh curr
    ({ s with
        index := Function.update s.index level (splice (s.index level) curr.id e.nodes)
        fresh := e.fresh }, e.result)
  | none => (s, none)

/-- `mirror_split_at_level` of the directory. -/
def mirrorSplitDirectory (k : K) (x newRemoteAddr : A) : Cache K A × Option ℕ :=
  s.directorySection cfg k fun fresh => Node.mirrorSplit cfg.capacity fresh k x newRemoteAddr

/-- `mirror_split_at_level` of an index layer. -/
def mirrorSplitIndex (k : K) (level child : ℕ) (newRemoteAddr : A) : Cache K A × Option ℕ :=
  s.indexSection cfg k level fun fresh =>
    Node.mirrorSplit cfg.capacity fresh k child newRemoteAddr

/-- Inserting an entry into the directory. -/
def insertDirectory (k : K) (x orphanAddr : A) : Cache K A :=
  (s.directorySection cfg k fun fresh => Node.insert cfg.capacity fresh (k, x) orphanAddr).1

/-- Inserting an entry into an index layer. -/
def insertIndex (k : K) (level child : ℕ) (orphanAddr : A) : Cache K A :=
  (s.indexSection cfg k level fun fresh => Node.insert cfg.capacity fresh (k, child) orphanAddr).1

/-- `mirror_insert_at_top_level` of the directory. -/
def mirrorInsertDirectory (k : K) (data orphanAddr : A) : Cache K A :=
  s.insertDirectory cfg k data orphanAddr

/-- `mirror_insert_at_top_level` of an index layer. -/
def mirrorInsertIndex (k : K) (level child : ℕ) (orphanAddr : A) : Cache K A :=
  s.insertIndex cfg k level child orphanAddr

def installDataEntry (key : K) (addr orphanAddr : A) : Cache K A :=
  s.insertDirectory cfg key addr orphanAddr

def installIndexEntry (level : ℕ) (key : K) (down : ℕ) (orphanAddr : A) : Cache K A :=
  s.insertIndex cfg key level down orphanAddr

end Cache

/-! ## The calls -/

/-- What a remote descent saw at a level (`path_step`). -/
structure PathStep (K A : Type*) where
  kMin : K
  addr : A
  firstDown : A

/-- The calls that change a cache. The overload of `mirror_reconcile` without a path
    is that with the empty one. -/
inductive Call (K A : Type*)
  | mirrorInsert (k : K) (height : ℕ) (newRemoteDataAddr : A) (newRemoteIndexAddrs : ℕ → A)
  | mirrorReconcile (dataKMin : K) (dataAddr : A) (path : List (PathStep K A))

/-- Where a call is, between its sections. -/
inductive Job (K A : Type*)
  /-- It was called. -/
  | called (c : Call K A)
  /-- It goes on to split the directory at `k`. -/
  | split (k : K) (x : A) (c : Call K A)
  /-- It is at the head of its loop, with the node `child` below `level`. -/
  | climb (k : K) (c : Call K A) (level child : ℕ)
  /-- It has left the loop, with the node `child` below `level`. -/
  | install (k : K) (c : Call K A) (level child : ℕ)

namespace Call

variable {K A : Type*} [LinearOrder K] [Inhabited A]

/-- The height of an insertion is that of a layer. -/
def Valid (cfg : Config) : Call K A → Prop
  | mirrorInsert _ height _ _ => 1 ≤ height ∧ height ≤ cfg.layers
  | mirrorReconcile _ _ _ => True

instance (cfg : Config) : (c : Call K A) → Decidable (c.Valid cfg)
  | mirrorInsert _ _ _ _ => inferInstanceAs (Decidable (_ ∧ _))
  | mirrorReconcile _ _ _ => inferInstanceAs (Decidable True)

/-- The condition of the loop over the levels. -/
def Climbs (cfg : Config) (k : K) (level : ℕ) : Call K A → Prop
  | mirrorInsert _ height _ _ => level < height - 1
  | mirrorReconcile _ _ path =>
    level < min path.length cfg.layers ∧ path[level]?.map PathStep.kMin = some k

instance (cfg : Config) (k : K) (level : ℕ) : (c : Call K A) → Decidable (c.Climbs cfg k level)
  | mirrorInsert _ _ _ _ => inferInstanceAs (Decidable (_ < _))
  | mirrorReconcile _ _ _ => inferInstanceAs (Decidable (_ ∧ _))

/-- The remote address of the node that is new at a level. -/
def addrAt (level : ℕ) : Call K A → A
  | mirrorInsert _ _ _ newRemoteIndexAddrs => newRemoteIndexAddrs level
  | mirrorReconcile _ _ path => (path[level]?.map PathStep.addr).getD default

end Call

namespace Job

variable {K A : Type*} [LinearOrder K] [Inhabited A] (cfg : Config) (s : Cache K A)

/-- Splitting the directory: the loop over the levels begins with the node it returns. -/
def splitDirectory (k : K) (x : A) (c : Call K A) : Cache K A × Option (Job K A) :=
  let (s, d) := s.mirrorSplitDirectory cfg k x (c.addrAt 0)
  (s, d.map (.climb k c 1))

/-- Installing the entry of `child` one level up, which ends the call. -/
def installChild (k : K) (c : Call K A) (level child : ℕ) : Cache K A × Option (Job K A) :=
  if level < cfg.layers then
    (match c with
      | .mirrorInsert _ _ _ _ => s.mirrorInsertIndex cfg k level child (c.addrAt level)
      | .mirrorReconcile _ _ _ => s.installIndexEntry cfg level k child (c.addrAt level), none)
  else (s, none)

/-- The next section of a call: the cache after it, and where the call is then, if it
    has not returned. -/
def step : Job K A → Cache K A × Option (Job K A)
  | called c@(.mirrorInsert k height newRemoteDataAddr _) =>
    if height - 1 = 0 then (s.mirrorInsertDirectory cfg k newRemoteDataAddr (c.addrAt 0), none)
    else splitDirectory cfg s k newRemoteDataAddr c
  | called c@(.mirrorReconcile dataKMin dataAddr path) =>
    (s.installDataEntry cfg dataKMin dataAddr (c.addrAt 0),
      path.head?.map fun p => .split p.kMin p.firstDown c)
  | split k x c => splitDirectory cfg s k x c
  | climb k c level child =>
    if c.Climbs cfg k level then
      let (s, n) := s.mirrorSplitIndex cfg k level child (c.addrAt level)
      match n with
      | some n => (s, some (.climb k c (level + 1) n))
      | none => (s, some (.install k c level child))
    else installChild cfg s k c level child
  | install k c level child => installChild cfg s k c level child

/-- The sections of a call, one after the other, until it returns. -/
def run (cfg : Config) : ℕ → Cache K A → Job K A → Option (Cache K A)
  | 0, _, _ => none
  | fuel + 1, s, j =>
    match j.step cfg s with
    | (s, none) => some s
    | (s, some j) => run cfg fuel s j

end Job

namespace Cache

variable {K A : Type*} [LinearOrder K] [Inhabited A] (cfg : Config)

/-- A call by itself: it returns after as many sections as there are levels, and those
    before and after its loop. -/
def perform (s : Cache K A) (c : Call K A) : Option (Cache K A) :=
  Job.run cfg (cfg.layers + 3) s (.called c)

/-- Calls one after the other. -/
def performAll : List (Call K A) → Cache K A → Option (Cache K A)
  | [], s => some s
  | c :: calls, s => (s.perform cfg c).bind (performAll calls)

end Cache

/-- A cache, and the calls under way. -/
structure Threads (K A : Type*) where
  cache : Cache K A
  jobs : List (Job K A)

namespace Threads

variable {K A : Type*} [LinearOrder K] [Inhabited A]

/-- A call is made, or one that is under way takes a step. -/
inductive Action (K A : Type*)
  | call (c : Call K A)
  | step (i : ℕ)

/-- The calls made are valid. -/
def Guard (cfg : Config) (_ : Threads K A) : Action K A → Prop
  | .call c => c.Valid cfg
  | .step _ => True

instance (cfg : Config) (t : Threads K A) : (a : Action K A) → Decidable (t.Guard cfg a)
  | .call c => inferInstanceAs (Decidable (c.Valid cfg))
  | .step _ => inferInstanceAs (Decidable True)

/-- The calls on a fresh cache, in any interleaving of their sections. -/
def machine (cfg : Config) : Machine (Threads K A) (Action K A) (Action K A) where
  init := ⟨.init, []⟩
  step t
    | .call c => some (.call c, { t with jobs := t.jobs ++ [.called c] })
    | .step i => (t.jobs[i]?).map fun j =>
      let (s, j) := j.step cfg t.cache
      (.step i, ⟨s, t.jobs.take i ++ j.toList ++ t.jobs.drop (i + 1)⟩)

end Threads

end DiscoSkip.SkipVector
