import DiscoSkip.Cluster

/-!
# Range scans in the cluster

A client scans a range of keys with one bulk read on each server of its quorum, in a range
future of its own. A bulk read is not atomic: the server reads its words one at a time, in
any order, while the Puts and Gets go on, and the completion comes when all have been read.

`Scans` is the cluster with the scans of its clients. Its runs are seen as those of Puts
and Gets alone by taking a scan for Gets of all its keys (`ScanEvent.gets`): each of them
is in a future of its own (`Layout.reader`) besides those there are.
-/

namespace DiscoSkip

open Function

/-! ## Completions -/

namespace DsClient

variable (cl : DsClient)

/-- The client once the bulk read of the range future `i` on the server `s` has completed:
    what taking its completion comes to (`tickServer_rangeFuture`). -/
def completeRange (i s : ℕ) : DsClient :=
  { cl with
    state := { cl.state with
      toPollPerServer := update cl.state.toPollPerServer s (cl.state.toPollPerServer s - 1) }
    rangeFutures := update cl.rangeFutures i ((cl.rangeFutures i).addToOngoingRDMA s (-1))
    rangeProgress := update cl.rangeProgress i true }

/-- The completion of a bulk read of a range future is credited to it. -/
theorem tickServer_rangeFuture {d : DsConf} {cl : DsClient} {i s : ℕ}
    (hi : i < d.layout.asyncParallelism) (h63 : i < 2 ^ 63) :
    tickServer d s [i ||| RangeFuture.rangeBit] cl = .ok (cl.completeRange i s) := by
  have hadd : i ||| RangeFuture.rangeBit = 2 ^ 63 + i := by
    rw [RangeFuture.rangeBit, Nat.one_shiftLeft, Nat.or_comm]
    exact (Nat.two_pow_add_eq_or_of_lt h63 1).symm
  have hclean : (2 ^ 63 + i) &&& (2 ^ 63 - 1) = i := by
    rw [Nat.and_two_pow_sub_one_eq_mod, Nat.add_mod_left, Nat.mod_eq_of_lt h63]
  have hbit : (2 ^ 63 + i) >>> 63 ≠ 0 := by
    rw [Nat.shiftRight_eq_div_pow, Nat.add_div_left _ (Nat.two_pow_pos 63)]
    exact Nat.succ_ne_zero _
  simp only [tickServer, List.foldlM_cons, List.foldlM_nil, hadd, route, hclean, hbit, ne_eq,
    not_false_eq_true, if_true, if_neg (not_le.2 hi), bind_pure, List.length_singleton,
    Nat.cast_one]
  rfl

end DsClient

/-! ## The machine -/

/-- A bulk read in flight: its first key, and the offsets it has not read yet. -/
structure Bulk where
  key : ℕ
  todo : List ℕ
  deriving DecidableEq, Repr

/-- The state of the cluster and the scans. -/
structure Scans where
  cluster : Cluster := {}
  /-- The bulk read in flight from a client's range future to a server. -/
  bulks : ℕ → ℕ → ℕ → Option Bulk := fun _ _ _ => none

/-- What can happen in the cluster, now that the range future `f` of the client `c` can
    start a scan from the key `sk` to `ek`; a server, read the word at an offset of its
    bulk read, or complete it; and the range future, step forward. -/
inductive ScanAction
  | op (act : Action)
  | doRange (c f : ℕ) (sk ek : UInt64)
  | readWord (c f r off : ℕ)
  | complete (c f r : ℕ)
  | tryStepForwardRange (c f : ℕ)
  deriving DecidableEq, Repr

/-- What has happened in the cluster. -/
inductive ScanEvent
  | op (e : Event)
  /-- A scan of `len` keys from `sk` on. -/
  | invokeRange (c f sk len : ℕ)
  /-- The cell of the key `k` on the server `r`, at the offset `off` of its bulk read. -/
  | readWord (c f r k off : ℕ) (found : Register)
  /-- A step that ends no scan. -/
  | stepped (c f : ℕ)
  /-- A scan from the key `sk` on, with the register and the result for each key. -/
  | rangeDone (c f sk : ℕ) (found : List (Register × UInt64))
  deriving DecidableEq, Repr

namespace Scans

variable (L : Layout) (s : Scans)

def setBulk (c f r : ℕ) (b : Option Bulk) : Scans :=
  { s with bulks := update s.bulks c (update (s.bulks c) f (update (s.bulks c f) r b)) }

def setClient (c : ℕ) (cl : DsClient) : Scans := { s with cluster := s.cluster.setClient c cl }

/-- The bulk reads among the requests `wrs` of a range future go in flight, each for as many
    registers of 8 bytes as it is long. -/
def send (c f : ℕ) (wrs : List Wr) : Scans :=
  wrs.foldl (fun s w => match w.op with
    | .bulk k len => s.setBulk c f w.server (some ⟨k, List.range (len / 8)⟩)
    | _ => s) s

/-- What a step forward of the range future, from `fu` to `fu'`, is seen as: `acc` is the
    slice of the first replica after the step. -/
def stepEvent (c f : ℕ) (fu fu' : RangeFuture) (acc : ℕ → Register) : ScanEvent :=
  if fu.step = .reading ∧ fu'.step = .done then
    .rangeDone c f fu.startKey.toNat
      ((List.range fu.rangeLen.toNat).map fun off => (acc off, fu'.results.getD off 0))
  else .stepped c f

/-- The step of an action, if it is enabled. Starting a scan of too many keys throws. -/
def step : ScanAction → Option (ScanEvent × Scans)
  | .op act => (s.cluster.step L act).map fun (e, s') => (.op e, { s with cluster := s' })
  | .doRange c f sk ek =>
    if c < L.numClients ∧ f < L.asyncParallelism ∧
        ((s.cluster.clients c).rangeFutures f).isDone then
      match (s.cluster.clients c).doRangeFuture (.ofClient L c) f sk ek with
      | .error _ => none
      | .ok (cl, wrs) =>
        some (.invokeRange c f sk.toNat (cl.rangeFutures f).rangeLen.toNat,
          (s.setClient c cl).send c f wrs)
    else none
  | .readWord c f r off =>
    match s.bulks c f r with
    | some ⟨k, todo⟩ =>
      if off ∈ todo then
        let found := s.cluster.cells r (k + off)
        let cl := s.cluster.clients c
        let bufs := cl.scratch f
        let bufs := { bufs with
          bulkBufs := update bufs.bulkBufs r (update (bufs.bulkBufs r) off found) }
        some (.readWord c f r (k + off) off found,
          (s.setClient c { cl with scratch := update cl.scratch f bufs }).setBulk c f r
            (some ⟨k, todo.filter (· ≠ off)⟩))
      else none
    | none => none
  | .complete c f r =>
    match s.bulks c f r with
    | some b =>
      if b.todo = [] then
        some (.stepped c f,
          (s.setClient c ((s.cluster.clients c).completeRange f r)).setBulk c f r none)
      else none
    | none => none
  | .tryStepForwardRange c f =>
    if c < L.numClients ∧ f < L.asyncParallelism then
      let d := DsConf.ofClient L c
      let (cl, wrs) := (s.cluster.clients c).tryStepForwardRange d f
      some (stepEvent c f ((s.cluster.clients c).rangeFutures f) (cl.rangeFutures f)
        ((cl.scratch f).bulkBufs (d.quorumIndices 0)), (s.setClient c cl).send c f wrs)
    else none

/-- The cluster of the layout `L` with its scans, all cells zero and all futures idle. -/
def machine : Lib.Machine Scans ScanAction ScanEvent := ⟨{}, Scans.step L⟩

end Scans

/-! ## Scans as Gets -/

namespace Layout

variable (L : Layout)

/-- The future that reads the key at the offset `off` of the scan in the range future `f`. -/
def reader (f off : ℕ) : ℕ := L.asyncParallelism + (f * L.maxRange + off)

/-- The layout with the futures that read the keys of the scans, besides those there are. -/
def withReaders : Layout :=
  { L with asyncParallelism := L.asyncParallelism + L.asyncParallelism * L.maxRange }

theorem le_reader (f off : ℕ) : L.asyncParallelism ≤ L.reader f off := Nat.le_add_right ..

variable {L} {f f' off off' : ℕ}

theorem reader_lt (hf : f < L.asyncParallelism) (hoff : off < L.maxRange) :
    L.reader f off < L.withReaders.asyncParallelism := by
  refine Nat.add_lt_add_left ?_ _
  calc f * L.maxRange + off < f * L.maxRange + L.maxRange := Nat.add_lt_add_left hoff _
    _ = (f + 1) * L.maxRange := (Nat.succ_mul f L.maxRange).symm
    _ ≤ L.asyncParallelism * L.maxRange := Nat.mul_le_mul_right _ hf

theorem reader_inj (hoff : off < L.maxRange) (hoff' : off' < L.maxRange)
    (h : L.reader f off = L.reader f' off') : f = f' ∧ off = off' := by
  have h : f * L.maxRange + off = f' * L.maxRange + off' := Nat.add_left_cancel h
  have hdiv : ∀ g o, o < L.maxRange → (g * L.maxRange + o) / L.maxRange = g := by
    intro g o ho
    rw [Nat.mul_comm, Nat.mul_add_div (Nat.zero_lt_of_lt ho), Nat.div_eq_of_lt ho, Nat.add_zero]
  obtain rfl : f = f' := by rw [← hdiv f off hoff, h, hdiv f' off' hoff']
  exact ⟨rfl, Nat.add_left_cancel h⟩

end Layout

/-- An event, by those of Puts and Gets, the latest first: what happens to a scan happens to
    Gets of all its keys. -/
def ScanEvent.gets (L : Layout) : ScanEvent → List Event
  | .op e => [e]
  | .invokeRange c f sk len =>
    (List.range len).reverse.map fun off => .invokeGet c (L.reader f off) (sk + off)
  | .readWord c f r k off found => [.read c (L.reader f off) r k found]
  | .stepped .. => []
  | .rangeDone c f sk found => (List.range found.length).reverse.map fun off =>
    .getDone c (L.reader f off) (sk + off) (found.getD off (.zero, 0)).1
      (found.getD off (.zero, 0)).2

/-- The events of a run, by those of Puts and Gets. -/
def getsOf (L : Layout) (tr : List ScanEvent) : List Event := tr.flatMap (ScanEvent.gets L)

end DiscoSkip
