import DiscoSkip.State

/-!
# The Range future

A range read fetches the cells of consecutive keys from every replica of the
quorum at once, and merges them by tag, in place, into the slice of the first
replica. It posts under the id of the future with the top bit set, which is how
the completions of range reads are told from the others.
-/

namespace DiscoSkip

open Function

/-- The steps of a range read. -/
inductive RangeStep
  | reading
  | done
  deriving DecidableEq, Repr

/-- A range read in progress. -/
structure RangeFuture where
  futureId : ℕ
  step : RangeStep := .done
  startKey : UInt64 := 0
  rangeLen : UInt64 := 0
  ongoingPerServer : ℕ → ℤ := fun _ => 0
  results : List UInt64 := []

namespace RangeFuture

/-- The bit of a request id that marks a range read. -/
def rangeBit : ℕ := 1 <<< 63

variable (d : DsConf) (f : RangeFuture)

/-- The future and the state after posting `wrs`. -/
def posting (st : DsState) (wrs : List Wr) : Outcome RangeFuture where
  future := { f with ongoingPerServer := countPosts wrs f.ongoingPerServer }
  state := { st with toPollPerServer := countPosts wrs st.toPollPerServer }
  posted := wrs

/-- The bulk reads, one for every slot; their length in bytes is narrowed to 32
    bits. -/
def postBulkReads (st : DsState) : Outcome RangeFuture :=
  f.posting st (d.postSlots (f.futureId ||| rangeBit) (fun _ => true) fun _ =>
    .bulk f.startKey.toNat (f.rangeLen * 8).toUInt32.toNat)

/-- Starting a read of the keys from `sk` to `ek`. -/
def doRange (st : DsState) (sk ek : UInt64) : Except String (Outcome RangeFuture) :=
  let f := { f with startKey := sk, rangeLen := (ek - sk) + 1 }
  if f.rangeLen.toNat > d.layout.maxRange then .error "Range exceeds max_range"
  else .ok (postBulkReads d { f with step := .reading } st)

def isDone : Bool := f.step = .done

def addToOngoingRDMA (r : ℕ) (n : ℤ) : RangeFuture :=
  { f with ongoingPerServer := update f.ongoingPerServer r (f.ongoingPerServer r + n) }

/-- The slice `acc`, where the slice `src` has a greater tag, taken from it. -/
def mergeSlice (src : ℕ → Register) (off : ℕ) (acc : ℕ → Register) : ℕ → Register :=
  if acc off < src off then update acc off (src off) else acc

/-- The slice of the first replica, with those of the others merged into it. -/
def merged (bufs : Scratch) : ℕ → Register :=
  (d.quorum - 1).fold (fun i _ acc =>
    f.rangeLen.toNat.fold (fun off _ => mergeSlice (bufs.bulkBufs (d.quorumIndices (i + 1))) off)
      acc) (bufs.bulkBufs (d.quorumIndices 0))

def stepReading (bufs : Scratch) (st : DsState) : Scratch × Outcome RangeFuture :=
  let acc := merged d f bufs
  let cache := f.rangeLen.toNat.fold (fun off _ (ca : Cache) =>
    if d.layout.regCacheEnabled then ca.put (f.startKey.toNat + off) (acc off) else ca) st.cache
  let results := (List.range f.rangeLen.toNat).map fun off => (acc off).value.toUInt64
  ({ bufs with bulkBufs := update bufs.bulkBufs (d.quorumIndices 0) acc },
    ⟨{ f with results := results, step := .done }, { st with cache := cache }, [], true⟩)

/-- A step of the range read, once all it has posted has completed. -/
def tryStepForward (bufs : Scratch) (st : DsState) : Scratch × Outcome RangeFuture :=
  if d.Ready f.ongoingPerServer then
    match f.step with
    | .reading => stepReading d f bufs st
    | .done => (bufs, ⟨f, st, [], true⟩)
  else (bufs, ⟨f, st, [], false⟩)

end RangeFuture

end DiscoSkip
