import DiscoSkip.GetFuture
import DiscoSkip.PutFuture
import DiscoSkip.RangeFuture

/-!
# The client

A client runs `asyncParallelism` operations at a time, each in an `OpFuture`,
which is a Get, a Put or a range read by its current kind, and as many range
reads in futures of their own. Future `i` of both arrays has the id `i`, and
shares the scratchpad `i`.

The completions of the posted requests come back as bare ids
(`DsClient.tickRdma`): the top bit tells the two arrays apart, the rest is the
index, and an `OpFuture` credits the part of its current kind.
-/

namespace DiscoSkip

open Function

/-! ## Operation futures -/

/-- What an operation future currently is. -/
inductive Kind
  | none
  | get
  | put
  | range
  deriving DecidableEq, Repr

/-- A future that runs one operation at a time, of any kind. -/
structure OpFuture where
  kind : Kind := .none
  getF : GetFuture
  putF : PutFuture
  rangeF : RangeFuture

namespace OpFuture

/-- A new future, idle. -/
def new (d : DsConf) (id : ℕ) : Except String OpFuture := do
  let getF ← GetFuture.new d id
  let putF ← PutFuture.new d id
  return { getF := getF, putF := putF, rangeF := { futureId := id } }

/-- The idle future of the id `id`, as it is built. -/
def idle (id : ℕ) : OpFuture :=
  { getF := { futureId := id }, putF := { futureId := id }, rangeF := { futureId := id } }

variable (d : DsConf) (o : OpFuture)

def doGet (st : DsState) (k : ℕ) : Outcome OpFuture :=
  (o.getF.doGet d st k).lift fun g => { o with kind := .get, getF := g }

def doPut (st : DsState) (k : ℕ) (v : UInt64) : Outcome OpFuture :=
  (o.putF.doPut d st k v).lift fun p => { o with kind := .put, putF := p }

def doRange (st : DsState) (sk ek : UInt64) : Except String (Outcome OpFuture) :=
  (o.rangeF.doRange d st sk ek).map (·.lift fun f => { o with kind := .range, rangeF := f })

def isDone : Bool :=
  match o.kind with
  | .get => o.getF.isDone
  | .put => o.putF.isDone
  | .range => o.rangeF.isDone
  | .none => true

/-- A completion is credited to the part of the current kind. -/
def addToOngoingRDMA (r : ℕ) (n : ℤ) : OpFuture :=
  match o.kind with
  | .get => { o with getF := o.getF.addToOngoingRDMA r n }
  | .put => { o with putF := o.putF.addToOngoingRDMA r n }
  | .range => { o with rangeF := o.rangeF.addToOngoingRDMA r n }
  | .none => o

def tryStepForward (bufs : Scratch) (st : DsState) : Scratch × Outcome OpFuture :=
  match o.kind with
  | .get => (bufs, (o.getF.tryStepForward d bufs st).lift fun g => { o with getF := g })
  | .put => (bufs, (o.putF.tryStepForward d bufs st).lift fun p => { o with putF := p })
  | .range =>
    let x := o.rangeF.tryStepForward d bufs st
    (x.1, x.2.lift fun f => { o with rangeF := f })
  | .none => (bufs, ⟨o, st, [], true⟩)

end OpFuture

/-! ## Clients -/

/-- A client: its futures, the scratchpads they share by id, and its state. -/
structure DsClient where
  state : DsState := {}
  futures : ℕ → OpFuture := OpFuture.idle
  progress : ℕ → Bool := fun _ => false
  rangeFutures : ℕ → RangeFuture := fun i => { futureId := i }
  rangeProgress : ℕ → Bool := fun _ => false
  scratch : ℕ → Scratch := fun _ => {}

namespace DsClient

variable (d : DsConf) (cl : DsClient)

/-- A new client, all its futures idle. The constructor of a future may refuse
    the quorum. -/
def new : Except String DsClient :=
  if 0 < d.layout.asyncParallelism then (OpFuture.new d 0).map fun _ => {} else .ok {}

/-- The client after the future `i` has made the step `x`. -/
def setFuture (i : ℕ) (x : Outcome OpFuture) : DsClient :=
  { cl with state := x.state, futures := update cl.futures i x.future }

def doGet (i k : ℕ) : DsClient × List Wr :=
  let x := (cl.futures i).doGet d cl.state k
  (cl.setFuture i x, x.posted)

def doPut (i k : ℕ) (v : UInt64) : DsClient × List Wr :=
  let x := (cl.futures i).doPut d cl.state k v
  (cl.setFuture i x, x.posted)

def doRange (i : ℕ) (sk ek : UInt64) : Except String (DsClient × List Wr) :=
  ((cl.futures i).doRange d cl.state sk ek).map fun x => (cl.setFuture i x, x.posted)

/-- A range read in one of the range futures. -/
def doRangeFuture (i : ℕ) (sk ek : UInt64) : Except String (DsClient × List Wr) :=
  ((cl.rangeFutures i).doRange d cl.state sk ek).map fun x =>
    ({ cl with state := x.state, rangeFutures := update cl.rangeFutures i x.future }, x.posted)

def tryStepForward (i : ℕ) : DsClient × List Wr :=
  let (bufs, x) := (cl.futures i).tryStepForward d (cl.scratch i) cl.state
  ({ cl.setFuture i x with scratch := update cl.scratch i bufs }, x.posted)

def tryStepForwardRange (i : ℕ) : DsClient × List Wr :=
  let (bufs, x) := (cl.rangeFutures i).tryStepForward d (cl.scratch i) cl.state
  ({ cl with
      state := x.state
      rangeFutures := update cl.rangeFutures i x.future
      scratch := update cl.scratch i bufs }, x.posted)

/-- Routing one completion from the server `s` by its id, to the future it
    finds; out of range, the array access throws. -/
def route (s : ℕ) (rawId : ℕ) : Except String DsClient :=
  let isRangeOp := rawId >>> 63 ≠ 0
  let cleanId := rawId &&& (2 ^ 63 - 1)
  if d.layout.asyncParallelism ≤ cleanId then .error "vector::_M_range_check"
  else if isRangeOp then
    .ok { cl with
      rangeFutures := update cl.rangeFutures cleanId
        ((cl.rangeFutures cleanId).addToOngoingRDMA s (-1))
      rangeProgress := update cl.rangeProgress cleanId true }
  else
    .ok { cl with
      futures := update cl.futures cleanId ((cl.futures cleanId).addToOngoingRDMA s (-1))
      progress := update cl.progress cleanId true }

/-- Taking the completions `wcs` of the server `s`. -/
def tickServer (s : ℕ) (wcs : List ℕ) (cl : DsClient) : Except String DsClient := do
  let cl ← wcs.foldlM (fun cl rawId => cl.route d s rawId) cl
  return { cl with state := { cl.state with
    toPollPerServer := update cl.state.toPollPerServer s
      (cl.state.toPollPerServer s - wcs.length) } }

/-- The client once a request of the operation future `i` to the server `s` has
    completed: what taking its completion comes to (`tickServer_future`). -/
def complete (i s : ℕ) : DsClient :=
  { cl with
    state := { cl.state with
      toPollPerServer := update cl.state.toPollPerServer s (cl.state.toPollPerServer s - 1) }
    futures := update cl.futures i ((cl.futures i).addToOngoingRDMA s (-1))
    progress := update cl.progress i true }

/-- Polling every server that has something to poll for; `cq s` is what its
    completion queue returns. -/
def tickRdma (cq : ℕ → List ℕ) : Except String DsClient :=
  (List.range d.layout.numServers).foldlM (fun cl s =>
    if cl.state.toPollPerServer s ≤ 0 then .ok cl else tickServer d s (cq s) cl) cl

/-! ## Routing -/

variable {d cl}

/-- The id of an operation future comes back as it was posted. -/
theorem route_future {i s : ℕ} (hi : i < d.layout.asyncParallelism) (h63 : i < 2 ^ 63) :
    cl.route d s i = .ok { cl with
      futures := update cl.futures i ((cl.futures i).addToOngoingRDMA s (-1))
      progress := update cl.progress i true } := by
  have hclean : i &&& (2 ^ 63 - 1) = i := by
    rw [Nat.and_two_pow_sub_one_eq_mod, Nat.mod_eq_of_lt h63]
  have hbit : i >>> 63 = 0 := by
    rw [Nat.shiftRight_eq_div_pow, Nat.div_eq_of_lt h63]
  simp only [route, hclean, hbit, ne_eq, not_true_eq_false, if_false, if_neg (not_le.2 hi)]

/-- The completion of a request of an operation future is credited to it. -/
theorem tickServer_future {i s : ℕ} (hi : i < d.layout.asyncParallelism) (h63 : i < 2 ^ 63) :
    tickServer d s [i] cl = .ok (cl.complete i s) := by
  simp only [tickServer, List.foldlM_cons, List.foldlM_nil, route_future hi h63, bind_pure,
    List.length_singleton, Nat.cast_one]
  rfl

end DsClient

end DiscoSkip
