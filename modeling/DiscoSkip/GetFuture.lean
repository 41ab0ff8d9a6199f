import DiscoSkip.State

/-!
# The Get future

A Get reads the cells of its quorum (`reading`) and returns the value of the
register with the greatest tag. With the writeback compiled in, and unless the
whole quorum agrees, it first CASes that register into the cells that held
another one (`writingBack`), and accepts whatever those CASes find.
-/

namespace DiscoSkip

open Function

/-- The steps of a Get. -/
inductive GetStep
  | reading
  | writingBack
  | done
  deriving DecidableEq, Repr

/-- A Get in progress. The slots of the quorum index `expected`. -/
structure GetFuture where
  futureId : ℕ
  step : GetStep := .done
  key : ℕ := 0
  ongoingPerServer : ℕ → ℤ := fun _ => 0
  maxReg : Register := .zero
  maxCount : ℕ := 0
  expected : ℕ → Register := fun _ => .zero
  resultValue : UInt32 := 0

namespace GetFuture

/-- The size of the array `expected`. -/
def kMaxQuorum : ℕ := 8

/-- A new future, idle; its quorum must fit. -/
def new (d : DsConf) (id : ℕ) : Except String GetFuture :=
  if d.quorum > kMaxQuorum then .error "GetFuture: quorum exceeds kMaxQuorum"
  else .ok { futureId := id }

variable (d : DsConf) (g : GetFuture)

/-- The future and the state after posting `wrs`. -/
def posting (st : DsState) (wrs : List Wr) : Outcome GetFuture where
  future := { g with ongoingPerServer := countPosts wrs g.ongoingPerServer }
  state := { st with toPollPerServer := countPosts wrs st.toPollPerServer }
  posted := wrs

/-- The CASes to the replicas that were not found to hold the maximum. -/
def postWriteback (st : DsState) : Outcome GetFuture :=
  g.posting st (d.postSlots g.futureId (fun i => g.expected i ≠ g.maxReg) fun i =>
    .cas g.key (g.expected i) g.maxReg)

/-- Starting a Get of the key `k`. -/
def doGet (st : DsState) (k : ℕ) : Outcome GetFuture :=
  let g := { g with key := k, maxReg := .zero, maxCount := 0, step := .reading }
  g.posting st (d.postSlots g.futureId (fun _ => true) fun _ => .read k)

def isDone : Bool := g.step = .done

def getValue : UInt64 := g.resultValue.toUInt64

def addToOngoingRDMA (r : ℕ) (n : ℤ) : GetFuture :=
  { g with ongoingPerServer := update g.ongoingPerServer r (g.ongoingPerServer r + n) }

/-- One slot of the loop over the registers read. -/
def readSlot (bufs : Scratch) (i : ℕ) (g : GetFuture) : GetFuture :=
  let reg := bufs.readBufs (d.quorumIndices i)
  let g := { g with expected := update g.expected i reg }
  if g.maxReg < reg then { g with maxReg := reg, maxCount := 1 }
  else if reg = g.maxReg then { g with maxCount := g.maxCount + 1 }
  else g

def stepReading (bufs : Scratch) (st : DsState) : Outcome GetFuture :=
  let g := d.quorum.fold (fun i _ => readSlot d bufs i) g
  let st := if d.layout.regCacheEnabled then { st with cache := st.cache.put g.key g.maxReg }
    else st
  let g := { g with resultValue := g.maxReg.value }
  if d.layout.regWritebackEnabled ∧ g.maxCount < d.quorum then
    postWriteback d { g with step := .writingBack } st
  else ⟨{ g with step := .done }, st, [], true⟩

/-- A step of the Get, once all it has posted has completed. The step
    `writingBack` only counts the CASes that failed, for the statistics. -/
def tryStepForward (bufs : Scratch) (st : DsState) : Outcome GetFuture :=
  if d.Ready g.ongoingPerServer then
    match g.step with
    | .reading => stepReading d g bufs st
    | .writingBack => ⟨{ g with step := .done }, st, [], true⟩
    | .done => ⟨g, st, [], true⟩
  else ⟨g, st, [], false⟩

end GetFuture

end DiscoSkip
