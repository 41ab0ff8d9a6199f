import DiscoSkip.State

/-!
# The Put future

A Put writes a value to a majority of the replicas, under a tag greater than
those it has seen:

* without a cached register, it reads the cells of its quorum (`readSeq`), and
  then CASes each of them (`cas`) from the register read to its target;
* with a cached register, it CASes all the cells at once from it
  (`optimisticChain`), and then retries (`cas`) where it was outdated;
* in the step `cas`, a cell that was found changed is tried again, from the
  register found there. If that has outrun the target, the target is bumped, and
  all the cells are to be tried again.

The loop of the step `cas` (`PutFuture.casSlot`) resets the *whole* quorum in
the middle of its pass: from the slot of the reset on, it compares the swap
buffers with the very values it has just copied from them.
-/

namespace DiscoSkip

open Function

/-- The steps of a Put. -/
inductive PutStep
  | readSeq
  | optimisticChain
  | cas
  | done
  deriving DecidableEq, Repr

/-- A Put in progress. The slots of the quorum index `expected`, the servers
    `ongoingPerServer` and `needsCas`. -/
structure PutFuture where
  futureId : ℕ
  step : PutStep := .done
  key : ℕ := 0
  value : UInt64 := 0
  ongoingPerServer : ℕ → ℤ := fun _ => 0
  needsCas : ℕ → Bool := fun _ => false
  expected : ℕ → Register := fun _ => .zero
  targetReg : Register := .zero
  successCount : ℕ := 0

namespace PutFuture

/-- The size of the array `expected`. -/
def kMaxQuorum : ℕ := 8

/-- A new future, idle; its quorum must fit. -/
def new (d : DsConf) (id : ℕ) : Except String PutFuture :=
  if d.quorum > kMaxQuorum then .error "PutFuture: quorum exceeds kMaxQuorum"
  else .ok { futureId := id }

variable (d : DsConf) (p : PutFuture)

/-- The future and the state after posting `wrs`. -/
def posting (st : DsState) (wrs : List Wr) : Outcome PutFuture where
  future := { p with ongoingPerServer := countPosts wrs p.ongoingPerServer }
  state := { st with toPollPerServer := countPosts wrs st.toPollPerServer }
  posted := wrs

def postReads (st : DsState) : Outcome PutFuture :=
  p.posting st (d.postSlots p.futureId (fun _ => true) fun _ => .read p.key)

/-- The CASes of the optimistic chain, one for every slot. -/
def postOptimisticChain (st : DsState) : Outcome PutFuture :=
  p.posting st (d.postSlots p.futureId (fun _ => true) fun i =>
    .cas p.key (p.expected i) p.targetReg)

/-- The CASes to the replicas that still need one. -/
def postCas (st : DsState) : Outcome PutFuture :=
  p.posting st (d.postSlots p.futureId (fun i => p.needsCas (d.quorumIndices i)) fun i =>
    .cas p.key (p.expected i) p.targetReg)

/-- The slot `i` is to be CASed from the register `e`. -/
def expect (i : ℕ) (e : Register) (p : PutFuture) : PutFuture :=
  { p with
    expected := update p.expected i e
    needsCas := update p.needsCas (d.quorumIndices i) true }

/-- Starting a Put of `v` to the key `k`. -/
def doPut (st : DsState) (k : ℕ) (v : UInt64) : Outcome PutFuture :=
  let p := { p with key := k, value := v, successCount := 0, needsCas := fun _ => false }
  match if d.layout.regCacheEnabled then st.cache.get k else none with
  | some cached =>
    let p := { p with targetReg := d.register (cached.seq + 1) v }
    let p := d.quorum.fold (fun i _ => expect d i cached) p
    postOptimisticChain d { p with step := .optimisticChain } st
  | none => postReads d { p with step := .readSeq } st

def isDone : Bool := p.step = .done

def addToOngoingRDMA (r : ℕ) (n : ℤ) : PutFuture :=
  { p with ongoingPerServer := update p.ongoingPerServer r (p.ongoingPerServer r + n) }

/-- The Put is over: its target goes to the register cache. -/
def finish (st : DsState) : Outcome PutFuture where
  future := { p with step := .done }
  state := if d.layout.regCacheEnabled then { st with cache := st.cache.put p.key p.targetReg }
    else st

/-! ## The step `readSeq` -/

/-- One slot of the loop over the registers read: the largest sequence number
    so far, and the future. -/
def readSlot (bufs : Scratch) (i : ℕ) (x : UInt16 × PutFuture) : UInt16 × PutFuture :=
  let reg := bufs.readBufs (d.quorumIndices i)
  (max x.1 reg.seq, expect d i reg x.2)

def stepReadSeq (bufs : Scratch) (st : DsState) : Outcome PutFuture :=
  let (zMax, p) := d.quorum.fold (fun i _ => readSlot d bufs i) (0, p)
  let p := { p with targetReg := d.register (zMax + 1) p.value }
  postCas d { p with step := .cas } st

/-! ## The step `optimisticChain` -/

/-- One slot of the loop over the answers of the optimistic chain. -/
def chainSlot (bufs : Scratch) (i : ℕ) (x : UInt16 × PutFuture) : UInt16 × PutFuture :=
  let r := d.quorumIndices i
  let observed := bufs.swapBufs r
  if observed = x.2.expected i then
    (x.1, { x.2 with
      needsCas := update x.2.needsCas r false
      successCount := x.2.successCount + 1 })
  else
    (max x.1 observed.seq, { x.2 with expected := update x.2.expected i observed })

/-- The replicas that succeeded hold the target now. -/
def expectTarget (i : ℕ) (p : PutFuture) : PutFuture :=
  if p.needsCas (d.quorumIndices i) then p
  else { p with expected := update p.expected i p.targetReg }

def stepOptimisticChain (bufs : Scratch) (st : DsState) : Outcome PutFuture :=
  let (zMax, p) := d.quorum.fold (fun i _ => chainSlot d bufs i) (p.targetReg.seq - 1, p)
  let p := d.quorum.fold (fun i _ => expectTarget d i) p
  if p.successCount ≥ d.quorum then p.finish d st
  else
    let p := { p with targetReg := d.register (zMax + 1) p.value }
    postCas d { p with step := .cas } st

/-! ## The step `cas` -/

/-- The reset of the whole quorum, once a register of the sequence number `s`
    has outrun the target: a new target, and every replica to be tried again,
    from what its swap buffer holds. -/
def reset (bufs : Scratch) (s : UInt16) (p : PutFuture) : PutFuture :=
  let p := { p with targetReg := d.register (s + 1) p.value }
  let p := d.quorum.fold (fun j _ => expect d j (bufs.swapBufs (d.quorumIndices j))) p
  { p with successCount := 0 }

/-- One slot of the loop over the answers of the CASes. -/
def casSlot (bufs : Scratch) (i : ℕ) (p : PutFuture) : PutFuture :=
  let r := d.quorumIndices i
  if p.needsCas r then
    let observed := bufs.swapBufs r
    if observed = p.expected i then
      { p with
        needsCas := update p.needsCas r false
        successCount := p.successCount + 1 }
    else
      let p := { p with expected := update p.expected i observed }
      if observed.seq ≥ p.targetReg.seq then reset d bufs observed.seq p else p
  else p

def stepCas (bufs : Scratch) (st : DsState) : Outcome PutFuture :=
  let p := d.quorum.fold (fun i _ => casSlot d bufs i) p
  if p.successCount ≥ d.quorum then p.finish d st else postCas d p st

/-- A step of the Put, once all it has posted has completed. -/
def tryStepForward (bufs : Scratch) (st : DsState) : Outcome PutFuture :=
  if d.Ready p.ongoingPerServer then
    match p.step with
    | .readSeq => stepReadSeq d p bufs st
    | .optimisticChain => stepOptimisticChain d p bufs st
    | .cas => stepCas d p bufs st
    | .done => ⟨p, st, [], true⟩
  else ⟨p, st, [], false⟩

end PutFuture

end DiscoSkip
