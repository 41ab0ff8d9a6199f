import DiscoSkip.Lib.Put
import DiscoSkip.SwarmKv.Clock
import DiscoSkip.SwarmKv.Layout

/-!
# The max register of one server

A future has, for each server, a register (`UnreliableMaxRegFuture`) that reads the
place of a key/value id on this server, or writes to it: the key/value pair to the log
entry of the write, and its tsp to the slot of the client, by a compare-and-swap that
expects what the client saw there last.

What to do next is only noted (`doNext`), until the register is stepped forward with
nothing left to poll: then it takes in what came back, and goes on to what was noted, or
to what follows by itself. Both skip what the greatest tsp seen makes needless
(`settle`), each by its own comparison; but not the step `WriteTsAndIn`.

Left out are the step `ReadAll`, which no caller starts, and what was kept of it only
for measurements. A key/value pair is always written out of place.
-/

namespace DiscoSkip.SwarmKv

open Lib

/-- What is posted to a server, for a key/value id or a log entry, from or to the memory
    of the future. -/
inductive Op
  | readKv (kv : ℕ)
  | readTsps (kv : ℕ)
  | readLog (log : LogAddr)
  | readNotif (log : LogAddr)
  | casNotif (log : LogAddr)
  | cas (kv expected swap : ℕ)
  | writeLog (log : LogAddr) (src : Ref)
  | writeKv (kv : ℕ) (src : Ref)
  deriving DecidableEq

/-- A work request; one that is signaled has to be polled. -/
structure Request where
  op : Op
  signaled : Bool
  deriving DecidableEq

/-- What a call of a future works on, besides its registers: the clock of the client,
    the memory of the future, and what is posted to the servers. -/
structure Local where
  clock : Clock
  entry : Ref → LogEntry
  posted : List (ℕ × Request)

namespace Local

variable (z : Local)

def setEntry (r : Ref) (e : LogEntry) : Local := { z with entry := put z.entry r e }

def tspOf (r : Ref) : ℕ := (z.entry r).kv.inPlaceTsp

/-- Overwriting the tsp of an entry, and nothing else of it. -/
def setTsp (r : Ref) (tsp : ℕ) : Local :=
  z.setEntry r { z.entry r with kv := { (z.entry r).kv with inPlaceTsp := tsp } }

def post (s : ℕ) (reqs : List Request) : Local :=
  { z with posted := z.posted ++ reqs.map (s, ·) }

end Local

inductive RegStep
  | tryReadAll
  | readTs
  | notifyAndReadTs
  | readLog
  | tryWriteAll
  | writeAll
  | replicateAllAndReadNotifs
  | writeTsAndIn
  | writeTs
  | replicateTsAndReadNotifs
  | readNotifs
  | done
  deriving DecidableEq

structure MaxReg where
  step : RegStep
  toPoll : ℕ
  remoteKv : ℕ
  ongoingRemoteKv : Option ℕ
  maxSeenTsp : ℕ
  myLastTsp : Option ℕ
  ongoingWriteEntry : Ref
  nextStep : Option RegStep
  writeEntry : Ref
  remoteLog : LogAddr
  enableInPlace : Bool
  primary : Bool
  lazynessLevel : ℕ
  madeProgress : Bool

/-- Skipping what needs not be done, having seen the tsp `seen` when writing `tsp`. -/
def settle (skips : ℕ → ℕ → Bool) (tsp seen : ℕ) : RegStep → RegStep
  | .replicateAllAndReadNotifs =>
    if skips tsp (validateTsp seen) then .readNotifs else .replicateAllAndReadNotifs
  | .replicateTsAndReadNotifs =>
    if skips tsp (validateTsp seen) then .readNotifs else .replicateTsAndReadNotifs
  | .writeAll =>
    if skips tsp (validateTsp seen) then (if skips tsp seen then .done else .writeTs)
    else .writeAll
  | .tryWriteAll =>
    if skips tsp (validateTsp seen) then (if skips tsp seen then .done else .writeTs)
    else .tryWriteAll
  | .writeTs => if skips tsp seen then .done else .writeTs
  | step => step

namespace MaxReg

def new : MaxReg where
  step := .done
  toPoll := 0
  remoteKv := 0
  ongoingRemoteKv := none
  maxSeenTsp := 0
  myLastTsp := some 0
  ongoingWriteEntry := .write
  nextStep := none
  writeEntry := .write
  remoteLog := ⟨0, 0⟩
  enableInPlace := false
  primary := false
  lazynessLevel := 0
  madeProgress := false

def forKV (x : MaxReg) (kv : ℕ) (myLastTs : Option ℕ) : MaxReg :=
  { x with remoteKv := kv, myLastTsp := myLastTs, maxSeenTsp := myLastTs.getD 0 }

section Calls

variable (z : Local) (x : MaxReg)

def doNext (step : RegStep) : MaxReg :=
  { x with nextStep := some (settle (· < ·) (z.tspOf x.writeEntry) x.maxSeenTsp step) }

def doTryRead : MaxReg := x.doNext z .tryReadAll

def doReadTs : MaxReg := x.doNext z .readTs

def doNotifyAndReadTs (log : LogAddr) : MaxReg :=
  { x with remoteLog := log }.doNext z .notifyAndReadTs

def doReadLog (log : LogAddr) : MaxReg := { x with remoteLog := log }.doNext z .readLog

def doReplicate (toReplicate : Ref) (log : LogAddr) : MaxReg :=
  { x with writeEntry := toReplicate, remoteLog := log }.doNext z .writeAll

def doReplicateAndReadNotifs (toReplicate : Ref) (log : LogAddr) : MaxReg :=
  { x with writeEntry := toReplicate, remoteLog := log }.doNext z .replicateAllAndReadNotifs

def doWrite (log : LogAddr) : MaxReg :=
  { x with writeEntry := .write, remoteLog := log }.doNext z .writeAll

def doTryWrite (log : LogAddr) : MaxReg :=
  { x with writeEntry := .write, remoteLog := log }.doNext z .tryWriteAll

def doWriteTsAndIn : MaxReg := { x with writeEntry := .write }.doNext z .writeTsAndIn

def markAsDone : MaxReg := x.doNext z .done

def isDone : Bool := x.step = .done && (x.nextStep = none || x.nextStep = some .done)

def isLinearized : Bool :=
  (x.step = .done && x.nextStep = none) || x.nextStep = some .done ||
    z.tspOf x.writeEntry ≤ validateTsp x.maxSeenTsp

end Calls

section Steps

variable (cfg : Layout) (c s : ℕ)

/-- The compare-and-swap of a write. -/
def casRequest (z : Local) (x : MaxReg) : Request :=
  ⟨.cas x.remoteKv (x.myLastTsp.getD 0) (z.tspOf x.writeEntry), true⟩

/-- A write to the log entry and to the slot, and in place when it is due. -/
def writeRequests (z : Local) (x : MaxReg) (step : RegStep) : List Request :=
  let firstWrite := x.myLastTsp.isNone
  let indexing := x.primary && firstWrite
  let lazyReplication := x.writeEntry ≠ .write
  let lazyTryWrite := step = .tryWriteAll
  let inPlace := indexing || (x.enableInPlace && !lazyReplication && !lazyTryWrite)
  (if step = .tryWriteAll ∧ cfg.numTsp > 1 then [⟨.readTsps x.remoteKv, false⟩] else []) ++
    [⟨.writeLog x.remoteLog x.writeEntry, false⟩, x.casRequest z] ++
    (if inPlace then [⟨.writeKv x.remoteKv x.writeEntry, false⟩] else [])

/-- What a step posts. -/
def requests (z : Local) (x : MaxReg) : RegStep → List Request
  | .tryReadAll =>
    if x.enableInPlace then [⟨.readKv x.remoteKv, true⟩] else [⟨.readTsps x.remoteKv, true⟩]
  | .readTs => [⟨.readTsps x.remoteKv, true⟩]
  | .notifyAndReadTs => [⟨.casNotif x.remoteLog, false⟩, ⟨.readTsps x.remoteKv, true⟩]
  | .readLog => [⟨.readLog x.remoteLog, true⟩]
  | .tryWriteAll => x.writeRequests cfg z .tryWriteAll
  | .writeAll => x.writeRequests cfg z .writeAll
  | .replicateAllAndReadNotifs =>
    x.writeRequests cfg z .replicateAllAndReadNotifs ++ [⟨.readNotif x.remoteLog, true⟩]
  | .writeTsAndIn =>
    x.casRequest z :: if x.enableInPlace then [⟨.writeKv x.remoteKv x.writeEntry, false⟩] else []
  | .writeTs => [x.casRequest z]
  | .replicateTsAndReadNotifs => [x.casRequest z, ⟨.readNotif x.remoteLog, true⟩]
  | .readNotifs => [⟨.readNotif x.remoteLog, true⟩]
  | .done => []

def transitionTo (z : Local) (x : MaxReg) (step : RegStep) : Local × MaxReg :=
  let step := settle (· ≤ ·) (z.tspOf x.writeEntry) x.maxSeenTsp step
  if step = .done then (z, { x with step })
  else
    let reqs := x.requests cfg z step
    (z.post s reqs,
      { x with
        step
        toPoll := x.toPoll + (reqs.filter (·.signaled)).length
        ongoingRemoteKv := some x.remoteKv
        ongoingWriteEntry := x.writeEntry })

/-- Having seen a tsp on the server. -/
def see (z : Local) (x : MaxReg) (tsp : ℕ) : Local × MaxReg :=
  if x.maxSeenTsp < tsp then
    ({ z with clock := z.clock.syncClock (cfg.steady c) tsp }, { x with maxSeenTsp := tsp })
  else (z, x)

/-- What the slot has after a compare-and-swap: what it found there, or if this is what it
    expected, the tsp of the entry it wrote. -/
def swapped (z : Local) (x : MaxReg) : ℕ :=
  let swapback := (z.entry (.read s)).fromTsp
  if x.myLastTsp.getD 0 = swapback then z.tspOf x.ongoingWriteEntry else swapback

/-- Noting the tsp in the slot of the client, in the array of the entry it wrote as well. -/
def noteSwapped (z : Local) (x : MaxReg) (mine : ℕ) : Local × MaxReg :=
  let e := z.entry x.ongoingWriteEntry
  (z.setEntry x.ongoingWriteEntry { e with tsps := put e.tsps (cfg.tspSlot c) mine },
    { x with myLastTsp := some mine })

/-- Taking in what a compare-and-swap found. -/
def takeSwap (z : Local) (x : MaxReg) : Local × MaxReg :=
  let mine := swapped s z x
  let (z, x) := noteSwapped cfg c z x mine
  see cfg c z x mine

/-- Taking in the tsps that were read. -/
def takeMax (z : Local) (x : MaxReg) : Local × MaxReg :=
  see cfg c z x (cfg.maxTspOf (z.entry (.read s)).tsps)

/-- Taking in what came back. -/
def take (z : Local) (x : MaxReg) : Local × MaxReg :=
  match x.step with
  | .tryWriteAll =>
    let (z, x) := takeSwap cfg c s z x
    if cfg.numTsp = 1 then (z, x) else takeMax cfg c s z x
  | .writeAll | .replicateAllAndReadNotifs | .writeTsAndIn | .writeTs
  | .replicateTsAndReadNotifs => takeSwap cfg c s z x
  | .tryReadAll | .readTs | .notifyAndReadTs =>
    let (z, x) := takeMax cfg c s z x
    (z, { x with myLastTsp := some ((z.entry (.read s)).tsps (cfg.tspSlot c)) })
  | .readLog | .readNotifs | .done => (z, x)

/-- The step that follows by itself. -/
def advance (z : Local) (x : MaxReg) : Local × MaxReg :=
  match x.step with
  | .tryReadAll | .readTs | .notifyAndReadTs | .readLog | .tryWriteAll | .readNotifs =>
    transitionTo cfg s z x .done
  | .writeAll | .writeTsAndIn | .writeTs => transitionTo cfg s z x .writeTs
  | .replicateAllAndReadNotifs | .replicateTsAndReadNotifs =>
    if z.tspOf x.writeEntry < validateTsp x.maxSeenTsp then transitionTo cfg s z x .done
    else transitionTo cfg s z x .replicateTsAndReadNotifs
  | .done => (z, x)

/-- There is something left to poll, other than the last request for another id. -/
def waits (x : MaxReg) : Bool :=
  x.toPoll > if x.ongoingRemoteKv = some x.remoteKv then 0 else 1

/-- Taking in what came back, unless it is of another id. -/
def refresh (z : Local) (x : MaxReg) : Local × MaxReg :=
  if x.ongoingRemoteKv = some x.remoteKv then take cfg c s z x else (z, x)

/-- Stepping forward; this is called only for the servers in use. -/
def tryStepForward (z : Local) (x : MaxReg) : Local × MaxReg :=
  if x.waits then (z, x)
  else
    let (z, x) := refresh cfg c s z x
    match x.nextStep with
    | some step => transitionTo cfg s z { x with nextStep := none } step
    | none => advance cfg s z { x with madeProgress := true }

end Steps

end MaxReg

end DiscoSkip.SwarmKv
