import DiscoSkip.SwarmKv.UnreliableMaxReg

/-!
# The max register of all servers

A future has one register over those of all servers (`RelaxedMaxRegFuture`). The servers
of a key are in use in turn from its main server on, as many as a majority, and one more
for each dead server; the others are *lazy* (`inUse`).

A call steps the registers of the servers in use forward, one after the other. From each,
the register takes over the greatest tsp seen so far, and with it the buffer of this
server as the entry that belongs to the tsp, whose own tsp it overwrites (`relabel`).
Once the registers of a majority are ready, it goes on.
-/

namespace DiscoSkip.SwarmKv

open Lib

inductive RelaxedStep
  | tryRead
  | readLog
  | read
  | tryWrite
  | write
  | linearized
  | done
  deriving DecidableEq

structure RelaxedMaxReg where
  step : RelaxedStep
  reg : ℕ → MaxReg
  maxSeenTsp : ℕ
  /-- The server whose buffer is the entry of the greatest tsp. -/
  readEntry : ℕ

/-- How many registers in use are ready, done, and have made progress. -/
structure Counts where
  ready : ℕ
  done : ℕ
  progress : ℕ

namespace RelaxedMaxReg

def new : RelaxedMaxReg := ⟨.done, fun _ => .new, 0, 0⟩

section Calls

variable (cfg : Layout) (z : Local) (r : RelaxedMaxReg)

/-- The place of a server in turn from the main server on. -/
def turn (main s : ℕ) : ℕ := (s + (cfg.numServers - main)) % cfg.numServers

def forKV (kv main : ℕ) (myLastTs : Option ℕ) : RelaxedMaxReg :=
  { r with
    maxSeenTsp := 0
    reg := fun s =>
      let i := turn cfg main s
      { (r.reg s).forKV kv myLastTs with
        primary := i = 0
        enableInPlace := cfg.inPlace && (i = 0 || (main < cfg.deadServers && (kv &&& 1) = i - 1))
        lazynessLevel := if i < cfg.majority then 0 else 1 + i - cfg.majority }
    readEntry := 0 }

/-- The call of the registers that starts a step. -/
def start (step : RelaxedStep) (call : MaxReg → MaxReg) : RelaxedMaxReg :=
  { r with step, reg := fun s => { call (r.reg s) with madeProgress := false } }

def doRead : RelaxedMaxReg := r.start .tryRead (·.doTryRead z)

def doReadTs : RelaxedMaxReg := r.start .read (·.doReadTs z)

def doNotifyAndReadTs (entry : Ref) : Option RelaxedMaxReg :=
  (cfg.logAddressOf (z.tspOf entry)).map fun log => r.start .read (·.doNotifyAndReadTs z log)

/-- The log entry a tsp points to is read. -/
def doReadLog (tsp : ℕ) : Option RelaxedMaxReg :=
  (cfg.logAddressOf tsp).map fun log => r.start .readLog (·.doReadLog z log)

def doReplicateAndReadNotifs (entry : Ref) : Option RelaxedMaxReg :=
  (cfg.logAddressOf (z.tspOf entry)).map fun log =>
    r.start .write (·.doReplicateAndReadNotifs z entry log)

def doReplicate (entry : Ref) : Option RelaxedMaxReg :=
  (cfg.logAddressOf (z.tspOf entry)).map fun log => r.start .write (·.doReplicate z entry log)

def doWrite (c logId : ℕ) : Option RelaxedMaxReg :=
  (cfg.getServerLogAddress c logId).map fun log => r.start .write (·.doWrite z log)

def doTryWrite (c logId : ℕ) : Option RelaxedMaxReg :=
  (cfg.getServerLogAddress c logId).map fun log => r.start .tryWrite (·.doTryWrite z log)

def doWriteTsAndIn : RelaxedMaxReg := r.start .write (·.doWriteTsAndIn z)

def isLinearized : Bool := r.step = .done || r.step = .linearized

def isDone : Bool := r.step = .done

/-- The servers in use, neither lazy nor dead. -/
def inUse (s : ℕ) : Bool :=
  !(cfg.deadServers < (r.reg s).lazynessLevel) && !(s < cfg.deadServers)

def usedServers : List ℕ := (List.range cfg.numServers).filter (r.inUse cfg ·)

/-- The buffer of the entry of the greatest tsp. -/
def maxEntry : Ref := .read r.readEntry

def getMyTsp : Option ℕ :=
  (r.usedServers cfg).foldl (fun x s =>
    match x, (r.reg s).myLastTsp with
    | none, v => v
    | some x, some v => some (max x v)
    | some x, none => some x) none

def getMinTsp : ℕ :=
  (r.usedServers cfg).foldl (fun x s => min x (r.reg s).maxSeenTsp) r.maxSeenTsp

def getMyMinTsp : ℕ :=
  (r.usedServers cfg).foldl (fun x s => min x ((r.reg s).myLastTsp.getD 0)) (2 ^ 64 - 1)

def notified : Bool := (r.usedServers cfg).any fun s => (z.entry (.read s)).notif ≠ 0

def resetProgressMarkers : RelaxedMaxReg :=
  { r with reg := fun s => { r.reg s with madeProgress := false } }

def markAsDone : RelaxedMaxReg := { r with reg := fun s => (r.reg s).markAsDone z }

end Calls

section Steps

variable (cfg : Layout) (c : ℕ)

def setReg (r : RelaxedMaxReg) (s : ℕ) (x : MaxReg) : RelaxedMaxReg :=
  { r with reg := put r.reg s x }

/-- Taking over the greatest tsp from a register, with its buffer, the tsp of which is
    overwritten. -/
def relabel (s : ℕ) (z : Local) (r : RelaxedMaxReg) : Local × RelaxedMaxReg :=
  let seen := (r.reg s).maxSeenTsp
  if r.maxSeenTsp < seen ∨ (r.maxSeenTsp = seen ∧ (r.reg s).enableInPlace) then
    (z.setTsp (.read s) seen, { r with maxSeenTsp := seen, readEntry := s })
  else (z, r)

/-- Stepping one register forward. -/
def visit (acc : Local × RelaxedMaxReg × Counts) (s : ℕ) : Local × RelaxedMaxReg × Counts :=
  let (z, r, n) := acc
  let (z, x) := (r.reg s).tryStepForward cfg c s z
  let ready := x.isDone || (r.step = .write && x.isLinearized z)
  let (z, r) := relabel s z (r.setReg s x)
  (z, r,
    { ready := n.ready + if ready then 1 else 0
      done := n.done + if x.isDone then 1 else 0
      progress := n.progress + if ready || x.madeProgress then 1 else 0 })

/-- Stepping the registers in use forward. -/
def visitAll (z : Local) (r : RelaxedMaxReg) : Local × RelaxedMaxReg × Counts :=
  (r.usedServers cfg).foldl (visit cfg c) (z, r, ⟨0, 0, 0⟩)

/-- The server in use whose buffer has the greatest tsp in place, and a checksum that
    fits. -/
def inPlaceEntry (z : Local) (r : RelaxedMaxReg) : Option ℕ :=
  (r.usedServers cfg).find? fun s =>
    let kv := (z.entry (.read s)).kv
    (r.reg s).enableInPlace && (r.reg s).maxSeenTsp = r.maxSeenTsp &&
      validateTsp kv.inPlaceTsp = validateTsp r.maxSeenTsp && cfg.hashOfKv kv = kv.chsum

/-- The first server in use whose buffer has the log entry of the greatest tsp. -/
def logEntry (z : Local) (r : RelaxedMaxReg) : Option ℕ :=
  (r.usedServers cfg).find? fun s =>
    filterLogIdAndClientProcId (z.tspOf (.read s)) = filterLogIdAndClientProcId r.maxSeenTsp

/-- The step is over. -/
def finish (z : Local) (r : RelaxedMaxReg) : Local × RelaxedMaxReg :=
  (z, { r with step := .done }.markAsDone z)

/-- The log entries are read: the entry is the first that is there, with the greatest tsp
    for its own. -/
def endReadLog (z : Local) (r : RelaxedMaxReg) : Local × RelaxedMaxReg :=
  let r := { r with readEntry := (logEntry cfg z r).getD r.readEntry }
  finish (z.setTsp r.maxEntry r.maxSeenTsp) r

/-- Going on, once a majority is ready; `again` is the call it makes of itself. -/
def goOn (again : Local → RelaxedMaxReg → Option (Local × RelaxedMaxReg)) (z : Local)
    (r : RelaxedMaxReg) (n : Counts) : Option (Local × RelaxedMaxReg) :=
  match r.step with
  | .write => if n.done < cfg.majority then some (z, { r with step := .linearized })
      else some (finish z r)
  | .tryRead =>
    match inPlaceEntry cfg z r with
    | some s => some (finish z { r with readEntry := s })
    | none => (r.doReadLog cfg z r.maxSeenTsp).bind (again z)
  | .readLog => some (endReadLog cfg z r)
  | .read | .tryWrite | .linearized => some (finish z r)
  | .done => some (z, r)

/-- Stepping forward; the result tells if there was progress. -/
def stepWith (again : Local → RelaxedMaxReg → Option (Local × RelaxedMaxReg)) (z : Local)
    (r : RelaxedMaxReg) : Option (Bool × Local × RelaxedMaxReg) :=
  if r.step = .done then some (true, z, r.resetProgressMarkers)
  else
    let (z, r, n) := visitAll cfg c z r
    if n.progress < cfg.majority then some (false, z, r)
    else if n.ready < cfg.majority then some (true, z, r.resetProgressMarkers)
    else (goOn cfg again z r.resetProgressMarkers n).map (true, ·)

/-- The call a step makes of itself is that of the step `readLog`, which makes none. -/
def tryStepForward (z : Local) (r : RelaxedMaxReg) : Option (Bool × Local × RelaxedMaxReg) :=
  stepWith cfg c (fun z r => (stepWith cfg c (fun _ _ => none) z r).map Prod.snd) z r

end Steps

end RelaxedMaxReg

end DiscoSkip.SwarmKv
