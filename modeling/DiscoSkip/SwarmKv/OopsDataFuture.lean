import DiscoSkip.SwarmKv.RelaxedMaxReg

/-!
# Writing and reading a key/value pair

The protocol over the max registers (`OopsDataFuture`).

* A write guesses a tsp and tries to write with it. If no greater one turns up, it
  writes it once more, as verified. Otherwise, it has the greater one replicated, if it
  must, and asks if its own was notified meanwhile, and with this it is done; if not, it
  writes a new one, as verified.
* A read reads until it sees a tsp that is verified, or the same one twice, of which it
  then notifies the writer, or two of the same client. The first ones it replicates, as
  verified.

A step sets up the register (`enter`), and steps forward at once. What stepping forward
comes to is an `Outcome`: it returns, or goes on to a step, and thus steps forward
again; in one case, `RTryNotifyWriter`, it does not return after that, but falls through
to what the step `RReading` does.
-/

namespace DiscoSkip.SwarmKv

open Lib

inductive DataStep
  | wTryOptimisticTs
  | wPrepareToRepare
  | wTryRepare
  | wReadToWrite
  | rReading
  | rTryNotifyWriter
  | replicateAsVerified
  | writeTsAsVerified
  | writeAsVerified
  | linearized
  | done
  deriving DecidableEq

structure OopsDataFuture where
  step : DataStep
  maxreg : RelaxedMaxReg
  /-- The tsp of each client seen by a read. -/
  seen : ℕ → Option ℕ
  logId : ℕ
  mTs : ℕ
  previousTs : ℕ

inductive Outcome
  /-- It returns, and tells if there was progress. -/
  | returns (progress : Bool)
  /-- It steps forward again. -/
  | calls
  /-- It steps forward again, and falls through. -/
  | callsFirst
  deriving DecidableEq

namespace OopsDataFuture

def new : OopsDataFuture := ⟨.done, .new, fun _ => none, 0, 0, 0⟩

def isLinearized (d : OopsDataFuture) : Bool := d.step = .done || d.step = .linearized

def isDone (d : OopsDataFuture) : Bool := d.step = .done

variable (cfg : Layout) (c : ℕ)

def forKV (d : OopsDataFuture) (kv : ℕ) (myLastTs : Option ℕ) : OopsDataFuture :=
  { d with
    mTs := myLastTs.getD 0
    previousTs := 0
    maxreg := d.maxreg.forKV cfg kv (cfg.mainServerIdx kv) myLastTs }

/-- Taking a tsp for the entry to write, of a new timestamp. -/
def newTsp (z : Local) (d : OopsDataFuture) (validated : Bool) : Option Local := do
  let (ts, clock) ← z.clock.newTs (cfg.steady c)
  let tsp ← makeTsp ts d.logId (cfg.procId c) validated
  pure ({ z with clock }.setTsp .write tsp)

/-- A step, after what it is redirected to. -/
def begin (z : Local) (d : OopsDataFuture) (step : DataStep) :
    Option (Local × OopsDataFuture) :=
  match step with
  | .wTryOptimisticTs => do
    let z ← newTsp cfg c z d false
    let maxreg ← d.maxreg.doTryWrite cfg z c d.logId
    pure (z, { d with step, maxreg })
  | .wPrepareToRepare => do
    let maxreg ← d.maxreg.doReadLog cfg z d.maxreg.maxSeenTsp
    pure (z, { d with step, maxreg })
  | .wTryRepare => do
    let maxreg ← d.maxreg.doReplicateAndReadNotifs cfg z d.maxreg.maxEntry
    pure (z, { d with step, maxreg })
  | .wReadToWrite => some (z, { d with step, maxreg := d.maxreg.doReadTs z })
  | .rReading => some (z, { d with step, previousTs := d.mTs, maxreg := d.maxreg.doRead z })
  | .rTryNotifyWriter => do
    let maxreg ← d.maxreg.doNotifyAndReadTs cfg z d.maxreg.maxEntry
    pure (z, { d with step, maxreg })
  | .replicateAsVerified => do
    let z := z.setTsp d.maxreg.maxEntry (validateTsp (z.tspOf d.maxreg.maxEntry))
    let maxreg ← d.maxreg.doReplicate cfg z d.maxreg.maxEntry
    pure (z, { d with step, maxreg })
  | .writeTsAsVerified =>
    let z := z.setTsp .write (validateTsp (z.tspOf .write))
    some (z, { d with step, maxreg := d.maxreg.doWriteTsAndIn z })
  | .writeAsVerified => do
    let z := z.setTsp .write (validateTsp (z.tspOf .write))
    let maxreg ← d.maxreg.doWrite cfg z c d.logId
    pure (z, { d with step, maxreg })
  | .linearized => some (z, { d with step })
  | .done => some (z, { d with step })

/-- `transitionTo`, up to stepping forward. -/
def enter (z : Local) (d : OopsDataFuture) (step : DataStep) : Option (Local × OopsDataFuture) :=
  if step = .wTryOptimisticTs ∧ (cfg.guessTs = false ∨
      (2 * cfg.numTsp ≤ cfg.numClients ∧ (d.maxreg.getMyTsp cfg).getD 1 = 0)) then
    begin cfg c z d .wReadToWrite
  else begin cfg c z d step

def doWrite (z : Local) (d : OopsDataFuture) (logId : ℕ) : Option (Local × OopsDataFuture) :=
  enter cfg c z { d with logId } .wTryOptimisticTs

def doRead (z : Local) (d : OopsDataFuture) : Option (Local × OopsDataFuture) :=
  enter cfg c z { d with seen := fun _ => none } .rReading

/-- Going on to a step. -/
def calls (z : Local) (d : OopsDataFuture) (step : DataStep) :
    Option (Outcome × Local × OopsDataFuture) :=
  (enter cfg c z d step).map (.calls, ·)

/-- Going on to a step with a new tsp. -/
def callsAnew (z : Local) (d : OopsDataFuture) (step : DataStep) :
    Option (Outcome × Local × OopsDataFuture) :=
  (newTsp cfg c z d true).bind fun z => calls cfg c z d step

/-- Done, or only linearized yet. -/
def callsEnd (z : Local) (d : OopsDataFuture) : Option (Outcome × Local × OopsDataFuture) :=
  calls cfg c z d (if d.maxreg.isDone then .done else .linearized)

/-- What is done with the greatest tsp a read has seen. -/
def afterRead (z : Local) (d : OopsDataFuture) : Option (Outcome × Local × OopsDataFuture) :=
  let tsp := d.maxreg.maxSeenTsp
  let d := { d with mTs := tsp }
  if isVerified tsp then calls cfg c z d .replicateAsVerified
  else if tsp = d.previousTs then calls cfg c z d .rTryNotifyWriter
  else do
    let k ← cfg.extractClientIdx tsp
    if k < cfg.numClients then
      match d.seen k with
      | some old => calls cfg c z { d with mTs := old } .linearized
      | none => calls cfg c z { d with seen := put d.seen k (some tsp) } .rReading
    else none

/-- What follows a step once the register is linearized. -/
def follow (z : Local) (d : OopsDataFuture) : Option (Outcome × Local × OopsDataFuture) :=
  match d.step with
  | .wTryOptimisticTs =>
    let tsp := d.maxreg.maxSeenTsp
    let d := { d with mTs := tsp }
    if tsp ≤ validateTsp (z.tspOf .write) then calls cfg c z d .writeTsAsVerified
    else if d.maxreg.getMinTsp cfg ≤ z.tspOf .write then calls cfg c z d .wPrepareToRepare
    else if d.maxreg.getMyMinTsp cfg ≤ z.tspOf .write then calls cfg c z d .wTryRepare
    else callsAnew cfg c z d .writeTsAsVerified
  | .wPrepareToRepare => calls cfg c z d .wTryRepare
  | .wTryRepare =>
    if d.maxreg.notified cfg z then callsEnd cfg c z d
    else callsAnew cfg c z d .writeTsAsVerified
  | .wReadToWrite => callsAnew cfg c z { d with mTs := d.maxreg.maxSeenTsp } .writeAsVerified
  | .rTryNotifyWriter =>
    let tsp := d.maxreg.maxSeenTsp
    let d := { d with mTs := tsp }
    if tsp = d.previousTs then
      (enter cfg c z d .replicateAsVerified).map (.callsFirst, ·)
    else afterRead cfg c z d
  | .rReading => afterRead cfg c z d
  | .replicateAsVerified | .writeTsAsVerified | .writeAsVerified => callsEnd cfg c z d
  | .linearized => if d.maxreg.isDone then calls cfg c z d .done else some (.returns true, z, d)
  | .done => some (.returns true, z, d)

/-- Stepping forward, up to the calls of itself. -/
def tryStepForward (z : Local) (d : OopsDataFuture) : Option (Outcome × Local × OopsDataFuture) :=
  (d.maxreg.tryStepForward cfg c z).bind fun (progress, z, maxreg) =>
    let d := { d with maxreg }
    if !progress then some (.returns false, z, d)
    else if !maxreg.isLinearized || (d.step = .linearized && !maxreg.isDone) then
      some (.returns true, z, d)
    else follow cfg c z d

end OopsDataFuture

end DiscoSkip.SwarmKv
