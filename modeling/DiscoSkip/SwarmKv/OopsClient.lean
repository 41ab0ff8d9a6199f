import DiscoSkip.Lib.Machine
import DiscoSkip.SwarmKv.OopsDataFuture

/-!
# The clients and the servers of swarm-kv

Clients insert, update and read key/value pairs, by the futures they have
(`OopsFuture`). They post requests to the servers; those of one client to one server
take effect in turn, each at once on the memory of the server and that of the future.
Then they are there to be polled, in any order, and what is polled lets its future be
stepped forward.

A client is a single thread, which is in at most one call. A call goes on step by step
(`run`), each of which is one of the calls that `OopsDataFuture.tryStepForward` makes of
itself; requests may take effect in between.

What is left out:

* the index: an update and a read start once the id of their key is known, and an insert
  is done when its key/value pair is;
* what the pointer cache forgets, and when: it may forget any key at any time;
* calls that throw, which are no steps.
-/

namespace DiscoSkip.SwarmKv

open Lib

structure Server where
  kv : ℕ → KV
  tsps : ℕ → ℕ → ℕ
  log : LogAddr → KV
  notif : LogAddr → ℕ

/-- The step of a future. -/
inductive OopsStep
  | insertData
  | readData
  | updateData
  | linearized
  | done
  deriving DecidableEq

/-- A future, with its memory, what it posted to each server that took effect and was
    not polled, and if something was polled. -/
structure OopsFuture where
  step : OopsStep
  kvId : ℕ
  data : OopsDataFuture
  entry : Ref → LogEntry
  completed : ℕ → ℕ
  progress : Bool

/-- The call a client is in, of a future, with the calls that fall through once it
    returns. -/
structure Call where
  future : ℕ
  /-- The call is not the one that started the operation. -/
  ticked : Bool
  progress : Bool
  falls : ℕ

structure OopsState where
  clock : Clock
  nextLogId : ℕ
  nextKvId : ℕ
  /-- The pointer cache: the tsp of a key/value id. -/
  pointerCache : ℕ → Option ℕ
  call : Option Call

structure State where
  server : ℕ → Server
  client : ℕ → OopsState
  future : ℕ → ℕ → OopsFuture
  /-- What a client has posted to a server, by its futures. -/
  queue : ℕ → ℕ → List (ℕ × Request)

inductive Action
  | initClock (c : ℕ)
  | insert (c f : ℕ) (d : Data)
  | update (c f kv : ℕ) (d : Data)
  | read (c f kv : ℕ)
  /-- The call goes on. -/
  | run (c : ℕ)
  /-- A request takes effect. -/
  | exec (c s : ℕ)
  | poll (c s f : ℕ)
  | tick (c f : ℕ)
  /-- The pointer cache forgets a key. -/
  | forget (c kv : ℕ)
  deriving DecidableEq

namespace Server

variable (cfg : Layout) (c : ℕ)

/-- A request takes effect on a server and on the memory of a future. -/
def exec (v : Server) (entry : Ref → LogEntry) (s : ℕ) : Op → Server × (Ref → LogEntry)
  | .readKv kv =>
    (v, put entry (.read s)
      { entry (.read s) with kv := v.kv kv, tsps := v.tsps kv })
  | .readTsps kv => (v, put entry (.read s) { entry (.read s) with tsps := v.tsps kv })
  | .readLog log => (v, put entry (.read s) { entry (.read s) with kv := v.log log })
  | .readNotif log =>
    (v, put entry (.read s) { entry (.read s) with notif := v.notif log })
  | .casNotif log =>
    ({ v with notif := if v.notif log = 0 then put v.notif log 1 else v.notif },
      put entry (.read s) { entry (.read s) with notif := v.notif log })
  | .cas kv expected swap =>
    let old := v.tsps kv (cfg.tspSlot c)
    ({ v with
        tsps := if old = expected then
            put v.tsps kv (put (v.tsps kv) (cfg.tspSlot c) swap)
          else v.tsps },
      put entry (.read s) { entry (.read s) with fromTsp := old })
  | .writeLog log src => ({ v with log := put v.log log (entry src).kv }, entry)
  | .writeKv kv src => ({ v with kv := put v.kv kv (entry src).kv }, entry)

end Server

namespace OopsFuture

variable (cfg : Layout) (c : ℕ)

/-- The entry of a write, before it has a timestamp. -/
def prepareToWrite (x : OopsFuture) (d : Data) (logId : ℕ) : Option OopsFuture :=
  (makeTsp 0 logId (cfg.procId c) false).map fun tsp =>
    let kv : KV := ⟨tsp, cfg.hashOf (filterLogIdAndClientProcId tsp) d, d⟩
    { x with entry := put x.entry .write { x.entry .write with kv } }

/-- A request took effect, with this on the memory. -/
def landed (x : OopsFuture) (s : ℕ) (entry : Ref → LogEntry) (signaled : Bool) : OopsFuture :=
  { x with
    entry
    completed := if signaled then put x.completed s (x.completed s + 1) else x.completed }

/-- A completion was polled. -/
def polled (x : OopsFuture) (s : ℕ) : OopsFuture :=
  let r := x.data.maxreg
  { x with
    completed := put x.completed s (x.completed s - 1)
    progress := true
    data := { x.data with
      maxreg := r.setReg s { r.reg s with toPoll := (r.reg s).toPoll - 1 } } }

end OopsFuture

namespace State

variable (cfg : Layout) (t : State)

def setClient (c : ℕ) (k : OopsState) : State :=
  { t with client := put t.client c k }

def setFuture (c f : ℕ) (x : OopsFuture) : State :=
  { t with future := put t.future c (put (t.future c) f x) }

/-- The requests of a future are posted. -/
def postAll (c f : ℕ) (posted : List (ℕ × Request)) : State :=
  { t with
    queue := put t.queue c fun s =>
      t.queue c s ++ (posted.filter (·.1 = s)).map fun q => (f, q.2) }

/-- What a call of a future works on. -/
def localOf (c f : ℕ) : Local := ⟨(t.client c).clock, (t.future c f).entry, []⟩

/-- The state after a part of a call, which goes on as `call`. -/
def setLocal (c f : ℕ) (z : Local) (d : OopsDataFuture) (call : Option Call) : State :=
  ((t.setClient c { t.client c with clock := z.clock, call }).setFuture c f
    { t.future c f with entry := z.entry, data := d }).postAll c f z.posted

/-- An operation may be started. -/
def isFree (c f : ℕ) : Bool :=
  (t.client c).call.isNone && c < cfg.numClients && f < cfg.asyncParallelism &&
    (t.future c f).step = .done

/-- A write is started; the tsp in the pointer cache is given to `forKV`. -/
def startWrite (c f kv : ℕ) (d : Data) (step : OopsStep) (cached : Option ℕ) : Option State :=
  let k := t.client c
  if t.isFree cfg c f ∧ kv < cfg.keysPerServer then
    ((t.future c f).prepareToWrite cfg c d k.nextLogId).bind fun x =>
      let t := (t.setClient c { k with nextLogId := k.nextLogId + 1 }).setFuture c f
        { x with step, kvId := kv }
      ((x.data.forKV cfg kv cached).doWrite cfg c (t.localOf c f) k.nextLogId).map fun (z, d) =>
        t.setLocal c f z d (some ⟨f, false, false, 0⟩)
  else none

def startRead (c f kv : ℕ) : Option State :=
  if t.isFree cfg c f ∧ kv < cfg.keysPerServer then
    let x := t.future c f
    let t := t.setFuture c f { x with step := .readData, kvId := kv }
    ((x.data.forKV cfg kv ((t.client c).pointerCache kv)).doRead cfg c (t.localOf c f)).map
      fun (z, d) => t.setLocal c f z d (some ⟨f, false, false, 0⟩)
  else none

/-- What a future is told by its call that returned: with progress, it may be linearized
    or done, with its tsp put into the pointer cache. -/
def returned (c f : ℕ) (told : Bool) : State :=
  let t := t.setClient c { t.client c with call := none }
  let k := t.client c
  let x := t.future c f
  let my := (x.data.maxreg.getMyTsp cfg).getD 0
  if !told then t
  else
    match x.step with
    | .insertData => if x.data.isDone then t.setFuture c f { x with step := .done } else t
    | .readData | .updateData =>
      if x.data.isDone then
        (t.setClient c { k with
          pointerCache := put k.pointerCache x.kvId (some my) }).setFuture c f
            { x with step := .done }
      else if x.data.isLinearized then
        (t.setClient c { k with
          pointerCache := put k.pointerCache x.kvId (some (validateTsp my)) }).setFuture
            c f { x with step := .linearized }
      else t
    | .linearized => if x.data.isDone then t.setFuture c f { x with step := .done } else t
    | .done => t

/-- A call goes on, by its outcome. -/
def runCall (c : ℕ) (call : Call) : Option State :=
  let f := call.future
  (((t.future c f).data.tryStepForward cfg c (t.localOf c f))).bind fun
    | (.calls, z, d) => some (t.setLocal c f z d (some { call with progress := true }))
    | (.callsFirst, z, d) =>
      some (t.setLocal c f z d (some { call with progress := true, falls := call.falls + 1 }))
    | (.returns b, z, d) =>
      match call.falls with
      | 0 => some ((t.setLocal c f z d none).returned cfg c f (call.ticked && (call.progress || b)))
      | n + 1 => (d.afterRead cfg c z).map fun (_, z, d) =>
          t.setLocal c f z d (some { call with falls := n })

/-- A request takes effect. -/
def execute (c s : ℕ) : Option State :=
  match t.queue c s with
  | [] => none
  | (f, req) :: rest =>
    let x := t.future c f
    let (v, entry) := (t.server s).exec cfg c x.entry s req.op
    some { (t.setFuture c f (x.landed s entry req.signaled)) with
      server := put t.server s v
      queue := put t.queue c (put (t.queue c) s rest) }

/-- A completion is polled. -/
def poll (c s f : ℕ) : Option State :=
  if (t.client c).call.isNone ∧ 0 < (t.future c f).completed s then
    some (t.setFuture c f ((t.future c f).polled s))
  else none

end State

def step (cfg : Layout) (t : State) : Action → Option State
  | .initClock c =>
    let k := t.client c
    if k.call.isNone ∧ k.clock.tsTimeOffset = none then
      some (t.setClient c { k with clock := k.clock.initClock (cfg.steady c) })
    else none
  | .insert c f d =>
    let k := t.client c
    (t.setClient c { k with nextKvId := k.nextKvId + 1 }).startWrite cfg c f k.nextKvId d
      .insertData none
  | .update c f kv d => t.startWrite cfg c f kv d .updateData ((t.client c).pointerCache kv)
  | .read c f kv => t.startRead cfg c f kv
  | .run c => (t.client c).call.bind (t.runCall cfg c)
  | .exec c s => t.execute cfg c s
  | .poll c s f => t.poll c s f
  | .tick c f =>
    let x := t.future c f
    if (t.client c).call.isNone ∧ x.progress then
      some ((t.setClient c { t.client c with call := some ⟨f, true, false, 0⟩ }).setFuture c f
        { x with progress := false })
    else none
  | .forget c kv =>
    let k := t.client c
    some (t.setClient c { k with pointerCache := put k.pointerCache kv none })

def zeroEntry : LogEntry := ⟨0, 0, ⟨0, 0, ⟨0, 0⟩⟩, fun _ => 0⟩

/-- The memory of all is zero at first. The events of a run are its actions, with the
    states they are taken in. -/
def machine (cfg : Layout) : Machine State Action (Action × State) where
  init :=
    { server _ := ⟨fun _ => zeroEntry.kv, fun _ _ => 0, fun _ => zeroEntry.kv, fun _ => 0⟩
      client _ := ⟨.new, 0, 0, fun _ => none, none⟩
      future _ _ := ⟨.done, 0, .new, fun _ => zeroEntry, fun _ => 0, false⟩
      queue _ _ := [] }
  step t a := (step cfg t a).map ((a, t), ·)

/-- Requests of a client take effect on some servers, are polled from some, and a future is
    stepped forward. -/
def round (c f : ℕ) (execs polls : List ℕ) (runs : ℕ) : List Action :=
  execs.map (.exec c) ++ polls.map (.poll c · f) ++ .tick c f :: List.replicate runs (.run c)

end DiscoSkip.SwarmKv
