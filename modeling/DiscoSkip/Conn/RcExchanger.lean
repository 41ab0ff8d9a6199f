import DiscoSkip.Conn.RemoteConnection
import DiscoSkip.Lib.Machine
import Mathlib.Data.List.Basic
import Mathlib.Logic.Function.Basic

/-!
# Connecting the processes

All the processes connect their queue pairs to each other over a registry, a memcached
server: each of them announces its queue pairs there, waits until the others have done so,
and connects to what it finds (`RcConnectionExchanger`). The registry is also how they wait
for each other later, before the clients run their workload and before anybody leaves.

The keys are used again when the processes are started again, so each of them is removed
when it is not needed any more. Setting a key that is still there is an error.

With `--ml`, `disco-skip` has a key for each of its clients but the first, the tracker: the
workers set it when they are done, and the tracker asks for it until all of them are. Nobody
removes it.

A process is what `main` has it do with the registry, one request after the other
(`Op`); the others are at work between any two of them.
-/

namespace DiscoSkip.Exchange

/-- What memcached holds. -/
abbrev Memc := String → Option String

namespace MemoryStore

/-- The checks that `set` makes before it sets the key. -/
def setCheck (memc : Memc) (key value : String) : Except String Unit :=
  if key = "" ∨ value = "" then .error "Empty key or value"
  else if (memc key).isSome then
    .error ("Trying to set key `" ++ key ++ "` that already exists")
  else .ok ()

/-- `memcached_set` -/
def set (memc : Memc) (key value : String) : Memc := Function.update memc key (some value)

def get (memc : Memc) (key : String) : Except String (Option String) :=
  if key = "" then .error "Empty key" else .ok (memc key)

def remove (memc : Memc) (key : String) : Except String Memc :=
  if key = "" then .error "Empty key" else .ok (Function.update memc key none)

end MemoryStore

/-! ## The exchanger -/

/-- What a process says when it is ready. -/
inductive Reason
  | prepared
  | connected
  | initialized
  | finished
  deriving DecidableEq, Repr

def Reason.str : Reason → String
  | .prepared => "prepared"
  | .connected => "connected"
  | .initialized => "initialized"
  | .finished => "finished"

/-- The exchangers of a process: that of `main`, and that of the index. -/
inductive Topic
  | qp
  | race
  deriving DecidableEq, Repr

/-- What the keys of the exchanger start with. -/
def Topic.str : Topic → String
  | .qp => "qp"
  | .race => "default-race-qp"

structure RcConnectionExchanger where
  my_id : ℕ
  remote_ids : List ℕ
  my_role_str : String
  remote_roles_str : String

namespace RcConnectionExchanger

variable (ce : RcConnectionExchanger) (topic : String) (proc_id : ℕ) (reason : String)

/-- `min_remote` is the least of two iterators, which is the first id. -/
def checkIds : Except String Unit :=
  match ce.remote_ids with
  | [] => .error "No remote Ids exist!"
  | id :: _ => if min id ce.my_id < 1 then .error "Ids should be positive!" else .ok ()

/-- The key under which the queue pair for `proc_id` is announced. -/
def announceName : String :=
  topic ++ "-" ++ toString ce.my_id ++ ce.my_role_str ++ "-for-" ++ toString proc_id ++
    ce.remote_roles_str

/-- The key under which `proc_id` announces its queue pair for this process. -/
def connectName : String :=
  topic ++ "-" ++ toString proc_id ++ ce.remote_roles_str ++ "-for-" ++ toString ce.my_id ++
    ce.my_role_str

/-- The key under which this process says that it is ready. -/
def readyName : String :=
  topic ++ "-" ++ toString ce.my_id ++ ce.my_role_str ++ "-ready(" ++ reason ++ ")"

def packedReason : String := "ready(" ++ reason ++ ")"

/-- The key under which `proc_id` says that it is ready. -/
def waitName : String :=
  topic ++ "-" ++ toString proc_id ++ ce.remote_roles_str ++ "-" ++ packedReason reason

end RcConnectionExchanger

/-- The key under which a worker says that it is done. -/
def workerDoneName (w : ℕ) : String := "ml_worker_done_" ++ toString w

/-! ## What a process does -/

/-- A call of `main`, or of the constructors of the index, to an exchanger, and what the
    workload of `--ml` has a worker or the tracker ask the registry for. -/
inductive Method
  | construct
  | configureAll
  | announceAll
  | announceReady (reason : Reason)
  | waitReadyAll (reason : Reason)
  | unannounceReady (reason : Reason)
  | connectAll
  | unannounceAll
  | workerDone
  | awaitWorkers
  deriving DecidableEq, Repr

structure Call where
  topic : Topic
  method : Method
  deriving DecidableEq, Repr

/-- One step of a call. -/
inductive Op
  | construct (topic : Topic)
  | configure (topic : Topic) (proc_id : ℕ)
  | announce (topic : Topic) (proc_id : ℕ)
  | announceReady (topic : Topic) (reason : Reason)
  | waitReady (topic : Topic) (proc_id : ℕ) (reason : Reason)
  | unannounceReady (topic : Topic) (reason : Reason)
  | connect (topic : Topic) (proc_id : ℕ)
  | unannounce (topic : Topic) (proc_id : ℕ)
  | workerDone (global_thread_id : ℕ)
  /-- The tracker asks for workers until it has seen that one more is done. -/
  | awaitWorker (workers_done : ℕ)
  deriving DecidableEq, Repr

/-- The steps of a call: those for all are made for one id after the other. -/
def Call.ops (ids : Call → List ℕ) (c : Call) : List Op :=
  match c with
  | ⟨topic, .construct⟩ => [.construct topic]
  | ⟨topic, .configureAll⟩ => (ids c).map (.configure topic)
  | ⟨topic, .announceAll⟩ => (ids c).map (.announce topic)
  | ⟨topic, .announceReady reason⟩ => [.announceReady topic reason]
  | ⟨topic, .waitReadyAll reason⟩ => (ids c).map (.waitReady topic · reason)
  | ⟨topic, .unannounceReady reason⟩ => [.unannounceReady topic reason]
  | ⟨topic, .connectAll⟩ => (ids c).map (.connect topic)
  | ⟨topic, .unannounceAll⟩ => (ids c).map (.unannounce topic)
  | ⟨.qp, .workerDone⟩ => (ids c).map .workerDone
  | ⟨.qp, .awaitWorkers⟩ => (ids c).map .awaitWorker
  | ⟨.race, .workerDone⟩ | ⟨.race, .awaitWorkers⟩ => []

/-- The calls of `main` that connect the processes. -/
def connectCalls : List Call :=
  [⟨.qp, .construct⟩, ⟨.qp, .configureAll⟩, ⟨.qp, .announceAll⟩, ⟨.qp, .announceReady .prepared⟩,
    ⟨.qp, .waitReadyAll .prepared⟩, ⟨.qp, .unannounceReady .finished⟩, ⟨.qp, .connectAll⟩,
    ⟨.qp, .announceReady .connected⟩, ⟨.qp, .waitReadyAll .connected⟩, ⟨.qp, .unannounceAll⟩,
    ⟨.qp, .unannounceReady .prepared⟩]

/-- The calls that connect the index of a client to those of the servers, the same ones in
    `IndexClient` and in `ServerIndex`. -/
def indexCalls : List Call :=
  [⟨.race, .construct⟩, ⟨.race, .configureAll⟩, ⟨.race, .announceAll⟩,
    ⟨.race, .unannounceReady .connected⟩, ⟨.race, .announceReady .prepared⟩,
    ⟨.race, .waitReadyAll .prepared⟩, ⟨.race, .connectAll⟩, ⟨.race, .announceReady .connected⟩,
    ⟨.race, .waitReadyAll .connected⟩, ⟨.race, .unannounceAll⟩,
    ⟨.race, .unannounceReady .prepared⟩]

/-- The programs: `disco-skip` has no index. -/
inductive Program
  | discoSkip
  | swarmKv
  deriving DecidableEq, Repr

/-- What the workload asks the registry for, `run_ml_prog_tracker_workload` of `disco-skip`:
    there is a worker for the first call, or the tracker for the second one, or none, as it
    is without `--ml`. -/
def Program.workload : Program → List Call
  | .discoSkip => [⟨.qp, .workerDone⟩, ⟨.qp, .awaitWorkers⟩]
  | .swarmKv => []

/-- The calls after that: a client runs its workload before it says that it is finished, a
    server only waits for the others. -/
def Program.workCalls (P : Program) (is_client : Bool) : List Call :=
  ⟨.qp, .announceReady .initialized⟩ ::
    (if is_client then ⟨.qp, .waitReadyAll .initialized⟩ :: P.workload else []) ++
    [⟨.qp, .announceReady .finished⟩, ⟨.qp, .waitReadyAll .finished⟩,
      ⟨.qp, .unannounceReady .initialized⟩, ⟨.qp, .unannounceReady .connected⟩]

/-- The calls of a process, whether it is a client or a server. -/
def Program.calls (P : Program) (is_client : Bool) : List Call :=
  match P with
  | .discoSkip => connectCalls ++ P.workCalls is_client
  | .swarmKv => connectCalls ++ indexCalls ++ P.workCalls is_client

/-- A deployment of a program. -/
structure Deployment where
  program : Program
  num_servers : ℕ
  num_clients : ℕ
  /-- In which of their runs the processes are started with `--ml`. -/
  run_ml_workload : ℕ → Bool
  /-- What the queue pairs say of themselves: in every run of a process, that of an
      exchanger for another process. -/
  info : ℕ → Topic → ℕ → ℕ → RemoteConnectionInfo

namespace Deployment

variable (D : Deployment)

def calls (is_client : Bool) : List Call := D.program.calls is_client

def num_proc : ℕ := D.num_clients + D.num_servers

def isClient (p : ℕ) : Bool := D.num_servers < p

/-- The processes of the deployment. -/
def Proc (p : ℕ) : Prop := 1 ≤ p ∧ p ≤ D.num_proc

instance (p : ℕ) : Decidable (D.Proc p) := inferInstanceAs (Decidable (_ ∧ _))

/-- All are connected to all, but the index of a client to those of the servers. -/
def remote_ids (p : ℕ) : Topic → List ℕ
  | .qp => (List.range' 1 D.num_proc).filter (· ≠ p)
  | .race =>
    if D.isClient p then List.range' 1 D.num_servers
    else List.range' (D.num_servers + 1) D.num_clients

/-- No exchanger of the programs is given roles. -/
def exchanger (p : ℕ) (topic : Topic) : RcConnectionExchanger where
  my_id := p
  remote_ids := D.remote_ids p topic
  my_role_str := ""
  remote_roles_str := ""

/-- The number of a client, which is `0` for the tracker. -/
def global_thread_id (p : ℕ) : ℕ := p - D.num_servers - 1

/-- The ids that a process makes a call for, in a run. -/
def ids (p round : ℕ) (c : Call) : List ℕ :=
  match c.method with
  | .workerDone =>
    if D.run_ml_workload round ∧ D.global_thread_id p ≠ 0 then [D.global_thread_id p] else []
  | .awaitWorkers =>
    if D.run_ml_workload round ∧ D.global_thread_id p = 0 then List.range' 1 (D.num_clients - 1)
    else []
  | .construct | .configureAll | .announceAll | .announceReady _ | .waitReadyAll _
  | .unannounceReady _ | .connectAll | .unannounceAll => D.remote_ids p c.topic

/-- What a process does in a run, from its start to its end. -/
def script (p round : ℕ) : List Op := (D.calls (D.isClient p)).flatMap (Call.ops (D.ids p round))

end Deployment

/-- A queue pair of a process: it may be connected to another one, unless what it has read
    of that is undetermined. -/
inductive Rc
  | configured
  | connected (rc : Option RemoteConnectionInfo)
  deriving DecidableEq, Repr

/-- A process in one of its runs. -/
structure Process where
  /-- How often it has been started. -/
  round : ℕ
  /-- What it has yet to do. -/
  todo : List Op
  /-- Whether `set` has made its checks. -/
  checked : Bool
  /-- Its queue pairs. -/
  rcs : Topic → ℕ → Option Rc
  /-- The workers that the tracker has not seen to be done, in the order in which it asks for
      them. -/
  unseen : List ℕ
  /-- The message of the exception that it has thrown. -/
  error : Option String

/-- A process that has not been started. -/
def Process.init : Process where
  round := 0
  todo := []
  checked := false
  rcs _ _ := none
  unseen := []
  error := none

/-- A process that is started, after so many runs. -/
def Deployment.started (D : Deployment) (p round : ℕ) : Process := { Process.init with
  round := round + 1
  todo := D.script p (round + 1)
  unseen := D.ids p (round + 1) ⟨.qp, .awaitWorkers⟩ }

/-- What comes of a step. -/
inductive Outcome
  /-- It is done. -/
  | next (memc : Memc) (rcs : Topic → ℕ → Option Rc)
  /-- The first half of it is done. -/
  | checked
  /-- It has to be tried again. -/
  | retry
  /-- It is done, and the worker that was asked for is seen to be done. -/
  | seen (unseen : List ℕ)
  /-- The worker that was asked for is not done: the others are asked for first. -/
  | notSeen (unseen : List ℕ)
  | throws (msg : String)

/-- What comes of a `set`, depending on whether its checks have been made. -/
def Process.set (pr : Process) (memc : Memc) (key value : String) : Outcome :=
  if pr.checked then .next (MemoryStore.set memc key value) pr.rcs
  else
    match MemoryStore.setCheck memc key value with
    | .error msg => .throws msg
    | .ok _ => .checked

def Process.remove (pr : Process) (memc : Memc) (key : String) : Outcome :=
  match MemoryStore.remove memc key with
  | .error msg => .throws msg
  | .ok memc => .next memc pr.rcs

/-- The queue pair for a process in the table of the exchanger. -/
def Process.setRc (pr : Process) (topic : Topic) (q : ℕ) (rc : Rc) : Topic → ℕ → Option Rc :=
  fun t i => if t = topic ∧ i = q then some rc else pr.rcs t i

/-- That the queue pair has been configured is checked first. -/
def Process.ifConfigured (pr : Process) (topic : Topic) (proc_id : ℕ) (o : Outcome) : Outcome :=
  match pr.rcs topic proc_id with
  | none => .throws ("proc id " ++ toString proc_id ++ " hasn't been configured.")
  | some _ => o

/-- A step of the process `p`. -/
def Op.run (D : Deployment) (p : ℕ) (pr : Process) (memc : Memc) : Op → Outcome
  | .construct topic =>
    match (D.exchanger p topic).checkIds with
    | .error msg => .throws msg
    | .ok _ => .next memc pr.rcs
  | .configure topic proc_id =>
    if (pr.rcs topic proc_id).isSome then
      .throws ("proc id " ++ toString proc_id ++ " has already been configured.")
    else .next memc (pr.setRc topic proc_id .configured)
  | .announce topic proc_id =>
    pr.ifConfigured topic proc_id <|
      pr.set memc ((D.exchanger p topic).announceName topic.str proc_id)
        (D.info pr.round topic p proc_id).serialize
  | .announceReady topic reason =>
    pr.set memc ((D.exchanger p topic).readyName topic.str reason.str)
      ("ready(" ++ reason.str ++ ")")
  | .waitReady topic proc_id reason =>
    let key := (D.exchanger p topic).waitName topic.str proc_id reason.str
    let packed_reason := RcConnectionExchanger.packedReason reason.str
    match MemoryStore.get memc key with
    | .error msg => .throws msg
    | .ok none => .retry
    | .ok (some value) =>
      if value ≠ packed_reason then
        .throws ("Ready announcement of message `" ++ key ++
          "` does not contain the value `" ++ packed_reason ++ "`")
      else .next memc pr.rcs
  | .unannounceReady topic reason =>
    pr.remove memc ((D.exchanger p topic).readyName topic.str reason.str)
  | .connect topic proc_id =>
    let key := (D.exchanger p topic).connectName topic.str proc_id
    pr.ifConfigured topic proc_id <|
      match MemoryStore.get memc key with
      | .error msg => .throws msg
      | .ok none => .throws ("Cannot connect to remote qp " ++ key)
      | .ok (some ret_val) =>
        .next memc
          (pr.setRc topic proc_id (.connected (RemoteConnectionInfo.fromStr ret_val)))
  | .unannounce topic proc_id =>
    pr.ifConfigured topic proc_id <|
      pr.remove memc ((D.exchanger p topic).announceName topic.str proc_id)
  | .workerDone global_thread_id => pr.set memc (workerDoneName global_thread_id) "1"
  | .awaitWorker _ =>
    match pr.unseen with
    | [] => .next memc pr.rcs
    | w :: unseen =>
      match MemoryStore.get memc (workerDoneName w) with
      | .error msg => .throws msg
      | .ok none => .notSeen (unseen ++ [w])
      | .ok (some _) => .seen unseen

/-! ## All the processes -/

structure State where
  memc : Memc
  procs : ℕ → Process

/-- What may happen: a process is started, when it is not running, or makes a step. -/
inductive Action
  | start (p : ℕ)
  | step (p : ℕ)
  deriving DecidableEq, Repr

/-- What has happened. -/
inductive Event
  | started (p : ℕ)
  | checked (p : ℕ) (op : Op)
  | done (p : ℕ) (op : Op)
  | retried (p : ℕ) (op : Op)
  | threw (p : ℕ) (op : Op) (msg : String)
  deriving DecidableEq, Repr

namespace State

/-- The state with the process `p` as it is now. -/
def setProc (s : State) (p : ℕ) (pr : Process) : State :=
  { s with procs := Function.update s.procs p pr }

/-- A process that is not running is started. -/
def start (D : Deployment) (s : State) (p : ℕ) : Option (Event × State) :=
  let pr := s.procs p
  if D.Proc p ∧ pr.todo = [] ∧ pr.error = none then
    some (.started p, s.setProc p (D.started p pr.round))
  else none

/-- A process makes its next step, unless it has ended or thrown. -/
def step (D : Deployment) (s : State) (p : ℕ) : Option (Event × State) :=
  let pr := s.procs p
  match pr.error with
  | some _ => none
  | none =>
    match pr.todo with
    | [] => none
    | op :: todo =>
      some <| match op.run D p pr s.memc with
        | .next memc rcs =>
          (.done p op, { s with memc := memc }.setProc p
            { pr with todo := todo, checked := false, rcs := rcs })
        | .checked => (.checked p op, s.setProc p { pr with checked := true })
        | .retry => (.retried p op, s)
        | .seen unseen =>
          (.done p op, s.setProc p
            { pr with todo := todo, checked := false, unseen := unseen })
        | .notSeen unseen => (.retried p op, s.setProc p { pr with unseen := unseen })
        | .throws msg => (.threw p op msg, s.setProc p { pr with error := some msg })

end State

/-- The deployment on a registry. -/
def Deployment.machine (D : Deployment) (memc : Memc) : Lib.Machine State Action Event where
  init := ⟨memc, fun _ => .init⟩
  step s
    | .start p => s.start D p
    | .step p => s.step D p

/-- All actions are allowed. -/
def Any (_ : State) (_ : Action) : Prop := True

instance (s : State) (a : Action) : Decidable (Any s a) := .isTrue trivial

end DiscoSkip.Exchange
