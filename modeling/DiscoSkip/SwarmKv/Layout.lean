import Mathlib.Order.Monotone.Defs
import DiscoSkip.SwarmKv.Tsp

/-!
# The memory of swarm-kv

A server keeps for every key/value id a *place*: the key/value pair of some write,
in place, and the array of tsps, a slot of which a client swaps. Next to them are the
log entries of the clients, one for every write: a notification word, and the
key/value pair.

A future of a client has memory of its own, of one log entry with an array of tsps
for what it writes, and one for each server for what it reads (`Ref`).
-/

namespace DiscoSkip.SwarmKv

/-- The bytes of a key and of a value. -/
structure Data where
  key : ℕ
  value : ℕ
  deriving DecidableEq

/-- A key/value pair, with its tsp and its checksum. -/
structure KV where
  inPlaceTsp : ℕ
  chsum : ℕ
  data : Data

/-- A log entry in the memory of a client. What is swapped out goes to `fromTsp`. -/
structure LogEntry where
  notif : ℕ
  fromTsp : ℕ
  kv : KV
  tsps : ℕ → ℕ

structure Layout where
  inPlace : Bool
  numClients : ℕ
  numServers : ℕ
  majority : ℕ
  numTsp : ℕ
  guessTs : Bool
  serverLogsPerClient : ℕ
  keysPerServer : ℕ
  asyncParallelism : ℕ
  /-- Servers below it are dead. -/
  deadServers : ℕ
  /-- The hash of a log entry: of its id, and its key and value. -/
  hashOf : ℕ → Data → ℕ
  /-- The main server of a key, by its key/value id. -/
  mainServerIdx : ℕ → ℕ
  /-- The readings of the steady clock of a client. -/
  steady : ℕ → ℕ → ℕ
  majority_pos : 0 < majority
  numTsp_pos : 0 < numTsp
  mainServerIdx_lt : ∀ kv, mainServerIdx kv < numServers
  steady_mono : ∀ c, Monotone (steady c)

/-- A log entry of a future: the one it writes, or the one it reads the server `s` to. -/
inductive Ref
  | write
  | read (s : ℕ)
  deriving DecidableEq

/-- The log entry of a client. -/
@[ext]
structure LogAddr where
  client : ℕ
  log : ℕ

-- the derived instance would cast along equations between the ids, which are slow to evaluate
instance : DecidableEq LogAddr := fun _ _ => decidable_of_iff _ LogAddr.ext_iff.symm

namespace Layout

variable (cfg : Layout)

def firstClientId : ℕ := cfg.numServers + 1

def procId (c : ℕ) : ℕ := c + cfg.firstClientId

def extractClientIdx (tsp : ℕ) : Option ℕ :=
  let p := extractClientProcId tsp
  if cfg.firstClientId ≤ p then some (p - cfg.firstClientId) else none

/-- The log entry with the ids; there is none out of range. -/
def getServerLogAddress (client log : ℕ) : Option LogAddr :=
  if client < cfg.numClients ∧ log < cfg.serverLogsPerClient then some ⟨client, log⟩ else none

/-- The log entry that a tsp points to. -/
def logAddressOf (tsp : ℕ) : Option LogAddr :=
  (cfg.extractClientIdx tsp).bind fun client => cfg.getServerLogAddress client (extractLogId tsp)

/-- The slot of a client. -/
def tspSlot (c : ℕ) : ℕ := c % cfg.numTsp

def maxTspOf (tsps : ℕ → ℕ) : ℕ := (List.range cfg.numTsp).foldl (fun tsp i => max tsp (tsps i)) 0

def hashOfKv (kv : KV) : ℕ := cfg.hashOf (filterLogIdAndClientProcId kv.inPlaceTsp) kv.data

end Layout

end DiscoSkip.SwarmKv
