import DiscoSkip.SwarmKv.Tsp

/-!
# The clocks of swarm-kv

A client draws its timestamps from a steady clock, of which it only knows that its
readings do not decrease, by an offset it gives way on: seeing the timestamp of another
client (`syncClock`), it moves its own ahead of it. Before `initClock`, there is no
offset, and the timestamp is `0`.
-/

namespace DiscoSkip.SwarmKv

def minRtt : ℕ := 1400

def tsGranularity : ℕ := minRtt / 3

def minTsPerRtt : ℕ := minRtt / tsGranularity

/-- Subtraction of 64-bit words. -/
def sub64 (a b : ℕ) : ℕ := (a + (2 ^ 64 - b % 2 ^ 64)) % 2 ^ 64

/-- The clock of a client, with how often it has read the steady clock. -/
structure Clock where
  tsTimeOffset : Option ℕ
  maxEverSeenTs : ℕ
  reads : ℕ

namespace Clock

variable (steady : ℕ → ℕ)

def new : Clock := ⟨none, 0, 0⟩

/-- The reading of the steady clock that comes next. -/
def read (k : Clock) : Clock := { k with reads := k.reads + 1 }

def newTs (k : Clock) : Option (ℕ × Clock) :=
  let now := steady k.reads
  let time := match k.tsTimeOffset with
    | some offset => sub64 now offset
    | none => 0
  let ts := time / tsGranularity
  if ts < k.maxEverSeenTs ∨ ts > tsMask then none else some (ts, k.read)

def syncClock (k : Clock) (tsp : ℕ) : Clock :=
  match k.tsTimeOffset with
  | none => k
  | some offset =>
    let ts := extractTs tsp
    if ts ≤ k.maxEverSeenTs then k
    else
      let maxOffset := sub64 (steady k.reads) ((ts + minTsPerRtt) * tsGranularity)
      if offset ≤ maxOffset then { k.read with maxEverSeenTs := ts }
      else { k.read with maxEverSeenTs := ts, tsTimeOffset := some maxOffset }

/-- `syncClock(0, true)`. -/
def initClock (k : Clock) : Clock :=
  { k.read with
    maxEverSeenTs := 0
    tsTimeOffset := some (sub64 (steady k.reads) (minTsPerRtt * tsGranularity)) }

end Clock

end DiscoSkip.SwarmKv
