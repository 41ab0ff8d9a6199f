import Mathlib.Logic.Function.Basic
import DiscoSkip.Race

/-!
# The index of swarm-kv

A server holds a table of buckets of six entries. A key has two groups of two
buckets in the table of one server, by its hash: each a bucket of its own, and one
that overflows into a bucket shared with the neighbouring group. A search reads the
24 entries of both groups into a buffer, and then takes from it the values whose
checksum is that of the key, and a slot that is free, of the group with more free
slots.
-/

namespace DiscoSkip.SwarmKv

open Race

/-- The hash of a key: 16 bytes, the first one the lowest. -/
abbrev HashedKey := BitVec 128

namespace HashedKey

def byte (h : HashedKey) (i : ℕ) : BitVec 8 := h.extractLsb' (8 * i) 8

/-- One of the two 64-bit words. -/
def word (h : HashedKey) (i : ℕ) : ℕ := (h.extractLsb' (64 * i) 64).toNat

def checksum (h : HashedKey) : BitVec 8 := h.byte 0 ^^^ h.byte 7 ^^^ h.byte 8 ^^^ h.byte 15

end HashedKey

/-- The servers, and the size of their tables. -/
structure IndexConfig where
  numServers : ℕ
  bucketBits : ℕ

/-- A slot of the table of a server. -/
structure Addr where
  server : ℕ
  bucket : ℕ
  entry : ℕ
  deriving DecidableEq

/-- A place in the buffer of a search: of a group, in the bucket of its lower or
    higher location. -/
structure Place where
  group : Bool
  side : Bool
  entry : ℕ
  deriving DecidableEq

/-- The tables of all servers. -/
abbrev Table := Addr → BucketEntry

/-- What a compare-and-swap of an insert expects: `0`. -/
def free : BucketEntry := ⟨false, 0, 0⟩

section Groups

variable (cfg : IndexConfig) (h : HashedKey)

def mainServerIdx : ℕ := h.word 0 % cfg.numServers

/-- The ids of both buckets: the lowest bit tells which of the buckets of its group
    it is. -/
def bucketOffsets (group : Bool) : ℕ :=
  let mask := 2 ^ cfg.bucketBits - 1
  let id₀ := h.word 0 &&& mask
  let id₁ := h.word 1 % (mask - 1)
  if group then (if id₁ / 2 * 2 ≥ id₀ / 2 * 2 then id₁ + 2 else id₁) else id₀

def bucketSide (group : Bool) : Bool := bucketOffsets cfg h group % 2 = 1

/-- The slot that a place of the buffer is read from. -/
def addressOf (p : Place) : Addr where
  server := mainServerIdx cfg h
  bucket := bucketOffsets cfg h p.group / 2 * 3 + (if bucketSide cfg h p.group then 1 else 0) +
    (if p.side then 1 else 0)
  entry := p.entry

/-- The places, in the order they are gone through: the buckets of the key first, then
    those they overflow into. -/
def places : List Place :=
  [false, true].flatMap fun isOverflow => [false, true].flatMap fun g =>
    (List.range 6).map fun e => ⟨g, bucketSide cfg h g != isOverflow, e⟩

end Groups

/-- What a search finds. -/
structure IndexResult where
  matches_ : List ℕ
  nbFree : ℕ
  firstFree : Option Addr

/-- The loop over the entries: the number of free slots of each group with the first
    one, and the matches. -/
structure SearchLoop where
  groupFreeNb : Bool → ℕ
  firstFree : Bool → Option Addr
  matches_ : List ℕ

namespace SearchLoop

variable (cfg : IndexConfig) (h : HashedKey) (buffer : Place → BucketEntry)

def init : SearchLoop := ⟨fun _ => 0, fun _ => none, []⟩

/-- An entry is free, or it may match. -/
def visit (l : SearchLoop) (p : Place) : SearchLoop :=
  let entry := buffer p
  if !entry.used then
    { l with
      groupFreeNb := Function.update l.groupFreeNb p.group (l.groupFreeNb p.group + 1)
      firstFree :=
        if l.groupFreeNb p.group = 0 then
          Function.update l.firstFree p.group (some (addressOf cfg h p))
        else l.firstFree }
  else if entry.checksum = h.checksum then { l with matches_ := l.matches_ ++ [entry.getValue] }
  else l

def run : SearchLoop := (places cfg h).foldl (visit cfg h buffer) init

end SearchLoop

/-- What a search takes from the buffer. -/
def searchBuffer (cfg : IndexConfig) (h : HashedKey) (buffer : Place → BucketEntry) : IndexResult :=
  let l := SearchLoop.run cfg h buffer
  { matches_ := l.matches_
    nbFree := l.groupFreeNb false + l.groupFreeNb true
    firstFree := l.firstFree (l.groupFreeNb false < l.groupFreeNb true) }

/-- A search of a table that does not change. -/
def searchTable (cfg : IndexConfig) (h : HashedKey) (table : Table) : IndexResult :=
  searchBuffer cfg h fun p => table (addressOf cfg h p)

section Loop

variable {cfg : IndexConfig} {h : HashedKey} {buffer : Place → BucketEntry}

/-- The values of the entries that match, in the order of their places. -/
theorem searchBuffer_matches : (searchBuffer cfg h buffer).matches_ =
    ((places cfg h).filter fun p => (buffer p).used && (buffer p).checksum == h.checksum).map
      fun p => (buffer p).getValue := by
  rw [searchBuffer, SearchLoop.run]
  suffices hs : ∀ (ps : List Place) (l : SearchLoop),
      (ps.foldl (SearchLoop.visit cfg h buffer) l).matches_ = l.matches_ ++
        (ps.filter fun p => (buffer p).used && (buffer p).checksum == h.checksum).map
          fun p => (buffer p).getValue from hs _ _
  intro ps
  induction ps with
  | nil => intro l; simp
  | cons p ps ih =>
    intro l
    rw [List.foldl_cons, ih, SearchLoop.visit]
    by_cases hu : (buffer p).used <;> by_cases hc : (buffer p).checksum = h.checksum <;>
      simp [hu, hc]

/-- The slot taken for free is one of those read. -/
theorem searchBuffer_firstFree {a : Addr} (ha : (searchBuffer cfg h buffer).firstFree = some a) :
    ∃ p ∈ places cfg h, a = addressOf cfg h p := by
  suffices hs : ∀ (ps : List Place) (l : SearchLoop),
      (∀ g a, l.firstFree g = some a → ∃ p ∈ places cfg h, a = addressOf cfg h p) →
      (∀ p ∈ ps, p ∈ places cfg h) → ∀ g a,
        (ps.foldl (SearchLoop.visit cfg h buffer) l).firstFree g = some a →
          ∃ p ∈ places cfg h, a = addressOf cfg h p from
    hs _ _ (fun g a h => absurd h (by simp [SearchLoop.init])) (fun _ hp => hp) _ a ha
  intro ps
  induction ps with
  | nil => exact fun l hl _ => hl
  | cons p ps ih =>
    intro l hl hps
    refine ih _ (fun g a hga => ?_) fun q hq => hps q (List.mem_cons_of_mem _ hq)
    rw [SearchLoop.visit] at hga
    split at hga
    · dsimp only at hga
      split at hga
      · by_cases hg : g = p.group
        · subst hg
          rw [Function.update_self, Option.some.injEq] at hga
          exact ⟨p, hps p List.mem_cons_self, hga.symm⟩
        · rw [Function.update_of_ne hg] at hga
          exact hl g a hga
      · exact hl g a hga
    · split at hga <;> exact hl g a hga

/-- An entry of a key in one of its slots is found by a search. -/
theorem mem_searchTable {table : Table} {p : Place} (hp : p ∈ places cfg h) {v : ℕ}
    (hv : v < 2 ^ 48) (he : table (addressOf cfg h p) = .of h.checksum v) :
    v ∈ (searchTable cfg h table).matches_ := by
  rw [searchTable, searchBuffer_matches]
  refine List.mem_map.2 ⟨p, List.mem_filter.2 ⟨hp, ?_⟩, ?_⟩
  · rw [he]
    simp [BucketEntry.of]
  · rw [he, BucketEntry.getValue_of _ hv]

end Loop

end DiscoSkip.SwarmKv
