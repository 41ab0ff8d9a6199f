import Mathlib.Logic.Function.Basic
import DiscoSkip.Lib.Loop
import DiscoSkip.Lib.Quorum
import DiscoSkip.Register

/-!
# The state of a client

What the futures of a client share: the layout of the deployment, the client's
index and quorum, its register cache, and the count of the RDMA operations it
has to poll for on every server.

A future does not talk to the servers itself: it *posts* work requests
(`Wr`), counting each of them twice, in its own counter for the server
(`ongoingPerServer`) and in that of the client (`toPollPerServer`). Posting is
always a loop over the slots of the quorum (`DsConf.postSlots`), some of which
it may skip. What a posted request returns is written, behind the client's
back, into the scratchpad of the future (`Scratch`).
-/

namespace DiscoSkip

open Function

/-- The layout, as set on the command line, with the two compile-time toggles
    of the register protocol. -/
structure Layout where
  numClients : ℕ
  numServers : ℕ
  asyncParallelism : ℕ
  numRegisters : ℕ
  maxRange : ℕ
  /-- `0` is for a majority of the servers. -/
  majority : ℕ
  /-- The toggle `DS_REG_CACHE_ENABLED`. -/
  regCacheEnabled : Bool
  /-- The toggle `DS_REG_WRITEBACK_ENABLED`. -/
  regWritebackEnabled : Bool
  deriving DecidableEq, Repr

/-- Six clients of three servers: the layout of the runs that are written out. -/
def Layout.threeServers (asyncParallelism : ℕ) (regCacheEnabled regWritebackEnabled : Bool) :
    Layout where
  numClients := 6
  numServers := 3
  asyncParallelism := asyncParallelism
  numRegisters := 16
  maxRange := 4
  majority := 0
  regCacheEnabled := regCacheEnabled
  regWritebackEnabled := regWritebackEnabled

def Layout.effectiveMajority (L : Layout) : ℕ :=
  if L.majority = 0 then L.numServers / 2 + 1 else L.majority

/-- The register cache: the last register known for a key, if it is valid. -/
abbrev Cache := ℕ → Option Register

def Cache.empty : Cache := fun _ => none

def Cache.put (ca : Cache) (k : ℕ) (reg : Register) : Cache := update ca k (some reg)

def Cache.get (ca : Cache) (k : ℕ) : Option Register := ca k

/-- The part of the state of a client which its construction fixes. -/
structure DsConf where
  layout : Layout
  /-- The index of the client, narrowed to 8 bits. -/
  clientIdx : UInt8
  deriving DecidableEq, Repr

/-- The configuration of the `c`-th client, i.e., of the process
    `firstClientId + c`. -/
def DsConf.ofClient (L : Layout) (c : ℕ) : DsConf := ⟨L, UInt8.ofNat c⟩

namespace DsConf

variable (d : DsConf)

def quorum : ℕ := d.layout.effectiveMajority

/-- The server of the slot `i` of the quorum. -/
def quorumIndices (i : ℕ) : ℕ := (d.clientIdx.toNat + i) % d.layout.numServers

/-- The register the client writes the value `v` with, under the sequence
    number `s`. -/
def register (s : UInt16) (v : UInt64) : Register :=
  .ofFields s d.clientIdx.toUInt16 v.toUInt32

end DsConf

/-- The part of the state of a client which changes. -/
structure DsState where
  cache : Cache := Cache.empty
  toPollPerServer : ℕ → ℤ := fun _ => 0

/-- An RDMA operation on a server. -/
inductive Rdma
  /-- Read the cell of a key, into the read buffer of the server. -/
  | read (key : ℕ)
  /-- CAS the cell of a key; the value found goes into the swap buffer of the server. -/
  | cas (key : ℕ) (expected swap : Register)
  /-- Read `len` bytes, the cells of the keys from `key` on, into the bulk slice of the server. -/
  | bulk (key len : ℕ)
  deriving DecidableEq, Repr

/-- A posted work request: the server, the id under which its completion is
    reported, and the operation. -/
structure Wr where
  server : ℕ
  wrId : ℕ
  op : Rdma
  deriving DecidableEq, Repr

/-- The scratchpad of a future, which the servers' answers are written into. -/
structure Scratch where
  readBufs : ℕ → Register := fun _ => .zero
  swapBufs : ℕ → Register := fun _ => .zero
  bulkBufs : ℕ → ℕ → Register := fun _ _ => .zero

/-- The requests a loop over the quorum posts, at the slots it selects. -/
def DsConf.postSlots (d : DsConf) (wrId : ℕ) (sel : ℕ → Bool) (op : ℕ → Rdma) : List Wr :=
  (List.range d.quorum).filterMap fun i =>
    if sel i then some ⟨d.quorumIndices i, wrId, op i⟩ else none

/-- A counter per server, after the requests `wrs` have been posted. -/
def countPosts (wrs : List Wr) (ctr : ℕ → ℤ) (r : ℕ) : ℤ :=
  ctr r + wrs.countP fun w => w.server = r

/-- No operation counted in `ongoing` is still to complete. -/
def DsConf.Ready (d : DsConf) (ongoing : ℕ → ℤ) : Prop :=
  ∀ r < d.layout.numServers, ¬0 < ongoing r

instance (d : DsConf) (ongoing : ℕ → ℤ) : Decidable (d.Ready ongoing) :=
  inferInstanceAs (Decidable (∀ r < _, _))

/-- What a step of a future leaves: the future, the state of its client, the
    requests posted, and whether the future was free to step. -/
structure Outcome (F : Type) where
  future : F
  state : DsState
  posted : List Wr := []
  stepped : Bool := true

/-- The outcome of a step of a part of a future, as one of the whole. -/
def Outcome.lift {F G : Type} (f : F → G) (x : Outcome F) : Outcome G :=
  ⟨f x.future, x.state, x.posted, x.stepped⟩

/-! ## Slots -/

section Slots

variable {d : DsConf}

theorem DsConf.quorumIndices_inj (hq : d.quorum ≤ d.layout.numServers) {i j : ℕ}
    (hi : i < d.quorum) (hj : j < d.quorum) (h : d.quorumIndices i = d.quorumIndices j) : i = j :=
  Lib.window_inj hq _ hi hj h

theorem DsConf.quorumIndices_lt (hn : 0 < d.layout.numServers) (i : ℕ) :
    d.quorumIndices i < d.layout.numServers :=
  Nat.mod_lt _ hn

theorem mem_postSlots {id : ℕ} {sel : ℕ → Bool} {op : ℕ → Rdma} {w : Wr} :
    w ∈ d.postSlots id sel op ↔
      ∃ i < d.quorum, sel i = true ∧ w = ⟨d.quorumIndices i, id, op i⟩ := by
  simp only [DsConf.postSlots, List.mem_filterMap, List.mem_range]
  refine exists_congr fun i => and_congr_right fun _ => ?_
  rw [Option.ite_none_right_eq_some, Option.some.injEq, @eq_comm _ w]

/-- Only the operations at the selected slots matter. -/
theorem postSlots_congr {id : ℕ} {sel sel' : ℕ → Bool} {op op' : ℕ → Rdma}
    (hs : ∀ i < d.quorum, sel i = sel' i) (ho : ∀ i < d.quorum, sel' i = true → op i = op' i) :
    d.postSlots id sel op = d.postSlots id sel' op' := by
  refine List.filterMap_congr fun i hi => ?_
  rw [List.mem_range] at hi
  rw [hs i hi]
  split
  · next h => rw [ho i hi h]
  · rfl

/-- The requests of one posting go to different servers. -/
theorem nodup_postSlots (hq : d.quorum ≤ d.layout.numServers) (id : ℕ) (sel : ℕ → Bool)
    (op : ℕ → Rdma) : ((d.postSlots id sel op).map Wr.server).Nodup := by
  refine List.pairwise_map.2 (List.Pairwise.filterMap _ ?_ (List.pairwise_lt_range.imp_of_mem
    (S := fun i j => i < j ∧ j < d.quorum) fun _ hj h => ⟨h, List.mem_range.1 hj⟩))
  intro i j hij w hw w' hw'
  simp only [Option.ite_none_right_eq_some, Option.some.injEq] at hw hw'
  rw [← hw.2, ← hw'.2]
  intro h
  have := DsConf.quorumIndices_inj hq (hij.1.trans hij.2) hij.2 h
  omega

/-- A counter counts the request of a slot if it was posted. -/
theorem countPosts_slot (hq : d.quorum ≤ d.layout.numServers) {i : ℕ} (hi : i < d.quorum) (id : ℕ)
    (sel : ℕ → Bool) (op : ℕ → Rdma) (ctr : ℕ → ℤ) :
    countPosts (d.postSlots id sel op) ctr (d.quorumIndices i) =
      ctr (d.quorumIndices i) + if sel i then 1 else 0 := by
  have hcount : (d.postSlots id sel op).countP (fun w => w.server = d.quorumIndices i) =
      ((d.postSlots id sel op).map Wr.server).count (d.quorumIndices i) := by
    rw [List.count, List.countP_map]
    exact List.countP_congr fun w _ => by simp
  rw [countPosts, hcount]
  by_cases h : sel i = true
  · rw [List.count_eq_one_of_mem (nodup_postSlots hq id sel op)
      (List.mem_map.2 ⟨_, mem_postSlots.2 ⟨i, hi, h, rfl⟩, rfl⟩), if_pos h, Nat.cast_one]
  · rw [List.count_eq_zero_of_not_mem, if_neg h, Nat.cast_zero]
    intro hm
    obtain ⟨w, hw, hr⟩ := List.mem_map.1 hm
    obtain ⟨j, hj, hsj, rfl⟩ := mem_postSlots.1 hw
    exact h (DsConf.quorumIndices_inj hq hj hi hr ▸ hsj)

/-- A counter counts nothing for a server outside the quorum. -/
theorem countPosts_of_notMem {r : ℕ} (hr : ∀ i < d.quorum, d.quorumIndices i ≠ r) (id : ℕ)
    (sel : ℕ → Bool) (op : ℕ → Rdma) (ctr : ℕ → ℤ) :
    countPosts (d.postSlots id sel op) ctr r = ctr r := by
  have : (d.postSlots id sel op).countP (fun w => w.server = r) = 0 := by
    rw [List.countP_eq_zero]
    intro w hw
    obtain ⟨i, hi, _, rfl⟩ := mem_postSlots.1 hw
    simpa using hr i hi
  rw [countPosts, this, Nat.cast_zero, add_zero]

end Slots

end DiscoSkip
