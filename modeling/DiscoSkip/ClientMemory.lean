import DiscoSkip.Lib.Packing
import DiscoSkip.Posts
import Mathlib.Tactic.Ring

/-!
# The memory of a client

The scratchpads of the futures of a client are in one region that it registers for
RDMA. Each of them has a read slot and a swap slot for every server, and then a
bulk slice of `maxRange` registers for every server, and is rounded up to 64 bytes.

Sizes and addresses are words of 64 bits, and the offset of a buffer is computed from
the start of its array as the pointers of the futures do. As long as the bytes of the
client can be counted in a word,

* the bytes that two buffers take the answers to are disjoint, whatever future and
  server they are of (`memory_apart`);
* whatever a future posts fits in the buffer that it goes to (`fits_of_posts`).

The future of the id `f` among those that run any operation and the future of that id
which only runs range reads share the buffers of the id.
-/

namespace DiscoSkip

open Lib

namespace Layout

/-! ## Sizes and addresses -/

/-- The size, up to a multiple of 64. -/
def align64 (size : UInt64) : UInt64 := (size + 63) &&& ~~~63

variable (L : Layout)

def readBufsSize : UInt64 := L.numServers.toUInt64 * 8

def swapBufsSize : UInt64 := L.numServers.toUInt64 * 8

def bulkBufsSize : UInt64 := L.numServers.toUInt64 * L.maxRange.toUInt64 * 8

def perFutureSize : UInt64 := align64 (L.readBufsSize + L.swapBufsSize + L.bulkBufsSize)

def clientSize : UInt64 := L.asyncParallelism.toUInt64 * L.perFutureSize

variable (clientLocalRegion : UInt64) (futureId : ℕ)

def getReadBufs : UInt64 := clientLocalRegion + futureId.toUInt64 * L.perFutureSize

def getSwapBufs : UInt64 :=
  clientLocalRegion + futureId.toUInt64 * L.perFutureSize + L.readBufsSize

def getBulkBufs : UInt64 :=
  clientLocalRegion + futureId.toUInt64 * L.perFutureSize + L.readBufsSize + L.swapBufsSize

end Layout

/-! ## Buffers -/

/-- A part of the scratchpad of a future, for the answers of one server. -/
inductive Buffer
  | read (r : ℕ)
  | swap (r : ℕ)
  | bulk (r : ℕ)
  deriving DecidableEq, Repr

def Buffer.server : Buffer → ℕ
  | .read r => r
  | .swap r => r
  | .bulk r => r

namespace Layout

variable (L : Layout)

/-- Where the future `f` takes answers to: a pointer to a register, `r` registers after
    the start of the array, or `r` slices after it. -/
def bufferAddress (region : UInt64) (f : ℕ) : Buffer → UInt64
  | .read r => L.getReadBufs region f + r.toUInt64 * 8
  | .swap r => L.getSwapBufs region f + r.toUInt64 * 8
  | .bulk r => L.getBulkBufs region f + r.toUInt64 * L.maxRange.toUInt64 * 8

/-- The bytes of a buffer. -/
def capacity : Buffer → ℕ
  | .read _ => 8
  | .swap _ => 8
  | .bulk _ => 8 * L.maxRange

end Layout

/-- The buffer that the answer to a request goes to. -/
def Wr.buffer (w : Wr) : Buffer :=
  match w.op with
  | .read _ => .read w.server
  | .cas _ _ _ => .swap w.server
  | .bulk _ _ => .bulk w.server

theorem Wr.server_buffer (w : Wr) : w.buffer.server = w.server := by
  rw [Wr.buffer]
  split <;> rfl

/-- The bytes that a request writes to the memory of the client. -/
def Rdma.length : Rdma → ℕ
  | .read _ => 8
  | .cas _ _ _ => 8
  | .bulk _ len => len

/-- The answer to a request fits in a buffer of the layout. -/
def Wr.Fits (L : Layout) (w : Wr) : Prop :=
  w.server < L.numServers ∧ w.op.length ≤ L.capacity w.buffer

/-- What the futures of a client post when they start an operation, or step. -/
inductive Posts (d : DsConf) : List Wr → Prop
  | doPut (p : PutFuture) (st : DsState) (k : ℕ) (v : UInt64) : Posts d (p.doPut d st k v).posted
  | put (p : PutFuture) (bufs : Scratch) (st : DsState) :
      Posts d (p.tryStepForward d bufs st).posted
  | doGet (g : GetFuture) (st : DsState) (k : ℕ) : Posts d (g.doGet d st k).posted
  | get (g : GetFuture) (bufs : Scratch) (st : DsState) :
      Posts d (g.tryStepForward d bufs st).posted
  | doRange {f : RangeFuture} {st : DsState} {sk ek : UInt64} {x : Outcome RangeFuture} :
    f.doRange d st sk ek = .ok x → Posts d x.posted
  | range (f : RangeFuture) (bufs : Scratch) (st : DsState) :
    Posts d (f.tryStepForward d bufs st).2.posted

/-! ## Posted requests fit -/

section Fits

variable {d : DsConf} (hn : 0 < d.layout.numServers)

include hn in
theorem fits_postSlots {id : ℕ} {sel : ℕ → Bool} {op : ℕ → Rdma}
    (hop : ∀ i, (op i).length ≤ d.layout.capacity (Wr.buffer ⟨d.quorumIndices i, id, op i⟩)) :
    ∀ w ∈ d.postSlots id sel op, w.Fits d.layout := by
  intro w hw
  obtain ⟨i, _, _, rfl⟩ := mem_postSlots.1 hw
  exact ⟨d.quorumIndices_lt hn i, hop i⟩

include hn in
theorem fits_postCas (p : PutFuture) (st : DsState) :
    ∀ w ∈ (p.postCas d st).posted, w.Fits d.layout :=
  fits_postSlots hn fun _ => le_rfl

include hn in
/-- The length of a bulk read, narrowed to 32 bits, is no more than its slice. -/
theorem fits_postBulkReads (f : RangeFuture) (st : DsState)
    (h : f.rangeLen.toNat ≤ d.layout.maxRange) :
    ∀ w ∈ (f.postBulkReads d st).posted, w.Fits d.layout := by
  refine fits_postSlots hn fun _ => ?_
  calc (f.rangeLen * 8).toUInt32.toNat ≤ (f.rangeLen * 8).toNat := Nat.mod_le _ _
    _ ≤ f.rangeLen.toNat * 8 := by
      rw [UInt64.toNat_mul]
      exact Nat.mod_le _ _
    _ ≤ 8 * d.layout.maxRange := by omega

include hn in
/-- Whatever the futures post fits in the buffers that it goes to. -/
theorem fits_of_posts {wrs : List Wr} (h : Posts d wrs) : ∀ w ∈ wrs, w.Fits d.layout := by
  have hnil : ∀ w ∈ ([] : List Wr), w.Fits d.layout := fun w hw => absurd hw List.not_mem_nil
  cases h with
  | doPut p st k v =>
    rw [PutFuture.doPut]
    dsimp only
    split
    · exact fits_postSlots hn fun _ => le_rfl
    · exact fits_postSlots hn fun _ => le_rfl
  | put p bufs st =>
    rw [PutFuture.tryStepForward]
    split
    · split
      · exact fits_postCas hn _ st
      · rw [PutFuture.stepOptimisticChain]
        dsimp only
        split
        · exact hnil
        · exact fits_postCas hn _ st
      · rw [PutFuture.stepCas]
        split
        · exact hnil
        · exact fits_postCas hn _ st
      · exact hnil
    · exact hnil
  | doGet g st k => exact fits_postSlots hn fun _ => le_rfl
  | get g bufs st =>
    rw [GetFuture.tryStepForward]
    split
    · split
      · rw [GetFuture.stepReading]
        dsimp only
        split
        · exact fits_postSlots hn fun _ => le_rfl
        · exact hnil
      · exact hnil
      · exact hnil
    · exact hnil
  | @doRange f st sk ek x hx =>
    rw [RangeFuture.doRange] at hx
    dsimp only at hx
    split at hx
    · exact absurd hx (by simp)
    · next hle =>
      obtain rfl := Except.ok.inj hx
      exact fits_postBulkReads hn _ st (Nat.le_of_not_gt hle)
  | range f bufs st =>
    rw [RangeFuture.tryStepForward]
    split
    · split
      · exact hnil
      · exact hnil
    · exact hnil

end Fits

/-! ## The packing of the buffers -/

namespace Layout

/-- The size, rounded up, as a number. -/
theorem toNat_align64 {size : UInt64} (h : size.toNat + 63 < 2 ^ 64) :
    (align64 size).toNat = roundUp64 size.toNat := by
  have hadd : (size + 63).toNat = size.toNat + 63 := by
    rw [UInt64.toNat_add]
    exact Nat.mod_eq_of_lt h
  have hmask : (~~~63 : UInt64).toNat = 2 ^ 64 - 2 ^ 6 := rfl
  rw [align64, UInt64.toNat_and, hadd, hmask, and_not_63 h, roundUp64]

variable (L : Layout)

/-- The number of bytes that the buffers of a future take. -/
def scratchBytes : ℕ :=
  8 * L.numServers + (8 * L.numServers + 8 * L.maxRange * L.numServers)

/-- The number of bytes that a client registers, if it can be counted in a word. -/
def clientBytes : ℕ := roundUp64 L.scratchBytes * L.asyncParallelism

/-- The offset of a buffer in the scratchpad of its future. -/
def bufferOffset : Buffer → ℕ
  | .read r => 8 * r
  | .swap r => 8 * L.numServers + 8 * r
  | .bulk r => 8 * L.numServers + (8 * L.numServers + 8 * L.maxRange * r)

/-- The buffers of all the servers. -/
def buffers : Set Buffer := {b | b.server < L.numServers}

theorem packing_buffers :
    Packing L.buffers L.bufferOffset L.capacity (roundUp64 L.scratchBytes) := by
  have h := (Packing.stride (le_refl 8) L.numServers).append
    ((Packing.stride (le_refl 8) L.numServers).append
      (Packing.stride (le_refl (8 * L.maxRange)) L.numServers))
  refine h.of_map (f := fun
    | .read r => .inl r
    | .swap r => .inr (.inl r)
    | .bulk r => .inr (.inr r)) ?_ ?_ ?_ ?_ (le_roundUp64 _)
  · rintro (r | r | r) _ (r' | r' | r') _ e <;> simp_all
  · rintro (r | r | r) hr <;> exact hr
  · rintro (r | r | r) _ <;> rfl
  · rintro (r | r | r) _ <;> rfl

theorem packing_client :
    Packing (Set.Iio L.asyncParallelism ×ˢ L.buffers)
      (fun x => roundUp64 L.scratchBytes * x.1 + L.bufferOffset x.2) (fun x => L.capacity x.2)
      L.clientBytes :=
  (Packing.stride le_rfl L.asyncParallelism).nest L.packing_buffers

variable {L} {region : UInt64} {f : ℕ} {b : Buffer}

open scoped UInt64.CommRing in
theorem perFutureSize_eq (h : roundUp64 L.scratchBytes < 2 ^ 64) :
    L.perFutureSize = UInt64.ofNat (roundUp64 L.scratchBytes) := by
  have hsum : L.readBufsSize + L.swapBufsSize + L.bulkBufsSize = UInt64.ofNat L.scratchBytes := by
    have h8 : UInt64.ofNat 8 = 8 := rfl
    simp only [readBufsSize, swapBufsSize, bulkBufsSize, scratchBytes, Nat.toUInt64,
      UInt64.ofNat_add, UInt64.ofNat_mul, h8]
    ring
  have hlt : L.scratchBytes + 63 < 2 ^ 64 := by
    rw [roundUp64] at h
    omega
  have hnat : (UInt64.ofNat L.scratchBytes).toNat = L.scratchBytes :=
    UInt64.toNat_ofNat_of_lt' (lt_of_le_of_lt (Nat.le_add_right _ _) hlt)
  rw [perFutureSize, hsum, ← UInt64.toNat_inj, toNat_align64 (by rwa [hnat]), hnat,
    UInt64.toNat_ofNat_of_lt' h]

theorem toNat_clientSize (ha : 0 < L.asyncParallelism) (h : L.clientBytes < 2 ^ 64) :
    L.clientSize.toNat = L.clientBytes := by
  have hP : roundUp64 L.scratchBytes < 2 ^ 64 :=
    lt_of_le_of_lt (Nat.le_mul_of_pos_right _ ha) h
  rw [clientSize, perFutureSize_eq hP, Nat.toUInt64, ← UInt64.ofNat_mul, Nat.mul_comm]
  exact UInt64.toNat_ofNat_of_lt' h

open scoped UInt64.CommRing in
/-- The address of a buffer is its offset from the start of the region. -/
theorem bufferAddress_sub (h : roundUp64 L.scratchBytes < 2 ^ 64) :
    L.bufferAddress region f b - region =
      UInt64.ofNat (roundUp64 L.scratchBytes * f + L.bufferOffset b) := by
  have h8 : UInt64.ofNat 8 = 8 := rfl
  cases b <;> simp only [bufferAddress, getReadBufs, getSwapBufs, getBulkBufs, bufferOffset,
    readBufsSize, swapBufsSize, perFutureSize_eq h, Nat.toUInt64, UInt64.ofNat_add,
    UInt64.ofNat_mul, h8] <;> ring

theorem toNat_bufferAddress_sub (h : L.clientBytes < 2 ^ 64) (hf : f < L.asyncParallelism)
    (hb : b ∈ L.buffers) :
    (L.bufferAddress region f b - region).toNat =
      roundUp64 L.scratchBytes * f + L.bufferOffset b := by
  have hP : roundUp64 L.scratchBytes < 2 ^ 64 :=
    lt_of_le_of_lt (Nat.le_mul_of_pos_right _ (Nat.zero_lt_of_lt hf)) h
  have hle := L.packing_client.within (f, b) ⟨hf, hb⟩
  rw [bufferAddress_sub hP]
  exact UInt64.toNat_ofNat_of_lt' (lt_of_le_of_lt (Nat.le_of_add_right_le hle) h)

end Layout

/-! ## The memory is kept apart -/

/-- The buffers that the futures of a client take answers to, in its region. -/
structure Layout.MemoryOk (L : Layout) (region : UInt64) : Prop where
  /-- Different buffers do not overlap. -/
  apart : (Set.Iio L.asyncParallelism ×ˢ L.buffers).PairwiseDisjoint fun x =>
    area (L.bufferAddress region x.1 x.2) (L.capacity x.2)
  /-- They are in the bytes that the client registers. -/
  within : ∀ f < L.asyncParallelism, ∀ b ∈ L.buffers,
    area (L.bufferAddress region f b) (L.capacity b) ⊆ area region L.clientSize.toNat
  /-- They start at multiples of 8 from the start of the region. -/
  offset_dvd : ∀ f < L.asyncParallelism, ∀ b ∈ L.buffers,
    8 ∣ (L.bufferAddress region f b - region).toNat
  /-- So they are aligned if the region is. -/
  aligned : 64 ∣ region.toNat → ∀ f < L.asyncParallelism, ∀ b ∈ L.buffers,
    8 ∣ (L.bufferAddress region f b).toNat
  /-- What is posted goes to one of them, and no further than its end. -/
  fits : 0 < L.numServers → ∀ d : DsConf, d.layout = L → ∀ wrs, Posts d wrs → ∀ w ∈ wrs,
    w.buffer ∈ L.buffers ∧ ∀ f, area (L.bufferAddress region f w.buffer) w.op.length ⊆
      area (L.bufferAddress region f w.buffer) (L.capacity w.buffer)

theorem Layout.dvd_bufferOffset (L : Layout) (b : Buffer) : 8 ∣ L.bufferOffset b := by
  have h8 : ∀ n, 8 ∣ 8 * n := fun n => Nat.dvd_mul_right 8 n
  cases b with
  | read r => exact h8 r
  | swap r => exact Nat.dvd_add (h8 _) (h8 r)
  | bulk r => exact Nat.dvd_add (h8 _) (Nat.dvd_add (h8 _) ((h8 _).mul_right r))

/-- The memory of a client is kept apart, whatever the region it is in, if the number
    of its bytes is a word. -/
theorem memory_apart (L : Layout) (region : UInt64) (h : L.clientBytes < 2 ^ 64) :
    L.MemoryOk region := by
  have haddr : ∀ x ∈ Set.Iio L.asyncParallelism ×ˢ L.buffers,
      (L.bufferAddress region x.1 x.2 - region).toNat =
        roundUp64 L.scratchBytes * x.1 + L.bufferOffset x.2 := fun x hx =>
    Layout.toNat_bufferAddress_sub h hx.1 hx.2
  have hdvd : ∀ f < L.asyncParallelism, ∀ b ∈ L.buffers,
      8 ∣ (L.bufferAddress region f b - region).toNat := by
    intro f hf b hb
    rw [haddr (f, b) ⟨hf, hb⟩]
    have h8 : 8 ∣ roundUp64 L.scratchBytes := Nat.dvd_trans (by decide) (dvd_roundUp64 _)
    exact Nat.dvd_add (h8.mul_right f) (L.dvd_bufferOffset b)
  refine ⟨L.packing_client.disjoint_area h.le haddr, ?_, hdvd, ?_, ?_⟩
  · intro f hf b hb
    rw [Layout.toNat_clientSize (Nat.zero_lt_of_lt hf) h]
    exact L.packing_client.area_subset h.le haddr (i := (f, b)) ⟨hf, hb⟩
  · intro hr f hf b hb
    have hsum : L.bufferAddress region f b = L.bufferAddress region f b - region + region :=
      (sub_add_cancel _ _).symm
    rw [hsum, UInt64.toNat_add]
    have := hdvd f hf b hb
    omega
  · rintro hn d rfl wrs hp w hw
    obtain ⟨hs, hl⟩ := fits_of_posts hn hp w hw
    exact ⟨w.server_buffer.trans_lt hs, fun f => area_subset_area _ hl⟩

/-- Two futures with buffers for three servers, in a page of their own. -/
theorem memory_apart_threeServers : (Layout.threeServers 2 true true).MemoryOk 4096 :=
  memory_apart (.threeServers 2 true true) 4096 (by decide)

end DiscoSkip
