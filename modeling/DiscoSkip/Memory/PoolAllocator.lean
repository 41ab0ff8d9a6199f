import Mathlib.Data.Nat.Bitwise
import DiscoSkip.Lib.Loop
import DiscoSkip.Lib.Machine
import DiscoSkip.Lib.Memory

/-!
# The pool allocator

A pool hands out objects of one type from a buffer. The buffer is cut into chunks, each of
the pointer to the next free chunk and an object; the first chunk is such that its object is
aligned, and the others follow at a *stride* that keeps them so. An arena makes pools of
what is left of its buffer.

Addresses and sizes are 64-bit words. As the free chunks are linked through the buffer, its
bytes are part of the model, and an object may put anything into its own.
-/

namespace DiscoSkip

open Lib

/-- The layout of a chunk: the object is after the pointer to the next chunk. -/
structure ChunkLayout where
  headerSize : ℕ
  sizeofT : ℕ
  sizeofChunk : ℕ
  pointer_le : 8 ≤ headerSize
  object_le : headerSize + sizeofT ≤ sizeofChunk

def isPowerof2 (v : ℕ) : Prop := v ≠ 0 ∧ v &&& (v - 1) = 0

instance (v : ℕ) : Decidable (isPowerof2 v) := inferInstanceAs (Decidable (_ ∧ _))

/-- Rounding up to a multiple of the alignment, which must be a power of two. -/
def roundUp (n alignment : ℕ) : Option ℕ :=
  if isPowerof2 alignment then some ((n + alignment - 1) % 2 ^ 64 &&& (2 ^ 64 - alignment))
  else none

structure PoolAllocator where
  layout : ChunkLayout
  bufStart : ℕ
  bufNext : ℕ
  maxObjects : ℕ
  alignment : ℕ
  stride : ℕ
  next : ℕ

namespace PoolAllocator

section Model

variable (t : ChunkLayout)

def computeStride (alignment : ℕ) : Option ℕ := roundUp t.sizeofChunk alignment

def trueStart (start alignment : ℕ) : Option ℕ :=
  (roundUp ((start + t.headerSize) % 2 ^ 64) alignment).map fun r =>
    (r + (2 ^ 64 - t.headerSize)) % 2 ^ 64

def chunkStart (actualStart idx stride : ℕ) : ℕ := (actualStart + stride * idx) % 2 ^ 64

/-- The last byte of the chunks; without any, it is the first. -/
def trueEnd (actualStart maxObjects stride : ℕ) : ℕ :=
  if maxObjects = 0 then actualStart
  else (chunkStart actualStart (maxObjects - 1) stride + t.sizeofChunk - 1) % 2 ^ 64

/-- Linking all chunks (`initialize`). -/
def initializeChunks (p : PoolAllocator) (mem : Memory) : PoolAllocator × Memory :=
  if p.maxObjects = 0 then ({ p with next := 0 }, mem)
  else
    let last := chunkStart p.bufStart (p.maxObjects - 1) p.stride
    ({ p with next := p.bufStart }, (p.maxObjects - 1).fold (fun i _ mem =>
      mem.store (chunkStart p.bufStart i p.stride) (chunkStart p.bufStart (i + 1) p.stride))
      (mem.store last 0))

/-- The constructor. -/
def new (mem : Memory) (bufStart bufSize maxObjects alignment : ℕ) :
    Option (PoolAllocator × Memory) := do
  let stride ← computeStride t alignment
  let actualBufStart ← trueStart t bufStart alignment
  let bufNext := (bufStart + bufSize) % 2 ^ 64
  if bufNext ≤ actualBufStart then none
  else if bufNext ≤ trueEnd t actualBufStart maxObjects stride then none
  else some (initializeChunks ⟨t, actualBufStart, bufNext, maxObjects, alignment, stride, 0⟩ mem)

/-- The start and the size of what is left of the buffer. -/
def remaining (p : PoolAllocator) : ℕ × ℕ :=
  let remainingBufStart := (trueEnd p.layout p.bufStart p.maxObjects p.stride + 1) % 2 ^ 64
  (remainingBufStart, (p.bufNext + (2 ^ 64 - remainingBufStart)) % 2 ^ 64)

def spaceRequired (alignment maxObjects : ℕ) : Option ℕ :=
  if maxObjects = 0 then some 0
  else (computeStride t alignment).map fun stride => (trueEnd t 0 maxObjects stride + 1) % 2 ^ 64

def alignedSpaceRequirement (alignment maxObjects : ℕ) : Option ℕ :=
  (spaceRequired t alignment maxObjects).map fun required =>
    (required + alignment + t.headerSize) % 2 ^ 64

/-- The address of a new object, whose constructor writes its bytes; `none` is null. -/
def create (p : PoolAllocator) (mem : Memory) (content : Memory) :
    Option ℕ × PoolAllocator × Memory :=
  let storeAt := p.next
  if storeAt = 0 then (none, p, mem)
  else
    let mem := mem.fill (storeAt + p.layout.headerSize) p.layout.sizeofT content
    (some (storeAt + p.layout.headerSize), { p with next := mem.load storeAt }, mem)

/-- Giving an object back, whose destructor writes its bytes. -/
def destroy (p : PoolAllocator) (mem : Memory) (obj : ℕ) (content : Memory) :
    PoolAllocator × Memory :=
  let chunk := obj - p.layout.headerSize
  let mem := mem.fill obj p.layout.sizeofT content
  ({ p with next := chunk }, mem.store chunk p.next)

end Model

end PoolAllocator

structure ArenaPoolAllocator where
  bufStart : ℕ
  bufNext : ℕ
  bufSize : ℕ

namespace ArenaPoolAllocator

def new (bufStart bufSize : ℕ) : ArenaPoolAllocator := ⟨bufStart, bufStart, bufSize⟩

def createPool (a : ArenaPoolAllocator) (mem : Memory) (t : ChunkLayout)
    (maxObjects alignment : ℕ) : Option (PoolAllocator × ArenaPoolAllocator × Memory) := do
  let (obj, mem) ← PoolAllocator.new t mem a.bufNext a.bufSize maxObjects alignment
  let (remainingBufStart, remainingBufSize) := obj.remaining
  some (obj, { a with bufNext := remainingBufStart, bufSize := remainingBufSize }, mem)

end ArenaPoolAllocator

/-! ## Rounding -/

/-- The least multiple of `a` that is at least `n`. -/
def ceilTo (n a : ℕ) : ℕ := (n + a - 1) / a * a

section Rounding

variable {n a p x : ℕ}

theorem dvd_ceilTo : a ∣ ceilTo n a := Nat.dvd_mul_left a _

theorem ceilTo_spec (ha : 0 < a) : n ≤ ceilTo n a ∧ ceilTo n a < n + a := by
  have hdiv : a * ((n + a - 1) / a) + (n + a - 1) % a = n + a - 1 := Nat.div_add_mod _ _
  have hmod : (n + a - 1) % a < a := Nat.mod_lt _ ha
  rw [ceilTo, Nat.mul_comm]
  omega

/-- The mask that `-alignment` is clears the lower bits. -/
theorem and_neg (hp : p < 64) (hx : x < 2 ^ 64) : x &&& (2 ^ 64 - 2 ^ p) = x / 2 ^ p * 2 ^ p := by
  have hmask : 2 ^ 64 - 2 ^ p = (2 ^ (64 - p) - 1) * 2 ^ p := by
    rw [Nat.sub_mul, ← pow_add, Nat.sub_add_cancel hp.le, Nat.one_mul]
  rw [hmask]
  refine Nat.eq_of_testBit_eq fun i => ?_
  rw [Nat.testBit_and, Nat.testBit_mul_two_pow, Nat.testBit_mul_two_pow, Nat.testBit_div_two_pow,
    Nat.testBit_two_pow_sub_one]
  by_cases hpi : p ≤ i
  · rw [Nat.sub_add_cancel hpi]
    by_cases hi : i < 64
    · simp [hpi, show i - p < 64 - p by omega]
    · rw [Nat.testBit_lt_two_pow (hx.trans_le (Nat.pow_le_pow_right (by decide) (not_lt.1 hi)))]
      simp
  · simp [hpi]

theorem roundUp_eq (ha : isPowerof2 a) (ha64 : a < 2 ^ 64) (hn : n + a ≤ 2 ^ 64) :
    roundUp n a = some (ceilTo n a) := by
  obtain ⟨p, rfl⟩ := Nat.ne_zero_and_sub_one_eq_zero_iff_isPowerOfTwo.1 ha
  have hp : p < 64 := (Nat.pow_lt_pow_iff_right (by decide)).1 ha64
  have hpos : 0 < 2 ^ p := Nat.two_pow_pos p
  rw [roundUp, if_pos ha, Nat.mod_eq_of_lt (by omega), and_neg hp (by omega), ceilTo]

end Rounding

namespace PoolAllocator

/-! ## The chunks of a pool -/

/-- No address that the constructor computes overflows. -/
structure NoOverflow (t : ChunkLayout) (bufStart bufSize maxObjects alignment : ℕ) : Prop where
  alignment_lt : alignment < 2 ^ 64
  buffer : bufStart + bufSize < 2 ^ 64
  start : bufStart + t.headerSize + alignment ≤ 2 ^ 64
  stride : t.sizeofChunk + alignment ≤ 2 ^ 64
  chunks : maxObjects ≠ 0 → ceilTo (bufStart + t.headerSize) alignment - t.headerSize +
    ceilTo t.sizeofChunk alignment * (maxObjects - 1) + t.sizeofChunk ≤ 2 ^ 64

section Placed

variable {t : ChunkLayout} {p : PoolAllocator} {mem mem' : Memory} {i j lo hi : ℕ}

/-- The address of a chunk. -/
def chunk (p : PoolAllocator) (i : ℕ) : ℕ := p.bufStart + p.stride * i

/-- Where the chunks end. -/
def stop (p : PoolAllocator) : ℕ :=
  if p.maxObjects = 0 then p.bufStart
  else p.chunk (p.maxObjects - 1) + p.layout.sizeofChunk

/-- The chunks are in the buffer from `lo` to `hi`, and aligned. -/
structure Placed (p : PoolAllocator) (lo hi : ℕ) : Prop where
  lo_le : lo ≤ p.bufStart
  start_lt : p.bufStart < hi
  stop_le : p.stop ≤ hi
  bufNext : p.bufNext = hi
  hi_lt : hi < 2 ^ 64
  sizeof_le : p.layout.sizeofChunk ≤ p.stride
  dvd_start : p.alignment ∣ p.bufStart + p.layout.headerSize
  dvd_stride : p.alignment ∣ p.stride

theorem Placed.chunk_le (h : Placed p lo hi) (hij : i < j) :
    p.chunk i + p.layout.sizeofChunk ≤ p.chunk j := by
  have hle : p.stride * (i + 1) ≤ p.stride * j := Nat.mul_le_mul_left _ hij
  have hs := h.sizeof_le
  rw [Nat.mul_succ] at hle
  simp only [chunk]
  omega

theorem Placed.le_chunk : p.bufStart ≤ p.chunk i := Nat.le_add_right _ _

theorem Placed.chunk_le_stop (h : Placed p lo hi) (hi' : i < p.maxObjects) :
    p.chunk i + p.layout.sizeofChunk ≤ p.stop := by
  rw [stop, if_neg (by omega)]
  obtain hlt | heq := Nat.lt_or_eq_of_le (Nat.le_sub_one_of_lt hi')
  · exact (h.chunk_le hlt).trans (Nat.le_add_right _ _)
  · rw [heq]

/-- Different chunks do not overlap. -/
theorem Placed.disjoint (h : Placed p lo hi) (hij : i ≠ j) :
    p.chunk i + p.layout.sizeofChunk ≤ p.chunk j ∨
      p.chunk j + p.layout.sizeofChunk ≤ p.chunk i :=
  hij.lt_or_gt.imp h.chunk_le h.chunk_le

/-- Every object is aligned. -/
theorem Placed.dvd_object (h : Placed p lo hi) (i : ℕ) :
    p.alignment ∣ p.chunk i + p.layout.headerSize := by
  have hc : p.chunk i + p.layout.headerSize =
      (p.bufStart + p.layout.headerSize) + p.stride * i := by
    rw [chunk]
    omega
  rw [hc]
  exact Nat.dvd_add h.dvd_start (h.dvd_stride.mul_right i)

theorem Placed.chunkStart_eq (h : Placed p lo hi) (hi' : i < p.maxObjects) :
    chunkStart p.bufStart i p.stride = p.chunk i := by
  have hstop := h.chunk_le_stop hi'
  have hle := h.stop_le
  have hlt := h.hi_lt
  exact Nat.mod_eq_of_lt (by rw [← chunk]; omega)

/-- The chunks are linked once they are initialised, and what is outside is kept. -/
theorem initializeChunks_spec (mem : Memory) (h : Placed p lo hi) (hlo : 0 < lo) :
    ∃ next mem', initializeChunks p mem = ({ p with next }, mem') ∧
      Linked mem' next ((List.range p.maxObjects).map p.chunk) ∧
      ∀ x, x < p.bufStart ∨ p.stop ≤ x → mem' x = mem x := by
  rw [initializeChunks]
  split
  · next h0 => exact ⟨_, _, rfl, by rw [h0]; rfl, fun _ _ => rfl⟩
  · next h0 =>
    obtain ⟨n, hn⟩ := Nat.exists_eq_succ_of_ne_zero h0
    have hsize : 8 ≤ p.layout.sizeofChunk :=
      p.layout.pointer_le.trans ((Nat.le_add_right _ _).trans p.layout.object_le)
    have hpos := h.lo_le
    have hlast : chunkStart p.bufStart (p.maxObjects - 1) p.stride = p.chunk n := by
      rw [h.chunkStart_eq (by omega), hn, Nat.succ_sub_one]
    have hlt (i : ℕ) (hi : i ≤ n) : p.chunk i < 2 ^ 64 := by
      have := h.chunk_le_stop (i := i) (by omega)
      have := h.stop_le
      have := h.hi_lt
      omega
    -- after `i` turns, the first `i` chunks point to the next ones, and the last to none
    let inv (i : ℕ) (m : Memory) : Prop := (∀ j < i, m.load (p.chunk j) = p.chunk (j + 1)) ∧
      m.load (p.chunk n) = 0 ∧ ∀ x, x < p.bufStart ∨ p.stop ≤ x → m x = mem x
    have hinv : inv n ((p.maxObjects - 1).fold (fun i _ mem =>
        mem.store (chunkStart p.bufStart i p.stride) (chunkStart p.bufStart (i + 1) p.stride))
        (mem.store (chunkStart p.bufStart (p.maxObjects - 1) p.stride) 0)) := by
      have hn' : n = p.maxObjects - 1 := by omega
      conv => arg 1; rw [hn']
      refine fold_inv (P := inv) ⟨fun j hj => absurd hj (Nat.not_lt_zero j), ?_, ?_⟩ ?_
      · rw [hlast, Memory.load_store (by decide)]
      · intro x hx
        rw [hlast]
        have := h.chunk_le_stop (i := n) (by omega)
        have : p.bufStart ≤ p.chunk n := Placed.le_chunk
        exact Memory.store_of_lt (by omega)
      · rintro i hi m ⟨hc, h0, hx⟩
        rw [h.chunkStart_eq (by omega), h.chunkStart_eq (by omega)]
        have hdis (j : ℕ) (hj : i ≠ j) : p.chunk j + 8 ≤ p.chunk i ∨ p.chunk i + 8 ≤ p.chunk j := by
          have := h.disjoint hj
          omega
        refine ⟨fun j hj => ?_, ?_, fun x hx' => ?_⟩
        · obtain rfl | hne := eq_or_ne i j
          · exact Memory.load_store (hlt _ (by omega))
          · rw [Memory.load_store_of_disjoint (hdis j hne)]
            exact hc j (by omega)
        · rw [Memory.load_store_of_disjoint (hdis n (by omega)), h0]
        · have := h.chunk_le_stop (i := i) (by omega)
          have : p.bufStart ≤ p.chunk i := Placed.le_chunk
          rw [Memory.store_of_lt (by omega), hx x hx']
    dsimp only
    generalize (p.maxObjects - 1).fold _ _ = m at hinv ⊢
    obtain ⟨hc, hnull, hx⟩ := hinv
    refine ⟨_, m, rfl, ?_, hx⟩
    have h0 : p.bufStart = p.chunk 0 := by rw [chunk, Nat.mul_zero, Nat.add_zero]
    rw [hn, h0]
    refine Linked.of_chain (fun i _ => ?_) hc hnull
    have : p.bufStart ≤ p.chunk i := Placed.le_chunk
    omega

end Placed

/-! ## The constructor -/

section New

variable {t : ChunkLayout} {p : PoolAllocator} {mem mem' : Memory} {lo hi size n a s stride : ℕ}

theorem eight_le (t : ChunkLayout) : 8 ≤ t.sizeofChunk :=
  t.pointer_le.trans ((Nat.le_add_right _ _).trans t.object_le)

/-- The start of the chunks: the first at which the object is aligned. -/
theorem trueStart_eq (h : NoOverflow t lo size n a) (ha : isPowerof2 a) :
    trueStart t lo a = some (ceilTo (lo + t.headerSize) a - t.headerSize) := by
  have hpos : 0 < a := Nat.pos_of_ne_zero ha.1
  have hstart := h.start
  have hc := ceilTo_spec (n := lo + t.headerSize) hpos
  have hp := t.pointer_le
  rw [trueStart, Nat.mod_eq_of_lt (by omega), roundUp_eq ha h.alignment_lt h.start, Option.map_some,
    Option.some.injEq, ← Nat.add_sub_assoc (by omega), Nat.add_comm,
    Nat.add_sub_assoc (by omega), Nat.add_mod_left, Nat.mod_eq_of_lt (by omega)]

theorem trueEnd_eq (hn : n ≠ 0) (hs : s + stride * (n - 1) + t.sizeofChunk ≤ 2 ^ 64) :
    trueEnd t s n stride = s + stride * (n - 1) + t.sizeofChunk - 1 := by
  have := eight_le t
  rw [trueEnd, if_neg hn, chunkStart, Nat.mod_eq_of_lt (by omega : s + stride * (n - 1) < 2 ^ 64),
    Nat.mod_eq_of_lt (by omega)]

/-- The constructor throws if the alignment is no power of two. -/
theorem isPowerof2_of_new (h : (new t mem lo size n a).isSome) : isPowerof2 a := by
  by_contra ha
  simp [new, computeStride, roundUp, ha] at h

/-- The constructor, for a power of two, without an overflow. -/
theorem new_eq (h : NoOverflow t lo size n a) (ha : isPowerof2 a) :
    new t mem lo size n a =
      if lo + size ≤ ceilTo (lo + t.headerSize) a - t.headerSize ∨
        n ≠ 0 ∧ lo + size ≤ ceilTo (lo + t.headerSize) a - t.headerSize +
          ceilTo t.sizeofChunk a * (n - 1) + t.sizeofChunk - 1 then none
      else some (initializeChunks ⟨t, ceilTo (lo + t.headerSize) a - t.headerSize, lo + size, n, a,
        ceilTo t.sizeofChunk a, 0⟩ mem) := by
  rw [new, computeStride, roundUp_eq ha h.alignment_lt h.stride, trueStart_eq h ha,
    Option.bind_eq_bind, Option.bind_some, Option.bind_some]
  dsimp only
  rw [Nat.mod_eq_of_lt h.buffer]
  by_cases hn : n = 0
  · subst hn
    simp only [trueEnd, if_true, ne_eq, not_true, false_and, or_false]
    split <;> rfl
  · rw [trueEnd_eq hn (h.chunks hn)]
    by_cases h1 : lo + size ≤ ceilTo (lo + t.headerSize) a - t.headerSize
    · rw [if_pos h1, if_pos (.inl h1)]
    · rw [if_neg h1]
      exact if_congr (by simp [h1, hn]) rfl rfl

/-- What the constructor makes, if it does not throw. -/
theorem new_spec (h : NoOverflow t lo size n a) (hlo : 0 < lo)
    (hnew : new t mem lo size n a = some (p, mem')) :
    Placed p lo (lo + size) ∧ Linked mem' p.next ((List.range p.maxObjects).map p.chunk) ∧
      ∀ x, x < p.bufStart ∨ p.stop ≤ x → mem' x = mem x := by
  have ha : isPowerof2 a := isPowerof2_of_new (by rw [hnew]; rfl)
  have hpos : 0 < a := Nat.pos_of_ne_zero ha.1
  have hstart := ceilTo_spec (n := lo + t.headerSize) hpos
  rw [new_eq h ha] at hnew
  split at hnew
  · exact absurd hnew (by simp)
  · next hfit =>
    generalize hq : (⟨t, ceilTo (lo + t.headerSize) a - t.headerSize, lo + size, n, a,
      ceilTo t.sizeofChunk a, 0⟩ : PoolAllocator) = q at hnew
    have hplaced : Placed q lo (lo + size) := by
      subst hq
      have hs := eight_le t
      refine ⟨?_, ?_, ?_, rfl, h.buffer, (ceilTo_spec hpos).1, ?_, dvd_ceilTo⟩
      · dsimp only
        omega
      · dsimp only
        omega
      · simp only [stop, chunk]
        split <;> omega
      · dsimp only
        rw [Nat.sub_add_cancel (by omega)]
        exact dvd_ceilTo
    obtain ⟨next, mem'', hinit, hlinked, hframe⟩ := initializeChunks_spec mem hplaced hlo
    rw [hinit] at hnew
    obtain ⟨rfl, rfl⟩ := Prod.mk.inj (Option.some.inj hnew)
    exact ⟨⟨hplaced.1, hplaced.2, hplaced.3, hplaced.4, hplaced.5, hplaced.6, hplaced.7,
      hplaced.8⟩, hlinked, hframe⟩

/-- What is left of the buffer starts after the chunks. -/
theorem remaining_spec (h : Placed p lo hi) : ∃ start, p.remaining = (start, hi - start) ∧
    p.stop ≤ start ∧ lo < start ∧ start ≤ hi := by
  have hlt := h.start_lt
  have hle := h.stop_le
  have hhi := h.hi_lt
  have hlo := h.lo_le
  have hs := eight_le p.layout
  have hsub {start : ℕ} (h1 : start ≤ hi) (h0 : 0 < start) :
      (hi + (2 ^ 64 - start)) % 2 ^ 64 = hi - start := by
    rw [← Nat.add_sub_assoc (by omega), Nat.add_comm, Nat.add_sub_assoc h1, Nat.add_mod_left,
      Nat.mod_eq_of_lt (by omega)]
  rw [remaining]
  by_cases hn : p.maxObjects = 0
  · refine ⟨p.bufStart + 1, ?_, by rw [stop, if_pos hn]; omega, by omega, hlt⟩
    simp only [trueEnd, if_pos hn, h.bufNext]
    rw [Nat.mod_eq_of_lt (by omega), hsub hlt (by omega)]
  · have hstop : p.stop = p.bufStart + p.stride * (p.maxObjects - 1) + p.layout.sizeofChunk := by
      rw [stop, if_neg hn, chunk]
    refine ⟨p.stop, ?_, le_rfl, by omega, hle⟩
    rw [trueEnd_eq hn (by omega), ← hstop, Nat.sub_add_cancel (by omega), h.bufNext]
    rw [Nat.mod_eq_of_lt (by omega), hsub hle (by omega)]

/-- With the space that is required, the constructor does not throw. -/
theorem new_isSome {required : ℕ} (ha : isPowerof2 a) (hbuf : lo + size < 2 ^ 64)
    (hover : ceilTo t.sizeofChunk a * (n - 1) + t.sizeofChunk + a + t.headerSize < 2 ^ 64)
    (hreq : alignedSpaceRequirement t a n = some required) (hsize : required ≤ size)
    (mem : Memory) : (new t mem lo size n a).isSome := by
  have hpos : 0 < a := Nat.pos_of_ne_zero ha.1
  have hstart := ceilTo_spec (n := lo + t.headerSize) hpos
  have hs := eight_le t
  have hrequired : required = (if n = 0 then 0 else ceilTo t.sizeofChunk a * (n - 1) +
      t.sizeofChunk) + a + t.headerSize := by
    rw [alignedSpaceRequirement, spaceRequired] at hreq
    split at hreq
    · next hn =>
      rw [if_pos hn, Option.map_some, Option.some.injEq] at *
      rw [← hreq, Nat.mod_eq_of_lt (by omega)]
    · next hn =>
      rw [if_neg hn]
      rw [computeStride, roundUp_eq ha (by omega) (by omega), Option.map_some, Option.map_some,
        Option.some.injEq, trueEnd_eq hn (by omega)] at hreq
      rw [← hreq, Nat.mod_eq_of_lt (by omega : 0 + ceilTo t.sizeofChunk a * (n - 1) +
        t.sizeofChunk - 1 + 1 < 2 ^ 64), Nat.mod_eq_of_lt (by omega)]
      omega
  have hno : NoOverflow t lo size n a := by
    refine ⟨by omega, hbuf, ?_, by omega, fun hn => ?_⟩
    · split at hrequired <;> omega
    · rw [if_neg hn] at hrequired
      omega
  rw [new_eq hno ha, if_neg, Option.isSome_some]
  rintro (h | ⟨hn, h⟩)
  · split at hrequired <;> omega
  · rw [if_neg hn] at hrequired
    omega

end New

end PoolAllocator

end DiscoSkip
