import Mathlib.Data.List.Perm.Basic
import Mathlib.Order.CompletePartialOrder
import Mathlib.Order.Interval.Set.Disjoint
import DiscoSkip.Memory.PoolAllocator

/-!
# The pools of an arena

Pools are made of the buffer of an arena, and objects are created and destroyed in them, in
any order; as long as they live, they may be written to. The free chunks of a pool are
linked through its part of the buffer, and together with those of its live objects, they are
all its chunks (`PoolOk`). This is kept by whatever is done to the pool (`create_spec`,
`destroy_spec`, `write_spec`), and by what is done to others, as their parts are disjoint.

Thus live objects are never given out again, nor do they overlap (`pools_sound`).
-/

namespace DiscoSkip

open Lib PoolAllocator

/-- A pool with its live objects: those it has created, and not destroyed since. -/
structure Pool where
  alloc : PoolAllocator
  live : List ℕ

namespace PoolAllocator

/-- The objects that a pool has chunks for. -/
def objects (p : PoolAllocator) : List ℕ :=
  (List.range p.maxObjects).map fun i => p.chunk i + p.layout.headerSize

end PoolAllocator

/-- The chunks of a pool are those that are linked and those of the live objects. -/
def PoolOk (mem : Memory) (q : Pool) : Prop :=
  ∃ free, Linked mem q.alloc.next free ∧
    (free.map (· + q.alloc.layout.headerSize) ++ q.live).Perm q.alloc.objects

section Pool

variable {q : Pool} {p : PoolAllocator} {mem mem' content : Memory} {lo hi obj : ℕ}
  {live free : List ℕ}

theorem mem_objects : obj ∈ p.objects ↔
    ∃ i < p.maxObjects, p.chunk i + p.layout.headerSize = obj := by
  simp [objects]

theorem nodup_objects (h : Placed p lo hi) : p.objects.Nodup := by
  refine List.Nodup.map_on (fun i _ j _ hij => ?_) List.nodup_range
  by_contra hne
  have hdis := h.disjoint hne
  have := eight_le p.layout
  omega

theorem exists_chunk_of_mem_free
    (hperm : (free.map (· + p.layout.headerSize) ++ live).Perm p.objects) {c : ℕ} (hc : c ∈ free) :
    ∃ i < p.maxObjects, p.chunk i = c := by
  have hmem : c + p.layout.headerSize ∈ p.objects :=
    hperm.subset (List.mem_append_left _ (List.mem_map_of_mem hc))
  obtain ⟨i, hi, heq⟩ := mem_objects.1 hmem
  exact ⟨i, hi, by omega⟩

theorem PoolOk.exists_chunk (h : PoolOk mem q) (ho : obj ∈ q.live) :
    ∃ i < q.alloc.maxObjects, q.alloc.chunk i + q.alloc.layout.headerSize = obj := by
  obtain ⟨free, -, hperm⟩ := h
  exact mem_objects.1 (hperm.subset (List.mem_append_right _ ho))

theorem PoolOk.nodup (h : PoolOk mem q) (hp : Placed q.alloc lo hi) : q.live.Nodup := by
  obtain ⟨free, -, hperm⟩ := h
  exact ((hperm.nodup_iff.2 (nodup_objects hp)).of_append_right)

/-- What is done outside its part does not matter to a pool. -/
theorem PoolOk.congr (h : PoolOk mem q) (hp : Placed q.alloc lo hi)
    (hm : ∀ x, q.alloc.bufStart ≤ x → x < q.alloc.stop → mem' x = mem x) : PoolOk mem' q := by
  obtain ⟨free, hl, hperm⟩ := h
  refine ⟨free, hl.congr fun c hc => Memory.load_congr fun x hx hx' => ?_, hperm⟩
  obtain ⟨i, hi, rfl⟩ := exists_chunk_of_mem_free hperm hc
  have hstop := hp.chunk_le_stop hi
  have hstart : q.alloc.bufStart ≤ q.alloc.chunk i := Placed.le_chunk
  have := eight_le q.alloc.layout
  exact hm x (by omega) (by omega)

/-- Writing to an object leaves all pointers, and what is outside the chunks. -/
theorem exists_fill (h : Placed p lo hi) {i : ℕ} (hi' : i < p.maxObjects) (mem content : Memory) :
    ∃ mem', mem.fill (p.chunk i + p.layout.headerSize) p.layout.sizeofT content = mem' ∧
      (∀ j, mem'.load (p.chunk j) = mem.load (p.chunk j)) ∧
      ∀ x, x < p.bufStart ∨ p.stop ≤ x → mem' x = mem x := by
  have hp := p.layout.pointer_le
  have ho := p.layout.object_le
  refine ⟨_, rfl, fun j => Memory.load_fill_of_disjoint ?_, fun x hx => Memory.fill_of_lt ?_⟩
  · obtain rfl | hne := eq_or_ne i j
    · omega
    · have := h.disjoint hne
      omega
  · have hstop := h.chunk_le_stop hi'
    have hstart : p.bufStart ≤ p.chunk i := Placed.le_chunk
    omega

/-- Chunks stay linked if all their pointers stay. -/
theorem linked_of_loads {next : ℕ} (hl : Linked mem next free)
    (hperm : (free.map (· + p.layout.headerSize) ++ live).Perm p.objects)
    (hm : ∀ j, mem'.load (p.chunk j) = mem.load (p.chunk j)) : Linked mem' next free := by
  refine hl.congr fun c hc => ?_
  obtain ⟨j, -, rfl⟩ := exists_chunk_of_mem_free hperm hc
  exact hm j

theorem poolOk_of_linked {next : ℕ} (hl : Linked mem next free)
    (hperm : (free.map (· + p.layout.headerSize) ++ live).Perm p.objects) :
    PoolOk mem ⟨{ p with next }, live⟩ := ⟨free, hl, hperm⟩

theorem write_spec (content : Memory) (h : PoolOk mem q) (hp : Placed q.alloc lo hi)
    (ho : obj ∈ q.live) :
    ∃ mem', mem.fill obj q.alloc.layout.sizeofT content = mem' ∧ PoolOk mem' q ∧
      ∀ x, x < q.alloc.bufStart ∨ q.alloc.stop ≤ x → mem' x = mem x := by
  obtain ⟨i, hi, rfl⟩ := h.exists_chunk ho
  obtain ⟨mem', hfill, hload, hframe⟩ := exists_fill hp hi mem content
  obtain ⟨free, hl, hperm⟩ := h
  exact ⟨mem', hfill, ⟨free, linked_of_loads hl hperm hload, hperm⟩, hframe⟩

/-- Null is returned exactly if all objects live. -/
theorem create_eq_none_iff (h : PoolOk mem q) :
    (q.alloc.create mem content).1 = none ↔ q.live.length = q.alloc.maxObjects := by
  obtain ⟨free, hl, hperm⟩ := h
  have hlen : free.length + q.live.length = q.alloc.maxObjects := by
    simpa [objects] using hperm.length_eq
  rw [create]
  split
  · next h0 =>
    have hnil : free = [] := hl.eq_zero_iff.1 h0
    subst hnil
    exact iff_of_true rfl (by simpa using hlen)
  · next h0 =>
    have hpos : 0 < free.length := List.length_pos_iff.2 fun hnil => h0 (hl.eq_zero_iff.2 hnil)
    exact iff_of_false (by simp) (by omega)

/-- A new object is put with the live ones, and its chunk is no longer linked. -/
theorem create_spec (h : PoolOk mem q) (hp : Placed q.alloc lo hi) (content : Memory) :
    ∃ obj next mem', q.alloc.create mem content = (obj, { q.alloc with next }, mem') ∧
      PoolOk mem' ⟨{ q.alloc with next }, obj.toList ++ q.live⟩ ∧
      ∀ x, x < q.alloc.bufStart ∨ q.alloc.stop ≤ x → mem' x = mem x := by
  obtain ⟨free, hl, hperm⟩ := h
  by_cases h0 : q.alloc.next = 0
  · exact ⟨none, q.alloc.next, mem, by rw [create, if_pos h0], ⟨free, hl, hperm⟩, fun _ _ => rfl⟩
  · obtain ⟨free, rfl, hl'⟩ := hl.exists_cons h0
    obtain ⟨i, hi, hci⟩ := exists_chunk_of_mem_free hperm List.mem_cons_self
    obtain ⟨mem', hfill, hload, hframe⟩ := exists_fill hp hi mem content
    rw [hci] at hfill
    have hperm' : (free.map (· + q.alloc.layout.headerSize) ++
        (q.alloc.next + q.alloc.layout.headerSize) :: q.live).Perm q.alloc.objects :=
      List.perm_middle.trans hperm
    have hnext : mem'.load q.alloc.next = mem.load q.alloc.next := hci ▸ hload i
    rw [← hnext] at hl'
    refine ⟨some (q.alloc.next + q.alloc.layout.headerSize), mem'.load q.alloc.next, mem', ?_,
      poolOk_of_linked (linked_of_loads hl' hperm' hload) hperm', hframe⟩
    rw [create, if_neg h0, hfill]

/-- The chunk of a destroyed object is linked again. -/
theorem destroy_spec (h : PoolOk mem q) (hp : Placed q.alloc lo hi) (hlo : 0 < lo)
    (ho : obj ∈ q.live) (content : Memory) : ∃ next mem',
      q.alloc.destroy mem obj content = ({ q.alloc with next }, mem') ∧
      PoolOk mem' ⟨{ q.alloc with next }, q.live.erase obj⟩ ∧
      ∀ x, x < q.alloc.bufStart ∨ q.alloc.stop ≤ x → mem' x = mem x := by
  obtain ⟨i, hi, rfl⟩ := h.exists_chunk ho
  obtain ⟨mem₁, hfill, hload, hframe⟩ := exists_fill hp hi mem content
  obtain ⟨free, hl, hperm⟩ := h
  have hstop := hp.chunk_le_stop hi
  have hstart : q.alloc.bufStart ≤ q.alloc.chunk i := Placed.le_chunk
  have hle := hp.lo_le
  have hsize := eight_le q.alloc.layout
  have hnext : q.alloc.next < 2 ^ 64 := by
    obtain _ | ⟨c, free⟩ := free
    · exact hl ▸ Nat.two_pow_pos 64
    · obtain ⟨rfl, -, -⟩ := hl
      obtain ⟨j, hj, hc⟩ := exists_chunk_of_mem_free hperm List.mem_cons_self
      have := hp.chunk_le_stop hj
      have := hp.stop_le
      have := hp.hi_lt
      omega
  have hperm' : ((q.alloc.chunk i :: free).map (· + q.alloc.layout.headerSize) ++
      q.live.erase (q.alloc.chunk i + q.alloc.layout.headerSize)).Perm q.alloc.objects :=
    (List.perm_middle.symm.trans ((List.perm_cons_erase ho).symm.append_left _)).trans hperm
  have hlinked : Linked (mem₁.store (q.alloc.chunk i) q.alloc.next) (q.alloc.chunk i)
      (q.alloc.chunk i :: free) := by
    refine (linked_of_loads hl hperm hload).cons (by omega) hnext fun c hc => ?_
    obtain ⟨j, -, rfl⟩ := exists_chunk_of_mem_free hperm hc
    -- the object is not linked already, as there would be two of it
    have hne : i ≠ j := by
      rintro rfl
      have hnd := hperm'.nodup_iff.2 (nodup_objects hp)
      rw [List.map_cons, List.cons_append, List.nodup_cons] at hnd
      exact hnd.1 (List.mem_append_left _ (List.mem_map_of_mem hc))
    have := hp.disjoint hne
    omega
  refine ⟨q.alloc.chunk i, mem₁.store (q.alloc.chunk i) q.alloc.next, ?_,
    poolOk_of_linked hlinked hperm', fun x hx => ?_⟩
  · rw [destroy, hfill, Nat.add_sub_cancel]
  · rw [Memory.store_of_lt (by omega), hframe x hx]

end Pool

/-! ## Runs -/

namespace Pools

/-- An arena with the pools it has made, and the memory of its buffer. -/
structure State where
  arena : ArenaPoolAllocator
  mem : Memory
  pools : ℕ → Option Pool
  created : ℕ

inductive Action
  | createPool (t : ChunkLayout) (maxObjects alignment : ℕ)
  | create (i : ℕ) (content : Memory)
  | destroy (i obj : ℕ) (content : Memory)
  | write (i obj : ℕ) (content : Memory)

section Machine

variable (bufStart bufSize : ℕ) (mem : Memory)

def machine : Machine State Action Action where
  init := ⟨.new bufStart bufSize, mem, fun _ => none, 0⟩
  step s a := match a with
    | .createPool t maxObjects alignment =>
      (s.arena.createPool s.mem t maxObjects alignment).map fun (p, arena, mem) =>
        (a, ⟨arena, mem, Function.update s.pools s.created (some ⟨p, []⟩), s.created + 1⟩)
    | .create i content => (s.pools i).map fun q =>
      let (obj, alloc, mem) := q.alloc.create s.mem content
      (a, { s with
        mem, pools := Function.update s.pools i (some ⟨alloc, obj.toList ++ q.live⟩) })
    | .destroy i obj content => (s.pools i).map fun q =>
      let (alloc, mem) := q.alloc.destroy s.mem obj content
      (a, { s with mem, pools := Function.update s.pools i (some ⟨alloc, q.live.erase obj⟩) })
    | .write i obj content => (s.pools i).map fun q =>
      (a, { s with mem := s.mem.fill obj q.alloc.layout.sizeofT content })

/-- Only live objects are destroyed and written to, and the addresses of new pools do not
    overflow. -/
def Guard (s : State) : Action → Prop
  | .createPool t maxObjects alignment =>
    NoOverflow t s.arena.bufNext s.arena.bufSize maxObjects alignment
  | .create _ _ => True
  | .destroy i obj _ | .write i obj _ => ∃ q, s.pools i = some q ∧ obj ∈ q.live

end Machine

section Runs

variable {bufStart bufSize lo hi : ℕ} {mem : Memory} {s s' : State} {a : Action}

/-- The part of a pool: its chunks. -/
def part (q : Pool) : Set ℕ := Set.Ico q.alloc.bufStart q.alloc.stop

/-- The chunk of an object, with its header. -/
def span (q : Pool) (obj : ℕ) : Set ℕ :=
  Set.Ico (obj - q.alloc.layout.headerSize)
    (obj - q.alloc.layout.headerSize + q.alloc.layout.sizeofChunk)

/-- A pool of the arena with the buffer from `lo` to `hi`. -/
structure InArena (lo hi : ℕ) (s : State) (q : Pool) : Prop where
  placed : ∃ lo' > 0, Placed q.alloc lo' hi
  lo_le : lo ≤ q.alloc.bufStart
  stop_le : q.alloc.stop ≤ s.arena.bufNext
  ok : PoolOk s.mem q

/-- The pools of an arena follow each other in its buffer. -/
structure Ok (lo hi : ℕ) (s : State) : Prop where
  lo_le : lo ≤ s.arena.bufNext
  bufSize : s.arena.bufNext + s.arena.bufSize = hi
  pools : ∀ i q, s.pools i = some q → i < s.created ∧ InArena lo hi s q
  ordered : ∀ i j q q', i < j → s.pools i = some q → s.pools j = some q' →
    q.alloc.stop ≤ q'.alloc.bufStart

/-- Changing a pool, as long as it stays where it is, and nothing else is changed. -/
theorem Ok.update (h : Ok lo hi s) {i : ℕ} {q : Pool} {next : ℕ} {live : List ℕ} {mem' : Memory}
    (hq : s.pools i = some q) (hok : PoolOk mem' ⟨{ q.alloc with next }, live⟩)
    (hm : ∀ x, x < q.alloc.bufStart ∨ q.alloc.stop ≤ x → mem' x = s.mem x) :
    Ok lo hi { s with
      mem := mem'
      pools := Function.update s.pools i (some ⟨{ q.alloc with next }, live⟩) } := by
  obtain ⟨hi, ⟨lo', hlo', hp⟩, hlo, hstop, -⟩ := h.pools i q hq
  have hget {j : ℕ} {r : Pool}
      (hr : Function.update s.pools i (some ⟨{ q.alloc with next }, live⟩) j = some r) :
      (j = i ∧ r = ⟨{ q.alloc with next }, live⟩) ∨ (j ≠ i ∧ s.pools j = some r) := by
    rw [Function.update_apply] at hr
    split at hr
    · next hj => exact .inl ⟨hj, (Option.some.inj hr).symm⟩
    · next hj => exact .inr ⟨hj, hr⟩
  refine ⟨h.lo_le, h.bufSize, fun j r hr => ?_, fun j k r r' hjk hr hr' => ?_⟩
  · obtain ⟨rfl, rfl⟩ | ⟨hj, hr⟩ := hget hr
    · exact ⟨hi, ⟨lo', hlo', ⟨hp.1, hp.2, hp.3, hp.4, hp.5, hp.6, hp.7, hp.8⟩⟩, hlo, hstop, hok⟩
    · obtain ⟨hjc, ⟨lo'', hlo'', hpr⟩, hlor, hstopr, hokr⟩ := h.pools j r hr
      refine ⟨hjc, ⟨lo'', hlo'', hpr⟩, hlor, hstopr, hokr.congr hpr fun x hx hx' => hm x ?_⟩
      obtain hlt | hlt := Nat.lt_or_gt_of_ne hj
      · exact .inl (hx'.trans_le (h.ordered j i r q hlt hr hq))
      · exact .inr ((h.ordered i j q r hlt hq hr).trans hx)
  · obtain ⟨rfl, rfl⟩ | ⟨-, hj⟩ := hget hr <;> obtain ⟨rfl, rfl⟩ | ⟨-, hk⟩ := hget hr'
    · exact absurd hjk (lt_irrefl _)
    · exact h.ordered j k q r' hjk hq hk
    · exact h.ordered j k r q hjk hj hq
    · exact h.ordered j k r r' hjk hj hk

/-- A new pool takes the next part of the buffer. -/
theorem Ok.createPool (h : Ok lo hi s) (hlo : 0 < lo) {t : ChunkLayout}
    {maxObjects alignment : ℕ} {p : PoolAllocator} {arena : ArenaPoolAllocator} {mem' : Memory}
    (hno : NoOverflow t s.arena.bufNext s.arena.bufSize maxObjects alignment)
    (hc : s.arena.createPool s.mem t maxObjects alignment = some (p, arena, mem')) :
    Ok lo hi ⟨arena, mem', Function.update s.pools s.created (some ⟨p, []⟩), s.created + 1⟩ := by
  rw [ArenaPoolAllocator.createPool] at hc
  obtain ⟨⟨p', mem''⟩, hnew, hc⟩ := Option.bind_eq_some_iff.1 hc
  have hpos : 0 < s.arena.bufNext := hlo.trans_le h.lo_le
  obtain ⟨hp, hlinked, hm⟩ := new_spec hno hpos hnew
  rw [h.bufSize] at hp
  obtain ⟨start, hrem, hstop, hlt, hle⟩ := remaining_spec hp
  simp only [hrem, Option.some.injEq, Prod.mk.injEq] at hc
  obtain ⟨rfl, rfl, rfl⟩ := hc
  have hfresh : s.pools s.created = none := by
    refine Option.eq_none_iff_forall_ne_some.2 fun q hq => ?_
    exact absurd (h.pools _ q hq).1 (lt_irrefl _)
  -- the parts of the other pools are before the new one
  have hkeep {j : ℕ} {r : Pool} (hr : s.pools j = some r) :
      r.alloc.stop ≤ p'.bufStart ∧ PoolOk mem'' r := by
    obtain ⟨-, ⟨lo', -, hpr⟩, -, hstopr, hokr⟩ := h.pools j r hr
    have hle' : r.alloc.stop ≤ p'.bufStart := hstopr.trans hp.lo_le
    exact ⟨hle', hokr.congr hpr fun x _ hx => hm x (.inl (hx.trans_le hle'))⟩
  have hok : PoolOk mem'' ⟨p', []⟩ := by
    refine ⟨_, hlinked, ?_⟩
    rw [List.map_map, List.append_nil]
    exact List.Perm.refl _
  have hget {j : ℕ} {r : Pool} (hr : Function.update s.pools s.created (some ⟨p', []⟩) j = some r) :
      (j = s.created ∧ r = ⟨p', []⟩) ∨ (j < s.created ∧ s.pools j = some r) := by
    rw [Function.update_apply] at hr
    split at hr
    · next hj => exact .inl ⟨hj, (Option.some.inj hr).symm⟩
    · exact .inr ⟨(h.pools j r hr).1, hr⟩
  refine ⟨h.lo_le.trans hlt.le, Nat.add_sub_cancel' hle, fun j r hr => ?_,
    fun j k r r' hjk hr hr' => ?_⟩
  · obtain ⟨rfl, rfl⟩ | ⟨hj, hr⟩ := hget hr
    · exact ⟨Nat.lt_succ_self _, ⟨_, hpos, hp⟩, h.lo_le.trans hp.lo_le, hstop, hok⟩
    · obtain ⟨-, hpr, hlor, hstopr, -⟩ := h.pools j r hr
      exact ⟨hj.trans (Nat.lt_succ_self _), hpr, hlor, hstopr.trans hlt.le, (hkeep hr).2⟩
  · obtain ⟨rfl, rfl⟩ | ⟨hj, hr⟩ := hget hr <;> obtain ⟨rfl, rfl⟩ | ⟨hk, hk'⟩ := hget hr'
    · exact absurd hjk (lt_irrefl _)
    · exact absurd hjk hk.not_gt
    · exact (hkeep hr).1
    · exact h.ordered j k r r' hjk hr hk'

theorem Ok.step (h : Ok lo hi s) (hlo : 0 < lo)
    (hst : (machine bufStart bufSize mem).Step Guard s a s') : Ok lo hi s' := by
  obtain ⟨b, hg, hst⟩ := hst
  cases b with
  | createPool t n al =>
    obtain ⟨⟨p, arena, mem'⟩, hc, he⟩ := Option.map_eq_some_iff.1 hst
    obtain ⟨-, rfl⟩ := Prod.mk.inj he
    exact h.createPool hlo hg hc
  | create i content =>
    obtain ⟨q, hq, he⟩ := Option.map_eq_some_iff.1 hst
    obtain ⟨-, ⟨lo', -, hp⟩, -, -, hok⟩ := h.pools i q hq
    obtain ⟨obj, next, mem', hc, hok', hm⟩ := create_spec hok hp content
    rw [hc] at he
    obtain ⟨-, rfl⟩ := Prod.mk.inj he
    exact h.update hq hok' hm
  | destroy i obj content =>
    obtain ⟨q, hq, he⟩ := Option.map_eq_some_iff.1 hst
    obtain ⟨q', hq', ho⟩ := hg
    obtain rfl : q = q' := Option.some.inj (hq.symm.trans hq')
    obtain ⟨-, ⟨lo', hlo', hp⟩, -, -, hok⟩ := h.pools i q hq
    obtain ⟨next, mem', hc, hok', hm⟩ := destroy_spec hok hp hlo' ho content
    rw [hc] at he
    obtain ⟨-, rfl⟩ := Prod.mk.inj he
    exact h.update hq hok' hm
  | write i obj content =>
    obtain ⟨q, hq, he⟩ := Option.map_eq_some_iff.1 hst
    obtain ⟨q', hq', ho⟩ := hg
    obtain rfl : q = q' := Option.some.inj (hq.symm.trans hq')
    obtain ⟨-, ⟨lo', hlo', hp⟩, -, -, hok⟩ := h.pools i q hq
    obtain ⟨mem', hfill, hok', hm⟩ := write_spec content hok hp ho
    obtain ⟨-, rfl⟩ := Prod.mk.inj he
    rw [hfill]
    have hsame : PoolOk mem' ⟨{ q.alloc with next := q.alloc.next }, q.live⟩ := hok'
    have hupd := h.update hq hsame hm
    rwa [Function.update_eq_self_iff.2 hq.symm] at hupd

theorem ok_of_run {tr : List Action} (hlo : 0 < bufStart)
    (h : (machine bufStart bufSize mem).Run Guard tr s) : Ok bufStart (bufStart + bufSize) s := by
  refine Trace.invariant (P := fun _ s => Ok bufStart (bufStart + bufSize) s) ?_ ?_ h
  · exact ⟨le_rfl, rfl, fun _ _ hq => absurd hq (by simp [machine]),
      fun _ _ _ _ _ hq => absurd hq (by simp [machine])⟩
  · intro tr s a s' _ ih hst
    exact ih.step hlo hst

/-- What can be relied on in an arena whose buffer is `buffer`. -/
structure Sound (buffer : Set ℕ) (s : State) : Prop where
  /-- Creating an object returns null exactly if as many as there may be live. -/
  null : ∀ i q, s.pools i = some q → ∀ content,
    (q.alloc.create s.mem content).1 = none ↔ q.live.length = q.alloc.maxObjects
  /-- No object is live twice. -/
  nodup : ∀ i q, s.pools i = some q → q.live.Nodup
  /-- Live objects are disjoint with their headers, of whatever pools. -/
  disjoint : ∀ i j q q', s.pools i = some q → s.pools j = some q' → ∀ o ∈ q.live, ∀ o' ∈ q'.live,
    (i, o) ≠ (j, o') → Disjoint (span q o) (span q' o')
  /-- They are inside the part of their pool, and aligned. -/
  inside : ∀ i q, s.pools i = some q → ∀ o ∈ q.live, span q o ⊆ part q
  aligned : ∀ i q, s.pools i = some q → ∀ o ∈ q.live, q.alloc.alignment ∣ o
  /-- The parts of the pools are disjoint, and inside the buffer. -/
  parts : ∀ i j q q', s.pools i = some q → s.pools j = some q' → i ≠ j →
    Disjoint (part q) (part q')
  part_subset : ∀ i q, s.pools i = some q → part q ⊆ buffer

theorem InArena.span_subset {q : Pool} (h : InArena lo hi s q) {obj : ℕ} (ho : obj ∈ q.live) :
    span q obj ⊆ part q := by
  obtain ⟨lo', -, hp⟩ := h.placed
  obtain ⟨i, hi, rfl⟩ := h.ok.exists_chunk ho
  rw [span, part, Nat.add_sub_cancel]
  exact Set.Ico_subset_Ico Placed.le_chunk (hp.chunk_le_stop hi)

/-- Different objects of a pool do not overlap. -/
theorem InArena.disjoint {q : Pool} (h : InArena lo hi s q) {o o' : ℕ} (ho : o ∈ q.live)
    (ho' : o' ∈ q.live) (hne : o ≠ o') : Disjoint (span q o) (span q o') := by
  obtain ⟨lo', -, hp⟩ := h.placed
  obtain ⟨i, -, rfl⟩ := h.ok.exists_chunk ho
  obtain ⟨j, -, rfl⟩ := h.ok.exists_chunk ho'
  rw [span, span, Nat.add_sub_cancel, Nat.add_sub_cancel, Set.Ico_disjoint_Ico]
  obtain hle | hle := hp.disjoint (i := i) (j := j) fun hij => hne (by rw [hij])
  · exact (min_le_left _ _).trans (hle.trans (le_max_right _ _))
  · exact (min_le_right _ _).trans (hle.trans (le_max_left _ _))

theorem Ok.disjoint (h : Ok lo hi s) {i j : ℕ} {q q' : Pool} (hq : s.pools i = some q)
    (hq' : s.pools j = some q') (hne : i ≠ j) : Disjoint (part q) (part q') := by
  rw [part, part, Set.Ico_disjoint_Ico]
  obtain hlt | hlt := Nat.lt_or_gt_of_ne hne
  · exact (min_le_left _ _).trans ((h.ordered i j q q' hlt hq hq').trans (le_max_right _ _))
  · exact (min_le_right _ _).trans ((h.ordered j i q' q hlt hq' hq).trans (le_max_left _ _))

theorem Ok.sound (h : Ok lo hi s) : Sound (Set.Ico lo hi) s where
  null i q hq _ := create_eq_none_iff (h.pools i q hq).2.ok
  nodup i q hq :=
    have ⟨_, _, hp⟩ := (h.pools i q hq).2.placed
    (h.pools i q hq).2.ok.nodup hp
  disjoint i j q q' hq hq' o ho o' ho' hne := by
    obtain rfl | hij := eq_or_ne i j
    · obtain rfl : q = q' := Option.some.inj (hq.symm.trans hq')
      exact (h.pools i q hq).2.disjoint ho ho' fun hoo => hne (by rw [hoo])
    · exact (h.disjoint hq hq' hij).mono ((h.pools i q hq).2.span_subset ho)
        ((h.pools j q' hq').2.span_subset ho')
  inside i q hq _ ho := (h.pools i q hq).2.span_subset ho
  aligned i q hq o ho := by
    obtain ⟨lo', -, hp⟩ := (h.pools i q hq).2.placed
    obtain ⟨k, -, rfl⟩ := (h.pools i q hq).2.ok.exists_chunk ho
    exact hp.dvd_object k
  parts _ _ _ _ := h.disjoint
  part_subset i q hq := by
    obtain ⟨lo', -, hp⟩ := (h.pools i q hq).2.placed
    exact Set.Ico_subset_Ico (h.pools i q hq).2.lo_le hp.stop_le

/-- Whatever is done with the pools of an arena at an address that is not null, its objects
    are sound; a pool for itself is the first one of an arena. And the constructor of a pool
    does not throw in a buffer of the space that is required. -/
theorem pools_sound (hlo : 0 < bufStart) (bufSize : ℕ) (mem : Memory) :
    (∀ tr s, (machine bufStart bufSize mem).Run Guard tr s →
      Sound (Set.Ico bufStart (bufStart + bufSize)) s) ∧
    ∀ t alignment maxObjects required, isPowerof2 alignment → bufStart + bufSize < 2 ^ 64 →
      ceilTo t.sizeofChunk alignment * (maxObjects - 1) + t.sizeofChunk + alignment +
        t.headerSize < 2 ^ 64 →
      alignedSpaceRequirement t alignment maxObjects = some required → required ≤ bufSize →
      (PoolAllocator.new t mem bufStart bufSize maxObjects alignment).isSome :=
  ⟨fun _ _ h => (ok_of_run hlo h).sound,
    fun _ _ _ _ ha hbuf hover hreq hsize => new_isSome ha hbuf hover hreq hsize mem⟩

end Runs

section Witness

instance NoOverflow.decidable (t : ChunkLayout) (bufStart bufSize n a : ℕ) :
    Decidable (NoOverflow t bufStart bufSize n a) :=
  decidable_of_iff
    (a < 2 ^ 64 ∧ bufStart + bufSize < 2 ^ 64 ∧ bufStart + t.headerSize + a ≤ 2 ^ 64 ∧
      t.sizeofChunk + a ≤ 2 ^ 64 ∧ (n ≠ 0 → ceilTo (bufStart + t.headerSize) a - t.headerSize +
        ceilTo t.sizeofChunk a * (n - 1) + t.sizeofChunk ≤ 2 ^ 64))
    ⟨fun ⟨h₁, h₂, h₃, h₄, h₅⟩ => ⟨h₁, h₂, h₃, h₄, h₅⟩,
      fun ⟨h₁, h₂, h₃, h₄, h₅⟩ => ⟨h₁, h₂, h₃, h₄, h₅⟩⟩

instance Guard.decidable (s : State) : DecidablePred (Guard s)
  | .createPool _ _ _ => NoOverflow.decidable _ _ _ _ _
  | .create _ _ => inferInstanceAs (Decidable True)
  | .destroy i obj _ | .write i obj _ =>
    match h : s.pools i with
    | none => isFalse fun ⟨_, hq, _⟩ => absurd (h.symm.trans hq) (by simp)
    | some q => decidable_of_iff (obj ∈ q.live)
        ⟨fun ho => ⟨q, h, ho⟩, fun ⟨_, hq, ho⟩ => Option.some.inj (h.symm.trans hq) ▸ ho⟩

/-- Chunks of a pointer and an object of four bytes. -/
def smallChunk : ChunkLayout := ⟨8, 4, 16, by decide, by decide⟩

theorem pools_sound_reused : ∃ s : State, Sound (Set.Ico 1001 (1001 + 100)) s ∧
    (s.pools 0).map Pool.live = some [1024, 1056] ∧ (s.pools 1).map Pool.live = some [1072] := by
  have hsound := @pools_sound 1001 (by decide) 100 fun _ => 0
  obtain ⟨tr, s, hr, hs⟩ := Lib.Machine.exists_run_of_play (G := Guard)
    (m := machine 1001 100 fun _ => 0)
    (fun r => ((r.2.pools 0).map Pool.live, (r.2.pools 1).map Pool.live))
    [.createPool smallChunk 2 32, .create 0 fun _ => 255, .create 0 fun _ => 255,
      .createPool smallChunk 1 1, .create 1 fun _ => 255, .create 0 fun _ => 1,
      .write 0 1056 fun _ => 3, .destroy 0 1024 fun _ => 255, .create 0 fun _ => 7]
    (b := (some [1024, 1056], some [1072])) (by decide +kernel)
  exact ⟨s, hsound.1 tr s hr, Prod.mk.inj hs⟩

end Witness

end Pools

end DiscoSkip
