import Mathlib.Data.List.Induction
import Mathlib.Data.List.Nodup
import Mathlib.Order.CompletePartialOrder
import Mathlib.Order.Interval.Set.Disjoint
import DiscoSkip.SwarmKv.Index

/-!
# Where a search looks

The table of a server is in rows of three buckets: two neighbouring ids have a bucket of
their own at the ends of a row, and share the one in between for what overflows. A group is
the window of two buckets of a row that has the bucket of its id.

* the windows of a key are inside the table, and in different rows (`Addressing`);
* the search goes through the bucket of each id, and then through the shared one, whatever
  else the key is (`places_map_addressOf`);
* the slot it takes for free was free, in a group with most free slots (`firstFree_spec`).

These are the parts of `addressed`.
-/

namespace DiscoSkip.SwarmKv

open Race

def nbBucketEntries : ℕ := 6

/-- The bytes of a bucket, of entries of 8 bytes. -/
def sizeofBucket : ℕ := nbBucketEntries * 8

def sizeofBucketGroup : ℕ := 2 * sizeofBucket

def nbBuckets (bucketBits : ℕ) : ℕ := 2 ^ (bucketBits - 1) * 3

/-- The bytes of the table of a server. -/
def indexSize (bucketBits : ℕ) : ℕ := nbBuckets bucketBits * sizeofBucket

section Windows

variable (cfg : IndexConfig) (h : HashedKey)

/-- The first bucket of a window. -/
def bucketLocation (group : Bool) : ℕ :=
  bucketOffsets cfg h group / 2 * 3 + (if bucketSide cfg h group then 1 else 0)

/-- Where a window starts in the table of its server. -/
def remoteReadAddress (group : Bool) : ℕ := bucketLocation cfg h group * sizeofBucket

/-- The bytes that are read for a group. -/
def window (group : Bool) : Set ℕ :=
  Set.Ico (remoteReadAddress cfg h group) (remoteReadAddress cfg h group + sizeofBucketGroup)

/-- The byte of the table at which a slot is. -/
def Addr.offset (a : Addr) : ℕ := a.bucket * sizeofBucket + a.entry * 8

end Windows

/-- The bucket of an id. -/
def mainBucket (id : ℕ) : ℕ := id / 2 * 3 + id % 2 * 2

/-- The bucket that an id shares with its neighbour. -/
def overflowBucket (id : ℕ) : ℕ := id / 2 * 3 + 1

/-- The slots of a bucket. -/
def slots (server bucket : ℕ) : List Addr := (List.range nbBucketEntries).map (⟨server, bucket, ·⟩)

section Addressing

variable {cfg : IndexConfig} {h : HashedKey} {g : Bool}

/-- The first id is below `2 ^ bits`, the second one too, and of another row. -/
theorem bucketOffsets_spec (hbits : 2 ≤ cfg.bucketBits) :
    (∀ g, bucketOffsets cfg h g < 2 ^ cfg.bucketBits) ∧
      bucketOffsets cfg h false / 2 ≠ bucketOffsets cfg h true / 2 := by
  obtain ⟨b, hb⟩ : ∃ b, 2 ^ cfg.bucketBits = 2 * (2 * b) ∧ 0 < b := by
    obtain ⟨n, hn⟩ := Nat.exists_eq_add_of_le hbits
    exact ⟨2 ^ n, by rw [hn, pow_add]; omega, Nat.two_pow_pos n⟩
  have h₀ : h.word 0 &&& (2 ^ cfg.bucketBits - 1) < 2 ^ cfg.bucketBits := by
    rw [Nat.and_two_pow_sub_one_eq_mod]
    exact Nat.mod_lt _ (Nat.two_pow_pos _)
  have h₁ : h.word 1 % (2 ^ cfg.bucketBits - 1 - 1) < 2 ^ cfg.bucketBits - 1 - 1 :=
    Nat.mod_lt _ (by omega)
  simp only [bucketOffsets]
  generalize h.word 0 &&& (2 ^ cfg.bucketBits - 1) = id₀ at h₀ ⊢
  generalize h.word 1 % (2 ^ cfg.bucketBits - 1 - 1) = id₁ at h₁ ⊢
  refine ⟨?_, ?_⟩
  · rintro (_ | _)
    · exact h₀
    · simp only [if_true]
      split <;> omega
  · simp only [Bool.false_eq_true, if_false, if_true]
    split <;> omega

theorem bucketLocation_eq : bucketLocation cfg h g =
    bucketOffsets cfg h g / 2 * 3 + bucketOffsets cfg h g % 2 := by
  rw [bucketLocation, bucketSide]
  obtain hm | hm := Nat.mod_two_eq_zero_or_one (bucketOffsets cfg h g) <;> simp [hm]

/-- Each window is in its row of the table. -/
theorem bucketLocation_lt (cfg : IndexConfig) (h : HashedKey) (g : Bool) :
    bucketOffsets cfg h g / 2 * 3 ≤ bucketLocation cfg h g ∧
    bucketLocation cfg h g + 2 ≤ (bucketOffsets cfg h g / 2 + 1) * 3 := by
  rw [bucketLocation_eq]
  omega

theorem bucketLocation_inside (hbits : 2 ≤ cfg.bucketBits) :
    bucketLocation cfg h g + 2 ≤ nbBuckets cfg.bucketBits := by
  have hid : bucketOffsets cfg h g < 2 ^ cfg.bucketBits := (bucketOffsets_spec hbits).1 g
  have hpow : 2 ^ cfg.bucketBits = 2 ^ (cfg.bucketBits - 1) * 2 := by
    rw [← pow_succ, Nat.sub_add_cancel (by omega)]
  have hrow : bucketOffsets cfg h g / 2 + 1 ≤ 2 ^ (cfg.bucketBits - 1) := by omega
  exact (bucketLocation_lt cfg h g).2.trans (Nat.mul_le_mul_right 3 hrow)

theorem window_subset (hbits : 2 ≤ cfg.bucketBits) :
    window cfg h g ⊆ Set.Ico 0 (indexSize cfg.bucketBits) := by
  refine Set.Ico_subset_Ico (Nat.zero_le _) ?_
  rw [remoteReadAddress, sizeofBucketGroup, indexSize, ← Nat.add_mul]
  exact Nat.mul_le_mul_right _ (bucketLocation_inside hbits)

/-- Windows in different rows do not overlap. -/
theorem window_disjoint (hbits : 2 ≤ cfg.bucketBits) :
    Disjoint (window cfg h false) (window cfg h true) := by
  have hne := (bucketOffsets_spec (h := h) hbits).2
  rw [window, window, Set.Ico_disjoint_Ico, remoteReadAddress, remoteReadAddress,
    sizeofBucketGroup, ← Nat.add_mul, ← Nat.add_mul]
  have hlt₀ := bucketLocation_lt cfg h false
  have hlt₁ := bucketLocation_lt cfg h true
  obtain hlt | hlt := Nat.lt_or_gt_of_ne hne
  · refine (min_le_left _ _).trans (le_trans ?_ (le_max_right _ _))
    exact Nat.mul_le_mul_right _ (by omega)
  · refine (min_le_right _ _).trans (le_trans ?_ (le_max_left _ _))
    exact Nat.mul_le_mul_right _ (by omega)

/-- A place of the buffer is read from the bucket of the id or the one it shares. -/
theorem addressOf_eq (isOverflow : Bool) (e : ℕ) :
    addressOf cfg h ⟨g, bucketSide cfg h g != isOverflow, e⟩ = ⟨mainServerIdx cfg h,
      if isOverflow then overflowBucket (bucketOffsets cfg h g)
      else mainBucket (bucketOffsets cfg h g), e⟩ := by
  rw [addressOf, bucketSide, overflowBucket, mainBucket]
  obtain hm | hm := Nat.mod_two_eq_zero_or_one (bucketOffsets cfg h g) <;>
    cases isOverflow <;> simp [hm]

/-- The slots that are gone through, those of the bucket of each id first. -/
theorem places_map_addressOf : (places cfg h).map (addressOf cfg h) =
    [mainBucket (bucketOffsets cfg h false), mainBucket (bucketOffsets cfg h true),
      overflowBucket (bucketOffsets cfg h false),
      overflowBucket (bucketOffsets cfg h true)].flatMap (slots (mainServerIdx cfg h)) := by
  have hslots (g isOverflow : Bool) : ((List.range 6).map fun e =>
      (⟨g, bucketSide cfg h g != isOverflow, e⟩ : Place)).map (addressOf cfg h) =
        slots (mainServerIdx cfg h) (if isOverflow then overflowBucket (bucketOffsets cfg h g)
          else mainBucket (bucketOffsets cfg h g)) := by
    rw [List.map_map]
    exact List.map_congr_left fun e _ => addressOf_eq isOverflow e
  simp only [places, List.flatMap_cons, List.flatMap_nil, List.append_nil, List.map_append, hslots,
    Bool.false_eq_true, if_false, if_true, List.append_assoc]

/-- The four buckets of a key are different. -/
theorem buckets_nodup (hbits : 2 ≤ cfg.bucketBits) :
    [mainBucket (bucketOffsets cfg h false), mainBucket (bucketOffsets cfg h true),
      overflowBucket (bucketOffsets cfg h false),
      overflowBucket (bucketOffsets cfg h true)].Nodup := by
  have hne := (bucketOffsets_spec (h := h) hbits).2
  simp only [mainBucket, overflowBucket, List.nodup_cons, List.mem_cons, List.not_mem_nil, or_false,
    not_or, not_false_iff, List.nodup_nil, and_true]
  omega

/-- No slot is gone through twice. -/
theorem nodup_slots (server : ℕ) {bs : List ℕ} (hbs : bs.Nodup) :
    (bs.flatMap (slots server)).Nodup := by
  rw [List.nodup_flatMap]
  refine ⟨fun b _ => List.nodup_range.map fun e e' he => (Addr.mk.inj he).2.2, ?_⟩
  refine hbs.imp fun {b b'} hne => List.disjoint_left.2 fun a ha ha' => hne ?_
  obtain ⟨e, -, rfl⟩ := List.mem_map.1 ha
  obtain ⟨e', -, he'⟩ := List.mem_map.1 ha'
  exact (Addr.mk.inj he').2.1.symm

/-- A slot that is gone through is in the window of its group. -/
theorem offset_mem_window {p : Place} (hp : p ∈ places cfg h) :
    Set.Ico (addressOf cfg h p).offset ((addressOf cfg h p).offset + 8) ⊆
      window cfg h p.group := by
  simp only [places, List.mem_flatMap, List.mem_map, List.mem_range] at hp
  obtain ⟨isOverflow, -, g, -, e, he, rfl⟩ := hp
  refine Set.Ico_subset_Ico ?_ ?_ <;>
    simp only [remoteReadAddress, Addr.offset, addressOf, bucketLocation, sizeofBucketGroup,
      sizeofBucket, nbBucketEntries]
  · split <;> split <;> omega
  · split <;> split <;> omega

end Addressing

section FirstFree

variable {cfg : IndexConfig} {h : HashedKey} {buffer : Place → BucketEntry}

/-- The free places of a group. -/
def freeOf (buffer : Place → BucketEntry) (g : Bool) (ps : List Place) : List Place :=
  ps.filter fun p => p.group == g && !(buffer p).used

/-- After some places, the loop has counted the free ones of each group, and kept the first. -/
theorem foldl_visit (ps : List Place) (g : Bool) :
    (ps.foldl (SearchLoop.visit cfg h buffer) .init).groupFreeNb g = (freeOf buffer g ps).length ∧
      (ps.foldl (SearchLoop.visit cfg h buffer) .init).firstFree g =
        (freeOf buffer g ps).head?.map (addressOf cfg h) := by
  induction ps using List.reverseRecOn with
  | nil => exact ⟨rfl, rfl⟩
  | append_singleton ps p ih =>
    obtain ⟨hnb, hff⟩ := ih
    rw [List.foldl_append, List.foldl_cons, List.foldl_nil, SearchLoop.visit, freeOf,
      List.filter_append]
    change _ = (freeOf buffer g ps ++ _).length ∧ _ = (freeOf buffer g ps ++ _).head?.map _
    rw [List.filter_cons, List.filter_nil]
    cases hu : (buffer p).used
    · by_cases hg : p.group = g
      · subst hg
        simp only [Bool.not_false, if_true, Function.update_self, BEq.rfl, Bool.and_self, hnb,
          List.length_append, List.length_singleton, true_and, List.length_eq_zero_iff]
        -- the first free place of a group is kept
        split
        · next hnil => simp [hnil]
        · next hnil =>
          obtain ⟨q, qs, hq⟩ := List.exists_cons_of_ne_nil hnil
          rw [hff, hq, List.cons_append, List.head?_cons, List.head?_cons]
      · have hg' : g ≠ p.group := fun h => hg h.symm
        simp only [Bool.not_false, if_true, Function.update_of_ne hg', beq_false_of_ne hg,
          Bool.false_and, Bool.false_eq_true, if_false, List.append_nil]
        refine ⟨hnb, ?_⟩
        split
        · rw [Function.update_of_ne hg', hff]
        · exact hff
    · simp only [Bool.not_true, Bool.false_eq_true, if_false, Bool.and_false, List.append_nil]
      split <;> exact ⟨hnb, hff⟩

theorem nbFree_eq : (searchBuffer cfg h buffer).nbFree =
    (freeOf buffer false (places cfg h)).length + (freeOf buffer true (places cfg h)).length :=
  congrArg₂ (· + ·) (foldl_visit _ _).1 (foldl_visit _ _).1

/-- The slot taken for free, if any of those gone through is. -/
theorem firstFree_spec (hfree : 0 < (searchBuffer cfg h buffer).nbFree) :
    ∃ p ∈ places cfg h, (searchBuffer cfg h buffer).firstFree = some (addressOf cfg h p) ∧
      (buffer p).used = false ∧ ∀ g, (freeOf buffer g (places cfg h)).length ≤
        (freeOf buffer p.group (places cfg h)).length := by
  have hnb (g : Bool) : (SearchLoop.run cfg h buffer).groupFreeNb g = _ :=
    (foldl_visit (places cfg h) g).1
  have hff (g : Bool) : (SearchLoop.run cfg h buffer).firstFree g = _ :=
    (foldl_visit (places cfg h) g).2
  rw [nbFree_eq] at hfree
  simp only [searchBuffer, hnb]
  -- the group taken is one with most free slots, so that it has some
  obtain ⟨g, hg, hmax⟩ : ∃ g, decide ((freeOf buffer false (places cfg h)).length <
      (freeOf buffer true (places cfg h)).length) = g ∧ ∀ g',
        (freeOf buffer g' (places cfg h)).length ≤ (freeOf buffer g (places cfg h)).length := by
    by_cases hlt : (freeOf buffer false (places cfg h)).length <
        (freeOf buffer true (places cfg h)).length
    · exact ⟨true, decide_eq_true hlt, fun g' => by cases g' <;> omega⟩
    · exact ⟨false, decide_eq_false hlt, fun g' => by cases g' <;> omega⟩
  rw [hg, hff]
  have hne : freeOf buffer g (places cfg h) ≠ [] := by
    have h₀ := hmax false
    have h₁ := hmax true
    exact List.ne_nil_of_length_pos (by omega)
  obtain ⟨p, ps, hp⟩ := List.exists_cons_of_ne_nil hne
  have hmem : p ∈ freeOf buffer g (places cfg h) := hp ▸ List.mem_cons_self
  obtain ⟨hpl, hpg⟩ := List.mem_filter.1 hmem
  simp only [Bool.and_eq_true, beq_iff_eq, Bool.not_eq_true'] at hpg
  obtain ⟨rfl, hu⟩ := hpg
  exact ⟨p, hpl, by rw [hp]; rfl, hu, hmax⟩

end FirstFree

/-- How the slots of a key are addressed. -/
structure Addressed (cfg : IndexConfig) (h : HashedKey) : Prop where
  /-- Both windows are inside the table. -/
  inside : ∀ g, window cfg h g ⊆ Set.Ico 0 (indexSize cfg.bucketBits)
  disjoint : Disjoint (window cfg h false) (window cfg h true)
  /-- What is gone through has been read. -/
  read : ∀ p ∈ places cfg h, Set.Ico (addressOf cfg h p).offset ((addressOf cfg h p).offset + 8) ⊆
    window cfg h p.group
  /-- The slots gone through are those of the buckets of the ids, and then those of the
      shared ones, each once. -/
  scanned : (places cfg h).map (addressOf cfg h) =
    [mainBucket (bucketOffsets cfg h false), mainBucket (bucketOffsets cfg h true),
      overflowBucket (bucketOffsets cfg h false),
      overflowBucket (bucketOffsets cfg h true)].flatMap (slots (mainServerIdx cfg h))
  once : ((places cfg h).map (addressOf cfg h)).Nodup
  /-- The free ones of both groups are counted. -/
  counted : ∀ buffer, (searchBuffer cfg h buffer).nbFree =
    (freeOf buffer false (places cfg h)).length + (freeOf buffer true (places cfg h)).length
  /-- If a slot is free, one that is free is taken, in a group with most of them. -/
  firstFree : ∀ buffer, 0 < (searchBuffer cfg h buffer).nbFree →
    ∃ p ∈ places cfg h, (searchBuffer cfg h buffer).firstFree = some (addressOf cfg h p) ∧
      (buffer p).used = false ∧ ∀ g, (freeOf buffer g (places cfg h)).length ≤
        (freeOf buffer p.group (places cfg h)).length

/-- The slots of every key are addressed as they should be, if `1 << bucket_bits` is an
    `int` of at least two bits. -/
theorem addressed {cfg : IndexConfig} (hbits : cfg.bucketBits ∈ Set.Icc 2 30) (h : HashedKey) :
    Addressed cfg h where
  inside _ := window_subset hbits.1
  disjoint := window_disjoint hbits.1
  read _ := offset_mem_window
  scanned := places_map_addressOf
  once := by
    rw [places_map_addressOf]
    exact nodup_slots _ (buckets_nodup hbits.1)
  counted _ := nbFree_eq
  firstFree _ := firstFree_spec

theorem addressed_two : Addressed ⟨1, 2⟩ 0 := addressed (by decide) 0

end DiscoSkip.SwarmKv
