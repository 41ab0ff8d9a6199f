import DiscoSkip.Fusee
import DiscoSkip.Lib.Packing
import DiscoSkip.Lib.Quorum
import Mathlib.Data.Set.Pairwise.List

/-!
# The data slots of FUSEE

A client writes each key/value pair under an id of its own, and to an entry of every
server: the ids of a client go up from its process id by the number of clients, and an
id is for the entry of its remainder by the number of entries (`keysPerServer`). There
are as many entries as all clients may write pairs, so the table is full in the end,
its first entries holding the last pairs of some clients, whose ids have gone past its
end.

If no client writes more pairs than it may, no entry is written twice (`slots_apart`):
the ids of all clients are different, and so close together that no two of them can
have the same remainder. All of it needs that the bytes of the table, and the ids, can be
counted in words of 64 bits; where they cannot, a client may overwrite its own first
entry by its second one (`slots_overlap`).
-/

namespace DiscoSkip.Fusee

open Lib

/-- What the table of entries depends on. -/
structure DataLayout where
  numClients : UInt64
  numServers : UInt64
  numKeys : UInt64
  maxNumUpdates : UInt64
  keySize : UInt32
  valueSize : UInt32
  deriving DecidableEq, Repr

/-- The bytes of a `FullKVEntry`, without the key and the value. -/
def sizeofFullKVEntry : UInt32 := 48

namespace DataLayout

variable (l : DataLayout)

def rawKVSize : UInt32 := 1 * (l.keySize + l.valueSize)

def fullEntrySize : UInt32 := sizeofFullKVEntry + l.rawKVSize

/-- The entries of a server: one for every pair that a client inserts or updates. -/
def keysPerServer : UInt64 := (l.numKeys + l.maxNumUpdates) * l.numClients

def dataSize : UInt64 := l.fullEntrySize.toUInt64 * l.keysPerServer

def serverDataOffset : UInt64 := 0

def serverSize : UInt64 := l.dataSize

def getServerEntryAddress (region i : UInt64) : UInt64 :=
  region + serverDataOffset + l.fullEntrySize.toUInt64 * (i % l.keysPerServer)

/-- The process id of a client, after those of the servers. -/
def procId (c : ℕ) : UInt64 := l.numServers + 1 + c.toUInt64

end DataLayout

/-! ## Writing -/

/-- The clients: the next id of each, and how many pairs it has written. -/
structure Writers where
  nextKvId : ℕ → UInt64
  writeCount : ℕ → ℕ

namespace DataLayout

variable (l : DataLayout)

/-- A client writes a pair, under its next id. -/
def write (t : Writers) (c : ℕ) : Option (UInt64 × Writers) :=
  if c < l.numClients.toNat then
    some (t.nextKvId c,
      { nextKvId := Function.update t.nextKvId c (t.nextKvId c + l.numClients)
        writeCount := Function.update t.writeCount c (t.writeCount c + 1) })
  else none

/-- The clients of FUSEE; the events are the ids that they write under. -/
def writers : Machine Writers ℕ UInt64 := ⟨⟨l.procId, fun _ => 0⟩, l.write⟩

/-- The number of pairs that a client may write. -/
def maxWrites : ℕ := l.numKeys.toNat + l.maxNumUpdates.toNat

/-- No client writes more pairs than it may. -/
def Guard (t : Writers) (c : ℕ) : Prop := t.writeCount c < l.maxWrites

instance decidableGuard (t : Writers) (c : ℕ) : Decidable (l.Guard t c) :=
  inferInstanceAs (Decidable (_ < _))

/-- The ids `ids` are for different entries of a server, which do not overlap and are in
    its region, wherever it is. -/
structure SlotsApart (ids : List UInt64) : Prop where
  distinct : (ids.map (· % l.keysPerServer)).Nodup
  apart : ∀ region, ids.Pairwise fun i j =>
    Disjoint (area (l.getServerEntryAddress region i) l.fullEntrySize.toNat)
      (area (l.getServerEntryAddress region j) l.fullEntrySize.toNat)
  within : ∀ region, ∀ i ∈ ids,
    area (l.getServerEntryAddress region i) l.fullEntrySize.toNat ⊆ area region l.serverSize.toNat

/-! ## Ids -/

/-- The number of entries, if it can be counted. -/
def tableEntries : ℕ := l.maxWrites * l.numClients.toNat

/-- The ids and the bytes of the table can be counted in words. -/
structure Counted : Prop where
  ids : l.numServers.toNat + l.tableEntries < 2 ^ 64
  bytes : l.fullEntrySize.toNat * l.tableEntries < 2 ^ 64

/-- The id of the `j`-th pair of a client, if it can be counted. -/
def kvId (c j : ℕ) : ℕ := l.numServers.toNat + 1 + c + j * l.numClients.toNat

/-- The pairs that the clients may write, by client and number. -/
def pairs : Set (ℕ × ℕ) := {p | p.1 < l.numClients.toNat ∧ p.2 < l.maxWrites}

/-- The entry of a pair. -/
def entryOf (p : ℕ × ℕ) : ℕ := l.kvId p.1 p.2 % l.tableEntries

/-- The ids are those that the updates of a key are about. -/
theorem kvId_eq {l : DataLayout} {cfg : Config} (hs : cfg.numServers = l.numServers.toNat)
    (hc : cfg.numClients = l.numClients.toNat) (c j : ℕ) : l.kvId c j = cfg.kvId c j := by
  rw [kvId, Config.kvId, hs, hc]

section Ids

variable {l} {p p' : ℕ × ℕ}

/-- The ids of the pairs follow on each other, from that of the first client on. -/
theorem pair_lt (hp : p ∈ l.pairs) : p.1 + p.2 * l.numClients.toNat < l.tableEntries :=
  calc p.1 + p.2 * l.numClients.toNat < l.numClients.toNat + p.2 * l.numClients.toNat :=
        Nat.add_lt_add_right hp.1 _
    _ = (p.2 + 1) * l.numClients.toNat := by rw [Nat.succ_mul, Nat.add_comm]
    _ ≤ l.tableEntries := Nat.mul_le_mul_right _ hp.2

/-- No two pairs have the same entry. -/
theorem entryOf_injOn : Set.InjOn l.entryOf l.pairs := by
  intro p hp p' hp' h
  rw [entryOf, entryOf, kvId, kvId, Nat.add_assoc (_ + 1), Nat.add_assoc (_ + 1)] at h
  obtain ⟨h1, h2⟩ := add_mul_inj hp.1 hp'.1
    (window_inj le_rfl _ (pair_lt hp) (pair_lt hp') h)
  exact Prod.ext h1 h2

theorem packing_pairs :
    Packing l.pairs (fun p => l.fullEntrySize.toNat * l.entryOf p)
      (fun _ => l.fullEntrySize.toNat) (l.fullEntrySize.toNat * l.tableEntries) :=
  (Packing.stride le_rfl l.tableEntries).of_map entryOf_injOn
    (fun _ hp => Nat.mod_lt _ (Nat.zero_lt_of_lt (pair_lt hp))) (fun _ _ => rfl) (fun _ _ => le_rfl)
    le_rfl

variable (h : l.Counted)

include h in
theorem toNat_keysPerServer : l.keysPerServer.toNat = l.tableEntries := by
  have hlt : l.tableEntries < 2 ^ 64 := lt_of_le_of_lt (Nat.le_add_left _ _) h.ids
  rw [keysPerServer, UInt64.toNat_mul, UInt64.toNat_add, Nat.mod_mul_mod]
  exact Nat.mod_eq_of_lt hlt

include h in
theorem toNat_serverSize : l.serverSize.toNat = l.fullEntrySize.toNat * l.tableEntries := by
  rw [serverSize, dataSize, UInt64.toNat_mul, UInt32.toNat_toUInt64, toNat_keysPerServer h]
  exact Nat.mod_eq_of_lt h.bytes

include h in
/-- An id is for the entry of its pair. -/
theorem toNat_kvId_mod (hp : p ∈ l.pairs) :
    (UInt64.ofNat (l.kvId p.1 p.2) % l.keysPerServer).toNat = l.entryOf p := by
  have hlt : l.kvId p.1 p.2 < 2 ^ 64 := by
    have := pair_lt hp
    have := h.ids
    rw [kvId]
    omega
  rw [UInt64.toNat_mod, toNat_keysPerServer h, UInt64.toNat_ofNat_of_lt' hlt, entryOf]

include h in
theorem toNat_entryAddress_sub (region : UInt64) (hp : p ∈ l.pairs) :
    (l.getServerEntryAddress region (UInt64.ofNat (l.kvId p.1 p.2)) - region).toNat =
      l.fullEntrySize.toNat * l.entryOf p := by
  rw [getServerEntryAddress, serverDataOffset, add_zero, add_sub_cancel_left, UInt64.toNat_mul,
    UInt32.toNat_toUInt64, toNat_kvId_mod h hp]
  exact packing_pairs.offset_mod h.bytes hp

end Ids

/-! ## Runs -/

/-- The clients have written the pairs that they have counted. -/
structure Inv (tr : List UInt64) (t : Writers) : Prop where
  next : ∀ c, t.nextKvId c = UInt64.ofNat (l.kvId c (t.writeCount c))
  count : ∀ c, t.writeCount c ≤ l.maxWrites
  written : ∃ ps : List (ℕ × ℕ), tr = ps.map (fun p => UInt64.ofNat (l.kvId p.1 p.2)) ∧ ps.Nodup ∧
    ∀ p ∈ ps, p.1 < l.numClients.toNat ∧ p.2 < t.writeCount p.1

namespace Inv

variable {l}

theorem init : l.Inv [] l.writers.init where
  next c := by
    change l.procId c = UInt64.ofNat (l.kvId c 0)
    simp only [kvId, Nat.zero_mul, Nat.add_zero, UInt64.ofNat_add, UInt64.ofNat_toNat]
    rfl
  count _ := Nat.zero_le _
  written := ⟨[], rfl, List.nodup_nil, fun _ hp => absurd hp List.not_mem_nil⟩

theorem step {tr : List UInt64} {t t' : Writers} {e : UInt64} (hi : l.Inv tr t)
    (hst : l.writers.Step l.Guard t e t') : l.Inv (e :: tr) t' := by
  obtain ⟨c, hg, hc⟩ := hst
  change l.write t c = some (e, t') at hc
  rw [write] at hc
  split at hc
  · next hlt =>
    obtain ⟨rfl, rfl⟩ := Prod.mk.inj (Option.some.inj hc)
    obtain ⟨ps, rfl, hnd, hps⟩ := hi.written
    have hcount : ∀ c', t.writeCount c' ≤
        Function.update t.writeCount c (t.writeCount c + 1) c' := fun c' => by
      rw [Function.update_apply]
      split
      · next e => exact e ▸ Nat.le_succ _
      · exact le_rfl
    refine ⟨fun c' => ?_, fun c' => ?_, (c, t.writeCount c) :: ps, ?_, ?_, ?_⟩
    · dsimp only
      by_cases e : c' = c
      · subst e
        rw [Function.update_self, Function.update_self, hi.next, kvId, kvId, Nat.succ_mul,
          ← Nat.add_assoc, UInt64.ofNat_add (_ + _) l.numClients.toNat, UInt64.ofNat_toNat]
      · rw [Function.update_of_ne e, Function.update_of_ne e, hi.next]
    · dsimp only
      by_cases e : c' = c
      · subst e
        rw [Function.update_self]
        exact hg
      · rw [Function.update_of_ne e]
        exact hi.count c'
    · rw [List.map_cons, hi.next]
    · -- the pair is new, since the pairs written are those counted before
      exact List.nodup_cons.2 ⟨fun hp => Nat.lt_irrefl _ (hps _ hp).2, hnd⟩
    · intro p hp
      obtain rfl | hp := List.mem_cons.1 hp
      · refine ⟨hlt, ?_⟩
        dsimp only
        rw [Function.update_self]
        exact Nat.lt_succ_self _
      · exact ⟨(hps p hp).1, (hps p hp).2.trans_le (hcount p.1)⟩
  · exact absurd hc (by simp)

theorem run {tr : List UInt64} {t : Writers} (hr : l.writers.Run l.Guard tr t) : l.Inv tr t :=
  Trace.invariant init (fun _ _ _ _ _ hi hst => hi.step hst) hr

end Inv

end DataLayout

/-- If the ids and the bytes of the table can be counted, the ids that all clients have
    written under are for different entries, whatever order they wrote in. -/
theorem slots_apart {l : DataLayout} (h : l.Counted) {tr : List UInt64} {t : Writers}
    (hr : l.writers.Run l.Guard tr t) : l.SlotsApart tr := by
  have hi := DataLayout.Inv.run hr
  obtain ⟨ps, rfl, hnd, hps⟩ := hi.written
  have hmem : ∀ p ∈ ps, p ∈ l.pairs := fun p hp =>
    ⟨(hps p hp).1, (hps p hp).2.trans_le (hi.count p.1)⟩
  refine ⟨?_, fun region => ?_, fun region i hi => ?_⟩
  · rw [List.map_map]
    refine List.Nodup.map_on (fun p hp p' hp' e => ?_) hnd
    have hmod := congrArg UInt64.toNat e
    rw [Function.comp_apply, Function.comp_apply, DataLayout.toNat_kvId_mod h (hmem p hp),
      DataLayout.toNat_kvId_mod h (hmem p' hp')] at hmod
    exact DataLayout.entryOf_injOn (hmem p hp) (hmem p' hp') hmod
  · rw [List.pairwise_map]
    exact List.Nodup.pairwise_of_set_pairwise hnd fun p hp p' hp' hne =>
      DataLayout.packing_pairs.disjoint_area h.bytes.le
        (fun _ hq => DataLayout.toNat_entryAddress_sub h region hq) (hmem p hp) (hmem p' hp') hne
  · obtain ⟨p, hp, rfl⟩ := List.mem_map.1 hi
    rw [DataLayout.toNat_serverSize h]
    exact DataLayout.packing_pairs.area_subset h.bytes.le
      (fun _ hq => DataLayout.toNat_entryAddress_sub h region hq) (hmem p hp)

/-- Two clients that write as much as they may: the last ids are past the table. -/
def DataLayout.small : DataLayout where
  numClients := 2
  numServers := 3
  numKeys := 1
  maxNumUpdates := 2
  keySize := 24
  valueSize := 64

theorem slots_apart_small : DataLayout.small.SlotsApart [9, 8, 7, 6, 5, 4] := by
  obtain ⟨s, hr⟩ : ∃ s, DataLayout.small.writers.Run DataLayout.small.Guard [9, 8, 7, 6, 5, 4] s :=
    Machine.run_of_play (G := DataLayout.small.Guard) [0, 1, 0, 1, 0, 1] (by decide +kernel)
  exact slots_apart (l := DataLayout.small) ⟨by decide, by decide⟩ hr

/-! ## Where numbers are too large -/

/-- A layout whose number of entries is too large for a word: two entries are left of it. -/
def DataLayout.overflowing : DataLayout where
  numClients := 2
  numServers := 1
  numKeys := 1
  maxNumUpdates := 2 ^ 63
  keySize := 24
  valueSize := 64

/-- Without a bound, the first two pairs of a client may go to the same entry. -/
theorem slots_overlap : ¬∀ (l : DataLayout) (tr : List UInt64) (t : Writers),
    l.writers.Run l.Guard tr t → l.SlotsApart tr := by
  intro h
  obtain ⟨s, hr⟩ : ∃ s, DataLayout.overflowing.writers.Run DataLayout.overflowing.Guard [4, 2] s :=
    Machine.run_of_play (G := DataLayout.overflowing.Guard) [0, 0] (by decide +kernel)
  exact absurd (h _ _ _ hr).distinct (by decide +kernel)

end DiscoSkip.Fusee
