import DiscoSkip.Lib.Packing
import DiscoSkip.SwarmKv.Layout
import Mathlib.Tactic.Ring

/-!
# The bytes of the memory

A server registers a log for every client, of so many entries, and then a place for
every key/value id. A log entry of a server has no array of tsps (it is *partial*), a
place has one, at its end. A client registers a block of log entries for every future,
the first one to write from and then one for every server to read to, each with an
array of tsps (they are *full*).

Entries are rounded up to 64 bytes. Their sizes are words of 32 bits, those of the
regions and the addresses words of 64 bits. Where none of them overflows (`Counted`), the
entries of both are kept apart (`entries_kept`): whatever ids are accepted, they
neither overlap nor get out of the region, and the operations on an entry stay in it.
-/

namespace DiscoSkip.SwarmKv

open Lib

/-- What the sizes depend on. -/
structure MemLayout where
  numClients : UInt64
  numServers : UInt64
  numTsp : UInt64
  asyncParallelism : UInt64
  keysPerServer : UInt64
  serverLogsPerClient : UInt64
  keySize : UInt32
  valueSize : UInt32
  deriving DecidableEq, Repr

/-- The bytes of a `KV`: a tsp and a checksum. -/
def sizeofKV : UInt32 := 24

/-- The bytes of a `LogEntry`: a `KV` after two words. -/
def sizeofLogEntry : UInt32 := 40

/-- The offsets of the parts of a `LogEntry`. -/
def offsetofNotif : UInt64 := 0
def offsetofFromTsp : UInt64 := 8
def offsetofKV : UInt64 := 16

namespace MemLayout

variable (m : MemLayout)

/-! ## Sizes -/

def rawKVSize : UInt32 := m.keySize + m.valueSize

def tspArraySize : UInt32 := (8 * m.numTsp).toUInt32

def rawDataSize : UInt32 := m.rawKVSize + m.tspArraySize

def partialKVSize : UInt32 := sizeofKV + m.rawKVSize

def fullKVSize : UInt32 := sizeofKV + m.rawDataSize

def valueOffset : UInt64 := sizeofKV.toUInt64 + m.keySize.toUInt64

def tspArrayOffset : UInt64 := m.valueOffset + m.valueSize.toUInt64

def clientTspOffset (clientIdx : UInt64) : UInt64 := m.tspArrayOffset + 8 * (clientIdx % m.numTsp)

def partialLogEntrySize : UInt32 := sizeofLogEntry + m.rawKVSize

def fullLogEntrySize : UInt32 := sizeofLogEntry + m.rawDataSize

/-- A size, up to a multiple of 64. -/
def withPadding (size : UInt32) : UInt64 := (((size.toUInt64 - 1) >>> 6) + 1) <<< 6

def fullKVSizeWithPadding : UInt64 := withPadding m.fullKVSize

def fullLogEntrySizeWithPadding : UInt64 := withPadding m.fullLogEntrySize

def partialLogEntrySizeWithPadding : UInt64 := withPadding m.partialLogEntrySize

def serverLogSize : UInt64 :=
  m.partialLogEntrySizeWithPadding * m.serverLogsPerClient * m.numClients

def clientLogSize : UInt64 :=
  m.fullLogEntrySizeWithPadding * (1 + m.numServers) * m.asyncParallelism

def serverLogsOffset : UInt64 := 0

def serverDataOffset : UInt64 := m.serverLogSize

def serverSize : UInt64 := m.serverLogSize + m.fullKVSizeWithPadding * m.keysPerServer

def clientLogsOffset : UInt64 := 0

def clientSize : UInt64 := m.clientLogSize

/-! ## Addresses -/

def getServerLogAddress (region clientIdx logId : UInt64) : Except String UInt64 :=
  if clientIdx ≥ m.numClients then
    .error s!"Client id out of range: {clientIdx} (num: {m.numClients})"
  else if logId ≥ m.serverLogsPerClient then
    .error s!"Log id out of range: {logId} (num: {m.serverLogsPerClient})"
  else .ok (region + serverLogsOffset +
    m.partialLogEntrySizeWithPadding * (logId + m.serverLogsPerClient * clientIdx))

def getServerKVAddress (region kvId : UInt64) : Except String UInt64 :=
  if kvId ≥ m.keysPerServer then
    .error s!"Key id out of range: {kvId} (num: {m.keysPerServer})"
  else .ok (region + m.serverDataOffset + m.fullKVSizeWithPadding * kvId)

def getClientLogAddress (clientLocalRegion logblockId sublogId : UInt64) : Except String UInt64 :=
  if sublogId ≥ 1 + m.numServers then
    .error s!"Sub-log id out of range: {sublogId} (num: 1 + {m.numServers})"
  else if logblockId ≥ m.asyncParallelism then
    .error s!"Log-block id out of range: {logblockId} (num: {m.asyncParallelism})"
  else .ok (clientLocalRegion + clientLogsOffset +
    m.fullLogEntrySizeWithPadding * (sublogId + logblockId * (1 + m.numServers)))

def getClientReadLogAddress (clientLocalRegion logblockId serverIdx : UInt64) :
    Except String UInt64 :=
  if serverIdx ≥ m.numServers then
    .error s!"Server id out of range: {serverIdx} (num: {m.numServers})"
  else m.getClientLogAddress clientLocalRegion logblockId (1 + serverIdx)

def getClientWriteLogAddress (clientLocalRegion logblockId : UInt64) : Except String UInt64 :=
  m.getClientLogAddress clientLocalRegion logblockId 0

end MemLayout

/-- The log entries that the protocol knows are those that have an address. -/
theorem isOk_getServerLogAddress {m : MemLayout} {cfg : Layout}
    (hclients : cfg.numClients = m.numClients.toNat)
    (hlogs : cfg.serverLogsPerClient = m.serverLogsPerClient.toNat) (region c l : UInt64) :
    (m.getServerLogAddress region c l).isOk = (cfg.getServerLogAddress c.toNat l.toNat).isSome := by
  simp only [Layout.getServerLogAddress, MemLayout.getServerLogAddress, hclients, hlogs,
    ← UInt64.lt_iff_toNat_lt]
  by_cases hc : c < m.numClients
  · by_cases hl : l < m.serverLogsPerClient
    · rw [if_neg (UInt64.not_le.2 hc), if_neg (UInt64.not_le.2 hl), if_pos ⟨hc, hl⟩]
      rfl
    · rw [if_neg (UInt64.not_le.2 hc), if_pos (UInt64.not_lt.1 hl), if_neg fun h => hl h.2]
      rfl
  · rw [if_pos (UInt64.not_lt.1 hc), if_neg fun h => hc h.1]
    rfl

/-! ## Entries -/

/-- An entry of a server. -/
inductive ServerEntry
  | log (clientIdx logId : UInt64)
  | kv (kvId : UInt64)
  deriving DecidableEq, Repr

/-- An entry of a client. -/
inductive ClientEntry
  | write (logblockId : UInt64)
  | read (logblockId serverIdx : UInt64)
  deriving DecidableEq, Repr

/-- What the operations on a server read or write: of a log entry, its notification word,
    what is written out of place and its key/value pair; of a place, all of it, its
    array of tsps, the slot of a client in it, and the key/value pair in place. -/
inductive ServerPart : ServerEntry → Type
  | notif {c l : UInt64} : ServerPart (.log c l)
  | outOfPlace {c l : UInt64} : ServerPart (.log c l)
  | logKV {c l : UInt64} : ServerPart (.log c l)
  | place {kv : UInt64} : ServerPart (.kv kv)
  | tspArray {kv : UInt64} : ServerPart (.kv kv)
  | tsp {kv : UInt64} (clientIdx : UInt64) : ServerPart (.kv kv)
  | inPlace {kv : UInt64} : ServerPart (.kv kv)

namespace MemLayout

variable (m : MemLayout)

def serverAddress (region : UInt64) : ServerEntry → Except String UInt64
  | .log c l => m.getServerLogAddress region c l
  | .kv kv => m.getServerKVAddress region kv

def serverEntrySize : ServerEntry → UInt32
  | .log _ _ => m.partialLogEntrySize
  | .kv _ => m.fullKVSize

def clientAddress (clientLocalRegion : UInt64) : ClientEntry → Except String UInt64
  | .write b => m.getClientWriteLogAddress clientLocalRegion b
  | .read b s => m.getClientReadLogAddress clientLocalRegion b s

/-- Where a part of an entry is, and its bytes. -/
def part : {e : ServerEntry} → ServerPart e → UInt64 × UInt32
  | _, .notif => (offsetofNotif, 8)
  | _, .outOfPlace => (offsetofFromTsp, m.partialLogEntrySize - offsetofFromTsp.toUInt32)
  | _, .logKV => (offsetofKV, m.partialKVSize)
  | _, .place => (0, m.fullKVSize)
  | _, .tspArray => (m.tspArrayOffset, m.tspArraySize)
  | _, .tsp c => (m.clientTspOffset c, 8)
  | _, .inPlace => (0, m.partialKVSize)

/-! ## Bytes -/

/-- The bytes of a key and a value. -/
def rawBytes : ℕ := m.keySize.toNat + m.valueSize.toNat

/-- The bytes of a full entry, after `head` bytes. -/
def fullBytes (head : ℕ) : ℕ := head + (m.rawBytes + 8 * m.numTsp.toNat)

def serverLogBytes : ℕ :=
  roundUp64 (40 + m.rawBytes) * m.serverLogsPerClient.toNat * m.numClients.toNat

def serverBytes : ℕ := m.serverLogBytes + roundUp64 (m.fullBytes 24) * m.keysPerServer.toNat

def clientBytes : ℕ :=
  roundUp64 (m.fullBytes 40) * (1 + m.numServers.toNat) * m.asyncParallelism.toNat

/-- The largest entry is a word of 32 bits, and the regions words of 64 bits. -/
structure Counted : Prop where
  entry : m.fullBytes 40 < 2 ^ 32
  server : m.serverBytes < 2 ^ 64
  client : m.clientBytes < 2 ^ 64

section Sizes

variable {m} (h : m.fullBytes 40 < 2 ^ 32)

include h in
theorem toNat_rawKVSize : m.rawKVSize.toNat = m.rawBytes := by
  rw [fullBytes] at h
  rw [rawKVSize, UInt32.toNat_add]
  exact Nat.mod_eq_of_lt (by rw [rawBytes] at h; omega)

include h in
theorem toNat_tspArraySize : m.tspArraySize.toNat = 8 * m.numTsp.toNat := by
  rw [fullBytes] at h
  have h8 : (8 : UInt64).toNat = 8 := rfl
  rw [tspArraySize, UInt64.toNat_toUInt32, UInt64.toNat_mul, h8]
  omega

include h in
theorem toNat_rawDataSize : m.rawDataSize.toNat = m.rawBytes + 8 * m.numTsp.toNat := by
  rw [rawDataSize, UInt32.toNat_add, toNat_rawKVSize h, toNat_tspArraySize h]
  rw [fullBytes] at h
  omega

include h in
theorem toNat_partialKVSize : m.partialKVSize.toNat = 24 + m.rawBytes := by
  have hs : sizeofKV.toNat = 24 := rfl
  rw [partialKVSize, UInt32.toNat_add, toNat_rawKVSize h, hs]
  rw [fullBytes] at h
  omega

include h in
theorem toNat_fullKVSize : m.fullKVSize.toNat = m.fullBytes 24 := by
  have hs : sizeofKV.toNat = 24 := rfl
  rw [fullKVSize, UInt32.toNat_add, toNat_rawDataSize h, hs, fullBytes]
  rw [fullBytes] at h
  omega

include h in
theorem toNat_partialLogEntrySize : m.partialLogEntrySize.toNat = 40 + m.rawBytes := by
  have hs : sizeofLogEntry.toNat = 40 := rfl
  rw [partialLogEntrySize, UInt32.toNat_add, toNat_rawKVSize h, hs]
  rw [fullBytes] at h
  omega

include h in
theorem toNat_fullLogEntrySize : m.fullLogEntrySize.toNat = m.fullBytes 40 := by
  have hs : sizeofLogEntry.toNat = 40 := rfl
  rw [fullLogEntrySize, UInt32.toNat_add, toNat_rawDataSize h, hs, fullBytes]
  rw [fullBytes] at h
  omega

include h in
theorem toNat_tspArrayOffset : m.tspArrayOffset.toNat = 24 + m.rawBytes := by
  have hs : sizeofKV.toNat = 24 := rfl
  rw [fullBytes, rawBytes] at h
  simp only [tspArrayOffset, valueOffset, UInt64.toNat_add, UInt32.toNat_toUInt64, hs, rawBytes]
  omega

end Sizes

/-- Padding rounds up, but for the size 0, from which it borrows. -/
theorem toNat_withPadding {size : UInt32} (h : 0 < size.toNat) :
    (withPadding size).toNat = roundUp64 size.toNat := by
  have hlt := size.toNat_lt
  have h1 : (1 : UInt64).toNat = 1 := rfl
  have h6 : (6 : UInt64).toNat % 64 = 6 := rfl
  have hsub : (size.toUInt64 - 1).toNat = size.toNat - 1 := by
    rw [UInt64.toNat_sub, UInt32.toNat_toUInt64, h1]
    omega
  rw [withPadding, UInt64.toNat_shiftLeft, UInt64.toNat_add, UInt64.toNat_shiftRight, hsub, h1, h6,
    Nat.shiftRight_eq_div_pow, Nat.shiftLeft_eq, roundUp64]
  omega

/-! ## The packing of the entries -/

/-- The offset of an entry of a server. -/
def serverOffset : ServerEntry → ℕ
  | .log c l => roundUp64 (40 + m.rawBytes) * m.serverLogsPerClient.toNat * c.toNat +
      roundUp64 (40 + m.rawBytes) * l.toNat
  | .kv kv => m.serverLogBytes + roundUp64 (m.fullBytes 24) * kv.toNat

def serverEntryBytes : ServerEntry → ℕ
  | .log _ _ => 40 + m.rawBytes
  | .kv _ => m.fullBytes 24

/-- The sub-log of an entry of a client in its block. -/
def sublog : ClientEntry → UInt64 × ℕ
  | .write b => (b, 0)
  | .read b s => (b, 1 + s.toNat)

def clientOffset (e : ClientEntry) : ℕ :=
  roundUp64 (m.fullBytes 40) * (1 + m.numServers.toNat) * (sublog e).1.toNat +
    roundUp64 (m.fullBytes 40) * (sublog e).2

def serverEntries : Set ServerEntry := {e | match e with
  | .log c l => c.toNat < m.numClients.toNat ∧ l.toNat < m.serverLogsPerClient.toNat
  | .kv kv => kv.toNat < m.keysPerServer.toNat}

def clientEntries : Set ClientEntry :=
  {e | (sublog e).1.toNat < m.asyncParallelism.toNat ∧ (sublog e).2 < 1 + m.numServers.toNat}

theorem packing_server :
    Packing m.serverEntries m.serverOffset m.serverEntryBytes m.serverBytes := by
  have hlog := (Packing.stride le_rfl m.numClients.toNat).nest
    (Packing.stride (le_roundUp64 (40 + m.rawBytes)) m.serverLogsPerClient.toNat)
  have h := hlog.append (Packing.stride (le_roundUp64 (m.fullBytes 24)) m.keysPerServer.toNat)
  refine h.of_map (f := fun
    | .log c l => .inl (c.toNat, l.toNat)
    | .kv kv => .inr kv.toNat) ?_ ?_ ?_ ?_ le_rfl
  · rintro (⟨c, l⟩ | kv) _ (⟨c', l'⟩ | kv') _ e <;> simp_all [UInt64.toNat_inj]
  · rintro (⟨c, l⟩ | kv) he <;> exact he
  · rintro (⟨c, l⟩ | kv) _ <;> rfl
  · rintro (⟨c, l⟩ | kv) _ <;> rfl

theorem sublog_inj {e e' : ClientEntry} (h : sublog e = sublog e') : e = e' := by
  rcases e with b | ⟨b, s⟩ <;> rcases e' with b' | ⟨b', s'⟩ <;>
    simp only [sublog, Prod.mk.injEq] at h
  · rw [h.1]
  · omega
  · omega
  · rw [h.1, UInt64.toNat_inj.1 (Nat.add_left_cancel h.2)]

theorem packing_client :
    Packing m.clientEntries m.clientOffset (fun _ => m.fullBytes 40) m.clientBytes := by
  have h := (Packing.stride le_rfl m.asyncParallelism.toNat).nest
    (Packing.stride (le_roundUp64 (m.fullBytes 40)) (1 + m.numServers.toNat))
  refine h.of_map (f := fun e => ((sublog e).1.toNat, (sublog e).2)) ?_ (fun e he => he)
    (fun _ _ => rfl) (fun _ _ => le_rfl) le_rfl
  intro e _ e' _ hee
  obtain ⟨h1, h2⟩ := Prod.mk.inj hee
  exact sublog_inj (Prod.ext (UInt64.toNat_inj.1 h1) h2)

/-! ## The addresses are at the offsets -/

section Addresses

variable {m} (h : m.Counted)

include h in
theorem toNat_partialLogEntrySizeWithPadding :
    m.partialLogEntrySizeWithPadding.toNat = roundUp64 (40 + m.rawBytes) := by
  have hsize := toNat_partialLogEntrySize h.entry
  rw [partialLogEntrySizeWithPadding, toNat_withPadding (by omega), hsize]

include h in
theorem toNat_fullKVSizeWithPadding :
    m.fullKVSizeWithPadding.toNat = roundUp64 (m.fullBytes 24) := by
  have hsize := toNat_fullKVSize h.entry
  have hpos : 0 < m.fullBytes 24 := Nat.add_pos_left (by decide) _
  rw [fullKVSizeWithPadding, toNat_withPadding (by omega), hsize]

include h in
theorem toNat_fullLogEntrySizeWithPadding :
    m.fullLogEntrySizeWithPadding.toNat = roundUp64 (m.fullBytes 40) := by
  have hsize := toNat_fullLogEntrySize h.entry
  have hpos : 0 < m.fullBytes 40 := Nat.add_pos_left (by decide) _
  rw [fullLogEntrySizeWithPadding, toNat_withPadding (by omega), hsize]

include h in
theorem toNat_serverLogSize : m.serverLogSize.toNat = m.serverLogBytes := by
  have hle : m.serverLogBytes < 2 ^ 64 := lt_of_le_of_lt (Nat.le_add_right _ _) h.server
  rw [serverLogSize, UInt64.toNat_mul, UInt64.toNat_mul, toNat_partialLogEntrySizeWithPadding h,
    Nat.mod_mul_mod]
  exact Nat.mod_eq_of_lt hle

include h in
theorem toNat_serverSize : m.serverSize.toNat = m.serverBytes := by
  rw [serverSize, UInt64.toNat_add, UInt64.toNat_mul, toNat_serverLogSize h,
    toNat_fullKVSizeWithPadding h, Nat.add_mod_mod]
  exact Nat.mod_eq_of_lt h.server

include h in
theorem toNat_clientSize : m.clientSize.toNat = m.clientBytes := by
  have h1 : (1 : UInt64).toNat = 1 := rfl
  simp only [clientSize, clientLogSize, UInt64.toNat_mul, UInt64.toNat_add,
    toNat_fullLogEntrySizeWithPadding h, h1, Nat.mul_mod_mod, Nat.mod_mul_mod]
  exact Nat.mod_eq_of_lt h.client

include h in
/-- An accepted entry of a server is at its offset. -/
theorem serverAddress_ok {region a : UInt64} {e : ServerEntry}
    (ha : m.serverAddress region e = .ok a) :
    e ∈ m.serverEntries ∧ (a - region).toNat = m.serverOffset e := by
  cases e with
  | log c l =>
    rw [serverAddress, getServerLogAddress] at ha
    split at ha
    · exact absurd ha (by simp)
    · split at ha
      · exact absurd ha (by simp)
      · next hc hl =>
        have he : ServerEntry.log c l ∈ m.serverEntries :=
          ⟨UInt64.lt_iff_toNat_lt.1 (UInt64.not_le.1 hc),
            UInt64.lt_iff_toNat_lt.1 (UInt64.not_le.1 hl)⟩
        obtain rfl := Except.ok.inj ha
        refine ⟨he, ?_⟩
        rw [← m.packing_server.offset_mod h.server he, serverOffset, serverLogsOffset, add_zero,
          add_sub_cancel_left]
        simp only [UInt64.toNat_mul, UInt64.toNat_add, toNat_partialLogEntrySizeWithPadding h,
          Nat.mul_mod_mod, Nat.add_mod_mod]
        congr 1
        ring
  | kv kv =>
    rw [serverAddress, getServerKVAddress] at ha
    split at ha
    · exact absurd ha (by simp)
    · next hk =>
      have he : ServerEntry.kv kv ∈ m.serverEntries :=
        UInt64.lt_iff_toNat_lt.1 (UInt64.not_le.1 hk)
      obtain rfl := Except.ok.inj ha
      refine ⟨he, ?_⟩
      rw [← m.packing_server.offset_mod h.server he, serverOffset, add_assoc,
        add_sub_cancel_left, serverDataOffset, UInt64.toNat_add, UInt64.toNat_mul,
        toNat_serverLogSize h, toNat_fullKVSizeWithPadding h, Nat.add_mod_mod]

include h in
/-- The sub-logs of a block can be counted, where there is a block. -/
theorem toNat_one_add_numServers (ha : 0 < m.asyncParallelism.toNat) :
    (1 + m.numServers).toNat = 1 + m.numServers.toNat := by
  have h1 : (1 : UInt64).toNat = 1 := rfl
  have hpos : 0 < roundUp64 (m.fullBytes 40) :=
    lt_of_lt_of_le (Nat.add_pos_left (by decide) _) (le_roundUp64 _)
  have hlt : 1 + m.numServers.toNat < 2 ^ 64 :=
    calc 1 + m.numServers.toNat ≤ roundUp64 (m.fullBytes 40) * (1 + m.numServers.toNat) :=
          Nat.le_mul_of_pos_left _ hpos
      _ ≤ m.clientBytes := Nat.le_mul_of_pos_right _ ha
      _ < 2 ^ 64 := h.client
  rw [UInt64.toNat_add, h1, Nat.mod_eq_of_lt hlt]

include h in
theorem getClientLogAddress_ok {region a b sub : UInt64}
    (ha : m.getClientLogAddress region b sub = .ok a) :
    b.toNat < m.asyncParallelism.toNat ∧ sub.toNat < 1 + m.numServers.toNat ∧
      (a - region).toNat = (roundUp64 (m.fullBytes 40) * (1 + m.numServers.toNat) * b.toNat +
        roundUp64 (m.fullBytes 40) * sub.toNat) % 2 ^ 64 := by
  rw [getClientLogAddress] at ha
  split at ha
  · exact absurd ha (by simp)
  · split at ha
    · exact absurd ha (by simp)
    · next hsub hb =>
      have hb' : b.toNat < m.asyncParallelism.toNat :=
        UInt64.lt_iff_toNat_lt.1 (UInt64.not_le.1 hb)
      have hone := toNat_one_add_numServers h (Nat.zero_lt_of_lt hb')
      refine ⟨hb', ?_, ?_⟩
      · rw [← hone]
        exact UInt64.lt_iff_toNat_lt.1 (UInt64.not_le.1 hsub)
      · obtain rfl := Except.ok.inj ha
        rw [clientLogsOffset, add_zero, add_sub_cancel_left]
        simp only [UInt64.toNat_mul, UInt64.toNat_add sub,
          toNat_fullLogEntrySizeWithPadding h, hone, Nat.mul_mod_mod, Nat.add_mod_mod]
        congr 1
        ring

include h in
/-- An accepted entry of a client is at its offset. -/
theorem clientAddress_ok {region a : UInt64} {e : ClientEntry}
    (ha : m.clientAddress region e = .ok a) :
    e ∈ m.clientEntries ∧ (a - region).toNat = m.clientOffset e := by
  have h0 : (0 : UInt64).toNat = 0 := rfl
  have h1 : (1 : UInt64).toNat = 1 := rfl
  cases e with
  | write b =>
    obtain ⟨hb, _, hoff⟩ := getClientLogAddress_ok h ha
    have he : ClientEntry.write b ∈ m.clientEntries := ⟨hb, by simp [sublog]⟩
    refine ⟨he, ?_⟩
    rw [hoff, ← m.packing_client.offset_mod h.client he, h0]
    rfl
  | read b s =>
    rw [clientAddress, getClientReadLogAddress] at ha
    split at ha
    · exact absurd ha (by simp)
    · next hs =>
      have hs' : s.toNat < m.numServers.toNat := UInt64.lt_iff_toNat_lt.1 (UInt64.not_le.1 hs)
      have hlt := m.numServers.toNat_lt
      have hsub : (1 + s).toNat = 1 + s.toNat := by
        rw [UInt64.toNat_add, h1]
        omega
      obtain ⟨hb, hle, hoff⟩ := getClientLogAddress_ok h ha
      rw [hsub] at hle hoff
      have he : ClientEntry.read b s ∈ m.clientEntries := ⟨hb, hle⟩
      refine ⟨he, ?_⟩
      rw [hoff, ← m.packing_client.offset_mod h.client he]
      rfl

/-! ## The memory is kept apart -/

include h in
theorem toNat_serverEntrySize (e : ServerEntry) :
    (m.serverEntrySize e).toNat = m.serverEntryBytes e := by
  cases e with
  | log c l => exact toNat_partialLogEntrySize h.entry
  | kv kv => exact toNat_fullKVSize h.entry

include h in
theorem toNat_clientTspOffset (hn : 0 < m.numTsp.toNat) (c : UInt64) :
    (m.clientTspOffset c).toNat = 24 + m.rawBytes + 8 * (c.toNat % m.numTsp.toNat) := by
  have h8 : (8 : UInt64).toNat = 8 := rfl
  have hentry := h.entry
  have hc : c.toNat % m.numTsp.toNat < m.numTsp.toNat := Nat.mod_lt _ hn
  rw [fullBytes] at hentry
  rw [clientTspOffset, UInt64.toNat_add, UInt64.toNat_mul, UInt64.toNat_mod, h8,
    toNat_tspArrayOffset h.entry]
  omega

include h in
/-- The operations on an entry stay in it. -/
theorem part_le (hn : 0 < m.numTsp.toNat) {e : ServerEntry} (p : ServerPart e) :
    (m.part p).1.toNat + (m.part p).2.toNat ≤ (m.serverEntrySize e).toNat := by
  have hentry := h.entry
  have hlog := toNat_partialLogEntrySize h.entry
  have hraw := toNat_partialKVSize h.entry
  rw [toNat_serverEntrySize h]
  rw [fullBytes] at hentry
  cases p with
  | notif =>
    change 0 + 8 ≤ 40 + m.rawBytes
    omega
  | outOfPlace =>
    have h8 : offsetofFromTsp.toUInt32.toNat = 8 := rfl
    change 8 + (m.partialLogEntrySize - offsetofFromTsp.toUInt32).toNat ≤ 40 + m.rawBytes
    rw [UInt32.toNat_sub, hlog, h8]
    omega
  | logKV =>
    change 16 + m.partialKVSize.toNat ≤ 40 + m.rawBytes
    omega
  | place =>
    change 0 + m.fullKVSize.toNat ≤ m.fullBytes 24
    rw [toNat_fullKVSize h.entry, zero_add]
  | tspArray =>
    change m.tspArrayOffset.toNat + m.tspArraySize.toNat ≤ m.fullBytes 24
    rw [toNat_tspArrayOffset h.entry, toNat_tspArraySize h.entry, fullBytes, Nat.add_assoc]
  | tsp c =>
    have hc : c.toNat % m.numTsp.toNat < m.numTsp.toNat := Nat.mod_lt _ hn
    change (m.clientTspOffset c).toNat + 8 ≤ m.fullBytes 24
    rw [toNat_clientTspOffset h hn, fullBytes]
    omega
  | inPlace =>
    change 0 + m.partialKVSize.toNat ≤ m.fullBytes 24
    rw [fullBytes]
    omega

end Addresses

theorem dvd_serverOffset (e : ServerEntry) : 64 ∣ m.serverOffset e := by
  have hpad : ∀ n k, 64 ∣ roundUp64 n * k := fun n k => (dvd_roundUp64 n).mul_right k
  cases e with
  | log c l =>
    rw [serverOffset, Nat.mul_assoc]
    exact Nat.dvd_add (hpad _ _) (hpad _ _)
  | kv kv =>
    rw [serverOffset, serverLogBytes, Nat.mul_assoc]
    exact Nat.dvd_add (hpad _ _) (hpad _ _)

theorem dvd_clientOffset (e : ClientEntry) : 64 ∣ m.clientOffset e := by
  have hpad : ∀ n k, 64 ∣ roundUp64 n * k := fun n k => (dvd_roundUp64 n).mul_right k
  rw [clientOffset, Nat.mul_assoc]
  exact Nat.dvd_add (hpad _ _) (hpad _ _)

/-- The entries of servers and clients in their regions. -/
structure MemoryOk (region : UInt64) : Prop where
  server : Kept (m.serverAddress region) (fun e => (m.serverEntrySize e).toNat) region 64
    m.serverSize.toNat
  client : Kept (m.clientAddress region) (fun _ => m.fullLogEntrySize.toNat) region 64
    m.clientSize.toNat
  parts : 0 < m.numTsp.toNat → ∀ {e : ServerEntry} (p : ServerPart e) (a : UInt64),
    area (a + (m.part p).1) (m.part p).2.toNat ⊆ area a (m.serverEntrySize e).toNat

end MemLayout

/-- Where no size overflows, the entries of servers and of clients are kept apart. -/
theorem entries_kept (m : MemLayout) (h : m.Counted) (region : UInt64) : m.MemoryOk region where
  server := by
    rw [funext (MemLayout.toNat_serverEntrySize h), MemLayout.toNat_serverSize h]
    exact m.packing_server.kept h.server.le (fun e a ha => MemLayout.serverAddress_ok h ha)
      fun e _ => m.dvd_serverOffset e
  client := by
    rw [MemLayout.toNat_clientSize h, MemLayout.toNat_fullLogEntrySize h.entry]
    exact m.packing_client.kept h.client.le (fun e a ha => MemLayout.clientAddress_ok h ha)
      fun e _ => m.dvd_clientOffset e
  parts hn e p a := area_add_subset _ _ (MemLayout.part_le h hn p)

/-- Two clients of two servers, with logs of sixteen entries and four tsps. -/
def memSmall : MemLayout where
  numClients := 2
  numServers := 2
  numTsp := 4
  asyncParallelism := 2
  keysPerServer := 8
  serverLogsPerClient := 16
  keySize := 24
  valueSize := 64

theorem entries_kept_small : memSmall.MemoryOk 4096 :=
  entries_kept memSmall ⟨by decide, by decide, by decide⟩ 4096

end DiscoSkip.SwarmKv
