import DiscoSkip.GetFuture
import DiscoSkip.RangeFuture

/-!
# Bulk reads and point reads

A Get takes the greatest register of its quorum slot by slot, starting with the zero
register; a range read merges whole slices into that of the first replica, and so
starts with what this one holds. Of registers with the same tag, both keep the first
(`Register.latest`). So they agree on what both have fetched, if no register but the zero
one has its tag.

But a bulk read is posted with a length of 32 bits, in bytes: of a range of `2 ^ 29` keys or
more it only fetches the first ones, and the rest of the slices is what was there before
(`bulkRead_eq_read_iff`).
-/

namespace DiscoSkip

open Function

namespace Scratch

variable {cells : ℕ → ℕ → Register} {bufs : Scratch} {wrs : List Wr} {k len r : ℕ}

/-- The scratchpad once a request has completed, where the servers hold `cells`. -/
def fetch (cells : ℕ → ℕ → Register) (bufs : Scratch) (w : Wr) : Scratch :=
  match w.op with
  | .read k => { bufs with readBufs := update bufs.readBufs w.server (cells w.server k) }
  | .cas k _ _ => { bufs with swapBufs := update bufs.swapBufs w.server (cells w.server k) }
  | .bulk k len => { bufs with
      bulkBufs := update bufs.bulkBufs w.server fun off =>
        if off < len / 8 then cells w.server (k + off) else bufs.bulkBufs w.server off }

/-- The scratchpad once all of the requests have completed. -/
def fetchAll (cells : ℕ → ℕ → Register) (bufs : Scratch) (wrs : List Wr) : Scratch :=
  wrs.foldl (fetch cells) bufs

theorem fetchAll_read (h : ∀ w ∈ wrs, w.op = .read k) :
    (bufs.fetchAll cells wrs).readBufs r =
      if r ∈ wrs.map Wr.server then cells r k else bufs.readBufs r := by
  induction wrs generalizing bufs with
  | nil => rfl
  | cons w wrs ih =>
    obtain ⟨hw, h⟩ := List.forall_mem_cons.1 h
    have hbuf : (bufs.fetch cells w).readBufs r =
        if r = w.server then cells r k else bufs.readBufs r := by
      rw [fetch, hw]
      dsimp only
      split
      · next hr => rw [hr, update_self]
      · next hr => rw [update_of_ne hr]
    rw [fetchAll, List.foldl_cons, ← fetchAll, ih h, hbuf]
    by_cases hr : r = w.server <;> simp [hr]

theorem fetchAll_bulk (h : ∀ w ∈ wrs, w.op = .bulk k len) (off : ℕ) :
    (bufs.fetchAll cells wrs).bulkBufs r off =
      if r ∈ wrs.map Wr.server ∧ off < len / 8 then cells r (k + off)
      else bufs.bulkBufs r off := by
  induction wrs generalizing bufs with
  | nil => simp [fetchAll]
  | cons w wrs ih =>
    obtain ⟨hw, h⟩ := List.forall_mem_cons.1 h
    have hbuf : (bufs.fetch cells w).bulkBufs r off =
        if r = w.server ∧ off < len / 8 then cells r (k + off) else bufs.bulkBufs r off := by
      rw [fetch, hw]
      dsimp only
      by_cases hr : r = w.server
      · simp [hr]
      · rw [update_of_ne hr, if_neg fun hand => hr hand.1]
    rw [fetchAll, List.foldl_cons, ← fetchAll, ih h, hbuf]
    by_cases hr : r = w.server <;> by_cases hoff : off < len / 8 <;> simp [hr, hoff]

end Scratch

/-- A posting on all slots goes to all servers of the quorum. -/
theorem mem_server_postSlots {d : DsConf} {id i : ℕ} {op : ℕ → Rdma} (hi : i < d.quorum) :
    d.quorumIndices i ∈ (d.postSlots id (fun _ => true) op).map Wr.server :=
  List.mem_map.2 ⟨_, mem_postSlots.2 ⟨i, hi, rfl, rfl⟩, rfl⟩

namespace Register

/-- The first of the registers with the greatest tag, if this is above that of the zero
    register. -/
def latest (rd : ℕ → Register) : ℕ → Register
  | 0 => .zero
  | n + 1 => if latest rd n < rd n then rd n else latest rd n

/-- The first register is taken, if it is not another one with the tag of zero. -/
theorem latest_one {rd : ℕ → Register} (h : (rd 0).tag = zero.tag → rd 0 = .zero) :
    latest rd 1 = rd 0 := by
  rw [latest, latest]
  split
  · rfl
  · next hlt =>
    have hle := not_lt_iff.1 hlt
    exact (h (le_antisymm hle (zero_tag_le _))).symm

/-- If the registers are all the same, it is the latest. -/
theorem latest_const {reg : Register} {n : ℕ} (h : zero.tag < reg.tag) (hn : 0 < n) :
    latest (fun _ => reg) n = reg := by
  induction n with
  | zero => exact absurd hn (lt_irrefl 0)
  | succ n ih =>
    rw [latest]
    rcases n.eq_zero_or_pos with rfl | hpos
    · exact if_pos (lt_iff.2 h)
    · rw [ih hpos, ite_self]

theorem latest_congr {rd rd' : ℕ → Register} {n : ℕ} (h : ∀ i < n, rd i = rd' i) :
    latest rd n = latest rd' n := by
  induction n with
  | zero => rfl
  | succ n ih => rw [latest, latest, ih fun i hi => h i (hi.trans n.lt_succ_self),
      h n n.lt_succ_self]

end Register

/-- The quorum is not empty. -/
theorem DsConf.quorum_pos (d : DsConf) : 0 < d.quorum := by
  unfold quorum Layout.effectiveMajority
  split
  · exact Nat.succ_pos _
  · next h => exact Nat.pos_of_ne_zero h

namespace GetFuture

variable {d : DsConf} {g : GetFuture}

/-- The loop over the registers read keeps the latest. -/
theorem readLoop_maxReg (bufs : Scratch) (h0 : g.maxReg = .zero) :
    (d.quorum.fold (fun i _ => readSlot d bufs i) g).maxReg =
      Register.latest (fun i => bufs.readBufs (d.quorumIndices i)) d.quorum ∧
    (d.quorum.fold (fun i _ => readSlot d bufs i) g).key = g.key := by
  refine Lib.fold_inv (P := fun i (x : GetFuture) =>
    x.maxReg = Register.latest (fun i => bufs.readBufs (d.quorumIndices i)) i ∧ x.key = g.key)
    ⟨h0, rfl⟩ fun i _ x hx => ?_
  obtain ⟨hm, hk⟩ := hx
  rw [Register.latest, ← hm]
  unfold readSlot
  dsimp only
  split
  · exact ⟨rfl, hk⟩
  · split <;> exact ⟨rfl, hk⟩

/-- What a Get computes as it has read. -/
theorem tryStepForward_reading {bufs : Scratch} {st : DsState} (hs : g.step = .reading)
    (hr : d.Ready g.ongoingPerServer) (h0 : g.maxReg = .zero) :
    (g.tryStepForward d bufs st).future.resultValue =
      (Register.latest (fun i => bufs.readBufs (d.quorumIndices i)) d.quorum).value ∧
    (g.tryStepForward d bufs st).state.cache = if d.layout.regCacheEnabled then
      st.cache.put g.key (Register.latest (fun i => bufs.readBufs (d.quorumIndices i)) d.quorum)
      else st.cache := by
  obtain ⟨hm, hk⟩ := readLoop_maxReg (d := d) bufs h0
  set m := Register.latest (fun i => bufs.readBufs (d.quorumIndices i)) d.quorum
  have hcache : (if d.layout.regCacheEnabled
        then ({ st with cache := st.cache.put g.key m } : DsState)
      else st).cache = if d.layout.regCacheEnabled then st.cache.put g.key m else st.cache := by
    split <;> rfl
  rw [tryStepForward, if_pos hr, hs]
  dsimp only
  unfold stepReading
  dsimp only
  rw [hm, hk]
  split
  · exact ⟨rfl, hcache⟩
  · exact ⟨rfl, hcache⟩

end GetFuture

namespace RangeFuture

variable {d : DsConf} {f : RangeFuture}

/-- A slice merged into another one, up to an offset. -/
theorem mergeLoop (src acc : ℕ → Register) (n off : ℕ) :
    n.fold (fun off _ => mergeSlice src off) acc off =
      if off < n ∧ acc off < src off then src off else acc off := by
  refine Lib.fold_inv (n := n) (a := acc) (f := fun off _ => mergeSlice src off)
    (P := fun k x => x off = if off < k ∧ acc off < src off then src off else acc off)
    (by simp) fun k _ x hx => ?_
  unfold mergeSlice
  by_cases hk : off = k
  · -- the offset is the one merged now
    subst hk
    simp only [lt_irrefl, false_and, if_false] at hx
    simp only [hx, Nat.lt_succ_self, true_and]
    split
    · rw [update_self]
    · exact hx
  · have hlt : off < k + 1 ↔ off < k := by rw [Nat.lt_succ_iff_lt_or_eq, or_iff_left hk]
    simp only [hlt]
    rw [← hx]
    split
    · rw [update_of_ne hk]
    · rfl

/-- The registers of one offset, merged into that of the first replica. -/
def mergedAt (d : DsConf) (rd : ℕ → Register) : Register :=
  (d.quorum - 1).fold (fun i _ reg => if reg < rd (i + 1) then rd (i + 1) else reg) (rd 0)

/-- What is merged at an offset depends on what is there in the slices. -/
theorem merged_apply {bufs : Scratch} {off : ℕ} (hoff : off < f.rangeLen.toNat) :
    merged d f bufs off = mergedAt d fun i => bufs.bulkBufs (d.quorumIndices i) off := by
  have hsteps : ∀ n : ℕ, n.fold (fun i _ acc => f.rangeLen.toNat.fold
        (fun off _ => mergeSlice (bufs.bulkBufs (d.quorumIndices (i + 1))) off) acc)
        (bufs.bulkBufs (d.quorumIndices 0)) off =
      n.fold (fun i _ reg => if reg < bufs.bulkBufs (d.quorumIndices (i + 1)) off
        then bufs.bulkBufs (d.quorumIndices (i + 1)) off else reg)
        (bufs.bulkBufs (d.quorumIndices 0) off) := by
    intro n
    induction n with
    | zero => rfl
    | succ n ih =>
      rw [Nat.fold_succ, Nat.fold_succ, mergeLoop, ih]
      exact if_congr (and_iff_right hoff) rfl rfl
  exact hsteps _

theorem mergedAt_congr {rd rd' : ℕ → Register} (h : ∀ i < d.quorum, rd i = rd' i) :
    mergedAt d rd = mergedAt d rd' := by
  have hsteps : ∀ n < d.quorum,
      n.fold (fun i _ reg => if reg < rd (i + 1) then rd (i + 1) else reg) (rd 0) =
        n.fold (fun i _ reg => if reg < rd' (i + 1) then rd' (i + 1) else reg) (rd' 0) := by
    intro n hn
    induction n with
    | zero => exact h 0 hn
    | succ n ih => rw [Nat.fold_succ, Nat.fold_succ, ih (Nat.lt_of_succ_lt hn), h _ hn]
  exact hsteps _ (Nat.sub_lt d.quorum_pos Nat.one_pos)

/-- It is the latest register. -/
theorem mergedAt_eq {rd : ℕ → Register} (h : (rd 0).tag = Register.zero.tag → rd 0 = .zero) :
    mergedAt d rd = Register.latest rd d.quorum := by
  have hq : d.quorum - 1 + 1 = d.quorum := Nat.sub_add_cancel d.quorum_pos
  rw [← hq]
  refine Lib.fold_inv (P := fun i x => x = Register.latest rd (i + 1))
    (Register.latest_one h).symm fun i _ x hx => ?_
  rw [Register.latest, ← hx]

/-- The cache a range read leaves. -/
theorem cacheLoop (acc : ℕ → Register) (sk n : ℕ) (ca : Cache) (b : Bool)
    {off : ℕ} (hoff : off < n) :
    n.fold (fun off _ (ca : Cache) => if b then ca.put (sk + off) (acc off) else ca) ca (sk + off) =
      if b then some (acc off) else ca (sk + off) := by
  have h := Lib.fold_inv (n := n) (a := ca)
    (f := fun off _ (ca : Cache) => if b then ca.put (sk + off) (acc off) else ca)
    (P := fun k x => x (sk + off) = if b = true ∧ off < k then some (acc off) else ca (sk + off))
    (by simp) fun k _ x hx => by
      cases b with
      | false => simpa using hx
      | true =>
        by_cases hk : off = k
        · subst hk
          simp [Cache.put]
        · have hne : sk + off ≠ sk + k := fun h => hk (Nat.add_left_cancel h)
          have hlt : off < k + 1 ↔ off < k := by rw [Nat.lt_succ_iff_lt_or_eq, or_iff_left hk]
          simp only [if_true, true_and, hlt] at hx ⊢
          rw [Cache.put, update_of_ne hne, hx]
  rw [h]
  cases b with
  | false => simp
  | true => simp [hoff]

/-- What a range read computes as it has read. -/
theorem tryStepForward_reading {bufs : Scratch} {st : DsState} (hs : f.step = .reading)
    (hr : d.Ready f.ongoingPerServer) {off : ℕ} (hoff : off < f.rangeLen.toNat) :
    (f.tryStepForward d bufs st).2.future.results[off]? =
      some (merged d f bufs off).value.toUInt64 ∧
    (f.tryStepForward d bufs st).2.state.cache (f.startKey.toNat + off) =
      if d.layout.regCacheEnabled then some (merged d f bufs off)
      else st.cache (f.startKey.toNat + off) := by
  rw [tryStepForward, if_pos hr, hs]
  refine ⟨?_, cacheLoop _ _ _ _ _ hoff⟩
  simp [stepReading, hoff]

end RangeFuture

section Agreement

variable {d : DsConf} {f : RangeFuture} {g : GetFuture} {st₀ st₁ st : DsState} {sk ek : UInt64}
  {x : Outcome RangeFuture} {bufs bufs' : Scratch} {ongoing ongoing' : ℕ → ℤ} {off : ℕ}
  {cells : ℕ → ℕ → Register}

/-- The range read that was started steps forward, once all it has posted has completed. -/
def RangeFuture.finish (d : DsConf) (x : Outcome RangeFuture) (ongoing : ℕ → ℤ)
    (cells : ℕ → ℕ → Register) (bufs : Scratch) (st : DsState) : Outcome RangeFuture :=
  ({ x.future with ongoingPerServer := ongoing }.tryStepForward d
    (bufs.fetchAll cells x.posted) st).2

/-- And so does the Get. -/
def GetFuture.finish (d : DsConf) (y : Outcome GetFuture) (ongoing : ℕ → ℤ)
    (cells : ℕ → ℕ → Register) (bufs : Scratch) (st : DsState) : Outcome GetFuture :=
  { y.future with ongoingPerServer := ongoing }.tryStepForward d (bufs.fetchAll cells y.posted) st

/-- No register of the quorum for the keys from `k` on but the zero one has its tag. -/
def ZeroIsRaw (d : DsConf) (k n : ℕ) (cells : ℕ → ℕ → Register) : Prop :=
  ∀ i < d.quorum, ∀ off < n, (cells (d.quorumIndices i) (k + off)).tag = Register.zero.tag →
    cells (d.quorumIndices i) (k + off) = .zero

/-- The range read that is started. -/
theorem future_of_doRange (hx : f.doRange d st₀ sk ek = .ok x) (ongoing : ℕ → ℤ) :
    { x.future with ongoingPerServer := ongoing } = { f with
      startKey := sk, rangeLen := ek - sk + 1, step := .reading, ongoingPerServer := ongoing } := by
  unfold RangeFuture.doRange at hx
  dsimp only at hx
  split at hx
  · exact absurd hx nofun
  · obtain rfl := Except.ok.inj hx
    rfl

theorem startKey_of_doRange (hx : f.doRange d st₀ sk ek = .ok x) : x.future.startKey = sk :=
  congrArg RangeFuture.startKey (future_of_doRange hx x.future.ongoingPerServer)

/-- What it has posted only fetches the first cells, as many as its length in bytes is narrowed
    to, and the rest of a slice is what was there before. -/
theorem fetchAll_of_doRange (hx : f.doRange d st₀ sk ek = .ok x) {i : ℕ} (hi : i < d.quorum) :
    (bufs.fetchAll cells x.posted).bulkBufs (d.quorumIndices i) off =
      if off < (ek - sk + 1).toNat % 2 ^ 29 then cells (d.quorumIndices i) (sk.toNat + off)
      else bufs.bulkBufs (d.quorumIndices i) off := by
  have hposted : x.posted = d.postSlots (f.futureId ||| RangeFuture.rangeBit) (fun _ => true)
      fun _ => .bulk sk.toNat ((ek - sk + 1) * 8).toUInt32.toNat := by
    unfold RangeFuture.doRange at hx
    dsimp only at hx
    split at hx
    · exact absurd hx nofun
    · obtain rfl := Except.ok.inj hx
      rfl
  -- the length in bytes is narrowed to 32 bits
  have hlen : ((ek - sk + 1) * 8).toUInt32.toNat / 8 = (ek - sk + 1).toNat % 2 ^ 29 := by
    rw [UInt64.toNat_toUInt32, UInt64.toNat_mul]
    change (ek - sk + 1).toNat * 8 % 2 ^ 64 % 2 ^ 32 / 8 = _
    omega
  have hop : ∀ w ∈ x.posted, w.op = .bulk sk.toNat ((ek - sk + 1) * 8).toUInt32.toNat := by
    intro w hw
    obtain ⟨j, -, -, rfl⟩ := mem_postSlots.1 (hposted ▸ hw)
    rfl
  rw [Scratch.fetchAll_bulk hop, hlen, hposted]
  exact if_congr (and_iff_right (mem_server_postSlots hi)) rfl rfl

variable (st bufs cells) in
/-- What a range read that was started delivers and caches. -/
theorem RangeFuture.finish_eq (hx : f.doRange d st₀ sk ek = .ok x) (hr : d.Ready ongoing)
    (hoff : off < (ek - sk + 1).toNat) :
    let reg := mergedAt d fun i =>
      if off < (ek - sk + 1).toNat % 2 ^ 29 then cells (d.quorumIndices i) (sk.toNat + off)
      else bufs.bulkBufs (d.quorumIndices i) off
    (finish d x ongoing cells bufs st).future.results[off]? = some reg.value.toUInt64 ∧
      (finish d x ongoing cells bufs st).state.cache (sk.toNat + off) =
        if d.layout.regCacheEnabled then some reg else st.cache (sk.toNat + off) := by
  intro reg
  rw [finish, future_of_doRange hx]
  obtain ⟨hres, hcache⟩ := @tryStepForward_reading d { f with
    startKey := sk, rangeLen := ek - sk + 1, step := .reading, ongoingPerServer := ongoing }
    (bufs.fetchAll cells x.posted) st rfl hr off hoff
  rw [merged_apply hoff, mergedAt_congr fun i hi => fetchAll_of_doRange hx hi] at hres hcache
  exact ⟨hres, hcache⟩

variable (g st₁ st bufs cells) in
/-- What a Get delivers and caches. -/
theorem GetFuture.finish_eq (hr : d.Ready ongoing) (k : ℕ) :
    let reg := Register.latest (fun i => cells (d.quorumIndices i) k) d.quorum
    (finish d (g.doGet d st₁ k) ongoing cells bufs st).future.getValue = reg.value.toUInt64 ∧
      (finish d (g.doGet d st₁ k) ongoing cells bufs st).state.cache k =
        if d.layout.regCacheEnabled then some reg else st.cache k := by
  obtain ⟨hval, hcache⟩ := @tryStepForward_reading d
    { (g.doGet d st₁ k).future with ongoingPerServer := ongoing }
    (bufs.fetchAll cells (g.doGet d st₁ k).posted) st rfl hr rfl
  have hreg : Register.latest (fun i =>
      (bufs.fetchAll cells (g.doGet d st₁ k).posted).readBufs (d.quorumIndices i)) d.quorum =
      Register.latest (fun i => cells (d.quorumIndices i) k) d.quorum := by
    have hop : ∀ w ∈ (g.doGet d st₁ k).posted, w.op = .read k := by
      intro w hw
      obtain ⟨j, -, -, rfl⟩ := mem_postSlots.1 hw
      rfl
    exact Register.latest_congr fun i hi =>
      (Scratch.fetchAll_read hop).trans (if_pos (mem_server_postSlots hi))
  rw [hreg] at hval hcache
  refine ⟨congrArg UInt32.toUInt64 hval, (congrFun hcache k).trans ?_⟩
  split
  · exact update_self k _ st.cache
  · rfl

/-- A range read and the Gets of its keys agree, on what they deliver and on what they cache. -/
def BulkAgrees (d : DsConf) (x : Outcome RangeFuture) (g : GetFuture) (st₁ st : DsState)
    (ongoing ongoing' : ℕ → ℤ) (bufs bufs' : Scratch) (cells : ℕ → ℕ → Register) (off : ℕ) :
    Prop :=
  let range := RangeFuture.finish d x ongoing cells bufs st
  let k := x.future.startKey.toNat + off
  let get := GetFuture.finish d (g.doGet d st₁ k) ongoing' cells bufs' st
  range.future.results[off]? = some get.future.getValue ∧ range.state.cache k = get.state.cache k

/-- They do as long as the offset was fetched. -/
theorem bulkAgrees_of_lt (hx : f.doRange d st₀ sk ek = .ok x) (hr : d.Ready ongoing)
    (hr' : d.Ready ongoing') (hoff : off < (ek - sk + 1).toNat % 2 ^ 29)
    (hzero : (cells (d.quorumIndices 0) (sk.toNat + off)).tag = Register.zero.tag →
      cells (d.quorumIndices 0) (sk.toNat + off) = .zero) :
    BulkAgrees d x g st₁ st ongoing ongoing' bufs bufs' cells off := by
  have hkey : x.future.startKey = sk := startKey_of_doRange hx
  obtain ⟨hres, hcache⟩ := RangeFuture.finish_eq st bufs cells hx hr
    (hoff.trans_le (Nat.mod_le _ _))
  obtain ⟨hval, hcache'⟩ := GetFuture.finish_eq g st₁ st bufs' cells hr' (sk.toNat + off)
  simp only [if_pos hoff] at hres hcache
  rw [RangeFuture.mergedAt_eq hzero] at hres hcache
  rw [BulkAgrees, hkey, hval, hcache']
  exact ⟨hres, hcache⟩

/-- They do not in general if it was not. -/
theorem exists_not_bulkAgrees (hx : f.doRange d st₀ sk ek = .ok x) (hr : d.Ready ongoing)
    (hr' : d.Ready ongoing') (hlong : 2 ^ 29 ≤ (ek - sk + 1).toNat) :
    ∃ cells, ZeroIsRaw d sk.toNat (ek - sk + 1).toNat cells ∧ ∃ off < (ek - sk + 1).toNat,
      ¬BulkAgrees d x g st₁ st ongoing ongoing' bufs bufs' cells off := by
  have hoff : (ek - sk + 1).toNat % 2 ^ 29 < (ek - sk + 1).toNat :=
    (Nat.mod_lt _ (by decide)).trans_le hlong
  -- a value that is not the one in the slices
  set old := RangeFuture.mergedAt d fun i =>
    bufs.bulkBufs (d.quorumIndices i) ((ek - sk + 1).toNat % 2 ^ 29)
  have htag : Register.zero.tag < (⟨old.value + 1, 1, 1⟩ : Register).tag :=
    Register.tag_lt_of_seq (by decide : (0 : UInt16) < 1)
  refine ⟨fun _ _ => ⟨old.value + 1, 1, 1⟩, fun i _ off _ htag' => absurd htag' htag.ne', _, hoff,
    fun hagrees => ?_⟩
  have hkey : x.future.startKey = sk := startKey_of_doRange hx
  obtain ⟨hres, -⟩ := RangeFuture.finish_eq st bufs (fun _ _ => ⟨old.value + 1, 1, 1⟩) hx hr hoff
  obtain ⟨hval, -⟩ := GetFuture.finish_eq g st₁ st bufs' (fun _ _ => ⟨old.value + 1, 1, 1⟩) hr'
    (x.future.startKey.toNat + (ek - sk + 1).toNat % 2 ^ 29)
  simp only [lt_irrefl, if_false] at hres
  have heq := hres.symm.trans hagrees.1
  rw [hval, Register.latest_const htag d.quorum_pos, Option.some.injEq] at heq
  have hvalue : old.value = old.value + 1 := UInt32.toUInt64_inj.1 heq
  grind

/-- A range read that is started agrees with the Gets of its keys, whatever the servers hold, if
    and only if its length in bytes fits in 32 bits. -/
theorem bulkRead_eq_read_iff (hx : f.doRange d st₀ sk ek = .ok x) (hr : d.Ready ongoing)
    (hr' : d.Ready ongoing') :
    (∀ cells, ZeroIsRaw d sk.toNat (ek - sk + 1).toNat cells → ∀ off < (ek - sk + 1).toNat,
      BulkAgrees d x g st₁ st ongoing ongoing' bufs bufs' cells off) ↔
    (ek - sk + 1).toNat < 2 ^ 29 := by
  constructor
  · intro hall
    by_contra hlong
    obtain ⟨cells, hzero, off, hoff, hno⟩ : ∃ cells, _ ∧ ∃ off < _,
        ¬BulkAgrees d x g st₁ st ongoing ongoing' bufs bufs' cells off :=
      exists_not_bulkAgrees hx hr hr' (not_lt.1 hlong)
    exact hno (hall cells hzero off hoff)
  · intro hshort cells hzero off hoff
    refine bulkAgrees_of_lt hx hr hr' ?_ (hzero 0 d.quorum_pos off hoff)
    rwa [Nat.mod_eq_of_lt hshort]

end Agreement

/-- For instance, for three keys. -/
theorem bulkRead_eq_read_iff_three :
    let d : DsConf := ⟨.threeServers 1 true false, 1⟩
    let x := RangeFuture.postBulkReads d
      { futureId := 0, startKey := 3, rangeLen := 3, step := .reading } {}
    ∀ cells, ZeroIsRaw d 3 3 cells → ∀ off < 3,
      BulkAgrees d x { futureId := 0 } {} {} (fun _ => 0) (fun _ => 0) {} {} cells off :=
  (@bulkRead_eq_read_iff ⟨.threeServers 1 true false, 1⟩ { futureId := 0 } { futureId := 0 } {} {}
    {} 3 5 _ {} {} (fun _ => 0) (fun _ => 0) rfl (by decide) (by decide)).2 (by decide)

/-- Of `2 ^ 29` keys, as many as are allowed here, nothing is fetched. -/
theorem not_bulkRead_eq_read :
    let d : DsConf := ⟨{ Layout.threeServers 1 true false with maxRange := 2 ^ 29 }, 1⟩
    ∃ x cells, RangeFuture.doRange d { futureId := 0 } {} 0 (2 ^ 29 - 1) = .ok x ∧
      ZeroIsRaw d 0 (2 ^ 29) cells ∧ ∃ off < 2 ^ 29,
        ¬BulkAgrees d x { futureId := 0 } {} {} (fun _ => 0) (fun _ => 0) {} {} cells off := by
  intro d
  obtain ⟨cells, hzero, hno⟩ := @exists_not_bulkAgrees d { futureId := 0 } { futureId := 0 } {} {}
    {} 0 (2 ^ 29 - 1) (RangeFuture.postBulkReads d
      { futureId := 0, startKey := 0, rangeLen := 2 ^ 29, step := .reading } {}) {} {}
    (fun _ => 0) (fun _ => 0) rfl (by decide) (by decide) (by decide)
  exact ⟨_, cells, rfl, hzero, hno⟩

end DiscoSkip
