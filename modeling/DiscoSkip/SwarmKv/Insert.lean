import DiscoSkip.Lib.Machine
import DiscoSkip.SwarmKv.Index

/-!
# Inserting into the index of swarm-kv

The futures of the clients insert keys at the same time (`OopsFuture::doInsert`). An
insert searches the index, and writes its data meanwhile; then it swaps its entry
for the free slot the search found, and is done as the swap has returned and the
data are written. Nobody looks at what the swap returned: its step is left to be
`Done` (`IndexFuture.tryInsert`), so that the case of a swap that succeeded is never
reached, and an insert whose slot was taken meanwhile is lost (`insert_lost`).

If every swap finds its slot free (`Guard`), no insert is lost (`found_of_run`).

The entries of a search are read one after the other, in any order, and a swap takes
effect in one step. The writing of the data is only that it gets done.
-/

namespace DiscoSkip.SwarmKv

open Lib Race

/-- The step of an index future. -/
inductive IndexStep
  | searching
  | inserting
  | done
  deriving DecidableEq

/-- An index future, with the slots of the buffer that were not read yet and the swap
    in flight; it is waited for while there are any. -/
structure IndexFuture where
  step : IndexStep
  hkey : HashedKey
  buffer : Place → BucketEntry
  reading : List Place
  swapping : Option (Addr × BucketEntry)
  result : IndexResult
  toInsert : BucketEntry

namespace IndexFuture

variable (cfg : IndexConfig)

def new : IndexFuture := ⟨.done, 0, fun _ => free, [], none, ⟨[], 0, none⟩, .of 0 0⟩

def isDone (x : IndexFuture) : Bool := x.step = .done

def search (x : IndexFuture) (h : HashedKey) : IndexFuture :=
  { x with step := .searching, hkey := h, result := ⟨[], 0, none⟩, reading := places cfg h }

/-- Swapping the entry of a value for the slot found, if there was one. The step stays
    as it is. -/
def tryInsert (x : IndexFuture) (v : ℕ) : Option IndexFuture :=
  x.result.firstFree.map fun a =>
    { x with
      toInsert := .of x.hkey.checksum v
      swapping := some (a, .of x.hkey.checksum v) }

/-- The place of the buffer that what a swap returns is put into. -/
def swapback : Place := ⟨false, false, 0⟩

def tryStepForward (x : IndexFuture) : Option IndexFuture :=
  if x.reading ≠ [] ∨ x.swapping ≠ none then none
  else
    match x.step with
    | .searching => some { x with step := .done, result := searchBuffer cfg x.hkey x.buffer }
    | .inserting =>
      if x.buffer swapback = free then
        some { x with
          step := .done
          result := { x.result with matches_ := x.result.matches_ ++ [x.toInsert.getValue] } }
      else some { x with step := .done }
    | .done => some x

end IndexFuture

/-- The step of a future that inserts. -/
inductive InsertStep
  | dataAndSearch
  | toIndex
  | done
  deriving DecidableEq

/-- A future that inserts a key, under an id. -/
structure InsertFuture where
  step : InsertStep
  index : IndexFuture
  dataDone : Bool
  kvId : ℕ

structure Inserts where
  table : Table
  future : ℕ → InsertFuture

/-- A future starts to insert; one of its places is read; its swap takes effect; its
    data are written; it is stepped forward. -/
inductive InsertAction
  | insert (f : ℕ) (h : HashedKey) (kvId : ℕ)
  | read (f : ℕ) (p : Place)
  | swap (f : ℕ)
  | written (f : ℕ)
  | tick (f : ℕ)
  deriving DecidableEq

namespace InsertFuture

variable (cfg : IndexConfig)

def new : InsertFuture := ⟨.done, .new, true, 0⟩

def doInsert (x : InsertFuture) (h : HashedKey) (kvId : ℕ) : InsertFuture :=
  { x with step := .dataAndSearch, kvId, dataDone := false, index := x.index.search cfg h }

/-- Stepping forward, if what it waits for is there. Without a free slot there is an
    error, and no step. -/
def tryStepForward (x : InsertFuture) : Option InsertFuture :=
  (x.index.tryStepForward cfg).bind fun index =>
    match x.step with
    | .dataAndSearch =>
      if index.isDone then
        (index.tryInsert x.kvId).map fun index => { x with step := .toIndex, index }
      else some { x with index }
    | .toIndex =>
      if index.isDone && x.dataDone then some { x with step := .done, index }
      else some { x with index }
    | .done => some { x with index }

/-- The future after a place of its buffer is read. -/
def read (x : InsertFuture) (table : Table) (p : Place) : InsertFuture :=
  { x with index := { x.index with
    buffer := Function.update x.index.buffer p (table (addressOf cfg x.index.hkey p))
    reading := x.index.reading.erase p } }

/-- The future after its swap returned what was in the slot. -/
def swapped (x : InsertFuture) (old : BucketEntry) : InsertFuture :=
  { x with index := { x.index with
    buffer := Function.update x.index.buffer IndexFuture.swapback old
    swapping := none } }

end InsertFuture

namespace Inserts

variable (cfg : IndexConfig)

def setFuture (t : Inserts) (f : ℕ) (x : InsertFuture) : Inserts :=
  { t with future := Function.update t.future f x }

def step (t : Inserts) : InsertAction → Option Inserts
  | .insert f h kvId =>
    if (t.future f).step = .done then some (t.setFuture f ((t.future f).doInsert cfg h kvId))
    else none
  | .read f p =>
    if p ∈ (t.future f).index.reading then
      some (t.setFuture f ((t.future f).read cfg t.table p))
    else none
  | .swap f =>
    (t.future f).index.swapping.map fun (a, e) =>
      { table := if t.table a = free then Function.update t.table a e else t.table
        future := Function.update t.future f ((t.future f).swapped (t.table a)) }
  | .written f => some (t.setFuture f { t.future f with dataDone := true })
  | .tick f => ((t.future f).tryStepForward cfg).map (t.setFuture f)

end Inserts

/-- The future that takes a step. -/
def InsertAction.future : InsertAction → ℕ
  | .insert f _ _ | .read f _ | .swap f | .written f | .tick f => f

namespace Inserts

variable (cfg : IndexConfig) (numFutures : ℕ)

/-- The futures, over empty tables. -/
def machine : Machine Inserts InsertAction InsertAction where
  init := ⟨fun _ => free, fun _ => .new⟩
  step t a := if a.future < numFutures then (step cfg t a).map (a, ·) else none

/-- All inserts are done. -/
def Done (t : Inserts) : Prop := ∀ f < numFutures, (t.future f).step = .done

instance (t : Inserts) : Decidable (t.Done numFutures) :=
  inferInstanceAs (Decidable (∀ f < numFutures, (t.future f).step = .done))

/-- The ids fit into the entries, and every swap finds its slot free. -/
def Guard (t : Inserts) : InsertAction → Prop
  | .insert _ _ kvId => kvId < 2 ^ 48
  | .swap f => ((t.future f).index.swapping.all fun (a, _) => t.table a = free) = true
  | _ => True

instance (t : Inserts) (a : InsertAction) : Decidable (t.Guard a) := by
  cases a <;> dsimp only [Guard] <;> infer_instance

/-- The keys inserted in a run, with their ids, the latest first. -/
def inserted (tr : List InsertAction) : List (HashedKey × ℕ) :=
  tr.filterMap fun
    | .insert _ h kvId => some (h, kvId)
    | _ => none

end Inserts

/-- One server, with four buckets of two groups. -/
def smallIndex : IndexConfig := ⟨1, 2⟩

/-- A future that searches, and one that inserts. -/
def searchAll (f : ℕ) (h : HashedKey) : List InsertAction :=
  (places smallIndex h).map (.read f)

/-- Of two inserts of keys with the same groups, both search before either swaps, and
    so both swap the same slot: one is lost. -/
theorem insert_lost : ∃ tr t, (Inserts.machine smallIndex 2).Run (fun _ _ => True) tr t ∧
    t.Done 2 ∧ Inserts.inserted tr = [(4, 2), (0, 1)] ∧
    2 ∉ (searchTable smallIndex 4 t.table).matches_ := by
  obtain ⟨tr, t, h, ht⟩ := Machine.exists_run_of_play (G := fun _ _ => True)
    (m := Inserts.machine smallIndex 2)
    (fun r => decide (r.2.Done 2 ∧ Inserts.inserted r.1 = [(4, 2), (0, 1)] ∧
      2 ∉ (searchTable smallIndex 4 r.2.table).matches_))
    ([.insert 0 0 1, .insert 1 4 2] ++ searchAll 0 0 ++ searchAll 1 4 ++
      [.tick 0, .tick 1, .swap 0, .swap 1, .written 0, .written 1, .tick 0, .tick 1]) (b := true)
    (by decide +kernel)
  exact ⟨tr, t, h, of_decide_eq_true ht⟩

namespace Inserts

variable {cfg : IndexConfig} {t t' : Inserts} {f : ℕ}

/-- The entry of an insert is in one of the slots of its key. -/
def Landed (cfg : IndexConfig) (table : Table) (h : HashedKey) (kvId : ℕ) : Prop :=
  ∃ p ∈ places cfg h, table (addressOf cfg h p) = .of h.checksum kvId

/-- An insert that has not swapped yet. -/
def Pending (x : InsertFuture) (h : HashedKey) (kvId : ℕ) : Prop :=
  x.index.hkey = h ∧ x.kvId = kvId ∧
    (x.step = .dataAndSearch ∨ x.step = .toIndex ∧ x.index.swapping ≠ none)

/-- A future searches, swaps its entry for a slot of its key, or rests. -/
structure FutureOk (cfg : IndexConfig) (x : InsertFuture) : Prop where
  searching : x.step = .dataAndSearch → x.index.step = .searching ∧ x.index.swapping = none
  resting : x.step ≠ .dataAndSearch → x.index.step = .done
  swapping : ∀ a e, x.index.swapping = some (a, e) → x.step = .toIndex ∧
    e = .of x.index.hkey.checksum x.kvId ∧
    ∃ p ∈ places cfg x.index.hkey, a = addressOf cfg x.index.hkey p

/-- The invariant of the runs in which every swap finds its slot free. -/
structure Inv (cfg : IndexConfig) (tr : List InsertAction) (t : Inserts) : Prop where
  future : ∀ f, FutureOk cfg (t.future f)
  inserted : ∀ f h kvId, .insert f h kvId ∈ tr → kvId < 2 ^ 48 ∧
    (Landed cfg t.table h kvId ∨ Pending (t.future f) h kvId)

section Future

variable {x y : InsertFuture}

/-- What stepping an index future forward does, without the case that is not reached. -/
theorem index_tick {i j : IndexFuture} (hi : i.step ≠ .inserting)
    (h : i.tryStepForward cfg = some j) :
    i.swapping = none ∧ (i.step = .searching ∧
        j = { i with step := .done, result := searchBuffer cfg i.hkey i.buffer } ∨
      i.step = .done ∧ j = i) := by
  rw [IndexFuture.tryStepForward] at h
  split at h
  · exact absurd h (by simp)
  · next hidle =>
    refine ⟨by_contra fun hs => hidle (.inr hs), ?_⟩
    split at h
    · next hs => exact .inl ⟨hs, (Option.some.inj h).symm⟩
    · next hs => exact absurd hs hi
    · next hs => exact .inr ⟨hs, (Option.some.inj h).symm⟩

theorem FutureOk.idle (hs : x.step ≠ .dataAndSearch) (hd : x.index.step = .done)
    (hw : x.index.swapping = none) : FutureOk cfg x :=
  ⟨fun h => absurd h hs, fun _ => hd, fun _ _ h => absurd (hw.symm.trans h) (by simp)⟩

theorem not_pending {hk : HashedKey} {v : ℕ} (hs : x.step ≠ .dataAndSearch)
    (hw : x.index.swapping = none) : ¬ Pending x hk v := fun hp =>
  hp.2.2.elim hs fun h => h.2 hw

/-- A future that is stepped forward swaps its entry after the search, and is done
    after the swap. -/
theorem FutureOk.tick (hx : FutureOk cfg x) (h : x.tryStepForward cfg = some y) :
    FutureOk cfg y ∧ ∀ {hk v}, Pending x hk v → Pending y hk v := by
  obtain ⟨i, hi, hy⟩ := Option.bind_eq_some_iff.1 h
  have hstep : x.index.step ≠ .inserting := by
    by_cases hs : x.step = .dataAndSearch
    · rw [(hx.searching hs).1]
      simp
    · rw [hx.resting hs]
      simp
  obtain ⟨hswap, hcases⟩ := index_tick hstep hi
  cases hs : x.step with
  | dataAndSearch =>
    obtain ⟨-, rfl⟩ := hcases.resolve_right fun hd => by
      rw [(hx.searching hs).1] at hd
      exact absurd hd.1 (by simp)
    simp only [hs] at hy
    rw [if_pos (by simp [IndexFuture.isDone])] at hy
    obtain ⟨i, hi, rfl⟩ := Option.map_eq_some_iff.1 hy
    obtain ⟨a, ha, rfl⟩ := Option.map_eq_some_iff.1 hi
    refine ⟨⟨fun h => absurd h (by simp), fun _ => rfl, fun b e hbe => ?_⟩, fun hp => ?_⟩
    · obtain ⟨rfl, rfl⟩ := Prod.mk.inj (Option.some.inj hbe)
      exact ⟨rfl, rfl, searchBuffer_firstFree ha⟩
    · exact ⟨hp.1, hp.2.1, .inr ⟨rfl, by simp⟩⟩
  | toIndex =>
    have hdone := hx.resting (by rw [hs]; simp)
    obtain ⟨-, rfl⟩ := hcases.resolve_left fun hd => by
      rw [hdone] at hd
      exact absurd hd.1 (by simp)
    have hnot : ∀ {hk : HashedKey} {v : ℕ}, ¬ Pending x hk v :=
      not_pending (by rw [hs]; simp) hswap
    simp only [hs] at hy
    split at hy <;> obtain rfl := Option.some.inj hy
    · exact ⟨.idle (by simp) hdone hswap, fun hp => absurd hp hnot⟩
    · exact ⟨.idle (by simp) hdone hswap, fun hp => absurd hp hnot⟩
  | done =>
    have hdone := hx.resting (by rw [hs]; simp)
    obtain ⟨-, rfl⟩ := hcases.resolve_left fun hd => by
      rw [hdone] at hd
      exact absurd hd.1 (by simp)
    simp only [hs] at hy
    obtain rfl := Option.some.inj hy
    exact ⟨.idle (by simp) hdone hswap,
      fun hp => absurd hp (not_pending (by rw [hs]; simp) hswap)⟩

end Future

namespace Inv

variable {tr : List InsertAction} {a : InsertAction}

/-- A future takes a step that leaves the tables as they are. -/
theorem setFuture (hi : Inv cfg tr t) {x : InsertFuture} (hx : FutureOk cfg x)
    (hp : ∀ {h v}, Pending (t.future f) h v → Pending x h v)
    (ha : ∀ f' h v, a = .insert f' h v → v < 2 ^ 48 ∧ f' = f ∧ Pending x h v) :
    Inv cfg (a :: tr) (t.setFuture f x) := by
  have hfuture : ∀ f', f' = f ∧ (t.setFuture f x).future f' = x ∨
      (t.setFuture f x).future f' = t.future f' := by
    intro f'
    by_cases hf : f' = f
    · subst hf
      exact .inl ⟨rfl, Function.update_self ..⟩
    · exact .inr (Function.update_of_ne hf ..)
  refine ⟨fun f' => ?_, fun f' h v hm => ?_⟩
  · rcases hfuture f' with ⟨-, hf⟩ | hf <;> rw [hf]
    · exact hx
    · exact hi.future f'
  · rcases List.mem_cons.1 hm with hm | hm
    · obtain ⟨hv, rfl, hpend⟩ := ha f' h v hm.symm
      refine ⟨hv, .inr ?_⟩
      rw [Inserts.setFuture]
      dsimp only
      rw [Function.update_self]
      exact hpend
    · obtain ⟨hv, hland | hpend⟩ := hi.inserted f' h v hm
      · exact ⟨hv, .inl hland⟩
      · refine ⟨hv, .inr ?_⟩
        rcases hfuture f' with ⟨rfl, hf⟩ | hf <;> rw [hf]
        · exact hp hpend
        · exact hpend

/-- A swap that finds its slot free puts the entry there, and keeps the others. -/
theorem swap (hi : Inv cfg tr t) {b : Addr} {e : BucketEntry}
    (hs : (t.future f).index.swapping = some (b, e)) (hfree : t.table b = free) :
    Inv cfg (.swap f :: tr)
      { table := Function.update t.table b e
        future := Function.update t.future f ((t.future f).swapped (t.table b)) } := by
  obtain ⟨hstep, he, p, hp, hb⟩ := (hi.future f).swapping b e hs
  have hland : ∀ {h v}, Landed cfg t.table h v → Landed cfg (Function.update t.table b e) h v := by
    rintro h v ⟨q, hq, heq⟩
    refine ⟨q, hq, ?_⟩
    rw [Function.update_of_ne, heq]
    rintro rfl
    rw [hfree] at heq
    exact absurd (congrArg BucketEntry.used heq) (by simp [free, BucketEntry.of])
  refine ⟨fun f' => ?_, fun f' h v hm => ?_⟩ <;> dsimp only
  · by_cases hf : f' = f
    · subst hf
      rw [Function.update_self]
      have hne : (t.future f').step ≠ .dataAndSearch := by
        rw [hstep]
        simp
      exact .idle hne ((hi.future f').resting hne) rfl
    · rw [Function.update_of_ne hf]
      exact hi.future f'
  · obtain ⟨hv, hl | hpend⟩ := hi.inserted f' h v ((List.mem_cons.1 hm).resolve_left (by simp))
    · exact ⟨hv, .inl (hland hl)⟩
    · by_cases hf : f' = f
      · subst hf
        obtain ⟨rfl, rfl, -⟩ := hpend
        exact ⟨hv, .inl ⟨p, hp, by rw [← hb, Function.update_self, he]⟩⟩
      · refine ⟨hv, .inr ?_⟩
        rw [Function.update_of_ne hf]
        exact hpend

theorem run {n : ℕ} (h : (machine cfg n).Run Guard tr t) : Inv cfg tr t := by
  refine Trace.invariant (P := Inv cfg) ⟨fun _ => ?_, by simp⟩ ?_ h
  · exact ⟨fun h => absurd h (by simp [machine, InsertFuture.new]), fun _ => rfl,
      fun _ _ h => absurd h (by simp [machine, InsertFuture.new, IndexFuture.new])⟩
  rintro tr t a t' - hi ⟨act, hg, hst⟩
  simp only [machine] at hst
  split at hst
  · obtain ⟨t', hst', heq⟩ := Option.map_eq_some_iff.1 hst
    obtain ⟨rfl, rfl⟩ := Prod.mk.inj heq
    cases act with
    | insert f h v =>
      rw [step] at hst'
      split at hst'
      · next hdone =>
        obtain rfl := Option.some.inj hst'
        have hidle : (t.future f).index.swapping = none := by
          cases hs : (t.future f).index.swapping with
          | none => rfl
          | some q =>
            have := ((hi.future f).swapping q.1 q.2 hs).1
            rw [hdone] at this
            exact absurd this (by simp)
        refine hi.setFuture ⟨fun _ => ⟨rfl, hidle⟩, fun h => absurd rfl h, fun b e hbe => ?_⟩
          (fun hp => ?_) fun f' h' v' heq => ?_
        · exact absurd (hidle.symm.trans hbe) (by simp)
        · rcases hp.2.2 with hp | ⟨hp, -⟩ <;> rw [hdone] at hp <;> exact absurd hp (by simp)
        · obtain ⟨rfl, rfl, rfl⟩ := InsertAction.insert.inj heq
          exact ⟨hg, rfl, rfl, rfl, .inl rfl⟩
      · exact absurd hst' (by simp)
    | read f p =>
      rw [step] at hst'
      split at hst'
      · obtain rfl := Option.some.inj hst'
        have hx := hi.future f
        exact hi.setFuture ⟨hx.searching, hx.resting, hx.swapping⟩ id
          fun _ _ _ heq => absurd heq (by simp)
      · exact absurd hst' (by simp)
    | swap f =>
      obtain ⟨⟨b, e⟩, hs, rfl⟩ := Option.map_eq_some_iff.1 hst'
      have hfree : t.table b = free := by
        simp only [Guard, hs, Option.all_some, decide_eq_true_eq] at hg
        exact hg
      dsimp only
      rw [if_pos hfree]
      exact hi.swap hs hfree
    | written f =>
      obtain rfl := Option.some.inj hst'
      have hx := hi.future f
      exact hi.setFuture ⟨hx.searching, hx.resting, hx.swapping⟩ id
        fun _ _ _ heq => absurd heq (by simp)
    | tick f =>
      obtain ⟨y, hy, rfl⟩ := Option.map_eq_some_iff.1 hst'
      obtain ⟨hok, hp⟩ := (hi.future f).tick hy
      exact hi.setFuture hok hp fun _ _ _ heq => absurd heq (by simp)
  · exact absurd hst (by simp)

end Inv

theorem future_lt {n : ℕ} {tr : List InsertAction} (h : (machine cfg n).Run Guard tr t) :
    ∀ a ∈ tr, a.future < n := by
  refine Trace.invariant (P := fun tr _ => ∀ a ∈ tr, a.future < n) (by simp) ?_ h
  rintro tr t a t' - hi ⟨act, -, hst⟩
  simp only [machine] at hst
  split at hst
  · next hlt =>
    obtain ⟨t', -, heq⟩ := Option.map_eq_some_iff.1 hst
    obtain ⟨rfl, -⟩ := Prod.mk.inj heq
    exact List.forall_mem_cons.2 ⟨hlt, hi⟩
  · exact absurd hst (by simp)

/-- No insert is lost if every swap finds its slot free: once all are done, a search of
    any key finds the id it was inserted under. -/
theorem found_of_run {n : ℕ} {tr : List InsertAction} (h : (machine cfg n).Run Guard tr t)
    (hd : t.Done n) {hk : HashedKey} {v : ℕ} (hm : .insert f hk v ∈ tr) :
    v ∈ (searchTable cfg hk t.table).matches_ := by
  have hf : f < n := future_lt h _ hm
  obtain ⟨hv, ⟨p, hp, he⟩ | hpend⟩ := (Inv.run h).inserted f hk v hm
  · exact mem_searchTable hp hv he
  · rcases hpend.2.2 with hp | ⟨hp, -⟩ <;> rw [hd f hf] at hp <;> exact absurd hp (by simp)

/-- Two inserts of keys with the same groups, of which one searches after the other has
    swapped. -/
theorem found_inTurn : ∃ tr t, (machine smallIndex 2).Run Guard tr t ∧ t.Done 2 ∧
    (.insert 1 4 2 : InsertAction) ∈ tr ∧ 2 ∈ (searchTable smallIndex 4 t.table).matches_ := by
  obtain ⟨tr, t, h, ht⟩ := Machine.exists_run_of_play (G := Guard) (m := machine smallIndex 2)
    (fun r => decide (r.2.Done 2 ∧ (.insert 1 4 2 : InsertAction) ∈ r.1))
    ([.insert 0 0 1, .insert 1 4 2] ++ searchAll 0 0 ++
      [.tick 0, .swap 0, .written 0, .tick 0] ++ searchAll 1 4 ++
      [.tick 1, .swap 1, .written 1, .tick 1]) (b := true) (by decide +kernel)
  obtain ⟨hd, hm⟩ := of_decide_eq_true ht
  exact ⟨tr, t, h, hd, hm, found_of_run h hd hm⟩

end Inserts

end DiscoSkip.SwarmKv
