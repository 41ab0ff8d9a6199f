import Mathlib.Algebra.BigOperators.Group.List.Basic
import Mathlib.Algebra.GroupWithZero.Nat
import Mathlib.Data.List.AList
import DiscoSkip.Lib.Loop
import DiscoSkip.Lib.Put

/-!
# The pointer cache of swarm-kv

The cache keeps for each key its value, and its place on a ring with a counter, that every
use of the key raises. A key that is new to a full cache takes the place of another: a hand
goes round the ring, lowering the counters that are not `0`, up to the first that is.
-/

namespace DiscoSkip.SwarmKv

open Lib

structure LRUCache (K V : Type*) where
  itemMap : AList fun _ : K => V × ℕ
  itemClock : List (K × ℕ)
  size : ℕ
  hand : ℕ

namespace LRUCache

variable {K V : Type*}

def init (size : ℕ) : LRUCache K V := ⟨∅, [], size, 0⟩

/-- The counter of a place is raised, if there is the place. -/
def raise (itemClock : List (K × ℕ)) (pos : ℕ) : Option (List (K × ℕ)) :=
  itemClock[pos]?.map fun item => itemClock.set pos (item.1, (item.2 + 1) % 2 ^ 64)

/-- A turn of the loop that looks for the key to evict. -/
def sweep (x : List (K × ℕ) × ℕ) : Option ((K × List (K × ℕ) × ℕ) ⊕ (List (K × ℕ) × ℕ)) :=
  let (itemClock, hand) := x
  itemClock[hand]?.map fun item =>
    if item.2 = 0 then .inl (item.1, itemClock, hand)
    else .inr (itemClock.set hand (item.1, item.2 - 1), (hand + 1) % itemClock.length)

/-- The sum of all counters. -/
def total (itemClock : List (K × ℕ)) : ℕ := (itemClock.map Prod.snd).sum

variable [DecidableEq K]

/-- The loop is given as many turns as it can take before all counters are `0`. -/
def put (s : LRUCache K V) (key : K) (val : V) : Option (LRUCache K V) :=
  if s.size = 0 then some s
  else
    match s.itemMap.lookup key with
    | some (_, pos) => (raise s.itemClock pos).map fun itemClock =>
        { s with itemMap := s.itemMap.insert key (val, pos), itemClock }
    | none =>
      let itemMap := s.itemMap.insert key (val, s.hand)
      if s.size < itemMap.keys.length then
        (loop sweep (total s.itemClock + 1) (s.itemClock, s.hand)).map
          fun (victim, itemClock, hand) =>
            { s with
              itemMap := (itemMap.erase victim).insert key (val, hand)
              itemClock := itemClock.set hand (key, 0)
              hand := (hand + 1) % itemClock.length }
      else
        let itemClock := s.itemClock ++ [(key, 0)]
        some { s with itemMap, itemClock, hand := (s.hand + 1) % itemClock.length }

def get (s : LRUCache K V) (key : K) : Option (Option V × LRUCache K V) :=
  if s.size = 0 then some (none, s)
  else
    match s.itemMap.lookup key with
    | some (val, pos) => (raise s.itemClock pos).map fun itemClock =>
        (some val, { s with itemClock })
    | none => some (none, s)

/-! ## Runs -/

inductive Call (K V : Type*)
  | put (key : K) (val : V)
  | get (key : K)

def call (s : LRUCache K V) : Call K V → Option (LRUCache K V)
  | .put key val => s.put key val
  | .get key => (s.get key).map Prod.snd

/-- The cache after calls, from its construction on. -/
def run (size : ℕ) (calls : List (Call K V)) : Option (LRUCache K V) :=
  calls.foldlM call (init size)

/-- The values that were put last. -/
def stored (calls : List (Call K V)) : K → Option V :=
  calls.foldl (fun m c => match c with
    | .put key val => Lib.put m key (some val)
    | .get _ => m) fun _ => none

/-! ## The ring -/

section Ring

variable {l l' : List (K × ℕ)} {k : K} {n m hand pos : ℕ}

omit [DecidableEq K] in
theorem raise_spec (hp : pos < l.length) :
    ∃ l', raise l pos = some l' ∧ l'.map Prod.fst = l.map Prod.fst := by
  refine ⟨_, by rw [raise, List.getElem?_eq_getElem hp, Option.map_some], ?_⟩
  rw [List.map_set]
  have hp' : pos < (l.map Prod.fst).length := by rwa [List.length_map]
  have hself : (l.map Prod.fst).set pos (l.map Prod.fst)[pos] = _ := List.set_getElem_self hp'
  rwa [List.getElem_map] at hself

omit [DecidableEq K] in
theorem total_set (hc : l[hand]? = some (k, n)) : total (l.set hand (k, m)) + n = total l + m := by
  induction l generalizing hand with
  | nil => exact nomatch hc
  | cons x l ih =>
    cases hand with
    | zero =>
      obtain rfl : x = (k, n) := by simpa using hc
      simp only [total, List.set_cons_zero, List.map_cons, List.sum_cons]
      omega
    | succ hand =>
      have := ih (by simpa using hc)
      simp only [total, List.set_cons_succ, List.map_cons, List.sum_cons] at this ⊢
      omega

omit [DecidableEq K] in
/-- A turn keeps the keys and the hand in range, and lowers the sum of the counters. -/
theorem sweep_turn (hh : hand < l.length) :
    (∃ k, sweep (l, hand) = some (.inl (k, l, hand)) ∧ (l.map Prod.fst)[hand]? = some k) ∨
      ∃ l' hand', sweep (l, hand) = some (.inr (l', hand')) ∧ l'.map Prod.fst = l.map Prod.fst ∧
        hand' < l'.length ∧ total l' < total l := by
  obtain ⟨k, n, hitem⟩ : ∃ k n, l[hand] = (k, n) := ⟨_, _, rfl⟩
  have hget : l[hand]? = some (k, n) := by rw [List.getElem?_eq_getElem hh, hitem]
  have hkey : (l.map Prod.fst)[hand]? = some k := by rw [List.getElem?_map, hget, Option.map_some]
  simp only [sweep, hget, Option.map_some]
  by_cases hn : n = 0
  · exact .inl ⟨k, by rw [if_pos hn], hkey⟩
  · refine .inr ⟨l.set hand (k, n - 1), (hand + 1) % l.length, by rw [if_neg hn], ?_, ?_, ?_⟩
    · obtain ⟨hh', rfl⟩ := List.getElem?_eq_some_iff.1 hkey
      rw [List.map_set, List.set_getElem_self]
    · rw [List.length_set]
      exact Nat.mod_lt _ (Nat.zero_lt_of_lt hh)
    · have := total_set (m := n - 1) hget
      omega

omit [DecidableEq K] in
/-- The hand comes to a counter that is `0`; the keys stay where they are. -/
theorem sweep_spec (hh : hand < l.length) : ∃ victim l' hand',
    loop sweep (total l + 1) (l, hand) = some (victim, l', hand') ∧
      l'.map Prod.fst = l.map Prod.fst ∧ (l.map Prod.fst)[hand']? = some victim := by
  let P := fun x : List (K × ℕ) × ℕ => x.1.map Prod.fst = l.map Prod.fst ∧ x.2 < x.1.length
  let Q := fun r : K × List (K × ℕ) × ℕ =>
    r.2.1.map Prod.fst = l.map Prod.fst ∧ (l.map Prod.fst)[r.2.2]? = some r.1
  obtain ⟨⟨victim, l', hand'⟩, hl, hk, hv⟩ :
      ∃ r, loop sweep (total l + 1) (l, hand) = some r ∧ Q r :=
    loop_spec (P := P) (Q := Q) (μ := fun x => total x.1) (by
      rintro ⟨x, i⟩ ⟨hx, hi⟩
      obtain ⟨k, hs, hk⟩ | ⟨x', i', hs, hx', hi', hlt⟩ := sweep_turn hi
      · exact .inl ⟨_, hs, hx, hx ▸ hk⟩
      · exact .inr ⟨_, hs, ⟨hx'.trans hx, hi'⟩, hlt⟩)
    ⟨rfl, hh⟩ (Nat.lt_succ_self _)
  exact ⟨victim, l', hand', hl, hk, hv⟩

omit [DecidableEq K] in
/-- A key that is not in the list takes the place of one that is. -/
theorem nodup_set {l : List K} {a b : K} (hl : l.Nodup) (ha : l[hand]? = some a) (hb : b ∉ l) :
    (l.set hand b).Nodup ∧ ∀ x, x ∈ l.set hand b ↔ x = b ∨ x ∈ l ∧ x ≠ a := by
  obtain ⟨l₁, l₂, rfl, rfl⟩ : ∃ l₁ l₂, l = l₁ ++ a :: l₂ ∧ hand = l₁.length := by
    obtain ⟨hh, rfl⟩ := List.getElem?_eq_some_iff.1 ha
    exact ⟨l.take hand, l.drop (hand + 1), by simp, by simp [hh.le]⟩
  have hset : (l₁ ++ a :: l₂).set l₁.length b = l₁ ++ b :: l₂ := by simp
  rw [List.nodup_middle, List.nodup_cons] at hl
  rw [hset, List.nodup_middle, List.nodup_cons]
  refine ⟨⟨fun hm => hb ?_, hl.2⟩, fun x => ?_⟩
  · rcases List.mem_append.1 hm with hm | hm
    · exact List.mem_append_left _ hm
    · exact List.mem_append_right _ (List.mem_cons_of_mem _ hm)
  · have hne : x ∈ l₁ ++ l₂ → x ≠ a := by
      rintro hx rfl
      exact hl.1 hx
    simp only [List.mem_append, List.mem_cons] at hne ⊢
    tauto

end Ring

/-! ## The invariant -/

/-- The keys on the ring are those of the map, each once, with their places in range and the
    values `m`. -/
structure Inv (m : K → Option V) (s : LRUCache K V) : Prop where
  nodup : (s.itemClock.map Prod.fst).Nodup
  mem : ∀ k, k ∈ s.itemClock.map Prod.fst ↔ k ∈ s.itemMap
  hand : s.hand < s.itemClock.length ∨ s.itemClock = [] ∧ s.hand = 0
  pos : ∀ k v p, s.itemMap.lookup k = some (v, p) → p < s.itemClock.length
  le : s.itemClock.length ≤ s.size
  value : ∀ k v p, s.itemMap.lookup k = some (v, p) → m k = some v

/-- What `put` does: nothing, for want of size; another value for a key that is there; or a new
    key, next on the ring or in the place of another. -/
inductive Puts (s : LRUCache K V) (key : K) (val : V) : LRUCache K V → Prop
  | nothing : s.size = 0 → Puts s key val s
  | again {v : V} {pos : ℕ} {c : List (K × ℕ)} : s.itemMap.lookup key = some (v, pos) →
      c.map Prod.fst = s.itemClock.map Prod.fst →
      Puts s key val { s with itemMap := s.itemMap.insert key (val, pos), itemClock := c }
  | grows : key ∉ s.itemMap → s.itemClock.length < s.size →
      Puts s key val
        { s with
          itemMap := s.itemMap.insert key (val, s.hand)
          itemClock := s.itemClock ++ [(key, 0)]
          hand := (s.hand + 1) % (s.itemClock ++ [(key, 0)]).length }
  | evicts {victim : K} {c : List (K × ℕ)} {hand : ℕ} : key ∉ s.itemMap →
      s.itemClock.length = s.size → 0 < s.size → c.map Prod.fst = s.itemClock.map Prod.fst →
      (s.itemClock.map Prod.fst)[hand]? = some victim →
      Puts s key val
        { s with
          itemMap := ((s.itemMap.insert key (val, s.hand)).erase victim).insert key (val, hand)
          itemClock := c.set hand (key, 0)
          hand := (hand + 1) % c.length }

section Inv

variable {m : K → Option V} {s s' : LRUCache K V} {k key : K} {v val : V} {p pos : ℕ}

omit [DecidableEq K] in
theorem length_eq_of_map_eq {c c' : List (K × ℕ)} (h : c'.map Prod.fst = c.map Prod.fst) :
    c'.length = c.length := by
  simpa using congrArg List.length h

namespace Inv

theorem length_keys (h : Inv m s) : s.itemMap.keys.length = s.itemClock.length := by
  rw [← List.length_map Prod.fst]
  refine ((List.perm_ext_iff_of_nodup h.nodup s.itemMap.keys_nodup).2 fun k => ?_).length_eq.symm
  rw [h.mem, AList.mem_keys]

theorem length_keys_insert (h : Inv m s) (hk : key ∉ s.itemMap) (x : V × ℕ) :
    (s.itemMap.insert key x).keys.length = s.itemClock.length + 1 := by
  rw [AList.keys_insert, List.length_cons, List.erase_of_not_mem hk, h.length_keys]

/-- A call of `put` returns, and does one of these. -/
theorem put (h : Inv m s) (key : K) (val : V) :
    ∃ s', s.put key val = some s' ∧ Puts s key val s' := by
  unfold LRUCache.put
  split
  · next h0 => exact ⟨s, rfl, .nothing h0⟩
  · next h0 =>
    split
    · next v pos hl =>
      obtain ⟨c, hc, hkeys⟩ := raise_spec (h.pos key v pos hl)
      exact ⟨_, by rw [hc, Option.map_some], .again hl hkeys⟩
    · next hl =>
      have hk := AList.lookup_eq_none.1 hl
      have hle := h.le
      dsimp only
      rw [h.length_keys_insert hk]
      split
      · next hfull =>
        have hhand : s.hand < s.itemClock.length := by
          obtain hh | ⟨hnil, -⟩ := h.hand
          · exact hh
          · rw [hnil, List.length_nil] at hfull
            omega
        obtain ⟨victim, c, i, hs, hkeys, hv⟩ := sweep_spec hhand
        exact ⟨_, by rw [hs, Option.map_some], .evicts hk (by omega) (by omega) hkeys hv⟩
      · next hroom => exact ⟨_, rfl, .grows hk (by omega)⟩

/-- Putting a key into the map keeps the places in range and the values. -/
theorem lookup_insert (val : V) {map : AList fun _ : K => V × ℕ} {n : ℕ}
    (h : ∀ k v p, k ≠ key → map.lookup k = some (v, p) → p < n ∧ m k = some v)
    (hpos : pos < n) : ∀ k v p, (map.insert key (val, pos)).lookup k = some (v, p) →
      p < n ∧ Lib.put m key (some val) k = some v := by
  intro k v p hk
  by_cases hkk : k = key
  · subst hkk
    rw [AList.lookup_insert] at hk
    cases hk
    exact ⟨hpos, put_self _ _ _⟩
  · rw [AList.lookup_insert_ne hkk] at hk
    rw [put_of_ne hkk]
    exact h k v p hkk hk

theorem puts (h : Inv m s) (hp : Puts s key val s') : Inv (Lib.put m key (some val)) s' := by
  have hold : ∀ {n}, s.itemClock.length ≤ n → ∀ k v p, k ≠ key →
      s.itemMap.lookup k = some (v, p) → p < n ∧ m k = some v :=
    fun hn k v p _ hk => ⟨(h.pos k v p hk).trans_le hn, h.value k v p hk⟩
  cases hp with
  | nothing h0 =>
    have hnil : s.itemClock = [] := List.eq_nil_of_length_eq_zero (by have := h.le; omega)
    have hno : ∀ k, s.itemMap.lookup k = none := fun k => by
      rw [AList.lookup_eq_none, ← h.mem, hnil]
      exact List.not_mem_nil
    exact ⟨h.nodup, h.mem, h.hand, h.pos, h.le, fun k v p hk => nomatch (hno k).symm.trans hk⟩
  | again hl hc =>
    have hlen := length_eq_of_map_eq hc
    have hkey : key ∈ s.itemMap := AList.lookup_isSome.1 (by rw [hl]; rfl)
    have hmap := lookup_insert val (hold hlen.ge) (hlen ▸ h.pos _ _ _ hl)
    refine ⟨hc ▸ h.nodup, fun k => ?_, ?_, fun k v p hk => (hmap k v p hk).1, hlen ▸ h.le,
      fun k v p hk => (hmap k v p hk).2⟩
    · dsimp only
      rw [hc, h.mem, AList.mem_insert]
      exact ⟨.inr, fun hk => hk.elim (fun hk => hk ▸ hkey) id⟩
    · refine h.hand.imp (fun hh => hlen ▸ hh) fun ⟨hn, h0⟩ => ⟨?_, h0⟩
      exact List.eq_nil_of_length_eq_zero (by rw [hlen, hn, List.length_nil])
  | grows hkey hlt =>
    have hlen : (s.itemClock ++ [(key, 0)]).length = s.itemClock.length + 1 := by simp
    have hhand : s.hand < s.itemClock.length + 1 := by
      obtain hh | ⟨-, hh⟩ := h.hand <;> omega
    have hmap := lookup_insert val (hold (hlen ▸ Nat.le_succ _)) (hlen ▸ hhand)
    refine ⟨?_, fun k => ?_, .inl (Nat.mod_lt _ (hlen ▸ Nat.succ_pos _)),
      fun k v p hk => (hmap k v p hk).1, hlen ▸ hlt, fun k v p hk => (hmap k v p hk).2⟩
    · dsimp only
      rw [List.map_append, List.map_singleton, ← List.concat_eq_append, List.nodup_concat]
      exact ⟨(h.mem key).not.2 hkey, h.nodup⟩
    · dsimp only
      rw [List.map_append, List.mem_append, h.mem, AList.mem_insert, List.map_singleton,
        List.mem_singleton, or_comm]
  | @evicts victim c i hkey hfull hpos hc hv =>
    have hlen : (c.set i (key, 0)).length = s.itemClock.length := by
      rw [List.length_set, length_eq_of_map_eq hc]
    obtain ⟨hnodup, hmem⟩ := nodup_set h.nodup hv ((h.mem key).not.2 hkey)
    obtain ⟨hi, -⟩ := List.getElem?_eq_some_iff.1 hv
    rw [List.length_map] at hi
    -- the keys of the map that stay are the old ones but the victim
    have hstay : ∀ k v p, k ≠ key →
        ((s.itemMap.insert key (val, s.hand)).erase victim).lookup k = some (v, p) →
          p < (c.set i (key, 0)).length ∧ m k = some v := by
      intro k v p hkk hk
      have hne : k ≠ victim := by
        rintro rfl
        rw [AList.lookup_erase] at hk
        exact nomatch hk
      rw [AList.lookup_erase_ne hne, AList.lookup_insert_ne hkk] at hk
      exact hold hlen.ge k v p hkk hk
    have hmap := lookup_insert val hstay (hlen ▸ hi)
    refine ⟨?_, fun k => ?_, .inl ?_, fun k v p hk => (hmap k v p hk).1, hlen ▸ h.le,
      fun k v p hk => (hmap k v p hk).2⟩
    · dsimp only
      rw [List.map_set, hc]
      exact hnodup
    · dsimp only
      rw [List.map_set, hc, hmem, h.mem, AList.mem_insert, AList.mem_erase, AList.mem_insert]
      tauto
    · dsimp only
      rw [hlen, ← length_eq_of_map_eq hc]
      exact Nat.mod_lt _ (by rw [length_eq_of_map_eq hc]; omega)

/-- A call of `get` returns the value there is; the keys stay. -/
theorem get (h : Inv m s) (key : K) : ∃ s',
    s.get key = some ((s.itemMap.lookup key).map Prod.fst, s') ∧ Inv m s' ∧
      s'.itemClock.map Prod.fst = s.itemClock.map Prod.fst ∧ s'.size = s.size := by
  unfold LRUCache.get
  split
  · next h0 =>
    have hno : s.itemMap.lookup key = none := by
      have hnil : s.itemClock = [] := List.eq_nil_of_length_eq_zero (by have := h.le; omega)
      rw [AList.lookup_eq_none, ← h.mem, hnil]
      exact List.not_mem_nil
    exact ⟨s, by rw [hno, Option.map_none], h, rfl, rfl⟩
  · split
    · next v pos hl =>
      obtain ⟨c, hc, hkeys⟩ := raise_spec (h.pos key v pos hl)
      have hlen := length_eq_of_map_eq hkeys
      refine ⟨{ s with itemClock := c }, by rw [hc, hl]; rfl, ⟨hkeys ▸ h.nodup, fun k => ?_, ?_,
        fun k v p hk => hlen ▸ h.pos k v p hk, hlen ▸ h.le, h.value⟩, hkeys, rfl⟩
      · dsimp only
        rw [hkeys, h.mem]
      · refine h.hand.imp (fun hh => hlen ▸ hh) fun ⟨hn, h0⟩ => ⟨?_, h0⟩
        exact List.eq_nil_of_length_eq_zero (by rw [hlen, hn, List.length_nil])
    · next hl => exact ⟨s, by rw [hl, Option.map_none], h, rfl, rfl⟩

theorem init (size : ℕ) : Inv (fun _ => none) (LRUCache.init size : LRUCache K V) :=
  ⟨List.nodup_nil, fun _ => by simp [LRUCache.init], .inr ⟨rfl, rfl⟩,
    fun _ _ _ hk => by simp [LRUCache.init] at hk, Nat.zero_le _,
    fun _ _ _ hk => by simp [LRUCache.init] at hk⟩

end Inv

theorem Puts.size_eq (h : Puts s key val s') : s'.size = s.size := by
  cases h <;> rfl

end Inv

/-! ## Runs of calls -/

section Run

variable {m : K → Option V} {s s' : LRUCache K V} {k key : K} {v val : V} {size : ℕ}
  {calls : List (Call K V)} {c : Call K V}

theorem run_append : run size (calls ++ [c]) = (run size calls).bind (·.call c) := by
  simp [run, List.foldlM_append]

theorem stored_put : stored (calls ++ [.put key val]) = Lib.put (stored calls) key (some val) := by
  simp [stored]

theorem stored_get : stored (calls ++ [.get key]) = stored calls := by
  simp [stored]

theorem mem_of_stored (h : stored calls k = some v) : .put k v ∈ calls := by
  induction calls using List.reverseRecOn with
  | nil => exact nomatch h
  | append_singleton calls c ih =>
    cases c with
    | put key val =>
      rw [stored_put] at h
      by_cases hk : k = key
      · subst hk
        rw [put_self] at h
        cases h
        exact List.mem_append_right _ List.mem_cons_self
      · rw [put_of_ne hk] at h
        exact List.mem_append_left _ (ih h)
    | get key =>
      rw [stored_get] at h
      exact List.mem_append_left _ (ih h)

/-- Every list of calls runs to its end, and keeps the invariant. -/
theorem exists_run (size : ℕ) (calls : List (Call K V)) :
    ∃ s, run size calls = some s ∧ Inv (stored calls) s ∧ s.size = size := by
  induction calls using List.reverseRecOn with
  | nil => exact ⟨_, rfl, .init size, rfl⟩
  | append_singleton calls c ih =>
    obtain ⟨s, hs, h, hsize⟩ := ih
    rw [run_append, hs, Option.bind_some]
    cases c with
    | put key val =>
      obtain ⟨s', hs', hp⟩ := h.put key val
      refine ⟨s', hs', ?_, hp.size_eq.trans hsize⟩
      rw [stored_put]
      exact h.puts hp
    | get key =>
      obtain ⟨s', hs', h', -, hsize'⟩ := h.get key
      refine ⟨s', by rw [call, hs']; rfl, ?_, hsize'.trans hsize⟩
      rw [stored_get]
      exact h'

/-- What the cache does after calls. -/
structure Contract (size : ℕ) (calls : List (Call K V)) (s : LRUCache K V) : Prop where
  length_le : s.itemMap.keys.length ≤ size
  nodup : (s.itemClock.map Prod.fst).Nodup
  mem : ∀ k, k ∈ s.itemClock.map Prod.fst ↔ k ∈ s.itemMap
  pos_lt : ∀ k v p, s.itemMap.lookup k = some (v, p) → p < s.itemClock.length
  get_mem : ∀ k ∈ s.itemMap, ∃ v s', stored calls k = some v ∧ s.get k = some (some v, s')
  get_of_not_mem : ∀ k ∉ s.itemMap, ∃ s', s.get k = some (none, s')
  put_keeps : ∀ k v, k ∈ s.itemMap ∨ s.itemMap.keys.length < size →
    ∃ s', s.put k v = some s' ∧ ∀ j, j ∈ s'.itemMap ↔ j = k ∨ j ∈ s.itemMap
  put_evicts : ∀ k v, 0 < size → k ∉ s.itemMap → s.itemMap.keys.length = size →
    ∃ s' victim, s.put k v = some s' ∧ victim ≠ k ∧ victim ∈ s.itemMap ∧
      ∀ j, j ∈ s'.itemMap ↔ j = k ∨ j ∈ s.itemMap ∧ j ≠ victim
  put_zero : ∀ k v, size = 0 → s.put k v = some s

/-- After any calls, the cache keeps to its contract. -/
theorem contract_of_run (size : ℕ) (calls : List (Call K V)) :
    ∃ s, run size calls = some s ∧ Contract size calls s := by
  obtain ⟨s, hs, h, rfl⟩ := exists_run size calls
  have hlen := h.length_keys
  refine ⟨s, hs, by rw [hlen]; exact h.le, h.nodup, h.mem, h.pos, fun k hk => ?_, fun k hk => ?_,
    fun k v hk => ?_, fun k v hpos hk hfull => ?_, fun k v h0 => if_pos h0⟩
  · obtain ⟨⟨v, p⟩, hl⟩ := Option.isSome_iff_exists.1 (AList.lookup_isSome.2 hk)
    obtain ⟨s', hg, -⟩ := h.get k
    exact ⟨v, s', h.value k v p hl, by rw [hg, hl]; rfl⟩
  · obtain ⟨s', hg, -⟩ := h.get k
    exact ⟨s', by rw [hg, AList.lookup_eq_none.2 hk]; rfl⟩
  · obtain ⟨s', hp, hputs⟩ := h.put k v
    refine ⟨s', hp, fun j => ?_⟩
    cases hputs with
    | nothing h0 =>
      obtain hk | hk := hk
      · exact ⟨.inr, fun hj => hj.elim (fun hj => hj ▸ hk) id⟩
      · omega
    | again | grows => exact AList.mem_insert _
    | evicts hno hfull =>
      obtain hk | hk := hk
      · exact absurd hk hno
      · omega
  · obtain ⟨s', hp, hputs⟩ := h.put k v
    cases hputs with
    | nothing h0 => omega
    | again hl => exact absurd (AList.lookup_isSome.1 (by rw [hl]; rfl)) hk
    | grows _ hlt => omega
    | @evicts victim c i _ _ _ _ hv =>
      have hmem := (h.mem victim).1 (List.mem_of_getElem? hv)
      refine ⟨_, victim, hp, fun hvk => hk (hvk ▸ hmem), hmem, fun j => ?_⟩
      rw [AList.mem_insert, AList.mem_erase, AList.mem_insert]
      tauto

/-! ### Places on the ring -/

/-- The place of every key in the cache is that of the key on the ring. -/
def BackRefs (s : LRUCache K V) : Prop :=
  ∀ k v p, s.itemMap.lookup k = some (v, p) → (s.itemClock[p]?).map Prod.fst = some k

/-- With a single key, there is only one place. -/
theorem Inv.backRefs (h : Inv m s) (hle : s.itemClock.length ≤ 1) : s.BackRefs := by
  intro k v p hk
  have hp := h.pos k v p hk
  obtain ⟨item, hitem⟩ := List.length_eq_one_iff.1 (show s.itemClock.length = 1 by omega)
  have hmem := (h.mem k).2 (AList.lookup_isSome.1 (by rw [hk]; rfl))
  rw [hitem] at hmem hp ⊢
  obtain rfl := List.mem_singleton.1 hmem
  obtain rfl : p = 0 := by simpa using hp
  rfl

/-- As long as every key has its place, no second key is put into a cache for more than one. -/
theorem Inv.not_backRefs (h : Inv m s) (hsize : 2 ≤ s.size) {a : K}
    (hone : s.itemClock.map Prod.fst = [a]) (hne : key ≠ a) (hp : Puts s key val s') :
    ¬ s'.BackRefs := by
  obtain ⟨item, hitem, rfl⟩ := List.map_eq_singleton_iff.1 hone
  have hkey : key ∉ s.itemMap := by
    rw [← h.mem, hone, List.mem_singleton]
    exact hne
  have hlen : s.itemClock.length = 1 := by rw [hitem]; rfl
  cases hp with
  | nothing h0 => omega
  | again hl => exact absurd (AList.lookup_isSome.1 (by rw [hl]; rfl)) hkey
  | grows =>
    intro hb
    have hhand : s.hand = 0 := by obtain hh | ⟨-, hh⟩ := h.hand <;> omega
    have := hb key val s.hand (AList.lookup_insert _)
    rw [hhand, hitem] at this
    exact hne (Option.some.inj this).symm
  | evicts _ hfull => omega

/-- If every key has its place after any of the calls, they put no two different keys into a
    cache for more than one; so there is at most one key. -/
theorem eq_of_backRefs (hsize : 2 ≤ size)
    (h : ∀ pre, pre <+: calls → ∀ s, run size pre = some s → s.BackRefs) :
    ∃ s, run size calls = some s ∧
      ((∀ k v, .put k v ∉ calls) ∧ s.itemClock = [] ∨
        ∃ a, (∀ k v, .put k v ∈ calls → k = a) ∧ s.itemClock.map Prod.fst = [a]) := by
  induction calls using List.reverseRecOn with
  | nil => exact ⟨_, rfl, .inl ⟨fun _ _ => List.not_mem_nil, rfl⟩⟩
  | append_singleton calls c ih =>
    obtain ⟨s, hs, hone⟩ := ih fun pre hpre => h pre (hpre.trans (List.prefix_append _ _))
    obtain ⟨s₀, hs₀, hinv, rfl⟩ := exists_run size calls
    obtain rfl : s = s₀ := Option.some.inj (hs.symm.trans hs₀)
    obtain ⟨s', hs', -, -⟩ := exists_run s.size (calls ++ [c])
    refine ⟨s', hs', ?_⟩
    have hb := h _ (List.prefix_refl _) s' hs'
    rw [run_append, hs, Option.bind_some] at hs'
    cases c with
    | get key =>
      obtain ⟨s₁, hg, -, hkeys, -⟩ := hinv.get key
      rw [call, hg] at hs'
      cases hs'
      simp only [List.mem_append, List.mem_singleton, reduceCtorEq, or_false]
      refine hone.imp (fun ⟨hno, hnil⟩ => ⟨hno, ?_⟩) fun ⟨a, ha, hk⟩ => ⟨a, ha, hkeys.trans hk⟩
      rw [hnil] at hkeys
      exact List.map_eq_nil_iff.1 hkeys
    | put key val =>
      obtain ⟨s₁, hp, hputs⟩ := hinv.put key val
      obtain rfl : s₁ = s' := Option.some.inj (hp.symm.trans hs')
      right
      obtain ⟨hno, hnil⟩ | ⟨a, ha, hk⟩ := hone
      · have hkey : key ∉ s.itemMap := by
          rw [← hinv.mem, hnil]
          exact List.not_mem_nil
        refine ⟨key, fun k v hmem => ?_, ?_⟩
        · obtain hmem | hmem := List.mem_append.1 hmem
          · exact absurd hmem (hno k v)
          · exact (Call.put.inj (List.mem_singleton.1 hmem)).1
        · cases hputs with
          | nothing h0 => omega
          | again hl => exact absurd (AList.lookup_isSome.1 (by rw [hl]; rfl)) hkey
          | grows => rw [hnil]; rfl
          | evicts _ hfull => rw [hnil, List.length_nil] at hfull; omega
      · by_cases hka : key = a
        · subst hka
          have hkey : key ∈ s.itemMap := by
            rw [← hinv.mem, hk]
            exact List.mem_cons_self
          refine ⟨key, fun k v hmem => ?_, ?_⟩
          · obtain hmem | hmem := List.mem_append.1 hmem
            · exact ha k v hmem
            · exact (Call.put.inj (List.mem_singleton.1 hmem)).1
          · cases hputs with
            | nothing h0 => omega
            | again _ hc => exact hc.trans hk
            | grows hno => exact absurd hkey hno
            | evicts hno => exact absurd hkey hno
        · exact absurd hb (hinv.not_backRefs hsize hk hka hputs)

/-- Every key has its place after any of the calls just if the cache is for one key, or the
    calls put no two different ones. -/
theorem backRefs_iff (size : ℕ) (calls : List (Call K V)) :
    (∀ pre, pre <+: calls → ∀ s, run size pre = some s → s.BackRefs) ↔
      size ≤ 1 ∨ ∀ k v k' v', .put k v ∈ calls → .put k' v' ∈ calls → k = k' := by
  constructor
  · intro h
    by_cases hsize : size ≤ 1
    · exact .inl hsize
    · right
      intro k v k' v' hk hk'
      obtain ⟨s, -, ⟨hno, -⟩ | ⟨a, ha, -⟩⟩ := eq_of_backRefs (by omega) h
      · exact absurd hk (hno k v)
      · exact (ha k v hk).trans (ha k' v' hk').symm
  · intro h pre hpre s hs
    obtain ⟨s₀, hs₀, hinv, hsize⟩ := exists_run size pre
    obtain rfl : s = s₀ := Option.some.inj (hs.symm.trans hs₀)
    refine hinv.backRefs ?_
    obtain hle | hone := h
    · exact hinv.le.trans (hsize.le.trans hle)
    · -- two keys on the ring would be put by two calls
      have hput : ∀ k ∈ s.itemClock.map Prod.fst, ∃ v, .put k v ∈ calls := fun k hk => by
        obtain ⟨⟨v, p⟩, hl⟩ := Option.isSome_iff_exists.1
          (AList.lookup_isSome.2 ((hinv.mem k).1 hk))
        exact ⟨v, hpre.subset (mem_of_stored (hinv.value k v p hl))⟩
      rcases hclock : s.itemClock with _ | ⟨x, _ | ⟨y, l⟩⟩
      · exact Nat.zero_le _
      · exact le_rfl
      · have hnodup := hinv.nodup
        rw [hclock] at hput hnodup
        obtain ⟨v, hv⟩ := hput x.1 List.mem_cons_self
        obtain ⟨w, hw⟩ := hput y.1 (List.mem_cons_of_mem _ List.mem_cons_self)
        exact absurd (hone _ _ _ _ hv hw) fun heq => (List.nodup_cons.1 hnodup).1
          (heq ▸ List.mem_cons_self)

end Run

/-- The second key that is put into a cache for two has the place of the first, the counter of
    which is raised when the second key is got. -/
theorem not_backRefs_two : ∃ s s' : LRUCache ℕ ℕ,
    run 2 [.put 7 70, .put 8 80] = some s ∧ ¬ s.BackRefs ∧ s.get 8 = some (some 80, s') ∧
      s.itemClock = [(7, 0), (8, 0)] ∧ s'.itemClock = [(7, 1), (8, 0)] := by
  refine ⟨_, _, rfl, fun h => ?_, rfl, rfl, rfl⟩
  exact absurd (h 8 80 0 rfl) (by decide)

/-- Nothing is evicted from a cache for no keys, which is always full. -/
theorem not_evicts_zero : ∃ s s' : LRUCache ℕ ℕ, run 0 [] = some s ∧ 7 ∉ s.itemMap ∧
    s.itemMap.keys.length = 0 ∧ s.put 7 70 = some s' ∧
      ¬ ∃ victim, victim ≠ 7 ∧ victim ∈ s.itemMap ∧ victim ∉ s'.itemMap := by
  refine ⟨_, _, rfl, AList.notMem_empty _, rfl, rfl, ?_⟩
  rintro ⟨victim, -, hmem, -⟩
  exact AList.notMem_empty victim hmem

end LRUCache

end DiscoSkip.SwarmKv
