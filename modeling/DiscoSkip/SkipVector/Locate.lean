import Mathlib.Order.Bounds.Defs
import Mathlib.Order.Nat
import DiscoSkip.SkipVector.Structure

/-!
# Locating data

The directory of the cache is a map from keys to remote addresses, in which the
first write of a key wins: the sections of the directory add the entry of a call
if there is none of its key, wherever they put it, and those of the index layers
leave it alone. So, after any calls, one after the other, `locateData` finds the
address of the greatest key that is not above the sought one, by the map the calls
wrote (`oracle`).
-/

namespace DiscoSkip.SkipVector

open Lib

variable {K A : Type*} [LinearOrder K]

/-! ## The map -/

/-- The map with the value of a key added, if the key is still absent. -/
def putNew (M : K → Option A) (e : K × A) : K → Option A :=
  if M e.1 = none then Function.update M e.1 (some e.2) else M

theorem putNew_eq_some {M : K → Option A} {e : K × A} {k : K} {a : A} :
    putNew M e k = some a ↔ M k = some a ∨ e = (k, a) ∧ M k = none := by
  obtain ⟨k', a'⟩ := e
  rw [putNew, Prod.mk.injEq]
  by_cases hk : k = k'
  · subst hk
    cases hM : M k with
    | none => simp
    | some b => simp [hM]
  · split
    · rw [Function.update_of_ne hk]
      simp [Ne.symm hk]
    · simp [Ne.symm hk]

/-- What a call adds to the map. -/
def Call.oracle (M : K → Option A) : Call K A → K → Option A
  | .mirrorInsert k _ newRemoteDataAddr _ => putNew M (k, newRemoteDataAddr)
  | .mirrorReconcile dataKMin dataAddr [] => putNew M (dataKMin, dataAddr)
  | .mirrorReconcile dataKMin dataAddr (p :: _) =>
    putNew (putNew M (dataKMin, dataAddr)) (p.kMin, p.firstDown)

/-- The map that calls write, one after the other. -/
def oracle (calls : List (Call K A)) : K → Option A := calls.foldl Call.oracle fun _ => none

/-- The value of the greatest key that is not above `q`, or the null address. -/
def Located [Inhabited A] (M : K → Option A) (q : K) (a : A) : Prop :=
  (∃ k, IsGreatest {k | k ≤ q ∧ M k ≠ none} k ∧ M k = some a) ∨
    (∀ k ≤ q, M k = none) ∧ a = default

/-- The directory of the cache holds the map. -/
def Mirrors (M : K → Option A) (s : Cache K A) : Prop :=
  ∀ k a, M k = some a ↔ (k, a) ∈ entries s.directory

variable {cfg : Config} {s s' : Cache K A} {M : K → Option A}

omit [LinearOrder K] in
theorem Mirrors.ne_none (h : Mirrors M s) {e : K × A} (he : e ∈ entries s.directory) :
    M e.1 ≠ none := by
  rw [(h e.1 e.2).2 he]
  simp

omit [LinearOrder K] in
theorem Mirrors.exists_mem (h : Mirrors M s) {k : K} (hk : M k ≠ none) :
    ∃ a, (k, a) ∈ entries s.directory := by
  obtain ⟨a, ha⟩ := Option.ne_none_iff_exists'.1 hk
  exact ⟨a, (h k a).1 ha⟩

/-! ## The cache as a map -/

/-- What is located in the directory is what the map has. -/
theorem CacheOk.located [Inhabited A] (h : CacheOk cfg s) (hM : Mirrors M s) (q : K) :
    Located M q (s.locateData cfg q) := by
  obtain ⟨pre, n, post, hns, hd, hcov⟩ := h.descendToDirectory_spec q
  have hmem : n ∈ s.directory := hns ▸ List.mem_append_right _ List.mem_cons_self
  have hv := h.directory.sorted_mem hmem
  have hcases : ∀ e ∈ entries s.directory, e.1 ≤ q → e ∈ entries pre ∨ e ∈ n.v := by
    intro e he hq
    rw [hns, entries_append, entries_cons] at he
    rcases List.mem_append.1 he with he | he
    · exact .inl he
    · rcases List.mem_append.1 he with he | he
      · exact .inr he
      · exact absurd hq (not_le.2 (hcov.lt_post e he))
  rw [Cache.locateData, hd]
  dsimp only
  cases hf : n.v.findLte q with
  | none =>
    -- every key of the node is above `q`, so it is the head
    have hlt := fun e he => VectorSfra.lt_of_findLte_eq_none hv hf (e := e) he
    refine .inr ⟨fun k hk => ?_, rfl⟩
    by_contra hne
    obtain ⟨a, ha⟩ := hM.exists_mem hne
    rcases hcases (k, a) ha hk with hp | hn
    · rcases hcov.before with hid | ⟨f, hf, hfq⟩
      · have hdir := h.directory
        rw [hns] at hdir
        rw [hdir.eq_nil_of_head hid] at hp
        exact absurd hp List.not_mem_nil
      · obtain ⟨x, t, hv'⟩ := VectorSfra.first_eq_some.1 hf
        exact absurd (hlt (f, x) (hv' ▸ List.mem_cons_self)) (not_lt.2 hfq)
    · exact absurd (hlt _ hn) (not_lt.2 hk)
  | some e =>
    obtain ⟨he, heq⟩ := VectorSfra.findLte_mem hv hf
    have hed : e ∈ entries s.directory := mem_entries.2 ⟨n, hmem, he⟩
    refine .inl ⟨e.1, ⟨⟨heq, hM.ne_none hed⟩, ?_⟩, (hM e.1 e.2).2 hed⟩
    rintro k ⟨hk, hne⟩
    obtain ⟨a, ha⟩ := hM.exists_mem hne
    rcases hcases (k, a) ha hk with hp | hn
    · have hs := h.directory.sorted
      rw [hns, entries_append, entries_cons] at hs
      exact (hs.lt_of_append hp (List.mem_append_left _ he)).le
    · exact VectorSfra.le_findLte hv hf hn hk

/-! ## The calls -/

namespace Job

variable {j : Job K A}

/-- What is left of a call adds to the map. -/
def oracle (M : K → Option A) : Job K A → K → Option A
  | called c => c.oracle M
  | split k x _ => putNew M (k, x)
  | climb _ _ _ _ => M
  | install _ _ _ _ => M

/-- The map with what the next section of the call writes. -/
def wrote (M : K → Option A) (j : Job K A) : K → Option A := j.writes.elim M (putNew M)

theorem Stepped.mirrors {j' : Option (Job K A)} (h : Stepped cfg s j s' j') (hM : Mirrors M s) :
    Mirrors (j.wrote M) s' := by
  intro k a
  rw [h.mem_directory, wrote]
  cases hw : j.writes with
  | none => simpa using hM k a
  | some e =>
    rw [Option.elim_some, putNew_eq_some, hM k a, Option.some.injEq]
    refine or_congr_right (and_congr_right fun he => ?_)
    constructor
    · rintro hn e' he' rfl
      exact absurd hn (hM.ne_none he')
    · intro hne
      by_contra hn
      obtain ⟨b, hb⟩ := hM.exists_mem hn
      exact hne _ hb rfl

variable [Inhabited A]

/-- Where a call that has not returned goes on. -/
inductive Next (cfg : Config) : Job K A → Job K A → Prop
  | insertClimb {k : K} {height : ℕ} {d : A} {addrs : ℕ → A} {n : ℕ} :
      Next cfg (called (.mirrorInsert k height d addrs))
        (climb k (.mirrorInsert k height d addrs) 1 n)
  | reconcileSplit {dk : K} {da : A} {p : PathStep K A} {path : List (PathStep K A)} :
      Next cfg (called (.mirrorReconcile dk da (p :: path)))
        (split p.kMin p.firstDown (.mirrorReconcile dk da (p :: path)))
  | splitClimb {k : K} {x : A} {c : Call K A} {n : ℕ} :
      Next cfg (split k x c) (climb k c 1 n)
  | climb {k : K} {c : Call K A} {level child n : ℕ} :
      c.Climbs cfg k level → Next cfg (climb k c level child) (climb k c (level + 1) n)
  | leave {k : K} {c : Call K A} {level child : ℕ} :
      c.Climbs cfg k level → Next cfg (climb k c level child) (install k c level child)

theorem exists_climb_of_splitDirectory {k : K} {x : A} {c : Call K A} {i : Job K A}
    (hi : (splitDirectory cfg s k x c).2 = some i) : ∃ n, i = climb k c 1 n := by
  obtain ⟨n, -, rfl⟩ := Option.map_eq_some_iff.1 hi
  exact ⟨n, rfl⟩

theorem installChild_returns {k : K} {c : Call K A} {level child : ℕ} :
    (installChild cfg s k c level child).2 = none := by
  rw [installChild_eq]
  split <;> rfl

theorem next_of_step {i : Job K A} (hi : (j.step cfg s).2 = some i) : Next cfg j i := by
  cases j with
  | called c =>
    cases c with
    | mirrorInsert k height d addrs =>
      rw [step] at hi
      split at hi
      · exact absurd hi (by simp)
      · obtain ⟨n, rfl⟩ := exists_climb_of_splitDirectory hi
        exact .insertClimb
    | mirrorReconcile dk da path =>
      cases path with
      | nil => exact absurd hi (by simp [step])
      | cons p path =>
        obtain rfl := Option.some.inj hi
        exact .reconcileSplit
  | split k x c =>
    obtain ⟨n, rfl⟩ := exists_climb_of_splitDirectory hi
    exact .splitClimb
  | climb k c level child =>
    rw [step] at hi
    split at hi
    · next hc =>
      obtain ⟨s', n, hs⟩ : ∃ s' n,
          s.mirrorSplitIndex cfg k level child (c.addrAt level) = (s', n) := ⟨_, _, rfl⟩
      rw [hs] at hi
      cases n with
      | none =>
        obtain rfl := Option.some.inj hi
        exact .leave hc
      | some n =>
        obtain rfl := Option.some.inj hi
        exact .climb hc
    · rw [installChild_returns] at hi
      exact absurd hi (by simp)
  | install k c level child =>
    rw [step, installChild_returns] at hi
    exact absurd hi (by simp)

omit [Inhabited A] in
theorem Next.oracle_eq {i : Job K A} (h : Next cfg j i) : j.oracle M = i.oracle (j.wrote M) := by
  cases h <;> rfl

/-- A call that has returned has written its part of the map. -/
theorem oracle_of_return (h : (j.step cfg s).2 = none) : j.oracle M = j.wrote M := by
  cases j with
  | called c =>
    cases c with
    | mirrorInsert k height d addrs => rfl
    | mirrorReconcile dk da path =>
      cases path with
      | nil => rfl
      | cons p path => exact absurd h (by simp [step])
  | split k x c => rfl
  | climb k c level child => rfl
  | install k c level child => rfl

/-- The sections a call has left, at most. -/
def rank (cfg : Config) : Job K A → ℕ
  | called _ => cfg.layers + 3
  | split _ _ _ => cfg.layers + 2
  | climb _ _ level _ => cfg.layers + 2 - level
  | install _ _ _ _ => 1

omit [LinearOrder K] [Inhabited A] in
theorem Next.rank_lt {i : Job K A} (h : Next cfg j i) (hj : j.Ok cfg s) :
    i.rank cfg < j.rank cfg := by
  cases h with
  | insertClimb => simp only [rank]; omega
  | reconcileSplit => simp only [rank]; omega
  | splitClimb => simp only [rank]; omega
  | climb hc =>
    have hlt := hj.1.lt_of_climbs hc
    simp only [rank]
    omega
  | leave hc =>
    have hlt := hj.1.lt_of_climbs hc
    simp only [rank]
    omega

/-- A call returns, and the directory is then what it was with what the call adds. -/
theorem run_spec {fuel : ℕ} (h : CacheOk cfg s) (hj : j.Ok cfg s) (hM : Mirrors M s)
    (hfuel : j.rank cfg ≤ fuel) :
    ∃ s', j.run cfg fuel s = some s' ∧ CacheOk cfg s' ∧ Mirrors (j.oracle M) s' := by
  induction fuel generalizing j s M with
  | zero =>
    have hpos : 0 < j.rank cfg := by
      cases j with
      | called c => exact Nat.succ_pos _
      | split k x c => exact Nat.succ_pos _
      | climb k c level child =>
        obtain ⟨-, L, rfl, hL, -⟩ := hj
        simp only [rank]
        omega
      | install k c level child => exact Nat.one_pos
    omega
  | succ fuel ih =>
    have hst := step_stepped h hj
    obtain ⟨s', j', hs⟩ : ∃ s' j', j.step cfg s = (s', j') := ⟨_, _, rfl⟩
    rw [hs] at hst
    rw [run, hs]
    cases j' with
    | none =>
      refine ⟨s', rfl, hst.ok, ?_⟩
      rw [oracle_of_return (congrArg Prod.snd hs)]
      exact hst.mirrors hM
    | some i =>
      have hnext : Next cfg j i := next_of_step (congrArg Prod.snd hs)
      have hlt := hnext.rank_lt hj
      rw [hnext.oracle_eq]
      exact ih hst.ok (hst.jobOk i rfl) (hst.mirrors hM) (by omega)

end Job

variable [Inhabited A]

theorem perform_spec {c : Call K A} (h : CacheOk cfg s) (hM : Mirrors M s) (hc : c.Valid cfg) :
    ∃ s', s.perform cfg c = some s' ∧ CacheOk cfg s' ∧ Mirrors (c.oracle M) s' :=
  Job.run_spec (j := .called c) h hc hM (Nat.le_refl _)

theorem performAll_spec {calls : List (Call K A)} (h : CacheOk cfg s) (hM : Mirrors M s)
    (hc : ∀ c ∈ calls, c.Valid cfg) :
    ∃ s', s.performAll cfg calls = some s' ∧ CacheOk cfg s' ∧
      Mirrors (calls.foldl Call.oracle M) s' := by
  induction calls generalizing s M with
  | nil => exact ⟨s, rfl, h, hM⟩
  | cons c calls ih =>
    obtain ⟨s₁, hs₁, hok, hM₁⟩ := perform_spec h hM (hc c List.mem_cons_self)
    obtain ⟨s₂, hs₂, hok₂, hM₂⟩ := ih hok hM₁ fun c hm => hc c (List.mem_cons_of_mem _ hm)
    refine ⟨s₂, ?_, hok₂, hM₂⟩
    rw [Cache.performAll, hs₁, Option.bind_some, hs₂]

/-- After any calls, one after the other, on a fresh cache, every key is located by the
    map the calls wrote. -/
theorem locateData_oracle (calls : List (Call K A)) (hc : ∀ c ∈ calls, c.Valid cfg) :
    ∃ s, Cache.init.performAll cfg calls = some s ∧
      ∀ q, Located (oracle calls) q (s.locateData cfg q) := by
  have hM : Mirrors (fun _ => none) (Cache.init : Cache K A) := fun k a => by
    simp [Cache.init, entries]
  obtain ⟨s, hs, hok, hM⟩ := performAll_spec CacheOk.init hM hc
  exact ⟨s, hs, fun q => hok.located hM q⟩

/-- Calls that fill and split nodes, and reconcile one at an entry it has. -/
def mixedCalls : List (Call ℕ ℕ) :=
  [.mirrorInsert 30 1 130 id, .mirrorInsert 10 3 110 id, .mirrorInsert 20 2 120 id,
    .mirrorReconcile 50 150 [⟨40, 7, 140⟩, ⟨40, 8, 0⟩], .mirrorInsert 40 1 99 id,
    .mirrorReconcile 30 98 [⟨30, 9, 97⟩], .mirrorReconcile 5 105 []]

theorem locateData_mixedCalls : (∀ c ∈ mixedCalls, c.Valid Config.small) ∧
    ∃ s, Cache.init.performAll Config.small mixedCalls = some s ∧
      ∀ q, Located (oracle mixedCalls) q (s.locateData Config.small q) :=
  ⟨by decide, locateData_oracle mixedCalls (by decide)⟩

end DiscoSkip.SkipVector
