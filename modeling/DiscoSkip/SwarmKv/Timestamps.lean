import Mathlib.Order.Monotone.Defs
import DiscoSkip.Lib.Machine
import DiscoSkip.SwarmKv.Clock

/-!
# The timestamps of a client

After `initClock`, a client draws timestamps and synchronises its clock with those it sees,
in any order. If each of these is behind the steady clock by some ticks, the offset of the
client stays so far below the steady clock that the next timestamp is greater than all it
has seen (`Clock.Ahead`). Thus drawing one never fails, and timestamps never decrease
(`Clock.timely_of_run`).
-/

namespace DiscoSkip.SwarmKv.Clock

open Lib

inductive Call
  | newTs
  | syncClock (tsp : ℕ)
  deriving DecidableEq

/-- A call, with the timestamp it returned, and the clock it was made on. -/
structure Event where
  call : Call
  returned : Option ℕ
  clock : Clock

section Run

variable (steady : ℕ → ℕ)

def machine : Machine Clock Call Event where
  init := new.initClock steady
  step k
    | .newTs => (k.newTs steady).map fun (ts, k') => (⟨.newTs, some ts, k⟩, k')
    | .syncClock tsp => some (⟨.syncClock tsp, none, k⟩, k.syncClock steady tsp)

/-- The timestamp is so many ticks behind a reading of the steady clock. -/
def Behind (ts t : ℕ) : Prop := (ts + minTsPerRtt) * tsGranularity ≤ t

instance (ts t : ℕ) : Decidable (Behind ts t) := inferInstanceAs (Decidable (_ ≤ _))

/-- The ticks of the steady clock since the offset. -/
def ticks (k : Clock) : ℕ := sub64 (steady k.reads) (k.tsTimeOffset.getD 0) / tsGranularity

/-- What is seen is behind the steady clock, and what is drawn does not overflow. -/
def Guard (k : Clock) : Call → Prop
  | .newTs => k.ticks steady ≤ tsMask
  | .syncClock tsp => Behind (extractTs tsp) (steady k.reads)

instance (k : Clock) : DecidablePred (Guard steady k)
  | .newTs => inferInstanceAs (Decidable (_ ≤ _))
  | .syncClock _ => inferInstanceAs (Decidable (Behind _ _))

/-- The clock has come to `n` ticks above its offset. -/
def Reached (k : Clock) (n : ℕ) : Prop :=
  ∃ o, k.tsTimeOffset = some o ∧ o + n * tsGranularity ≤ steady k.reads

/-- A later clock of the client: its offset is no greater, what it has seen no less. -/
structure Later (k k' : Clock) : Prop where
  offset : ∀ o, k.tsTimeOffset = some o → ∃ o', k'.tsTimeOffset = some o' ∧ o' ≤ o
  seen : k.maxEverSeenTs ≤ k'.maxEverSeenTs
  reads : k.reads ≤ k'.reads

end Run

theorem Later.refl (k : Clock) : Later k k := ⟨fun o ho => ⟨o, ho, le_rfl⟩, le_rfl, le_rfl⟩

theorem Later.trans {k k' k'' : Clock} (h : Later k k') (h' : Later k' k'') : Later k k'' where
  offset o ho := by
    obtain ⟨o', ho', hle⟩ := h.offset o ho
    obtain ⟨o'', ho'', hle'⟩ := h'.offset o' ho'
    exact ⟨o'', ho'', hle'.trans hle⟩
  seen := h.seen.trans h'.seen
  reads := h.reads.trans h'.reads

theorem Later.read (k : Clock) : Later k k.read :=
  ⟨fun o ho => ⟨o, ho, le_rfl⟩, le_rfl, Nat.le_succ _⟩

theorem sub64_of_le {a b : ℕ} (ha : a < 2 ^ 64) (h : b ≤ a) : sub64 a b = a - b := by
  rw [sub64, Nat.mod_eq_of_lt (by omega : b < 2 ^ 64)]
  omega

section Step

variable {steady : ℕ → ℕ} {k k' : Clock} {n m ts tsp : ℕ}

theorem Reached.anti (h : Reached steady k n) (hm : m ≤ n) : Reached steady k m := by
  obtain ⟨o, ho, hle⟩ := h
  exact ⟨o, ho, le_trans (Nat.add_le_add_left (Nat.mul_le_mul_right _ hm) _) hle⟩

theorem Reached.later (hmono : Monotone steady) (h : Reached steady k n) (hl : Later k k') :
    Reached steady k' n := by
  obtain ⟨o, ho, hle⟩ := h
  obtain ⟨o', ho', ho'le⟩ := hl.offset o ho
  have hr : steady k.reads ≤ steady k'.reads := hmono hl.reads
  exact ⟨o', ho', by omega⟩

variable (h64 : ∀ r, steady r < 2 ^ 64)
include h64

/-- The ticks of a clock are the most it has come to. -/
theorem le_ticks (h : Reached steady k n) : n ≤ k.ticks steady := by
  obtain ⟨o, ho, hle⟩ := h
  rw [ticks, ho, Option.getD_some, sub64_of_le (h64 _) (by omega),
    Nat.le_div_iff_mul_le (by decide)]
  omega

theorem reached_ticks (h : Reached steady k n) : Reached steady k (k.ticks steady) := by
  obtain ⟨o, ho, hle⟩ := h
  have hmul : (steady k.reads - o) / tsGranularity * tsGranularity ≤ steady k.reads - o :=
    Nat.div_mul_le_self _ _
  refine ⟨o, ho, ?_⟩
  rw [ticks, ho, Option.getD_some, sub64_of_le (h64 _) (by omega)]
  omega

omit h64 in
/-- A timestamp drawn after `initClock` is the ticks of the clock. -/
theorem newTs_eq (ho : k.tsTimeOffset.isSome) : k.newTs steady =
    if k.ticks steady < k.maxEverSeenTs ∨ k.ticks steady > tsMask then none
    else some (k.ticks steady, k.read) := by
  obtain ⟨o, ho⟩ := Option.isSome_iff_exists.1 ho
  simp only [newTs, ticks, ho, Option.getD_some]

theorem newTs_of_reached (h : Reached steady k k.maxEverSeenTs) (hmask : k.ticks steady ≤ tsMask) :
    k.newTs steady = some (k.ticks steady, k.read) := by
  have hle : k.maxEverSeenTs ≤ k.ticks steady := le_ticks h64 h
  obtain ⟨o, ho, -⟩ := h
  rw [newTs_eq (by rw [ho]; rfl), if_neg (by omega)]

/-- A synchronised clock is a later one, and has come past what it has seen. -/
theorem syncClock_spec (h : Reached steady k (k.maxEverSeenTs + minTsPerRtt))
    (hb : Behind (extractTs tsp) (steady k.reads)) :
    Later k (k.syncClock steady tsp) ∧ extractTs tsp ≤ (k.syncClock steady tsp).maxEverSeenTs ∧
      ∃ o, (k.syncClock steady tsp).tsTimeOffset = some o ∧
        o + ((k.syncClock steady tsp).maxEverSeenTs + minTsPerRtt) * tsGranularity ≤
          steady k.reads := by
  obtain ⟨o, ho, hle⟩ := h
  have hmax : sub64 (steady k.reads) ((extractTs tsp + minTsPerRtt) * tsGranularity) =
      steady k.reads - (extractTs tsp + minTsPerRtt) * tsGranularity := sub64_of_le (h64 _) hb
  have hb : (extractTs tsp + minTsPerRtt) * tsGranularity ≤ steady k.reads := hb
  simp only [syncClock, ho, hmax]
  split
  · next hts => exact ⟨.refl k, hts, o, ho, hle⟩
  · next hts =>
    have hseen : k.maxEverSeenTs ≤ extractTs tsp := (not_le.1 hts).le
    split
    · next hoff =>
      -- the offset is low enough for the timestamp
      exact ⟨⟨fun o ho => ⟨o, ho, le_rfl⟩, hseen, Nat.le_succ _⟩, le_rfl, o, ho, by
        dsimp only; omega⟩
    · next hoff =>
      refine ⟨⟨fun o' ho' => ⟨_, rfl, ?_⟩, hseen, Nat.le_succ _⟩, le_rfl, _, rfl, by
        dsimp only; omega⟩
      obtain rfl : o = o' := by rw [ho] at ho'; exact Option.some.inj ho'
      omega

end Step

section Runs

variable {steady : ℕ → ℕ} {k : Clock} {tr : List Event}

/-- What a client can rely on, after the events `tr` (the latest first), in the clock `k`. -/
structure Timely (steady : ℕ → ℕ) (tr : List Event) (k : Clock) : Prop where
  /-- Drawing a timestamp does not throw, as long as it does not overflow. -/
  draws : k.ticks steady ≤ tsMask → ∃ ts k', k.newTs steady = some (ts, k')
  /-- A timestamp is greater than every one seen before. -/
  above : tr.Pairwise fun e e' => ∀ ts tsp, e.returned = some ts → e'.call = .syncClock tsp →
    extractTs tsp < ts
  /-- Timestamps do not decrease. -/
  mono : tr.Pairwise fun e e' => ∀ ts ts', e.returned = some ts → e'.returned = some ts' →
    ts' ≤ ts
  /-- The offset does not increase. -/
  offset : (k :: tr.map Event.clock).Pairwise fun k k' =>
    ∃ o o', k.tsTimeOffset = some o ∧ k'.tsTimeOffset = some o' ∧ o ≤ o'

/-- The clock `k` is ahead of all that happened. -/
structure Ahead (steady : ℕ → ℕ) (tr : List Event) (k : Clock) : Prop where
  seen : Reached steady k (k.maxEverSeenTs + minTsPerRtt)
  returned : ∀ e ∈ tr, ∀ ts, e.returned = some ts → Reached steady k ts
  synced : ∀ e ∈ tr, ∀ tsp, e.call = .syncClock tsp → extractTs tsp ≤ k.maxEverSeenTs
  clocks : ∀ e ∈ tr, e.clock.tsTimeOffset.isSome ∧ Later e.clock k

variable (hmono : Monotone steady) (h64 : ∀ r, steady r < 2 ^ 64)
include hmono h64

theorem ahead_init (h0 : Behind 0 (steady 0)) : Ahead steady [] (machine steady).init := by
  have h0 : minTsPerRtt * tsGranularity ≤ steady 0 := by simpa [Behind] using h0
  have h1 : steady 0 ≤ steady 1 := hmono (Nat.zero_le 1)
  refine ⟨⟨steady 0 - minTsPerRtt * tsGranularity, ?_, ?_⟩, by simp, by simp, by simp⟩
  · exact congrArg some (sub64_of_le (h64 0) h0)
  · change _ + (0 + minTsPerRtt) * tsGranularity ≤ steady 1
    rw [Nat.zero_add]
    omega

omit h64 in
/-- What happened stays behind a later clock. -/
theorem Ahead.cons {k' : Clock} {e : Event} (h : Ahead steady tr k) (hl : Later k k')
    (hseen : Reached steady k' (k'.maxEverSeenTs + minTsPerRtt)) (hk : e.clock = k)
    (hret : ∀ ts, e.returned = some ts → Reached steady k' ts)
    (hsync : ∀ tsp, e.call = .syncClock tsp → extractTs tsp ≤ k'.maxEverSeenTs) :
    Ahead steady (e :: tr) k' := by
  refine ⟨hseen, ?_, ?_, ?_⟩
  · rintro e' (_ | ⟨_, he⟩) ts hts
    · exact hret ts hts
    · exact (h.returned e' he ts hts).later hmono hl
  · rintro e' (_ | ⟨_, he⟩) tsp htsp
    · exact hsync tsp htsp
    · exact (h.synced e' he tsp htsp).trans hl.seen
  · obtain ⟨o, ho, -⟩ := h.seen
    rintro e' (_ | ⟨_, he⟩)
    · exact hk ▸ ⟨by rw [ho]; rfl, hl⟩
    · exact ⟨(h.clocks e' he).1, (h.clocks e' he).2.trans hl⟩

/-- What a call does from a clock that is ahead: its clock is later, and a timestamp it
    returns is at least as great as all before. -/
theorem Ahead.step {k' : Clock} {e : Event} (h : Ahead steady tr k)
    (hst : (machine steady).Step (Guard steady) k e k') :
    Ahead steady (e :: tr) k' ∧ e.clock = k ∧ ∀ ts, e.returned = some ts → ts = k.ticks steady := by
  obtain ⟨a, hg, hst⟩ := hst
  cases a with
  | newTs =>
    have hn : k.newTs steady = some (k.ticks steady, k.read) :=
      newTs_of_reached h64 (h.seen.anti (Nat.le_add_right _ _)) hg
    simp only [machine, hn, Option.map_some, Option.some.injEq, Prod.mk.injEq] at hst
    obtain ⟨rfl, rfl⟩ := hst
    refine ⟨h.cons hmono (.read k) (h.seen.later hmono (.read k)) rfl ?_ ?_, rfl, ?_⟩
    · rintro ts ⟨⟩
      exact (reached_ticks h64 h.seen).later hmono (.read k)
    · rintro tsp ⟨⟩
    · rintro ts ⟨⟩
      rfl
  | syncClock tsp =>
    simp only [machine, Option.some.injEq, Prod.mk.injEq] at hst
    obtain ⟨rfl, rfl⟩ := hst
    obtain ⟨hl, hts, o, ho, hle⟩ := syncClock_spec h64 h.seen hg
    refine ⟨h.cons hmono hl ⟨o, ho, hle.trans (hmono hl.reads)⟩ rfl ?_ ?_, rfl, ?_⟩
    · rintro ts ⟨⟩
    · rintro _ ⟨⟩
      exact hts
    · rintro ts ⟨⟩

theorem ahead_of_run (h0 : Behind 0 (steady 0)) (h : (machine steady).Run (Guard steady) tr k) :
    Ahead steady tr k :=
  Trace.invariant (P := Ahead steady) (ahead_init hmono h64 h0)
    (fun _ _ _ _ _ ih hst => (ih.step hmono h64 hst).1) h

omit hmono in
/-- What a client draws from a clock that is ahead. -/
theorem Ahead.draws (h : Ahead steady tr k) (hmask : k.ticks steady ≤ tsMask) :
    ∃ ts k', k.newTs steady = some (ts, k') :=
  ⟨_, _, newTs_of_reached h64 (h.seen.anti (Nat.le_add_right _ _)) hmask⟩

omit hmono h64 in
theorem Ahead.offset (h : Ahead steady tr k) {e : Event} (he : e ∈ tr) :
    ∃ o o', k.tsTimeOffset = some o ∧ e.clock.tsTimeOffset = some o' ∧ o ≤ o' := by
  obtain ⟨ho', hl⟩ := h.clocks e he
  obtain ⟨o', ho'⟩ := Option.isSome_iff_exists.1 ho'
  obtain ⟨o, ho, hle⟩ := hl.offset o' ho'
  exact ⟨o, o', ho, ho', hle⟩

/-- Along every run after `initClock`, whose timestamp `0` is behind the steady clock as
    those of the run are, the client can rely on its timestamps. -/
theorem timely_of_run (h0 : Behind 0 (steady 0)) (h : (machine steady).Run (Guard steady) tr k) :
    Timely steady tr k := by
  refine Trace.invariant (P := Timely steady) ?_ (fun tr k e k' hr ih hst => ?_) h
  · exact ⟨(ahead_init hmono h64 h0).draws h64, .nil, .nil, List.pairwise_singleton _ _⟩
  have ha : Ahead steady tr k := ahead_of_run hmono h64 h0 hr
  obtain ⟨ha', hk, hts⟩ := ha.step hmono h64 hst
  refine ⟨ha'.draws h64, .cons ?_ ih.above, .cons ?_ ih.mono, .cons ?_ ?_⟩
  · intro e' he ts tsp hret hcall
    obtain rfl := hts ts hret
    have hle : k.maxEverSeenTs + minTsPerRtt ≤ k.ticks steady := le_ticks h64 ha.seen
    have hpos : 0 < minTsPerRtt := by decide
    exact (ha.synced e' he tsp hcall).trans_lt (by omega)
  · intro e' he ts ts' hret hret'
    obtain rfl := hts ts hret
    exact le_ticks h64 (ha.returned e' he ts' hret')
  · intro k'' hk''
    obtain ⟨e', he', rfl⟩ := List.mem_map.1 hk''
    exact ha'.offset he'
  · rw [List.map_cons, hk]
    exact ih.offset

omit hmono h64 in
theorem timely_of_run_synced :
    ∃ tr k, Timely (fun r => min (10000 + 1000 * r) (2 ^ 64 - 1)) tr k ∧
      tr.filterMap Event.returned = [29, 27, 5] :=
  have ⟨tr, k, hr, htr⟩ := Lib.Machine.exists_run_of_play
    (G := Guard _) (m := machine fun r => min (10000 + 1000 * r) (2 ^ 64 - 1))
    (fun r => r.1.filterMap Event.returned)
    [.newTs, .syncClock (22 <<< 32), .newTs, .newTs] (b := [29, 27, 5]) (by decide +kernel)
  ⟨tr, k, timely_of_run (fun a b h => by have : a ≤ b := h; omega) (fun r => by omega)
    (by decide) hr, htr⟩

end Runs

end DiscoSkip.SwarmKv.Clock
