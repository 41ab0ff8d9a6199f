import Mathlib.Data.Finset.Card
import Mathlib.Data.Finset.Range
import Mathlib.Data.Nat.ModEq
import DiscoSkip.SwarmKv.OopsClient.Steps

/-!
# The servers of a key

When no server is dead, every operation on a key uses the same servers, as many as a
majority at most (`usedServers_forKV`, `length_servers_le`). So the registers of a
majority can only be ready if those of all these servers are (`ready_of_visitAll`).
-/

namespace DiscoSkip.SwarmKv

open Lib

namespace Layout

variable (cfg : Layout) (kv : ℕ)

/-- The servers in use for a key/value id, when none is dead. -/
def servers : List ℕ :=
  (List.range cfg.numServers).filter fun s =>
    RelaxedMaxReg.turn cfg (cfg.mainServerIdx kv) s < cfg.majority

variable {cfg kv}

theorem turn_inj {main s s' : ℕ} (hs : s < cfg.numServers) (hs' : s' < cfg.numServers)
    (h : RelaxedMaxReg.turn cfg main s = RelaxedMaxReg.turn cfg main s') : s = s' :=
  Nat.ModEq.eq_of_lt_of_lt (Nat.ModEq.add_right_cancel' _ h) hs hs'

theorem nodup_servers : (cfg.servers kv).Nodup := List.nodup_range.filter _

theorem lt_of_mem_servers {s : ℕ} (h : s ∈ cfg.servers kv) : s < cfg.numServers :=
  List.mem_range.1 (List.mem_of_mem_filter h)

/-- Different servers come at different turns, those in use before the majority. -/
theorem length_servers_le : (cfg.servers kv).length ≤ cfg.majority := by
  rw [← List.toFinset_card_of_nodup nodup_servers, ← Finset.card_range cfg.majority]
  refine Finset.card_le_card_of_injOn (RelaxedMaxReg.turn cfg (cfg.mainServerIdx kv))
    (fun s hs => ?_) fun s hs s' hs' h => ?_
  · have hlt := (List.mem_filter.1 (List.mem_toFinset.1 hs)).2
    exact Finset.mem_coe.2 (Finset.mem_range.2 (of_decide_eq_true hlt))
  · exact turn_inj (lt_of_mem_servers (List.mem_toFinset.1 hs))
      (lt_of_mem_servers (List.mem_toFinset.1 hs')) h

theorem mainServerIdx_mem : cfg.mainServerIdx kv ∈ cfg.servers kv := by
  have hlt := cfg.mainServerIdx_lt kv
  refine List.mem_filter.2 ⟨List.mem_range.2 hlt, decide_eq_true ?_⟩
  rw [RelaxedMaxReg.turn, Nat.add_sub_cancel' hlt.le, Nat.mod_self]
  exact cfg.majority_pos

end Layout

variable {cfg : Layout} {c s : ℕ} {z z' : Local} {x : MaxReg} {r r' : RelaxedMaxReg} {n n' : Counts}

/-- Stepping a register forward changes no entry but for its array of tsps. -/
theorem MaxReg.tryStepForward_entry (p : Ref) : (tryStepForward cfg c s z x).1.entry p =
    { z.entry p with tsps := ((tryStepForward cfg c s z x).1.entry p).tsps } := by
  cases hw : x.waits with
  | true => rw [tryStepForward_of_waits hw]
  | false =>
    obtain ⟨step, mark, -, heq⟩ := @tryStepForward_eq cfg c s z x hw
    rw [heq, transitionTo_entry]
    exact refresh_frame.entry p

theorem MaxReg.tryStepForward_tspOf (p : Ref) :
    (tryStepForward cfg c s z x).1.tspOf p = z.tspOf p := by
  rw [Local.tspOf, tryStepForward_entry, Local.tspOf]

namespace RelaxedMaxReg

theorem usedServers_forKV (h0 : cfg.deadServers = 0) {kv : ℕ} {hint : Option ℕ} :
    (r.forKV cfg kv (cfg.mainServerIdx kv) hint).usedServers cfg = cfg.servers kv := by
  refine List.filter_congr fun s _ => ?_
  simp only [inUse, forKV, h0]
  by_cases h : turn cfg (cfg.mainServerIdx kv) s < cfg.majority <;> simp [h]
  omega

/-- Which servers are in use depends on how lazy the registers are. -/
theorem usedServers_congr (h : ∀ s, (r'.reg s).lazynessLevel = (r.reg s).lazynessLevel) :
    r'.usedServers cfg = r.usedServers cfg :=
  List.filter_congr fun s _ => by simp only [inUse, h]

theorem relabel_tspOf_write : (relabel s z r).1.tspOf .write = z.tspOf .write := by
  obtain h | ⟨-, h⟩ := @relabel_eq_or z r s <;> rw [h]
  exact Local.tspOf_setTsp_of_ne _ _ _ Ref.noConfusion

theorem visit_tspOf_write : (visit cfg c (z, r, n) s).1.tspOf .write = z.tspOf .write := by
  obtain ⟨n', h⟩ := @visit_eq cfg c z r n s
  rw [h, relabel_tspOf_write, MaxReg.tryStepForward_tspOf]

/-- A visit changes only the register it is of. -/
theorem visit_reg_of_ne {s' : ℕ} (h : s' ≠ s) :
    (visit cfg c (z, r, n) s).2.1.reg s' = r.reg s' := by
  obtain ⟨n', hv⟩ := @visit_eq cfg c z r n s
  rw [hv, relabel_reg, setReg_of_ne h]

/-- The register is ready, for a step that only writes or another. -/
def Ready (step : RelaxedStep) (z : Local) (x : MaxReg) : Prop :=
  x.isDone ∨ step = .write ∧ x.isLinearized z

/-- What a visit counts. -/
theorem visit_counts : (visit cfg c (z, r, n) s).2.2.ready ≤ n.ready + 1 ∧
    (n.ready < (visit cfg c (z, r, n) s).2.2.ready →
      ∃ z', Ready r.step z' ((visit cfg c (z, r, n) s).2.1.reg s) ∧
        z'.tspOf .write = z.tspOf .write) ∧
    (visit cfg c (z, r, n) s).2.2.done ≤ n.done + 1 ∧
    (n.done < (visit cfg c (z, r, n) s).2.2.done →
      ((visit cfg c (z, r, n) s).2.1.reg s).isDone) := by
  have hreg : (visit cfg c (z, r, n) s).2.1.reg s = ((r.reg s).tryStepForward cfg c s z).2 := by
    obtain ⟨n', hv⟩ := @visit_eq cfg c z r n s
    rw [hv, relabel_reg, setReg_self]
  rw [hreg]
  simp only [visit]
  refine ⟨?_, fun h => ⟨((r.reg s).tryStepForward cfg c s z).1, ?_,
    MaxReg.tryStepForward_tspOf .write⟩, ?_, fun h => ?_⟩
  · split <;> omega
  · split at h
    · next hr => simpa [Ready] using hr
    · exact absurd h (Nat.lt_irrefl _)
  · split <;> omega
  · split at h
    · next hd => exact hd
    · exact absurd h (Nat.lt_irrefl _)

/-- Among the registers visited, all that could be counted are ready, if as many are. -/
theorem foldl_visit_counts (l : List ℕ) (hl : l.Nodup) (acc : Local × RelaxedMaxReg × Counts) :
    (∀ s ∉ l, (l.foldl (visit cfg c) acc).2.1.reg s = acc.2.1.reg s) ∧
    (l.foldl (visit cfg c) acc).1.tspOf .write = acc.1.tspOf .write ∧
    (l.foldl (visit cfg c) acc).2.2.ready ≤ acc.2.2.ready + l.length ∧
    (acc.2.2.ready + l.length ≤ (l.foldl (visit cfg c) acc).2.2.ready → ∀ s ∈ l, ∃ z',
      Ready acc.2.1.step z' ((l.foldl (visit cfg c) acc).2.1.reg s) ∧
        z'.tspOf .write = acc.1.tspOf .write) ∧
    (l.foldl (visit cfg c) acc).2.2.done ≤ acc.2.2.done + l.length ∧
    (acc.2.2.done + l.length ≤ (l.foldl (visit cfg c) acc).2.2.done → ∀ s ∈ l,
      ((l.foldl (visit cfg c) acc).2.1.reg s).isDone) := by
  induction l generalizing acc with
  | nil =>
    exact ⟨fun _ _ => rfl, rfl, le_rfl, fun _ => List.forall_mem_nil _, le_rfl,
      fun _ => List.forall_mem_nil _⟩
  | cons a l ih =>
    obtain ⟨z, r, n⟩ := acc
    obtain ⟨ha, hl⟩ := List.nodup_cons.1 hl
    obtain ⟨hreg, htsp, hready, hall, hdone, halld⟩ := ih hl (visit cfg c (z, r, n) a)
    obtain ⟨hr₁, hr₂, hd₁, hd₂⟩ := @visit_counts cfg c a z r n
    rw [visit_step] at hall
    simp only [List.foldl_cons, List.length_cons]
    refine ⟨fun s hs => ?_, htsp.trans visit_tspOf_write, by omega, fun h s hs => ?_, by omega,
      fun h s hs => ?_⟩
    · obtain ⟨hne, hs⟩ := not_or.1 (List.mem_cons.not.1 hs)
      rw [hreg s hs, visit_reg_of_ne hne]
    · rcases List.mem_cons.1 hs with rfl | hs
      · rw [hreg _ ha]
        exact hr₂ (by omega)
      · obtain ⟨z', hz', htsp'⟩ := hall (by omega) s hs
        exact ⟨z', hz', htsp'.trans visit_tspOf_write⟩
    · rcases List.mem_cons.1 hs with rfl | hs
      · rw [hreg _ ha]
        exact hd₂ (by omega)
      · exact halld (by omega) s hs

variable {kv : ℕ}

/-- With the servers of a key in use, a majority is ready only if all of them are. -/
theorem ready_of_visitAll (hu : r.usedServers cfg = cfg.servers kv)
    (hv : visitAll cfg c z r = (z', r', n)) (hn : cfg.majority ≤ n.ready) :
    ∀ s ∈ cfg.servers kv, ∃ z₁, Ready r.step z₁ (r'.reg s) ∧ z₁.tspOf .write = z'.tspOf .write := by
  obtain ⟨-, htsp, -, hall, -⟩ := foldl_visit_counts (c := c) (cfg.servers kv)
    Layout.nodup_servers (z, r, ⟨0, 0, 0⟩)
  rw [← hu, ← visitAll, hv] at htsp hall
  intro s hs
  have hle : (r.usedServers cfg).length ≤ cfg.majority := by
    rw [hu]
    exact Layout.length_servers_le
  obtain ⟨z₁, hz₁, htsp₁⟩ := hall (by dsimp only; omega) s (hu ▸ hs)
  exact ⟨z₁, hz₁, htsp₁.trans htsp.symm⟩

/-- And a majority is done only if all of them are. -/
theorem done_of_visitAll (hu : r.usedServers cfg = cfg.servers kv)
    (hv : visitAll cfg c z r = (z', r', n)) (hn : cfg.majority ≤ n.done) :
    ∀ s ∈ cfg.servers kv, (r'.reg s).isDone := by
  obtain ⟨-, -, -, -, -, hall⟩ := foldl_visit_counts (c := c) (cfg.servers kv)
    Layout.nodup_servers (z, r, ⟨0, 0, 0⟩)
  rw [← hu, ← visitAll, hv] at hall
  have hle : (r.usedServers cfg).length ≤ cfg.majority := by
    rw [hu]
    exact Layout.length_servers_le
  exact fun s hs => hall (by dsimp only; omega) s (hu ▸ hs)

end RelaxedMaxReg

end DiscoSkip.SwarmKv
