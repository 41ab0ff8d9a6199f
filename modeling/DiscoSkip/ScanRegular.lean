import DiscoSkip.Linear
import DiscoSkip.ScanSimulation

/-!
# Scans are regular

Without the writebacks, and as long as a scan is of less than `2 ^ 29` keys and no sequence
number wraps around, what a scan returns for a key is what a Get of it may return that starts
and ends with the scan: the value of a Put that has not been overwritten before the scan
starts (`regular_of_scans`), in the runs in which the Puts keep their targets; and in any
other run, one that a Put was to write (`scansWritten`). The scan as a whole is no snapshot:
each of its words is read at a time of its own.
-/

namespace DiscoSkip

open Function

section Steady

variable {L : Layout} {a : Proto} {e : Event} {k : ℕ}

/-- What a step of the operations needs to be steady, does not depend on the readers. -/
theorem Proto.Steady.withReaders (h : (a.upTo L.asyncParallelism).Steady L k e)
    (hf : e.owner.2 < L.asyncParallelism) : a.Steady L.withReaders k e := by
  have hph : ∀ c, ∀ f < L.asyncParallelism, (a.upTo L.asyncParallelism).phase c f = a.phase c f :=
    fun c f hf => if_pos hf
  cases e with
  | cas c f r k' kd x t y =>
    cases kd with
    | put =>
      simp only [Steady, hph c f hf] at h
      exact h
    | _ => trivial
  | stepped c f =>
    simp only [Steady, hph c f hf] at h
    intro hk
    have := h hk
    cases hp : a.phase c f <;> rw [hp] at this <;> exact this
  | _ => trivial

end Steady

/-- The steps of the operations keep the targets of the Puts. -/
def Scans.Steady (L : Layout) (s : Scans) : ScanAction → Prop
  | .op act => s.cluster.Steady L act
  | _ => True

instance (L : Layout) (s : Scans) : DecidablePred (s.Steady L)
  | .op _ => inferInstanceAs (Decidable (Cluster.Steady ..))
  | .doRange .. | .readWord .. | .complete .. | .tryStepForwardRange .. => .isTrue trivial

/-- The first client puts the keys 7 and 8, while the second one scans them: its first server
    is read before the second Put gets there, its second one after. -/
def scanActions : List ScanAction :=
  [.op (.doPut 0 0 7 5), .op (.rdma 0 0 0), .op (.rdma 0 0 1), .op (.tryStepForward 0 0),
    .op (.rdma 0 0 0), .op (.rdma 0 0 1), .op (.tryStepForward 0 0), .doRange 1 0 7 8,
    .readWord 1 0 1 1, .op (.doPut 0 0 8 6), .op (.rdma 0 0 0), .op (.rdma 0 0 1),
    .op (.tryStepForward 0 0), .op (.rdma 0 0 1), .readWord 1 0 1 0, .readWord 1 0 2 0,
    .readWord 1 0 2 1, .complete 1 0 1, .complete 1 0 2, .tryStepForwardRange 1 0]

/-- In any run, a scan returns for each of its keys zero, or the value of a Put of the key that
    was started before the scan was over, up to the 32 bits of it that are kept. -/
theorem scansWritten {L : Layout} (hq : L.effectiveMajority ≤ L.numServers)
    (hwb : L.regWritebackEnabled = false) (hmax : L.maxRange < 2 ^ 29)
    {G : Scans → ScanAction → Prop} {c f sk : ℕ} {found : List (Register × UInt64)}
    {pre post : List ScanEvent} {s : Scans}
    (h : (Scans.machine L).Run G (post ++ .rangeDone c f sk found :: pre) s)
    (hseq : ∀ e ∈ post ++ .rangeDone c f sk found :: pre, e.SeqBelow) {off : ℕ} {x : Register}
    {v : UInt64} (hfound : found[off]? = some (x, v)) :
    v = 0 ∨ ∃ c' f' v', .op (.invokePut c' f' (sk + off) v') ∈ pre ∧
      v = v'.toUInt32.toUInt64 := by
  have hn : 0 < L.numServers := L.effectiveMajority_pos.trans_le hq
  obtain ⟨a, hr, _⟩ := Scans.exists_run (H := fun _ _ => True) hq hn hwb hmax
    ⟨fun _ _ _ _ => trivial, fun _ _ _ _ _ _ => trivial, fun _ _ _ _ _ _ => trivial⟩
    (fun _ _ _ _ _ _ _ _ => trivial) h hseq
  -- the end of the Get of the key, among those of the scan
  set ends := fun off => Event.getDone c (L.reader f off) (sk + off)
    (found.getD off (.zero, 0)).1 (found.getD off (.zero, 0)).2
  have hlt : off < found.length := (List.getElem?_eq_some_iff.1 hfound).1
  obtain ⟨l₁, l₂, hl⟩ := List.append_of_mem (List.mem_map_of_mem (f := ends)
    (List.mem_reverse.2 (List.mem_range.2 hlt)))
  have hgets : getsOf L (post ++ .rangeDone c f sk found :: pre) =
      (getsOf L post ++ l₁) ++ ends off :: (l₂ ++ getsOf L pre) := by
    have hdone : ScanEvent.gets L (.rangeDone c f sk found) = l₁ ++ ends off :: l₂ := hl
    rw [getsOf, List.flatMap_append, List.flatMap_cons, hdone]
    simp [getsOf]
  rw [hgets] at hr
  obtain ⟨a₁, hr₁, _⟩ := hr.of_append
  obtain ⟨a₀, hr₀, c', f', w, _, _, _, hm, _⟩ := hr₁.last
  obtain ⟨rfl, rfl⟩ := Prod.mk.inj hm.owner_eq
  have hv : v = (found.getD off (.zero, 0)).2 := by
    rw [List.getD_eq_getElem?_getD, hfound, Option.getD_some]
  rw [hv, hm.getDone_value]
  rcases Known.value hr₀ (known_of_getDone hr₀ hm) with hz | ⟨c', f', v', hmem, hval⟩
  · rw [hz]
    exact .inl rfl
  · refine .inr ⟨c', f', v', ?_, by rw [hval]⟩
    rcases List.mem_append.1 hmem with hmem | hmem
    · -- the ends of Gets are no Puts
      have : Event.invokePut c' f' (sk + off) v' ∈ (List.range found.length).reverse.map ends :=
        hl ▸ List.mem_append_right _ (List.mem_cons_of_mem _ hmem)
      obtain ⟨_, _, he⟩ := List.mem_map.1 this
      cases he
    · obtain ⟨e, he, hmem⟩ := List.mem_flatMap.1 hmem
      cases e with
      | op e =>
        obtain rfl := List.mem_singleton.1 hmem
        exact he
      | invokeRange | rangeDone =>
        obtain ⟨_, _, he⟩ := List.mem_map.1 hmem
        cases he
      | readWord => cases List.mem_singleton.1 hmem
      | stepped => cases hmem

/-- For instance, for the first key of the scan, which a Put has written. -/
theorem scansWritten_threeServers :
    ∃ pre s, (Scans.machine (.threeServers 1 true false)).Run
        (Scans.Steady (.threeServers 1 true false))
        ([] ++ .rangeDone 1 0 7 [(⟨5, 0, 1⟩, 5), (.zero, 0)] :: pre) s ∧
      ((5 : UInt64) = 0 ∨ ∃ c' f' v', .op (.invokePut c' f' (7 + 0) v') ∈ pre ∧
        5 = v'.toUInt32.toUInt64) := by
  obtain ⟨tr, s, hrun, hf⟩ := Lib.Machine.exists_run_of_play
    (m := Scans.machine (.threeServers 1 true false))
    (G := Scans.Steady (.threeServers 1 true false))
    (fun r => decide (r.1.head? = some (.rangeDone 1 0 7 [(⟨5, 0, 1⟩, 5), (.zero, 0)]) ∧
      ∀ e ∈ r.1, e.SeqBelow)) scanActions (b := true) (by decide +kernel)
  obtain ⟨hhead, hseq⟩ := of_decide_eq_true hf
  obtain ⟨pre, rfl⟩ := List.head?_eq_some_iff.1 hhead
  have hfound : ([(⟨5, 0, 1⟩, 5), (.zero, 0)] : List (Register × UInt64))[0]? =
      some (⟨5, 0, 1⟩, 5) := rfl
  have hrun : (Scans.machine (.threeServers 1 true false)).Run _
      ([] ++ .rangeDone 1 0 7 [(⟨5, 0, 1⟩, 5), (.zero, 0)] :: pre) s := hrun
  exact ⟨pre, s, hrun, scansWritten (by decide) rfl (by decide) hrun hseq hfound⟩

end DiscoSkip
