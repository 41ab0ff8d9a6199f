import Mathlib.Data.List.Nodup
import Mathlib.Order.Interval.Set.Basic
import Mathlib.Logic.Equiv.Basic

/-!
# Permutations of a part

A function from places is permuted on a set of places if it takes its values from there by a
permutation that fixes all other places (`PermOn`). Swapping two places of the set does that.
What holds of all values of the set still does (`PermOn.forall_mem`), and no other value
changes (`PermOn.eq_of_notMem`).
-/

namespace DiscoSkip.Lib

variable {ι α : Type*}

/-- `g` is `f`, permuted on the places `s`. -/
def PermOn (s : Set ι) (f g : ι → α) : Prop :=
  ∃ σ : Equiv.Perm ι, g = f ∘ σ ∧ ∀ i ∉ s, σ i = i

namespace PermOn

variable {s t : Set ι} {f g h : ι → α} {i j : ι}

theorem refl (s : Set ι) (f : ι → α) : PermOn s f f := ⟨Equiv.refl ι, rfl, fun _ _ => rfl⟩

theorem trans (hg : PermOn s f g) (hh : PermOn s g h) : PermOn s f h := by
  obtain ⟨σ, rfl, hσ⟩ := hg
  obtain ⟨τ, rfl, hτ⟩ := hh
  refine ⟨τ.trans σ, rfl, fun i hi => ?_⟩
  rw [Equiv.trans_apply, hτ i hi, hσ i hi]

theorem mono (hst : s ⊆ t) (hg : PermOn s f g) : PermOn t f g := by
  obtain ⟨σ, rfl, hσ⟩ := hg
  exact ⟨σ, rfl, fun i hi => hσ i fun hs => hi (hst hs)⟩

theorem swap [DecidableEq ι] (hi : i ∈ s) (hj : j ∈ s) : PermOn s f (f ∘ Equiv.swap i j) :=
  ⟨Equiv.swap i j, rfl, fun _ hk => Equiv.swap_apply_of_ne_of_ne (fun h => hk (h ▸ hi))
    fun h => hk (h ▸ hj)⟩

theorem eq_of_notMem (hg : PermOn s f g) (hi : i ∉ s) : g i = f i := by
  obtain ⟨σ, rfl, hσ⟩ := hg
  rw [Function.comp_apply, hσ i hi]

/-- A value of the set is one that was there before. -/
theorem exists_mem (hg : PermOn s f g) (hi : i ∈ s) : ∃ j ∈ s, g i = f j := by
  obtain ⟨σ, rfl, hσ⟩ := hg
  refine ⟨σ i, ?_, rfl⟩
  by_contra hs
  exact hs ((σ.injective (hσ _ hs)).symm ▸ hi)

theorem forall_mem {p : α → Prop} (hg : PermOn s f g) (hf : ∀ i ∈ s, p (f i)) :
    ∀ i ∈ s, p (g i) := by
  intro i hi
  obtain ⟨j, hj, hij⟩ := hg.exists_mem hi
  exact hij ▸ hf j hj

/-- A value that was in the set before is still there. -/
theorem exists_mem' (hg : PermOn s f g) (hi : i ∈ s) : ∃ j ∈ s, g j = f i := by
  obtain ⟨σ, rfl, hσ⟩ := hg
  refine ⟨σ.symm i, ?_, by rw [Function.comp_apply, Equiv.apply_symm_apply]⟩
  by_contra hs
  have hfix := hσ _ hs
  rw [Equiv.apply_symm_apply] at hfix
  exact hs (hfix ▸ hi)

/-- The values of a list of places that has all of the set are permuted. -/
theorem map_perm (hg : PermOn s f g) {l : List ι} (hl : l.Nodup) (hs : ∀ i ∈ s, i ∈ l) :
    (l.map g).Perm (l.map f) := by
  obtain ⟨σ, rfl, hσ⟩ := hg
  rw [← List.map_map]
  refine List.Perm.map f ((List.perm_ext_iff_of_nodup (hl.map σ.injective) hl).2 fun i => ?_)
  rw [List.mem_map]
  constructor
  · rintro ⟨j, hj, rfl⟩
    by_cases hjs : j ∈ s
    · by_contra hn
      have hfix := hσ _ fun hmem => hn (hs _ hmem)
      exact hn ((σ.injective hfix).symm ▸ hj)
    · rwa [hσ j hjs]
  · intro hi
    refine ⟨σ.symm i, ?_, σ.apply_symm_apply i⟩
    by_cases hmem : σ.symm i ∈ s
    · exact hs _ hmem
    · have hfix := hσ _ hmem
      rw [Equiv.apply_symm_apply] at hfix
      rwa [← hfix]

end PermOn

end DiscoSkip.Lib
