import Mathlib.Algebra.BigOperators.Fin
import QuantumCompiler.Proofs.Layout.Packing

/-!
# Packing decides whether groups fit into regions

`IsPacking` says that groups are assigned to regions so that no region receives
more qubits than it has.  It looks at all groups at once, where `Fits` looks at
one after the other; the two agree because what the groups of a region take away
from its room adds up (`Fits.load_le` and `fits_of_sum_le`).  Hence packing
finds an assignment exactly if there is one, and what it finds is one
(`pack_decides`).
-/

namespace QuantumCompiler.Packing

variable {β : Type} {free sizes targets : List Nat}

/-! ## Groups one after the other and all at once -/

theorem Fits.length_eq (h : Fits free sizes targets) : targets.length = sizes.length := by
  induction h with
  | nil => rfl
  | cons _ _ _ ih => rw [List.length_cons, List.length_cons, ih]

theorem Fits.target_lt (h : Fits free sizes targets) : ∀ j ∈ targets, j < free.length := by
  induction h with
  | nil => simp
  | cons hj _ _ ih => exact List.forall_mem_cons.mpr ⟨hj, by simpa only [length_fill] using ih⟩

/-- What the groups of a region take together is at most the room that the region has
at the start. -/
theorem Fits.load_le (h : Fits free sizes targets) (j : Nat) :
    sumOf (·.1) ((sizes.zip targets).filter (·.2 == j)) ≤ free.getD j 0 := by
  induction h with
  | nil => exact Nat.zero_le _
  | @cons free rest targets size target _ hroom _ ih =>
    rw [getD_fill] at ih
    rw [List.zip_cons_cons, List.filter_cons]
    by_cases htarget : j = target
    · subst htarget
      rw [if_pos rfl] at ih
      rw [if_pos (beq_self_eq_true j), sumOf]
      omega
    · rw [if_neg htarget] at ih
      rwa [if_neg (by simpa using Ne.symm htarget)]

theorem sumOf_filter {ι : Type} (f : ι → Nat) (p : ι → Bool) (xs : List ι) :
    sumOf f (xs.filter p) = (xs.map fun x => if p x = true then f x else 0).sum := by
  induction xs with
  | nil => rfl
  | cons x rest ih =>
    rw [List.filter_cons, List.map_cons, List.sum_cons, ← ih]
    split_ifs
    · rfl
    · rw [Nat.zero_add]

theorem sumOf_map {ι κ : Type} (f : κ → Nat) (g : ι → κ) (xs : List ι) :
    sumOf f (xs.map g) = sumOf (f ∘ g) xs := by
  induction xs with
  | nil => rfl
  | cons x rest ih => rw [List.map_cons, sumOf, sumOf, ih, Function.comp_apply]

/-- The groups with one target, as a sum over all groups. -/
theorem sumOf_finRange {n : Nat} (size target : Fin n → Nat) (j : Nat) :
    sumOf size ((List.finRange n).filter (target · == j)) = ∑ i with target i = j, size i := by
  rw [sumOf_filter, Finset.sum_filter, ← List.sum_ofFn, List.ofFn_eq_map]
  simp only [beq_iff_eq]

/-! ## Assignments -/

/-- An assignment of groups to regions in which no region receives more qubits than it
has. -/
def IsPacking (groups regions : List (List β))
    (target : Fin groups.length → Fin regions.length) : Prop :=
  ∀ j, ∑ i with target i = j, groups[i].length ≤ regions[j].length

variable {groups regions : List (List β)}

theorem map_finRange_length (groups : List (List β)) :
    (List.finRange groups.length).map (fun i => groups[i].length) = groups.map List.length := by
  refine List.ext_getElem (by simp) fun i _ _ => by simp

theorem IsPacking.fits {target : Fin groups.length → Fin regions.length}
    (h : IsPacking groups regions target) :
    Fits (regions.map List.length) (groups.map List.length)
      (List.ofFn fun i => (target i : Nat)) := by
  rw [List.ofFn_eq_map, ← map_finRange_length groups]
  refine fits_of_sum_le (fun i _ => by simp) fun j => ?_
  rw [sumOf_finRange]
  by_cases hj : j < regions.length
  · simpa [hj, Fin.ext_iff] using h ⟨j, hj⟩
  · -- There is no such region, and nothing is assigned to it.
    have hnone : ∀ i, (target i : Nat) ≠ j := fun i hi => hj (hi ▸ (target i).isLt)
    simp [hnone]

theorem Fits.exists_isPacking
    (h : Fits (regions.map List.length) (groups.map List.length) targets) :
    ∃ target, IsPacking groups regions target ∧
      targets = List.ofFn fun i => (target i : Nat) := by
  have hlength : targets.length = groups.length := by simpa using h.length_eq
  have hlt : ∀ j ∈ targets, j < regions.length := by simpa using h.target_lt
  have hzip : (groups.map List.length).zip targets =
      (List.finRange groups.length).map fun i => (groups[i].length, targets[i]) := by
    refine List.ext_getElem (by simp [hlength]) fun i _ _ => by simp
  refine ⟨fun i => ⟨targets[i], hlt _ (List.getElem_mem _)⟩, fun j => ?_, ?_⟩
  · have hload := h.load_le j
    rw [hzip, List.filter_map, sumOf_map, List.getD_eq_getElem _ _ (by simp),
      List.getElem_map] at hload
    have hsum :=
      sumOf_finRange (fun i : Fin groups.length => groups[i].length) (fun i => targets[i]) j
    simp only [Fin.ext_iff]
    exact hsum.symm.trans_le hload
  · refine List.ext_getElem (by simp [hlength]) fun i _ _ => by simp

/-- Packing finds targets exactly if the groups can be assigned to the regions so that
no region receives more qubits than it has, and the targets it finds are such an
assignment. -/
theorem pack_decides (groups regions : List (List β)) :
    ((pack (regions.map List.length) (groups.map List.length)).isSome = true ↔
        ∃ target, IsPacking groups regions target) ∧
      ∀ targets, pack (regions.map List.length) (groups.map List.length) = some targets →
        ∃ target, IsPacking groups regions target ∧
          targets = List.ofFn fun i => (target i : Nat) := by
  have hfound {targets : List Nat}
      (h : pack (regions.map List.length) (groups.map List.length) = some targets) :=
    (pack_fits h).exists_isPacking
  refine ⟨⟨fun h => ?_, fun ⟨target, h⟩ => ?_⟩, fun targets => hfound⟩
  · obtain ⟨targets, htargets⟩ := Option.isSome_iff_exists.mp h
    obtain ⟨target, hpacking, -⟩ := hfound htargets
    exact ⟨target, hpacking⟩
  · exact Option.isSome_iff_exists.mpr (exists_pack h.fits)

/-- Two regions that are filled to the last qubit.  Best fit puts the groups of five and
four qubits together and has no place for the last group. -/
theorem pack_decides_tight :
    bestFit [10, 10] [5, 4, 4, 3, 2, 2] = none ∧
      pack ([List.range 10, List.range 10].map List.length)
        ([5, 4, 4, 3, 2, 2].map List.range |>.map List.length) = some [0, 1, 1, 0, 0, 1] ∧
      ∃ target,
        IsPacking ([5, 4, 4, 3, 2, 2].map List.range) [List.range 10, List.range 10] target ∧
        [0, 1, 1, 0, 0, 1] = List.ofFn fun i => (target i : Nat) := by
  have hpack : pack ([List.range 10, List.range 10].map List.length)
      ([5, 4, 4, 3, 2, 2].map List.range |>.map List.length) = some [0, 1, 1, 0, 0, 1] := by
    decide
  exact ⟨by decide, hpack, (pack_decides _ _).2 _ hpack⟩

end QuantumCompiler.Packing
