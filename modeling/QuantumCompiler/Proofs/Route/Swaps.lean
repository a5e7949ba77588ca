import Mathlib.Algebra.Group.End
import QuantumCompiler.Proofs.Device.Distance
import QuantumCompiler.Proofs.Layout.Consistent
import QuantumCompiler.Route

/-!
# Swaps along a path

Swaps move the logical qubits of a layout by a permutation of the physical
ones (`physical?_applySwaps`).  The swaps along a shortest path take its first
qubit next to the last one and leave the last one where it is
(`swapsAlong_spec`).
-/

namespace QuantumCompiler.Route

/-- The permutation of physical qubits that swaps make one after the other. -/
def permutation : List (Nat × Nat) → Equiv.Perm ℕ
  | [] => 1
  | (p, q) :: rest => permutation rest * Equiv.swap p q

/-- Both qubits of every swap are below a size. -/
def SwapsBelow (size : Nat) (swaps : List (Nat × Nat)) : Prop :=
  ∀ s ∈ swaps, s.1 < size ∧ s.2 < size

/-! ## The layout after swaps -/

section Layouts

variable {l : Layout} {swaps : List (Nat × Nat)}

theorem applySwaps_cons (l : Layout) (p q : Nat) (rest : List (Nat × Nat)) :
    applySwaps l ((p, q) :: rest) = applySwaps (l.exchange p q) rest := rfl

@[simp] theorem numPhysical_applySwaps (l : Layout) (swaps : List (Nat × Nat)) :
    (applySwaps l swaps).numPhysical = l.numPhysical := by
  induction swaps generalizing l with
  | nil => rfl
  | cons s rest ih => rw [applySwaps_cons, ih, Layout.numPhysical_exchange]

@[simp] theorem frozen_applySwaps (l : Layout) (swaps : List (Nat × Nat)) :
    (applySwaps l swaps).frozen = l.frozen := by
  induction swaps generalizing l with
  | nil => rfl
  | cons s rest ih => rw [applySwaps_cons, ih]; rfl

/-- Swaps keep both directions of a layout in agreement. -/
theorem applySwaps_consistent (hl : l.Consistent) (hswaps : SwapsBelow l.numPhysical swaps) :
    (applySwaps l swaps).Consistent := by
  induction swaps generalizing l with
  | nil => exact hl
  | cons s rest ih =>
    obtain ⟨hp, hq⟩ := hswaps s List.mem_cons_self
    refine ih (hl.exchange hp hq) fun s' hs' => ?_
    rw [Layout.numPhysical_exchange]
    exact hswaps s' (List.mem_cons_of_mem _ hs')

/-- Swaps move logical qubits by their permutation. -/
theorem physical?_applySwaps (hl : l.Consistent) (hswaps : SwapsBelow l.numPhysical swaps)
    (k : Nat) : (applySwaps l swaps).physical? k = (l.physical? k).map (permutation swaps) := by
  induction swaps generalizing l with
  | nil => simp [applySwaps, permutation]
  | cons s rest ih =>
    obtain ⟨hp, hq⟩ := hswaps s List.mem_cons_self
    rw [applySwaps_cons, ih (hl.exchange hp hq) fun s' hs' => by
      rw [Layout.numPhysical_exchange]
      exact hswaps s' (List.mem_cons_of_mem _ hs')]
    rw [hl.physical?_exchange, permutation, Option.map_map]
    rfl

/-- Swaps of physical qubits that exist are never refused by a layout that
can be changed. -/
theorem foldlM_swap (hfrozen : l.frozen = false) (hswaps : SwapsBelow l.numPhysical swaps) :
    swaps.foldlM (fun l s => l.swap s.1 s.2) l = .ok (applySwaps l swaps) := by
  induction swaps generalizing l with
  | nil => rfl
  | cons s rest ih =>
    obtain ⟨hp, hq⟩ := hswaps s List.mem_cons_self
    have hswap : l.swap s.1 s.2 = .ok (l.exchange s.1 s.2) := by
      rw [Layout.swap, hfrozen, if_neg (by simp), if_neg (by simp; omega)]
    rw [List.foldlM_cons, hswap]
    exact ih hfrozen fun s' hs' => by
      rw [Layout.numPhysical_exchange]
      exact hswaps s' (List.mem_cons_of_mem _ hs')

end Layouts

/-! ## Swaps along a shortest path -/

/-- The place where the last swap ends does not depend on where the first one
starts. -/
theorem getLast?_cons_getD (p q : Nat) (swaps : List (Nat × Nat)) :
    (((p, q) :: swaps).getLast?.map (·.2)).getD p = (swaps.getLast?.map (·.2)).getD q := by
  cases swaps with
  | nil => rfl
  | cons s rest => rw [List.getLast?_cons_cons]; simp [List.getLast?_cons]

/-- The swaps along a shortest path: one less than its steps, each on a coupled
pair.  They leave the last qubit where it is and take the first one next to
it, to the end of the last swap. -/
theorem swapsAlong_spec {m : CouplingMap} {target k p : Nat} {rest : List Nat}
    (h : m.Descent target (k + 1) (p :: rest)) :
    let swaps := swapsAlong (p :: rest)
    let stop := (swaps.getLast?.map (·.2)).getD p
    swaps.length = k ∧ (∀ s ∈ swaps, m.graph.Adj s.1 s.2) ∧ permutation swaps target = target ∧
      permutation swaps p = stop ∧ m.graph.Adj stop target := by
  induction k generalizing p rest with
  | zero =>
    cases h with
    | step hadj hdist tail =>
      cases tail
      exact ⟨rfl, by simp [swapsAlong], rfl, rfl, hadj⟩
  | succ k ih =>
    cases h with
    | @step _ _ q rest hadj hdist tail =>
      obtain ⟨hlength, hcoupled, htarget, hstop, hlast⟩ := ih tail
      have hdist' : m.graph.edist q target = (k + 1 : Nat) := by
        cases tail with
        | step _ hdist' _ => exact hdist'
      -- Both qubits of the first swap are away from the target.
      have hne {r j : Nat} (h : m.graph.edist r target = (j + 1 : Nat)) : target ≠ r := by
        rintro rfl
        rw [SimpleGraph.edist_self] at h
        have : 0 = j + 1 := by exact_mod_cast h
        omega
      have hcons : swapsAlong (p :: q :: rest) = (p, q) :: swapsAlong (q :: rest) := by
        cases rest with
        | nil => cases tail
        | cons r rest => rfl
      dsimp only at hlength hcoupled htarget hstop hlast ⊢
      rw [hcons, getLast?_cons_getD, permutation]
      refine ⟨by rw [List.length_cons, hlength], ?_, ?_, ?_, hlast⟩
      · intro s hs
        rcases List.mem_cons.mp hs with rfl | hs
        · exact hadj
        · exact hcoupled s hs
      · rw [Equiv.Perm.mul_apply, Equiv.swap_apply_of_ne_of_ne (hne hdist) (hne hdist'), htarget]
      · rw [Equiv.Perm.mul_apply, Equiv.swap_apply_left, hstop]

end QuantumCompiler.Route
