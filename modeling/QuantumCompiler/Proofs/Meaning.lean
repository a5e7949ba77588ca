import Mathlib.Algebra.BigOperators.Group.List.Basic
import Mathlib.Algebra.Group.Commute.Basic
import QuantumCompiler.Proofs.WellFormed

/-!
# The meaning of a sequence of operations

Operations are read in a monoid by an interpretation `I`, and a sequence of
operations in time order means the product of their images.  Nothing is
assumed about `I` here: each pass of the compiler states the laws that it
needs.
-/

namespace QuantumCompiler

variable {α : Type} {M : Type*} [Monoid M]

/-- The product of the images of operations in time order. -/
def meaning (I : Operation α → M) (ops : List (Operation α)) : M := (ops.map I).prod

variable {I : Operation α → M}

@[simp] theorem meaning_nil : meaning I [] = 1 := rfl

@[simp] theorem meaning_cons (op : Operation α) (ops : List (Operation α)) :
    meaning I (op :: ops) = I op * meaning I ops := by
  simp [meaning]

@[simp] theorem meaning_append (xs ys : List (Operation α)) :
    meaning I (xs ++ ys) = meaning I xs * meaning I ys := by
  simp [meaning]

theorem meaning_eq_one {ops : List (Operation α)} (h : ∀ op ∈ ops, I op = 1) :
    meaning I ops = 1 := by
  refine List.prod_eq_one fun x hx => ?_
  obtain ⟨op, hop, rfl⟩ := List.mem_map.mp hx
  exact h op hop

/-- Replacing every operation by operations with the same meaning changes
nothing. -/
theorem meaning_flatMap {f : Operation α → List (Operation α)} {ops : List (Operation α)}
    (h : ∀ op ∈ ops, meaning I (f op) = I op) : meaning I (ops.flatMap f) = meaning I ops := by
  induction ops with
  | nil => rfl
  | cons op rest ih =>
    rw [List.flatMap_cons, meaning_append, meaning_cons, h op List.mem_cons_self,
      ih fun op' hop' => h op' (List.mem_cons_of_mem _ hop')]

/-- What commutes with every operation of a sequence commutes with its
meaning. -/
theorem commute_meaning {x : M} {ops : List (Operation α)} (h : ∀ op ∈ ops, Commute (I op) x) :
    Commute (meaning I ops) x := by
  refine Commute.list_prod_left _ _ fun y hy => ?_
  obtain ⟨op, hop, rfl⟩ := List.mem_map.mp hy
  exact h op hop

end QuantumCompiler
