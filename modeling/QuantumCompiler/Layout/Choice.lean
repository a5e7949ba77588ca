/-!
# First best elements and sums

The element of a list with the smallest or greatest value of a function; the first one, if there
are several.  `sumOf` adds up the values of a function.
-/

namespace QuantumCompiler

variable {β : Type}

/-- The first element with the smallest value. -/
def firstMin? (f : β → Nat) : List β → Option β
  | [] => none
  | x :: rest =>
    match firstMin? f rest with
    | none => some x
    | some y => if f y < f x then some y else some x

/-- The first element with the greatest value. -/
def firstMax? (f : β → Nat) : List β → Option β
  | [] => none
  | x :: rest =>
    match firstMax? f rest with
    | none => some x
    | some y => if f x < f y then some y else some x

/-- The sum of the values over a list. -/
def sumOf (f : β → Nat) : List β → Nat
  | [] => 0
  | x :: rest => f x + sumOf f rest

theorem firstMin?_eq_none_iff {f : β → Nat} {xs : List β} : firstMin? f xs = none ↔ xs = [] := by
  cases xs with
  | nil => simp [firstMin?]
  | cons x rest =>
    simp only [firstMin?, reduceCtorEq, iff_false]
    split
    · simp
    · split <;> simp

theorem firstMax?_eq_none_iff {f : β → Nat} {xs : List β} : firstMax? f xs = none ↔ xs = [] := by
  cases xs with
  | nil => simp [firstMax?]
  | cons x rest =>
    simp only [firstMax?, reduceCtorEq, iff_false]
    split
    · simp
    · split <;> simp

end QuantumCompiler
