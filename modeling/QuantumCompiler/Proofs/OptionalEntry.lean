/-!
# Arrays of optional entries

The rows of a table of distances, both directions of a layout and the slots of
a pass are arrays of optional entries.  All of them are read with no entry
beyond the end.  Arrays that are filled with one value at the start, the levels of
wires and the words of a set among them, read as this value everywhere if it is the
one beyond the end.
-/

namespace QuantumCompiler

variable {β : Type} {xs : Array (Option β)} {i : Nat}

theorem lt_size_of_getD {v : β} (h : xs.getD i none = some v) : i < xs.size := by
  refine Nat.lt_of_not_le fun hle => ?_
  rw [Array.getD_eq_getD_getElem?, Array.getElem?_eq_none hle] at h
  cases h

theorem getD_setIfInBounds (hi : i < xs.size) (v : Option β) (j : Nat) :
    (xs.setIfInBounds i v).getD j none = if j = i then v else xs.getD j none := by
  rw [Array.getD_eq_getD_getElem?, Array.getElem?_setIfInBounds, Array.getD_eq_getD_getElem?]
  by_cases hj : j = i
  · subst hj
    simp [hi]
  · simp [hj, Ne.symm hj]

theorem getD_replicate {v : β} (n j : Nat) : (Array.replicate n v).getD j v = v := by
  rw [Array.getD_eq_getD_getElem?, Array.getElem?_replicate]
  split <;> rfl

end QuantumCompiler
