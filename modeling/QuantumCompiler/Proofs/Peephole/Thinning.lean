import QuantumCompiler.Proofs.Peephole.Meaning

/-!
# What optimisation leaves of a circuit

Optimisation never adds an operation and never moves one in front of another.
It drops unitary gates and puts other unitary gates in the place of some of
them; everything else stays.  `Thinned` is this relation between the operations
before and after.  One operation taken by a pass keeps it (`step_thinned`),
hence so does a pass (`pass_thinned`), and passes compose
(`repeatPass_thinned`).
-/

namespace QuantumCompiler.Peephole

variable {α : Type} {r : Simplifications}

theorem StandsFor.trans {a b c : Operation α} (hab : StandsFor r a b) (hbc : StandsFor r b c) :
    StandsFor r a c where
  unitary := hbc.unitary
  qubits := hbc.qubits.trans hab.qubits
  kind := by
    rcases hbc.kind with hkind | hfuse
    · rw [hkind]
      exact hab.kind
    · exact .inr hfuse

/-- The second list is what is left of the first one when some of its unitary
gates are dropped and others stand in the place of some. -/
inductive Thinned (r : Simplifications) : List (Operation α) → List (Operation α) → Prop
  | nil : Thinned r [] []
  | keep (op : Operation α) {xs ys : List (Operation α)} (h : Thinned r xs ys) :
      Thinned r (op :: xs) (op :: ys)
  | drop {op : Operation α} (hop : op.isUnitary = true) {xs ys : List (Operation α)}
      (h : Thinned r xs ys) : Thinned r (op :: xs) ys
  | alter {a b : Operation α} (ha : a.isUnitary = true) (hb : StandsFor r a b)
      {xs ys : List (Operation α)} (h : Thinned r xs ys) : Thinned r (a :: xs) (b :: ys)

namespace Thinned

variable {xs ys zs : List (Operation α)}

theorem refl (xs : List (Operation α)) : Thinned r xs xs := by
  induction xs with
  | nil => exact .nil
  | cons op rest ih => exact .keep op ih

theorem append {xs' ys' : List (Operation α)} (h : Thinned r xs ys) (h' : Thinned r xs' ys') :
    Thinned r (xs ++ xs') (ys ++ ys') := by
  induction h with
  | nil => exact h'
  | keep op _ ih => exact .keep op ih
  | drop hop _ ih => exact .drop hop ih
  | alter ha hb _ ih => exact .alter ha hb ih

theorem trans (h : Thinned r xs ys) (h' : Thinned r ys zs) : Thinned r xs zs := by
  induction h generalizing zs with
  | nil => exact h'
  | keep op _ ih =>
    cases h' with
    | keep _ h' => exact .keep op (ih h')
    | drop hop h' => exact .drop hop (ih h')
    | alter ha hb h' => exact .alter ha hb (ih h')
  | drop hop _ ih => exact .drop hop (ih h')
  | alter ha hb _ ih =>
    cases h' with
    | keep _ h' => exact .alter ha hb (ih h')
    | drop _ h' => exact .drop ha (ih h')
    | alter _ hc h' => exact .alter ha (hb.trans hc) (ih h')

/-- A property that passes on to what stands for a gate passes on to all that is
left. -/
theorem forall_mem {P : Operation α → Prop}
    (hP : ∀ a b, a.isUnitary = true → StandsFor r a b → P a → P b) (h : Thinned r xs ys)
    (hxs : ∀ op ∈ xs, P op) : ∀ op ∈ ys, P op := by
  induction h with
  | nil => exact hxs
  | keep op _ ih =>
    rw [List.forall_mem_cons] at hxs ⊢
    exact ⟨hxs.1, ih hxs.2⟩
  | drop _ _ ih => exact ih (List.forall_mem_cons.mp hxs).2
  | alter ha hb _ ih =>
    rw [List.forall_mem_cons] at hxs ⊢
    exact ⟨hP _ _ ha hb hxs.1, ih hxs.2⟩

/-- What is not unitary is left as it was. -/
theorem filter_not_isUnitary (h : Thinned r xs ys) :
    ys.filter (!·.isUnitary) = xs.filter (!·.isUnitary) := by
  induction h with
  | nil => rfl
  | keep op _ ih => rw [List.filter_cons, List.filter_cons, ih]
  | drop hop _ ih => simp [hop, ih]
  | alter ha hb _ ih => simp [ha, hb.unitary, ih]

end Thinned

/-! ## Passes -/

variable [RealArith α]

namespace Sweep

/-- Combining a gate with its partner drops the gate, and drops or alters the
partner. -/
theorem apply_thinned {s : Sweep α} {op a : Operation α} {i : Nat} {c : Combination α}
    (ha : s.at? i = some a) (hc : combine? r a op = some c) :
    Thinned r (s.ops ++ [op]) (s.apply i c).ops := by
  obtain ⟨hunitary_a, hunitary⟩ := isUnitary_of_combine? hc
  obtain ⟨before, after, hops, hreplace, hremove, -⟩ := ops_around ha
  have hend : Thinned r (after ++ [op]) after := by
    have := (Thinned.refl (r := r) after).append (.drop hunitary .nil)
    rwa [List.append_nil] at this
  rw [hops, List.append_assoc, List.cons_append]
  cases c with
  | eliminated =>
    show Thinned r _ (s.remove i).ops
    rw [hremove]
    exact (Thinned.refl before).append (.drop hunitary_a hend)
  | merged op' =>
    show Thinned r _ (s.replace i op').ops
    rw [hreplace]
    exact (Thinned.refl before).append (.alter hunitary_a (standsFor_of_combine? hc) hend)

theorem step_thinned (r : Simplifications) (s : Sweep α) (op : Operation α) :
    Thinned r (s.ops ++ [op]) (s.step r op).ops := by
  rcases step_cases r s op with ⟨hid, h⟩ | ⟨i, c, a, ha, hc, h, -⟩ | h
  · rw [h]
    have := (Thinned.refl (r := r) s.ops).append (.drop (isUnitary_of_isIdentity hid) .nil)
    rwa [List.append_nil] at this
  · rw [h]
    exact apply_thinned ha hc
  · rw [h]
    have hemit : (s.emit op).ops = s.ops ++ [op] := by simp [ops, emit, List.filterMap_append]
    rw [hemit]
    exact .refl _

theorem run_thinned (r : Simplifications) (s : Sweep α) (ops : List (Operation α)) :
    Thinned r (s.ops ++ ops) (s.run r ops).ops := by
  induction ops generalizing s with
  | nil =>
    rw [List.append_nil]
    exact .refl _
  | cons op rest ih =>
    have hfirst := (step_thinned r s op).append (.refl rest)
    rw [List.append_assoc, List.singleton_append] at hfirst
    exact hfirst.trans (ih (s.step r op))

end Sweep

theorem pass_thinned (r : Simplifications) (c : Circuit α) :
    Thinned r c.ops (pass r c).1.ops := by
  have := Sweep.run_thinned r (Sweep.start c.numQubits) c.ops
  rwa [show (Sweep.start c.numQubits : Sweep α).ops = [] from rfl, List.nil_append] at this

theorem repeatPass_thinned (r : Simplifications) (bound : Nat) (c : Circuit α) :
    Thinned r c.ops (repeatPass r bound c).1.ops :=
  repeatPass_keeps (P := fun c' => Thinned r c.ops c'.ops)
    (fun c' hc' => hc'.trans (pass_thinned r c')) (.refl c.ops) bound

theorem numQubits_repeatPass (r : Simplifications) (bound : Nat) (c : Circuit α) :
    (repeatPass r bound c).1.numQubits = c.numQubits :=
  repeatPass_keeps (P := fun c' => c'.numQubits = c.numQubits) (fun _ hc' => hc') rfl bound

end QuantumCompiler.Peephole
