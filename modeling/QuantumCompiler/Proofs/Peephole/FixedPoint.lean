import QuantumCompiler.Proofs.Peephole.Meaning

/-!
# Fixed points of optimisation

An operation taken by a pass is either appended or counted as a
simplification, and a simplification never lengthens what is left
(`step_fired`).  Hence a pass that makes no simplification returns its circuit
unchanged (`pass_of_fired_eq_zero`), and one that makes some shortens it by at
least as many operations (`size_pass_add_fired`).

`Settles` says that passes stop because one of them makes no simplification, and
not because their number is bounded.  A circuit on which passes settle is
brought to a fixed point (`repeatPass_of_settles`), and passes settle unless
they remove at least as many operations as there may be passes
(`settles_of_size_lt`).
-/

namespace QuantumCompiler.Peephole

variable {α : Type} [RealArith α] {r : Simplifications}

namespace Sweep

/-- Taking an operation either counts a simplification and leaves no more
operations than before, or appends the operation. -/
theorem step_fired (r : Simplifications) (s : Sweep α) (op : Operation α) :
    (s.step r op).fired = s.fired + 1 ∧ (s.step r op).ops.length ≤ s.ops.length ∨
      (s.step r op).fired = s.fired ∧ (s.step r op).ops = s.ops ++ [op] := by
  rcases step_cases r s op with ⟨-, h⟩ | ⟨i, c, a, ha, -, h, -⟩ | h
  · left
    rw [h]
    exact ⟨rfl, Nat.le_refl _⟩
  · left
    obtain ⟨before, after, hops, hreplace, hremove, -⟩ := ops_around ha
    rw [h]
    cases c with
    | eliminated =>
      refine ⟨rfl, ?_⟩
      show (s.remove i).ops.length ≤ _
      rw [hremove, hops]
      simp
    | merged op' =>
      refine ⟨rfl, ?_⟩
      show (s.replace i op').ops.length ≤ _
      rw [hreplace, hops]
      simp
  · right
    rw [h]
    exact ⟨rfl, by simp [ops, emit, List.filterMap_append]⟩

theorem fired_le_run (s : Sweep α) (ops : List (Operation α)) :
    s.fired ≤ (s.run r ops).fired := by
  induction ops generalizing s with
  | nil => exact Nat.le_refl _
  | cons op rest ih =>
    have hrest : (s.step r op).fired ≤ (s.run r (op :: rest)).fired := ih (s.step r op)
    rcases step_fired r s op with ⟨hfired, -⟩ | ⟨hfired, -⟩ <;> omega

/-- Every simplification shortens what is left by an operation. -/
theorem length_run_add_fired (s : Sweep α) (ops : List (Operation α)) :
    (s.run r ops).ops.length + (s.run r ops).fired ≤ s.ops.length + s.fired + ops.length := by
  induction ops generalizing s with
  | nil => exact Nat.le_refl _
  | cons op rest ih =>
    have hrest : (s.run r (op :: rest)).ops.length + (s.run r (op :: rest)).fired ≤
        (s.step r op).ops.length + (s.step r op).fired + rest.length := ih (s.step r op)
    rw [List.length_cons]
    rcases step_fired r s op with ⟨hfired, hlength⟩ | ⟨hfired, hops⟩
    · omega
    · have hlength := congrArg List.length hops
      rw [List.length_append, List.length_singleton] at hlength
      omega

/-- Without a simplification all operations are appended. -/
theorem ops_run_of_fired_eq {s : Sweep α} {ops : List (Operation α)}
    (h : (s.run r ops).fired = s.fired) : (s.run r ops).ops = s.ops ++ ops := by
  induction ops generalizing s with
  | nil => exact (List.append_nil _).symm
  | cons op rest ih =>
    have hle : (s.step r op).fired ≤ (s.run r (op :: rest)).fired := fired_le_run _ rest
    rcases step_fired r s op with ⟨hfired, -⟩ | ⟨hfired, hops⟩
    · omega
    · have hrest : (s.run r (op :: rest)).ops = (s.step r op).ops ++ rest :=
        ih (h.trans hfired.symm)
      rw [hrest, hops, List.append_assoc, List.singleton_append]

end Sweep

/-! ## One pass -/

/-- A pass that makes no simplification returns the circuit that it was
given. -/
theorem pass_of_fired_eq_zero {c : Circuit α} (h : (pass r c).2 = 0) : (pass r c).1 = c := by
  have hops :
      ((Sweep.start c.numQubits).run r c.ops).ops = (Sweep.start c.numQubits).ops ++ c.ops :=
    Sweep.ops_run_of_fired_eq h
  rw [show (Sweep.start c.numQubits : Sweep α).ops = [] from rfl, List.nil_append] at hops
  rw [pass, hops]

/-- A pass shortens a circuit by an operation for every simplification. -/
theorem size_pass_add_fired (r : Simplifications) (c : Circuit α) :
    (pass r c).1.size + (pass r c).2 ≤ c.size := by
  have h := Sweep.length_run_add_fired (r := r) (Sweep.start c.numQubits) c.ops
  rw [show (Sweep.start c.numQubits : Sweep α).ops = [] from rfl, List.length_nil, Nat.zero_add,
    show (Sweep.start c.numQubits : Sweep α).fired = 0 from rfl, Nat.zero_add] at h
  exact h

/-! ## Repeated passes -/

/-- The circuit after a number of passes. -/
def afterPasses (r : Simplifications) : Nat → Circuit α → Circuit α
  | 0, c => c
  | k + 1, c => afterPasses r k (pass r c).1

/-- Among the first passes, as many as a bound allows, there is one that makes
no simplification. -/
def Settles (r : Simplifications) (bound : Nat) (c : Circuit α) : Prop :=
  ∃ k < bound, (pass r (afterPasses r k c)).2 = 0

theorem repeatPass_succ_of_fired {c : Circuit α} (bound : Nat) (h : (pass r c).2 ≠ 0) :
    repeatPass r (bound + 1) c =
      ((repeatPass r bound (pass r c).1).1, (repeatPass r bound (pass r c).1).2 + 1) := by
  rw [repeatPass]
  have hne : ((pass r c).2 == 0) = false := beq_eq_false_iff_ne.mpr h
  simp only [hne, Bool.false_eq_true, if_false]

theorem repeatPass_succ_of_not_fired {c : Circuit α} (bound : Nat) (h : (pass r c).2 = 0) :
    repeatPass r (bound + 1) c = (c, 1) := by
  rw [repeatPass]
  simp only [h, beq_self_eq_true, if_true, pass_of_fired_eq_zero h]

theorem settles_succ_iff {bound : Nat} {c : Circuit α} :
    Settles r (bound + 1) c ↔ (pass r c).2 = 0 ∨ Settles r bound (pass r c).1 := by
  constructor
  · rintro ⟨k, hk, hfired⟩
    cases k with
    | zero => exact .inl hfired
    | succ k => exact .inr ⟨k, by omega, hfired⟩
  · rintro (hfired | ⟨k, hk, hfired⟩)
    · exact ⟨0, by omega, hfired⟩
    · exact ⟨k + 1, by omega, hfired⟩

/-- Where passes settle, no simplification is left to make. -/
theorem repeatPass_of_settles {bound : Nat} {c : Circuit α} (h : Settles r bound c) :
    (pass r (repeatPass r bound c).1).2 = 0 := by
  induction bound generalizing c with
  | zero =>
    obtain ⟨k, hk, -⟩ := h
    omega
  | succ bound ih =>
    by_cases hfired : (pass r c).2 = 0
    · rw [repeatPass_succ_of_not_fired bound hfired]
      exact hfired
    · rw [repeatPass_succ_of_fired bound hfired]
      exact ih ((settles_succ_iff.mp h).resolve_left hfired)

/-- Where no simplification is left to make, further passes change nothing. -/
theorem repeatPass_of_fired_eq_zero {c : Circuit α} (h : (pass r c).2 = 0) (bound : Nat) :
    (repeatPass r bound c).1 = c := by
  cases bound with
  | zero => rfl
  | succ bound => rw [repeatPass_succ_of_not_fired bound h]

/-- Where passes do not settle, all of them are made. -/
theorem repeatPass_of_not_settles {bound : Nat} {c : Circuit α} (h : ¬ Settles r bound c) :
    repeatPass r bound c = (afterPasses r bound c, bound) := by
  induction bound generalizing c with
  | zero => rfl
  | succ bound ih =>
    rw [settles_succ_iff, not_or] at h
    rw [repeatPass_succ_of_fired bound h.1, ih h.2]
    rfl

/-- Where a simplification is left to make, a further pass changes the
circuit. -/
theorem repeatPass_ne_of_fired {c : Circuit α} (h : (pass r c).2 ≠ 0) (bound : Nat) :
    (repeatPass r (bound + 1) c).1 ≠ c := by
  have hfirst := size_pass_add_fired r c
  have hrest : (repeatPass r bound (pass r c).1).1.size ≤ (pass r c).1.size := by
    refine repeatPass_keeps (P := fun c' => c'.size ≤ (pass r c).1.size) ?_ (Nat.le_refl _) bound
    intro c' hc'
    have := size_pass_add_fired r c'
    omega
  intro heq
  rw [repeatPass_succ_of_fired bound h] at heq
  have hsize := congrArg Circuit.size heq
  dsimp only at hsize
  omega

/-- Passes settle unless they remove at least as many operations as there may
be passes. -/
theorem settles_of_size_lt {bound : Nat} {c : Circuit α}
    (h : c.size < (repeatPass r bound c).1.size + bound) : Settles r bound c := by
  induction bound generalizing c with
  | zero => exact absurd h (Nat.lt_irrefl _)
  | succ bound ih =>
    by_cases hfired : (pass r c).2 = 0
    · exact ⟨0, by omega, hfired⟩
    · have hsize := size_pass_add_fired r c
      rw [repeatPass_succ_of_fired bound hfired] at h
      dsimp only at h
      exact settles_succ_iff.mpr (.inr (ih (by omega)))

/-! ## The highest level -/

/-- The highest of the usual levels. -/
def Config.highest : Config := Config.levels.getD 3 default

/-- At the highest level, passes settle unless all of them together remove at
least 128 operations.  Where they settle, no simplification is left to make, and
optimising once more returns the same circuit. -/
theorem optimise_highest_idempotent (natives : GateSet) (c : Circuit α) :
    (c.size < (optimise natives .highest c).1.size + 128 →
      Settles (Config.highest.enabled.within natives) 128 c) ∧
    (Settles (Config.highest.enabled.within natives) 128 c →
      (pass (Config.highest.enabled.within natives) (optimise natives .highest c).1).2 = 0 ∧
        (optimise natives .highest (optimise natives .highest c).1).1 =
          (optimise natives .highest c).1) := by
  refine ⟨settles_of_size_lt, fun hsettles => ?_⟩
  have hfixed := repeatPass_of_settles hsettles
  exact ⟨hfixed, repeatPass_of_fired_eq_zero hfixed 128⟩

/-- A circuit of nine operations is brought to a fixed point. -/
theorem optimise_highest_guardedCircuit :
    Settles (Config.highest.enabled.within (.ofNames ["u", "cx", "measure"])) 128 guardedCircuit ∧
      (optimise (.ofNames ["u", "cx", "measure"]) .highest
        (optimise (.ofNames ["u", "cx", "measure"]) .highest guardedCircuit).1).1 =
      (optimise (.ofNames ["u", "cx", "measure"]) .highest guardedCircuit).1 := by
  have h := optimise_highest_idempotent (.ofNames ["u", "cx", "measure"]) guardedCircuit
  have hsize : guardedCircuit.size = 9 := rfl
  have hsettles := h.1 (by omega)
  exact ⟨hsettles, (h.2 hsettles).2⟩

end QuantumCompiler.Peephole
