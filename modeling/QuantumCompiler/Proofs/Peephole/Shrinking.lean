import Mathlib.Data.List.NodupEquivFin
import QuantumCompiler.Proofs.Circuit.Depth
import QuantumCompiler.Proofs.Peephole.FixedPoint
import QuantumCompiler.Proofs.Peephole.Thinning

/-!
# Optimisation shrinks a circuit

Every simplification takes an operation away, so the passes are bounded by the
circuit as well as by their configuration: a pass that is not the last one
shortens the circuit (`size_repeatPass_add_passes`), and any bound above the size
of the circuit gives the same result (`repeatPass_eq_of_size_lt`).

What is left are operations of the circuit in their order, each on the operands
that it had.  `Became` says what may become of an operation, and `Remains` gives
every operation that is left its place in the circuit (`Thinned.became`,
`remains_of_became`).  Since the layers of a circuit depend on operands only, the
circuit gets neither deeper nor longer.
-/

namespace QuantumCompiler.Peephole

variable {α : Type} {r : Simplifications} {natives : GateSet}

/-! ## What becomes of operations -/

/-- What an operation may become: one of the same kind on the same operands, or
a general rotation if gates are fused and it is native. -/
structure Became (natives : GateSet) (r : Simplifications) (a b : Operation α) : Prop where
  qubits : b.qubits = a.qubits
  clbits : b.clbits = a.clbits
  kind : b.kind = a.kind ∨ b.kind = .gate .u ∧ a.isUnitary = true ∧
    r.fuse = true ∧ natives.contains (.gate .u) = true

/-- The operations that are left have places among those before, in the same
order, and each is what became of the operation in its place. -/
def Remains (natives : GateSet) (r : Simplifications) (before after : List (Operation α)) :
    Prop :=
  ∃ place : Fin after.length ↪o Fin before.length,
    ∀ i, Became natives r (before.get (place i)) (after.get i)

/-- A barrier stays one, and nothing else becomes one. -/
theorem Became.sameOperands {a b : Operation α} (h : Became natives r a b) :
    b.SameOperands a where
  barrier := by
    rcases h.kind with hkind | ⟨hkind, hunitary, -⟩
    · rw [Operation.isBarrier, hkind, Operation.isBarrier]
    · rw [Operation.isBarrier_of_isUnitary hunitary, Operation.isBarrier, hkind]
      rfl
  qubits := h.qubits
  clbits := h.clbits

/-- What stands for a gate has the operands of the gate: neither has classical
bits. -/
theorem StandsFor.became {n m : Nat} {a b : Operation α} (h : StandsFor (r.within natives) a b)
    (hunitary : a.isUnitary = true) (ha : a.WellFormed n m) (hb : b.WellFormed n m) :
    Became natives r a b where
  qubits := h.qubits
  clbits := by rw [ha.clbits_eq_nil hunitary, hb.clbits_eq_nil h.unitary]
  kind := by
    refine h.kind.imp id fun ⟨hfuse, hkind⟩ => ⟨hkind, hunitary, ?_⟩
    simpa [Simplifications.within] using hfuse

theorem Thinned.became {n m : Nat} {xs ys : List (Operation α)}
    (h : Thinned (r.within natives) xs ys) (hxs : ∀ op ∈ xs, op.WellFormed n m)
    (hys : ∀ op ∈ ys, op.WellFormed n m) :
    List.SublistForall₂ (fun b a => Became natives r a b) ys xs := by
  induction h with
  | nil => exact .nil
  | keep op _ ih =>
    rw [List.forall_mem_cons] at hxs hys
    exact .cons ⟨rfl, rfl, .inl rfl⟩ (ih hxs.2 hys.2)
  | drop _ _ ih => exact .cons_right (ih (List.forall_mem_cons.mp hxs).2 hys)
  | alter ha hb _ ih =>
    rw [List.forall_mem_cons] at hxs hys
    exact .cons (hb.became ha hxs.1 hys.1) (ih hxs.2 hys.2)

/-- A list that is left of another one has its places there. -/
theorem remains_of_became {before after : List (Operation α)}
    (h : List.SublistForall₂ (fun b a => Became natives r a b) after before) :
    Remains natives r before after := by
  obtain ⟨kept, hkept, hsub⟩ := List.sublistForall₂_iff.mp h
  obtain ⟨place, hplace⟩ := List.sublist_iff_exists_fin_orderEmbedding_get_eq.mp hsub
  refine ⟨(Fin.castOrderIso hkept.length_eq).toOrderEmbedding.trans place, fun i => ?_⟩
  have hi := hkept.get i.isLt (hkept.length_eq ▸ i.isLt)
  have hget := hplace (Fin.cast hkept.length_eq i)
  exact hget ▸ hi

/-! ## The number of passes -/

variable [RealArith α]

/-- Every pass but the last one shortens the circuit. -/
theorem size_repeatPass_add_passes (r : Simplifications) (bound : Nat) (c : Circuit α) :
    (repeatPass r bound c).1.size + (repeatPass r bound c).2 ≤ c.size + 1 := by
  induction bound generalizing c with
  | zero => exact Nat.le_succ _
  | succ bound ih =>
    by_cases hfired : (pass r c).2 = 0
    · rw [repeatPass_succ_of_not_fired bound hfired]
    · have hpass := size_pass_add_fired r c
      have hrest := ih (pass r c).1
      rw [repeatPass_succ_of_fired bound hfired]
      dsimp only
      omega

/-- Bounds above the size of a circuit make no difference. -/
theorem repeatPass_eq_of_size_lt {bound bound' : Nat} {c : Circuit α} (h : c.size < bound)
    (h' : c.size < bound') : repeatPass r bound c = repeatPass r bound' c := by
  induction bound generalizing c bound' with
  | zero => exact absurd h (Nat.not_lt_zero _)
  | succ bound ih =>
    -- A pass that makes a simplification leaves fewer operations than passes.
    obtain ⟨bound', rfl⟩ := Nat.exists_eq_add_one_of_ne_zero (Nat.ne_zero_of_lt h')
    by_cases hfired : (pass r c).2 = 0
    · rw [repeatPass_succ_of_not_fired bound hfired, repeatPass_succ_of_not_fired bound' hfired]
    · have hpass := size_pass_add_fired r c
      have hrest := @ih bound' (pass r c).1 (by omega) (by omega)
      rw [repeatPass_succ_of_fired bound hfired, repeatPass_succ_of_fired bound' hfired, hrest]

/-! ## Optimisation -/

theorem pass_remains {c : Circuit α} (hc : c.WellFormed) :
    Remains natives r c.ops (pass (r.within natives) c).1.ops :=
  remains_of_became ((pass_thinned _ c).became hc (pass_wellFormed hc))

/-- What optimisation leaves of a well-formed circuit. -/
theorem optimise_became (natives : GateSet) (config : Config) {c : Circuit α}
    (hc : c.WellFormed) :
    List.SublistForall₂ (fun b a => Became natives config.enabled a b)
      (optimise natives config c).1.ops c.ops := by
  have hshape := repeatPass_sameShape (r := config.enabled.within natives) hc config.maxPasses
  refine (repeatPass_thinned _ _ c).became hc fun op hop => ?_
  rw [← hshape.qubits, ← hshape.clbits]
  exact hshape.wellFormed op hop

/-- A pass takes at least an operation away for every simplification, and
returns the circuit if it makes none.  Hence there are at most as many passes as
operations and one more.  All bounds above the number of operations give the same
circuit, and optimising it once more, with any bound, changes nothing.  What a pass
and what all passes leave are operations of the circuit in their order, on the
operands that they had. -/
theorem optimise_bounded_by_size (natives : GateSet) (config : Config) {c : Circuit α}
    (hc : c.WellFormed) :
    ((pass (config.enabled.within natives) c).1.size +
      (pass (config.enabled.within natives) c).2 ≤
        c.size ∧
      ((pass (config.enabled.within natives) c).2 = 0 →
        (pass (config.enabled.within natives) c).1 = c) ∧
      Remains natives config.enabled c.ops (pass (config.enabled.within natives) c).1.ops) ∧
    (optimise natives config c).2 ≤ c.size + 1 ∧
    (c.size < config.maxPasses →
      (∀ bound, c.size < bound →
        (optimise natives { config with maxPasses := bound } c).1 =
        (optimise natives config c).1) ∧
      ∀ bound,
      (optimise natives { config with maxPasses := bound } (optimise natives config c).1).1 =
        (optimise natives config c).1) ∧
    Remains natives config.enabled c.ops (optimise natives config c).1.ops := by
  refine ⟨⟨size_pass_add_fired _ c, pass_of_fired_eq_zero, pass_remains hc⟩, ?_,
    fun hsize => ⟨?_, ?_⟩, remains_of_became (optimise_became natives config hc)⟩
  · have hpasses := size_repeatPass_add_passes (config.enabled.within natives) config.maxPasses c
    rw [optimise]
    omega
  · intro bound hbound
    exact congrArg Prod.fst (repeatPass_eq_of_size_lt hbound hsize)
  · have hsettles : Settles (config.enabled.within natives) config.maxPasses c :=
      settles_of_size_lt (Nat.lt_add_left _ hsize)
    exact repeatPass_of_fired_eq_zero (repeatPass_of_settles hsettles)

/-- The nine operations of `guardedCircuit` are done with after ten passes, and any
bound above nine gives what the highest level gives. -/
theorem optimise_guardedCircuit_passes :
    guardedCircuit.WellFormed ∧ guardedCircuit.size < Config.highest.maxPasses ∧
      (optimise (.ofNames ["u", "cx", "measure"]) .highest guardedCircuit).2 ≤ 10 ∧
      ∀ bound, 9 < bound →
        (optimise (.ofNames ["u", "cx", "measure"]) { Config.highest with maxPasses := bound }
          guardedCircuit).1 =
          (optimise (.ofNames ["u", "cx", "measure"]) .highest guardedCircuit).1 := by
  have hsize : guardedCircuit.size < Config.highest.maxPasses := by decide
  obtain ⟨-, hpasses, hbounds, -⟩ :=
    optimise_bounded_by_size (.ofNames ["u", "cx", "measure"]) .highest wellFormed_guardedCircuit
  exact ⟨wellFormed_guardedCircuit, hsize, hpasses, (hbounds hsize).1⟩

/-- Optimisation makes a circuit neither deeper nor longer, and brings in no
operation on several qubits. -/
theorem optimise_no_deeper (natives : GateSet) (config : Config) {c : Circuit α}
    (hc : c.WellFormed) :
    (optimise natives config c).1.depth ≤ c.depth ∧
      (optimise natives config c).1.gateCount ≤ c.gateCount ∧
      (optimise natives config c).1.multiQubitCount ≤ c.multiQubitCount := by
  have hshape := repeatPass_sameShape (r := config.enabled.within natives) hc config.maxPasses
  have hsame :
      List.SublistForall₂ Operation.SameOperands (optimise natives config c).1.ops c.ops := by
    obtain ⟨kept, hkept, hsub⟩ := List.sublistForall₂_iff.mp (optimise_became natives config hc)
    exact List.sublistForall₂_iff.mpr ⟨kept, hkept.imp fun _ _ hop => hop.sameOperands, hsub⟩
  exact ⟨Circuit.depth_le hshape.qubits hshape.clbits hsame, Circuit.gateCount_le hsame,
    Circuit.multiQubitCount_le hsame⟩

/-- The measurement and the barrier of `guardedCircuit` count in its depth. -/
theorem optimise_guardedCircuit_depth :
    guardedCircuit.WellFormed ∧ guardedCircuit.depth = 8 ∧
      (optimise (.ofNames ["u", "cx", "measure"]) Config.highest guardedCircuit).1.depth ≤ 8 := by
  have hdepth : guardedCircuit.depth = 8 := rfl
  exact ⟨wellFormed_guardedCircuit, hdepth,
    hdepth ▸ (optimise_no_deeper _ _ wellFormed_guardedCircuit).1⟩

end QuantumCompiler.Peephole
