import Mathlib.Algebra.FreeMonoid.Basic
import QuantumCompiler.Proofs.Pipeline.Failure
import QuantumCompiler.Proofs.Route.Meaning

/-!
# Compilation preserves meaning up to the swaps of routing

`Laws` collects the local laws of all passes, for operations on the device.
Under these laws a compiled circuit means the given one in the places of the
first layout, followed by the swaps that routing put in
(`compile_meaning`).  Each pass contributes one equation: unrolling
(`meaning_unroll`), routing (`Simulates.meaning_eq`), expansion
(`meaning_toNative`) and optimisation (`repeatPass_meaning`).
-/

namespace QuantumCompiler.Pipeline

variable {α : Type} [RealArith α] {p : Pipeline α} {c out : Circuit α}

/-- The local laws of an interpretation of operations on the device of a
pipeline, with a number of classical bits. -/
structure Laws {M : Type*} [Monoid M] (p : Pipeline α) (m : Nat) (I : Operation α → M) :
    Prop where
  /-- Unitary gates commute with operations on other wires, and the rules of
  the optimiser are sound. -/
  peephole : Peephole.Laws p.device.numQubits m (p.optimisation.enabled.within p.device.natives) I
  /-- The decomposition rules are sound. -/
  rules : Decomposition.RuleLaw p.device.numQubits m I
  /-- Swaps rename qubits, and shuttles mean nothing. -/
  route : Route.Laws p.device.numQubits m I

/-- What a successful compilation consists of. -/
theorem run_eq_ok (h : (p.run c).2 = .ok out) :
    ∃ initial routed native,
      Layout.choose p.budget (Decomposition.unroll c) p.device = .ok initial ∧
      Route.route (Decomposition.unroll c) p.device initial = .ok routed ∧
      Decomposition.toNative p.device.natives routed.circuit = .ok native ∧
      out = (Peephole.optimise p.device.natives p.optimisation native).1 ∧
      (p.run c).1.initial = some initial.freeze ∧
      (p.run c).1.final = some routed.layout.freeze := by
  revert h
  rw [run]
  dsimp only
  cases hchoose : Layout.choose p.budget (Decomposition.unroll c) p.device with
  | error e =>
    intro h
    cases h
  | ok initial =>
    dsimp only
    cases hroute : Route.route (Decomposition.unroll c) p.device initial with
    | error e =>
      intro h
      cases h
    | ok routed =>
      dsimp only
      cases hnative : Decomposition.toNative p.device.natives routed.circuit with
      | error e =>
        intro h
        cases h
      | ok native =>
        dsimp only
        cases Executable.violation?
            (Peephole.optimise p.device.natives p.optimisation native).1 p.device with
        | some e =>
          intro h
          cases h
        | none =>
          intro h
          cases h
          exact ⟨initial, routed, native, rfl, hroute, hnative, rfl, rfl, rfl⟩

/-- Expansion and optimisation together keep the meaning of a circuit on the
device. -/
theorem Laws.meaning_lowered {M : Type*} [Monoid M] {I : Operation α → M} {m : Nat}
    (hI : p.Laws m I) {routed native : Circuit α} (hrouted : routed.WellFormed)
    (hwidth : routed.numQubits = p.device.numQubits) (hm : routed.numClbits = m)
    (h : Decomposition.toNative p.device.natives routed = .ok native) :
    meaning I (Peephole.optimise p.device.natives p.optimisation native).1.ops =
      meaning I routed.ops := by
  obtain ⟨hqubits, hclbits, -⟩ := Decomposition.toNative_products hrouted h
  calc meaning I (Peephole.optimise p.device.natives p.optimisation native).1.ops
      = meaning I native.ops := by
        refine Peephole.repeatPass_meaning (Decomposition.toNative_wellFormed hrouted h) ?_ _
        rw [hqubits, hclbits, hwidth, hm]
        exact hI.peephole
    _ = meaning I routed.ops := by
        refine Decomposition.meaning_toNative hrouted ?_ h
        rw [hwidth, hm]
        exact hI.rules

/-- A compiled circuit means the given one in the places of the first layout,
followed by the swaps of routing, and the permutation of these swaps takes the
first layout to the last one. -/
theorem compile_meaning.{u} (p : Pipeline α) (hc : c.WellFormed)
    (h : (p.compile c).circuit = .ok out) :
    ∃ first last bs, (p.compile c).initial = some first ∧ (p.compile c).final = some last ∧
      (∀ q < c.numQubits, ∃ x, first.physical? q = some x) ∧
      Route.blocks p.device 0 first.clone (Decomposition.unroll c).ops = .ok (bs, last.clone) ∧
      (∀ q, last.physical? q =
        (first.physical? q).map (Route.permutation (bs.flatMap (·.swaps)))) ∧
      ∀ (M : Type u) [Monoid M] (I : Operation α → M), p.Laws c.numClbits I →
        meaning I out.ops = meaning I (Route.placedBy first c.ops) *
          meaning I (Route.swapOps (bs.flatMap (·.swaps))) := by
  obtain ⟨initial, routed, native, hchoose, hroute, hnative, rfl, hfirst, hlast⟩ := run_eq_ok h
  have hu : (Decomposition.unroll c).WellFormed := Decomposition.unroll_wellFormed hc
  have hsettles := Layout.settles_of_choose hu hchoose
  obtain ⟨bs, hcause, hblocks, hwf, hcircuit, -⟩ := Route.route_eq_ok hroute
  have hready : Route.Ready p.device c.numQubits initial.clone :=
    Route.clone_ready hsettles.consistent hcause
  obtain ⟨hsim, -⟩ := Route.blocks_simulates hu hready hblocks
  have hunfrozen : routed.layout.freeze.clone = routed.layout :=
    congrArg (Layout.mk _ _) (hsim.frozen_final hready).symm
  refine ⟨initial.freeze, routed.layout.freeze, bs, hfirst, hlast, hready.placed, ?_,
    hsim.physical?_final hready, ?_⟩
  · rw [hunfrozen]
    exact hblocks
  · intro M _ I hI
    calc meaning I (Peephole.optimise p.device.natives p.optimisation native).1.ops
        = meaning I routed.circuit.ops := by
          rw [hcircuit] at hnative ⊢
          exact hI.meaning_lowered hwf rfl rfl hnative
      _ = meaning I (Route.placedBy initial.clone (Decomposition.unroll c).ops) *
            meaning I (Route.swapOps (bs.flatMap (·.swaps))) := by
          rw [hcircuit]
          exact hsim.meaning_eq hI.route hready hu
      _ = meaning I (Route.placedBy initial.freeze c.ops) *
            meaning I (Route.swapOps (bs.flatMap (·.swaps))) := by
          congr 1
          refine Decomposition.meaning_unroll hI.rules hc fun op hop => ?_
          exact Route.wellFormed_placedBy hready hc _ (List.mem_map_of_mem hop)

/-! ## The record of measurements and other events -/

/-- Unitary gates and shuttles mean nothing, and every other operation stands
for its kind and the classical bits it writes. -/
def events (op : Operation α) : FreeMonoid (Kind × List Nat) :=
  if op.isUnitary || op.isShuttle then 1 else FreeMonoid.of (op.kind, op.clbits)

omit [RealArith α] in
theorem events_of_isUnitary {op : Operation α} (h : op.isUnitary = true) : events op = 1 := by
  rw [events, h, Bool.true_or, if_pos rfl]

/-- The record of events satisfies all laws. -/
theorem events_laws (p : Pipeline α) (m : Nat) :
    p.Laws m (events : Operation α → FreeMonoid (Kind × List Nat)) where
  peephole := Peephole.laws_of_isUnitary fun _ => events_of_isUnitary
  rules rule hrule op _ hkind := by
    have hfit := Decomposition.rules_fit rule hrule
    rw [events_of_isUnitary (Operation.isUnitary_of_kind hkind hfit.1), meaning_eq_one]
    intro o ho
    obtain ⟨step, hstep, hkind'⟩ := Decomposition.kind_instantiate ho
    exact events_of_isUnitary (Operation.isUnitary_of_kind hkind' (hfit.2 step hstep).1)
  route :=
    { rename := fun a b op _ _ _ _ => by
        rw [events_of_isUnitary (rfl : (Operation.swap a b : Operation α).isUnitary = true),
          one_mul, mul_one]
        rfl
      shuttle := fun op hop => by rw [events, hop, Bool.or_true, if_pos rfl] }

/-- A gate on three qubits and the measurement of its target. -/
def toffoliCircuit : Circuit Float := ⟨3, 1, [.ofGate .ccx [] [0, 1, 2], .measure 2 0]⟩

/-- On the chain it is unrolled, routed and expanded, and its measurement is
kept. -/
theorem compile_toffoliCircuit :
    toffoliCircuit.WellFormed ∧ ∃ out first last bs,
      ((forChain [.cx, .h, .t, .tdg, .measure]).compile toffoliCircuit).circuit = .ok out ∧
      ((forChain [.cx, .h, .t, .tdg, .measure]).compile toffoliCircuit).initial = some first ∧
      ((forChain [.cx, .h, .t, .tdg, .measure]).compile toffoliCircuit).final = some last ∧
      (∀ q, last.physical? q =
        (first.physical? q).map (Route.permutation (bs.flatMap (·.swaps)))) ∧
      Route.blocks (forChain [.cx, .h, .t, .tdg, .measure]).device 0 first.clone
        (Decomposition.unroll toffoliCircuit).ops = .ok (bs, last.clone) ∧
      meaning events out.ops = meaning events (Route.placedBy first toffoliCircuit.ops) *
        meaning events (Route.swapOps (bs.flatMap (·.swaps)) : List (Operation Float)) ∧
      meaning events out.ops = FreeMonoid.of (.gate .measure, [0]) := by
  have hc : toffoliCircuit.WellFormed := by
    unfold Circuit.WellFormed toffoliCircuit
    decide
  have hkinds : ∀ op ∈ (Decomposition.unroll toffoliCircuit).ops,
      (forChain [.cx, .h, .t, .tdg, .measure]).device.natives.contains op.kind = true := by decide
  have hswap : Decomposition.Derivable (forChain [.cx, .h, .t, .tdg, .measure]).device.natives
      (.gate .swap) := by
    obtain ⟨rule, hrule, hgate, hsteps⟩ : ∃ rule ∈ Decomposition.rules, rule.gate = .swap ∧
        ∀ step ∈ rule.steps, (forChain [.cx, .h, .t, .tdg, .measure]).device.natives.contains
          (.gate step.gate) = true := by decide
    exact hgate ▸ .rule hrule fun step hstep => .native (hsteps step hstep)
  obtain ⟨out, hout⟩ := exists_run_eq_ok (p := forChain [.cx, .h, .t, .tdg, .measure]) rfl hc
    (by decide) (placeable_chain (Decomposition.unroll_wellFormed hc) (by decide)) (by decide)
    (fun op hop => .native (hkinds op hop)) hswap
  obtain ⟨first, last, bs, hfirst, hlast, -, hblocks, hperm, hmeaning⟩ :=
    compile_meaning _ hc hout
  have hevents := hmeaning _ events (events_laws _ _)
  have hswaps :
      meaning events (Route.swapOps (bs.flatMap (·.swaps)) : List (Operation Float)) = 1 := by
    refine meaning_eq_one fun op hop => ?_
    obtain ⟨s, -, rfl⟩ := List.mem_map.mp hop
    exact events_of_isUnitary rfl
  refine ⟨hc, out, first, last, bs, hout, hfirst, hlast, hperm, hblocks, hevents, ?_⟩
  rw [hevents, hswaps, mul_one]
  rfl

end QuantumCompiler.Pipeline
