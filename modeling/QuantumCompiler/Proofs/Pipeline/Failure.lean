import QuantumCompiler.Pipeline.Compile
import QuantumCompiler.Proofs.Executable
import QuantumCompiler.Proofs.Layout.Choose

/-!
# When a compilation fails

Each stage leaves what the next one needs.  A chosen layout serves the circuit
and keeps interacting qubits in one region, so routing only fails for an
operation that is too wide.  Routed operations are expanded exactly if their
kinds are derivable, and what they are expanded into is native and on coupled
qubits.  Optimisation keeps that, so the final check accepts it.

`run_course` puts the stages together.  `Outcome` lists how a compilation can end, each time
with the reason, and `run_outcome` says that these are all ends for devices with a single zone
and circuits without shuttles.  `compile_failedAt` is the account of all failures.
-/

namespace QuantumCompiler

variable {α β : Type}

namespace Layout

variable {c : Circuit α} {d : Device β} {l : Layout}

/-! ## From the layout to routing -/

/-- A settled layout serves the circuit. -/
theorem Settles.layoutCause?_eq_none
    (h : l.Settles (InteractionGraph.ofCircuit c) d.coupling) :
    Route.layoutCause? c d l = none := by
  have hlogical : l.numLogical = c.numQubits := h.logical
  have hphysical : l.numPhysical = d.numQubits := h.physical
  rw [Route.layoutCause?, if_neg (by simp [hlogical, hphysical]), if_neg (by simp [h.isComplete])]

/-- A settled layout keeps the qubits of every operation in one region. -/
theorem Settles.regional (hc : c.WellFormed)
    (h : l.Settles (InteractionGraph.ofCircuit c) d.coupling) :
    Route.Regional d.coupling l c.ops := by
  intro op hop hbarrier a b hqubits p q hp hq
  have hne : a ≠ b := by
    have := (hc op hop).nodup
    rw [hqubits] at this
    simpa using this
  have hadj := (InteractionGraph.graph_ofCircuit_adj hc).mpr
    ⟨hne, op, hop, hbarrier, by simp [hqubits], by simp [hqubits]⟩
  have hreach := h.getD_reachable hadj
  rwa [hp, hq] at hreach

end Layout

namespace Pipeline

variable [RealArith α] {p : Pipeline α} {c : Circuit α}

/-! ## From routing to the final check -/

/-- What is routed is well formed and made of routed operations. -/
theorem routed_of_route (hzones : p.device.zones = 1) {u : Circuit α} (hu : u.WellFormed)
    (hresting : ∀ op ∈ u.ops, op.isShuttle = false) {initial : Layout} (hl : initial.Consistent)
    {routed : Route.Result α} (h : Route.route u p.device initial = .ok routed) :
    routed.circuit.WellFormed ∧ routed.circuit.numQubits = p.device.numQubits ∧
      ∀ op ∈ routed.circuit.ops, Executable.Routed p.device routed.circuit.numClbits op := by
  obtain ⟨bs, hcause, hblocks, hwf, hcircuit, -⟩ := Route.route_eq_ok h
  have hready := Route.clone_ready hl hcause
  obtain ⟨hsim, hcoupled⟩ := Route.blocks_simulates hu hready hblocks
  rw [hcircuit]
  exact ⟨hwf, rfl, Executable.routed_of_simulates hzones hsim hready hu hresting hcoupled⟩

/-- Routing brings in no kind but that of swaps. -/
theorem kind_of_route (hzones : p.device.zones = 1) {u : Circuit α} (hu : u.WellFormed)
    {initial : Layout} (hl : initial.Consistent) {routed : Route.Result α}
    (h : Route.route u p.device initial = .ok routed) :
    ∀ o ∈ routed.circuit.ops, o.kind = .gate .swap ∨ ∃ op ∈ u.ops, o.kind = op.kind := by
  obtain ⟨bs, hcause, hblocks, -, hcircuit, -⟩ := Route.route_eq_ok h
  obtain ⟨hsim, -⟩ := Route.blocks_simulates hu (Route.clone_ready hl hcause) hblocks
  rw [hcircuit]
  intro o ho
  rcases hsim.mem_cases o ho with ⟨a, b, rfl⟩ | ⟨⟨op, -, a, b, -, hne⟩, -⟩ | ⟨op, hop, hkind, -⟩
  · exact .inl rfl
  · rw [Route.zoneOf_eq_zero hzones, Route.zoneOf_eq_zero hzones] at hne
    exact absurd rfl hne
  · exact .inr ⟨op, hop, hkind⟩

/-- Native operations that can be executed are still well formed after any
optimisation, and are accepted. -/
theorem accepted_of_toNative (hzones : p.device.zones = 1) {routed native : Circuit α}
    (hrouted : routed.WellFormed) (hwidth : routed.numQubits = p.device.numQubits)
    (hops : ∀ op ∈ routed.ops, Executable.Routed p.device routed.numClbits op)
    (h : Decomposition.toNative p.device.natives routed = .ok native) :
    (Peephole.optimise p.device.natives p.optimisation native).1.WellFormed ∧
      Executable.violation? (Peephole.optimise p.device.natives p.optimisation native).1
        p.device = none := by
  obtain ⟨hqubits, -, hproducts⟩ := Decomposition.toNative_products hrouted h
  have hruns : ∀ op ∈ native.ops, Executable.Runs p.device routed.numClbits op := by
    intro o ho
    obtain ⟨op, hop, hproduct⟩ := hproducts o ho
    exact (hops op hop).product (hwidth ▸ hproduct)
  have hnative := Decomposition.toNative_wellFormed hrouted h
  have hexecutable : Executable.violation? native p.device = none :=
    Executable.violation?_eq_none hzones (by rw [hqubits, hwidth]) hruns
  exact ⟨Peephole.optimise_wellFormed hnative _ _,
    Executable.violation?_optimise hexecutable p.optimisation⟩

/-! ## All stages -/

theorem resting_unroll (hresting : ∀ op ∈ c.ops, op.isShuttle = false) :
    ∀ op ∈ (Decomposition.unroll c).ops, op.isShuttle = false := by
  intro o ho
  obtain ⟨op, hop, ho⟩ := List.mem_flatMap.mp ho
  rcases Decomposition.mem_unrollOp ho with rfl | hunitary
  · exact hresting o hop
  · exact Operation.isShuttle_of_isUnitary hunitary

omit [RealArith α] in
theorem not_narrow {u : Circuit α} (hwide : ∃ op ∈ u.ops, op.isBarrier = false ∧ 3 ≤ op.arity) :
    ¬ ∀ op ∈ u.ops, op.isBarrier = true ∨ op.arity ≤ 2 := by
  obtain ⟨op, hop, hbarrier, harity⟩ := hwide
  intro hall
  rcases hall op hop with h | h
  · rw [hbarrier] at h
    cases h
  · omega

/-- The ways through the stages after routing. -/
inductive Finish (p : Pipeline α) (routed : Circuit α) :
    Except CompileError (Circuit α) → Prop where
  | underivable {e : Decomposition.ExpansionError}
      (expand : Decomposition.toNative p.device.natives routed = .error e) :
      Finish p routed (.error (.expansion e))
  | refused {native : Circuit α} {e : VerificationError}
      (expand : Decomposition.toNative p.device.natives routed = .ok native)
      (check : Executable.violation? (Peephole.optimise p.device.natives p.optimisation native).1
        p.device = some e) : Finish p routed (.error (.verification e))
  | compiled {native : Circuit α}
      (expand : Decomposition.toNative p.device.natives routed = .ok native) :
      Finish p routed (.ok (Peephole.optimise p.device.natives p.optimisation native).1)

/-- The ways through the stages.  A chosen layout serves the circuit, so routing
only stops at operations that are too wide. -/
inductive Course (p : Pipeline α) (c : Circuit α) : Except CompileError (Circuit α) → Prop where
  | unplaced (notPlaceable : ¬ (Decomposition.unroll c).Placeable p.device.coupling) :
      Course p c (.error (.layout
        (if p.device.numQubits < c.numQubits then
          .width c.numQubits p.device.name p.device.numQubits
        else .packing (InteractionGraph.ofCircuit (Decomposition.unroll c)).components)))
  | tooWide {i : Nat} {physical : List Nat} {kind : String} {arity : Nat}
      (placeable : (Decomposition.unroll c).Placeable p.device.coupling)
      (wide : ∃ op ∈ (Decomposition.unroll c).ops, op.isBarrier = false ∧ 3 ≤ op.arity) :
      Course p c (.error (.route (.operation i physical (.tooWide kind arity))))
  | routed {initial : Layout} {routed : Route.Result α} {result : Except CompileError (Circuit α)}
      (placeable : (Decomposition.unroll c).Placeable p.device.coupling)
      (narrow : ∀ op ∈ (Decomposition.unroll c).ops, op.isBarrier = true ∨ op.arity ≤ 2)
      (choose : Layout.choose p.budget (Decomposition.unroll c) p.device = .ok initial)
      (route : Route.route (Decomposition.unroll c) p.device initial = .ok routed)
      (finish : Finish p routed.circuit result) : Course p c result

/-- How the compilation of a circuit can end, with the reason in terms of the
unrolled and the routed circuit. -/
inductive Outcome (p : Pipeline α) (c : Circuit α) : Except CompileError (Circuit α) → Prop where
  | unplaced {e : LayoutError}
      (notPlaceable : ¬ (Decomposition.unroll c).Placeable p.device.coupling) :
      Outcome p c (.error (.layout e))
  | tooWide {i : Nat} {physical : List Nat} {kind : String} {arity : Nat}
      (placeable : (Decomposition.unroll c).Placeable p.device.coupling)
      (wide : ∃ op ∈ (Decomposition.unroll c).ops, op.isBarrier = false ∧ 3 ≤ op.arity) :
      Outcome p c (.error (.route (.operation i physical (.tooWide kind arity))))
  | underivable {initial : Layout} {routed : Route.Result α} {e : Decomposition.ExpansionError}
      (placeable : (Decomposition.unroll c).Placeable p.device.coupling)
      (narrow : ∀ op ∈ (Decomposition.unroll c).ops, op.isBarrier = true ∨ op.arity ≤ 2)
      (choose : Layout.choose p.budget (Decomposition.unroll c) p.device = .ok initial)
      (route : Route.route (Decomposition.unroll c) p.device initial = .ok routed)
      (kind : ∃ op ∈ routed.circuit.ops, ¬ Decomposition.Derivable p.device.natives op.kind) :
      Outcome p c (.error (.expansion e))
  | compiled {initial : Layout} {routed : Route.Result α} {out : Circuit α}
      (placeable : (Decomposition.unroll c).Placeable p.device.coupling)
      (narrow : ∀ op ∈ (Decomposition.unroll c).ops, op.isBarrier = true ∨ op.arity ≤ 2)
      (choose : Layout.choose p.budget (Decomposition.unroll c) p.device = .ok initial)
      (route : Route.route (Decomposition.unroll c) p.device initial = .ok routed)
      (kinds : ∀ op ∈ routed.circuit.ops, Decomposition.Derivable p.device.natives op.kind)
      (wellFormed : out.WellFormed) : Outcome p c (.ok out)

/-- Every compilation takes one of these ways. -/
theorem run_course (hc : c.WellFormed) : Course p c (p.run c).2 := by
  have hu : (Decomposition.unroll c).WellFormed := Decomposition.unroll_wellFormed hc
  rcases @Layout.choose_cases α α _ p.device hu p.budget with
    ⟨hplaceable, initial, hchoose, hsettles⟩ | ⟨hplaceable, hchoose⟩
  · rcases Route.route_cases hu hsettles.consistent hsettles.layoutCause?_eq_none
      (hsettles.regional hu) with
      ⟨hnarrow, routed, hroute⟩ | ⟨hwide, i, physical, kind, arity, hroute⟩
    · refine .routed hplaceable hnarrow hchoose hroute ?_
      cases hto : Decomposition.toNative p.device.natives routed.circuit with
      | error e =>
        simp only [run, hchoose, hroute, hto]
        exact .underivable hto
      | ok native =>
        simp only [run, hchoose, hroute, hto]
        split
        · next e he => exact .refused hto he
        · exact .compiled hto
    · simp only [run, hchoose, hroute]
      exact .tooWide hplaceable hwide
  · simp only [run, hchoose]
    exact .unplaced hplaceable

/-- With a single zone and without shuttles, every compilation ends in one of
these ways. -/
theorem run_outcome (hzones : p.device.zones = 1) (hc : c.WellFormed)
    (hresting : ∀ op ∈ c.ops, op.isShuttle = false) : Outcome p c (p.run c).2 := by
  have hu : (Decomposition.unroll c).WellFormed := Decomposition.unroll_wellFormed hc
  have hcourse := @run_course α _ p c hc
  generalize (p.run c).2 = result at hcourse ⊢
  cases hcourse with
  | unplaced hplaceable => exact .unplaced hplaceable
  | tooWide hplaceable hwide => exact .tooWide hplaceable hwide
  | @routed initial routed _ hplaceable hnarrow hchoose hroute hfinish =>
    obtain ⟨hwf, hwidth, hops⟩ := routed_of_route hzones hu (resting_unroll hresting)
      (Layout.settles_of_choose hu hchoose).consistent hroute
    have hnative := @Decomposition.exists_toNative_iff α _ p.device.natives _ hwf
    cases hfinish with
    | underivable hto =>
      have hkind :
          ∃ op ∈ routed.circuit.ops, ¬ Decomposition.Derivable p.device.natives op.kind := by
        by_contra hall
        push Not at hall
        obtain ⟨out, hout⟩ := hnative.mpr hall
        rw [hto] at hout
        cases hout
      exact .underivable hplaceable hnarrow hchoose hroute hkind
    | refused hto hcheck =>
      rw [(accepted_of_toNative hzones hwf hwidth hops hto).2] at hcheck
      cases hcheck
    | compiled hto =>
      exact .compiled hplaceable hnarrow hchoose hroute (hnative.mp ⟨_, hto⟩)
        (accepted_of_toNative hzones hwf hwidth hops hto).1

/-- A placeable circuit of narrow operations compiles if its kinds and swaps are
derivable. -/
theorem exists_run_eq_ok (hzones : p.device.zones = 1) (hc : c.WellFormed)
    (hresting : ∀ op ∈ c.ops, op.isShuttle = false)
    (hplaceable : (Decomposition.unroll c).Placeable p.device.coupling)
    (hnarrow : ∀ op ∈ (Decomposition.unroll c).ops, op.isBarrier = true ∨ op.arity ≤ 2)
    (hkinds : ∀ op ∈ (Decomposition.unroll c).ops,
      Decomposition.Derivable p.device.natives op.kind)
    (hswap : Decomposition.Derivable p.device.natives (.gate .swap)) :
    ∃ out, (p.run c).2 = .ok out := by
  have hu := Decomposition.unroll_wellFormed hc
  have houtcome := run_outcome hzones hc hresting
  generalize (p.run c).2 = result at houtcome ⊢
  cases houtcome with
  | unplaced hnot => exact absurd hplaceable hnot
  | tooWide _ hwide => exact absurd hnarrow (not_narrow hwide)
  | underivable _ _ hchoose hroute hkind =>
    obtain ⟨o, ho, hnot⟩ := hkind
    refine absurd ?_ hnot
    rcases kind_of_route hzones hu (Layout.settles_of_choose hu hchoose).consistent hroute o ho
      with hkind | ⟨op, hop, hkind⟩
    · rw [hkind]
      exact hswap
    · rw [hkind]
      exact hkinds op hop
  | compiled => exact ⟨_, rfl⟩

theorem failedAt_compile (p : Pipeline α) (c : Circuit α) :
    (p.compile c).report.failedAt = match (p.run c).2 with
      | .error e => some e.stage
      | .ok _ => none := by
  unfold compile
  rcases p.run c with ⟨progress, _ | _⟩ <;> rfl

theorem circuit_compile (p : Pipeline α) (c : Circuit α) :
    (p.compile c).circuit = (p.run c).2 := rfl

/-- When and where a compilation fails, on a device with a single zone and for
a circuit without shuttles: at the layout exactly if the unrolled circuit has
no placement, else at routing exactly if an operation is left that is too wide,
else at expansion exactly if some routed kind is not derivable, and nowhere
else.  What optimisation leaves is well formed, and the final check accepts
it. -/
theorem compile_failedAt (p : Pipeline α) (hzones : p.device.zones = 1) (hc : c.WellFormed)
    (hresting : ∀ op ∈ c.ops, op.isShuttle = false) :
    ((p.compile c).report.failedAt = some .layoutAssigned ↔
      ¬ (Decomposition.unroll c).Placeable p.device.coupling) ∧
    (p.device.numQubits < c.numQubits →
      (p.compile c).report.failedAt = some .layoutAssigned) ∧
    ((Decomposition.unroll c).Placeable p.device.coupling →
      ((p.compile c).report.failedAt = some .routed ↔
        ∃ op ∈ (Decomposition.unroll c).ops, op.isBarrier = false ∧ 3 ≤ op.arity) ∧
      ((∀ op ∈ (Decomposition.unroll c).ops, op.isBarrier = true ∨ op.arity ≤ 2) →
        ∃ initial routed, Layout.choose p.budget (Decomposition.unroll c) p.device = .ok initial ∧
          Route.route (Decomposition.unroll c) p.device initial = .ok routed ∧
          ((p.compile c).report.failedAt = some .expanded ↔
            ∃ op ∈ routed.circuit.ops, ¬ Decomposition.Derivable p.device.natives op.kind) ∧
          ((p.compile c).report.failedAt = none ↔
            ∀ op ∈ routed.circuit.ops, Decomposition.Derivable p.device.natives op.kind))) ∧
    (∀ e, (p.compile c).circuit = .error (.route e) →
      ∃ i physical kind arity, e = .operation i physical (.tooWide kind arity)) ∧
    (∀ out, (p.compile c).circuit = .ok out → out.WellFormed) ∧
    (p.compile c).report.failedAt ≠ some .optimised ∧
    (p.compile c).report.failedAt ≠ some .verified := by
  have hwidth (h : (Decomposition.unroll c).Placeable p.device.coupling) :
      ¬ p.device.numQubits < c.numQubits := Nat.not_lt.mpr h.numQubits_le
  rw [failedAt_compile, circuit_compile]
  have houtcome := run_outcome hzones hc hresting
  generalize (p.run c).2 = result at houtcome ⊢
  cases houtcome with
  | unplaced hnot =>
    exact ⟨by simp [hnot, CompileError.stage], fun _ => rfl, fun h => absurd h hnot,
      by simp, by simp, by simp [CompileError.stage], by simp [CompileError.stage]⟩
  | @tooWide i physical kind arity hplaceable hwide =>
    refine ⟨by simp [hplaceable, CompileError.stage], fun h => absurd h (hwidth hplaceable),
      fun _ => ⟨by simp [hwide, CompileError.stage], fun h => absurd h (not_narrow hwide)⟩, ?_,
      by simp, by simp [CompileError.stage], by simp [CompileError.stage]⟩
    intro e he
    cases he
    exact ⟨i, physical, kind, arity, rfl⟩
  | @underivable initial routed e hplaceable hnarrow hchoose hroute hkind =>
    refine ⟨by simp [hplaceable, CompileError.stage], fun h => absurd h (hwidth hplaceable),
      fun _ => ⟨?_, fun _ => ⟨initial, routed, hchoose, hroute, ?_, ?_⟩⟩, by simp, by simp,
      by simp [CompileError.stage], by simp [CompileError.stage]⟩
    · exact iff_of_false (by simp [CompileError.stage]) fun hwide => not_narrow hwide hnarrow
    · exact iff_of_true rfl hkind
    · obtain ⟨op, hop, hnot⟩ := hkind
      exact iff_of_false (by simp) fun hall => hnot (hall op hop)
  | @compiled initial routed out hplaceable hnarrow hchoose hroute hkinds hout =>
    refine ⟨by simp [hplaceable], fun h => absurd h (hwidth hplaceable),
      fun _ => ⟨?_, fun _ => ⟨initial, routed, hchoose, hroute, ?_, ?_⟩⟩, by simp, ?_,
      by simp, by simp⟩
    · exact iff_of_false (by simp) fun hwide => not_narrow hwide hnarrow
    · exact iff_of_false (by simp) fun ⟨op, hop, hnot⟩ => hnot (hkinds op hop)
    · exact iff_of_true rfl hkinds
    · intro out' hout'
      cases hout'
      exact hout

/-! ## On a chain of four qubits -/

/-- Compilation for a chain without zones, with all simplifications. -/
def forChain (natives : List Gate) : Pipeline Float where
  device := Route.chainDevice ⟨natives.map .gate⟩ 1
  optimisation := ⟨128, ⟨true, true, true, true, true⟩⟩
  estimation := none

theorem placeable_chain {c : Circuit Float} (hc : c.WellFormed) (hwidth : c.numQubits ≤ 4) :
    c.Placeable Route.chain := by
  refine ⟨id, fun q hq => Nat.lt_of_lt_of_le hq hwidth, fun _ _ _ _ h => h, ?_⟩
  intro op hop _ a ha b hb
  have ha := Nat.lt_of_lt_of_le ((hc op hop).qubits_lt a ha) hwidth
  have hb := Nat.lt_of_lt_of_le ((hc op hop).qubits_lt b hb) hwidth
  exact Route.chain_reachable ha hb

/-- An operation on three qubits that has no rule. -/
def wideCircuit : Circuit Float :=
  ⟨3, 0, [{ kind := .custom "oracle" (by decide), qubits := [2, 0, 1] }, .ofGate .cx [] [0, 2]]⟩

/-- It has a place on the chain, and the compilation fails at routing. -/
theorem compile_wideCircuit :
    (forChain [.cx]).device.zones = 1 ∧ wideCircuit.WellFormed ∧
      (∀ op ∈ wideCircuit.ops, op.isShuttle = false) ∧
      ((forChain [.cx]).compile wideCircuit).report.failedAt = some .routed := by
  have hc : wideCircuit.WellFormed := by
    unfold Circuit.WellFormed wideCircuit
    decide
  have hresting : ∀ op ∈ wideCircuit.ops, op.isShuttle = false := by decide
  have hplaceable : (Decomposition.unroll wideCircuit).Placeable Route.chain :=
    placeable_chain (Decomposition.unroll_wellFormed hc) (by decide)
  have hwide :
      ∃ op ∈ (Decomposition.unroll wideCircuit).ops, op.isBarrier = false ∧ 3 ≤ op.arity := by
    decide
  obtain ⟨-, -, hrouting, -⟩ := compile_failedAt (forChain [.cx]) rfl hc hresting
  exact ⟨rfl, hc, hresting, (hrouting hplaceable).1.mpr hwide⟩

end Pipeline

end QuantumCompiler
