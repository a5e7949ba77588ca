import QuantumCompiler.Proofs.Pipeline.Failure

/-!
# Executable circuits are left as they are

Without optimisation, every stage leaves a circuit alone that the final check
would accept: unrolling finds no wide operation, the identity is recognised as
the cheapest layout because every interaction is between coupled qubits,
routing finds no gap to close, and native operations stand for themselves.
Compiling such a circuit therefore only gives it the width of the device, and
compiling the outcome again changes nothing (`compile_stable`).

Shuttles that the circuit has of its own are kept as well.
-/

namespace QuantumCompiler

variable {α β : Type} {c : Circuit α} {d : Device β} {m : CouplingMap}

/-- A circuit no wider than a device whose operations, barriers apart, act on
single qubits or on coupled pairs. -/
structure InPlace (d : Device β) (c : Circuit α) : Prop where
  wellFormed : c.WellFormed
  width : c.numQubits ≤ d.numQubits
  narrow : ∀ op ∈ c.ops, op.isBarrier = true ∨ op.arity ≤ 2
  coupled : ∀ op ∈ c.ops, Route.OnCoupled d.coupling op

/-- What an operation other than a barrier acts on. -/
theorem InPlace.qubits_cases (h : InPlace d c) {op : Operation α} (hop : op ∈ c.ops)
    (hbarrier : op.isBarrier = false) :
    op.qubits = [] ∨ (∃ a, op.qubits = [a]) ∨
      ∃ a b, op.qubits = [a, b] ∧ d.coupling.graph.Adj a b := by
  have harity : op.qubits.length ≤ 2 := (h.narrow op hop).resolve_left (by simp [hbarrier])
  rcases hqubits : op.qubits with _ | ⟨a, _ | ⟨b, _ | ⟨_, rest⟩⟩⟩
  · exact .inl rfl
  · exact .inr (.inl ⟨a, rfl⟩)
  · exact .inr (.inr ⟨a, b, rfl, h.coupled op hop hbarrier a b hqubits⟩)
  · simp only [hqubits, List.length_cons] at harity
    omega

/-! ## Unrolling -/

theorem Decomposition.unrollOp_eq_self [RealArith α] {op : Operation α}
    (h : op.isBarrier = true ∨ op.arity ≤ 2) (depth : Nat) : unrollOp depth op = [op] := by
  cases depth with
  | zero => rfl
  | succ depth =>
    rw [unrollOp, if_neg]
    rcases h with h | h
    · simp [h]
    · simp [Nat.not_lt.mpr h]

theorem InPlace.unroll_eq_self [RealArith α] (h : InPlace d c) : Decomposition.unroll c = c := by
  have hops : c.ops.flatMap (Decomposition.unrollOp Decomposition.rules.length) = c.ops := by
    rw [List.flatMap_congr fun op hop => Decomposition.unrollOp_eq_self (h.narrow op hop) _]
    exact List.flatMap_singleton' c.ops
  rw [Decomposition.unroll, hops]

/-! ## The layout -/

theorem CouplingMap.distance?_of_adj {a b : Nat} (h : m.graph.Adj a b) :
    m.distance? a b = some 1 :=
  distance?_eq_some_iff.mpr ⟨(lt_size_of_adj h).1, by
    exact_mod_cast SimpleGraph.edist_eq_one_iff_adj.mpr h⟩

/-- Between neighbours every interaction costs its weight. -/
theorem InteractionGraph.costOver_of_adj {place : Nat → Option Nat} {es : List Interaction}
    (h : ∀ e ∈ es, ∃ p q, place e.a = some p ∧ place e.b = some q ∧ m.graph.Adj p q) :
    costOver m place es = some (sumOf (·.weight) es) := by
  induction es with
  | nil => rfl
  | cons e rest ih =>
    obtain ⟨⟨p, q, hp, hq, hadj⟩, hrest⟩ := List.forall_mem_cons.mp h
    simp [costOver, sumOf, hp, hq, CouplingMap.distance?_of_adj hadj, ih hrest]

namespace InPlace

theorem adj_of_mem_edges (h : InPlace d c) {e : Interaction}
    (he : e ∈ (InteractionGraph.ofCircuit c).edges) : d.coupling.graph.Adj e.a e.b := by
  have hends : (e.a, e.b) ∈ (InteractionGraph.ofCircuit c).edges.map Interaction.ends :=
    List.mem_map_of_mem he
  obtain ⟨hlt, op, hop, hbarrier, ha, hb⟩ :=
    (InteractionGraph.mem_ends_ofCircuit h.wellFormed).mp hends
  have hne := Nat.ne_of_lt hlt
  rcases h.qubits_cases hop hbarrier with hqubits | ⟨x, hqubits⟩ | ⟨x, y, hqubits, hadj⟩
  · simp [hqubits] at ha
  · rw [hqubits, List.mem_singleton] at ha hb
    exact absurd (ha.trans hb.symm) hne
  · simp only [hqubits, List.mem_cons, List.not_mem_nil, or_false] at ha hb
    rcases ha with ha | ha <;> rcases hb with hb | hb
    · exact absurd (ha.trans hb.symm) hne
    · exact ha ▸ hb ▸ hadj
    · exact ha ▸ hb ▸ hadj.symm
    · exact absurd (ha.trans hb.symm) hne

/-- The identity costs as little as any layout can, and is taken. -/
theorem choose_eq (h : InPlace d c) (budget : Nat) :
    Layout.choose budget c d = .ok (.identity c.numQubits d.numQubits) := by
  obtain ⟨-, -, -, hplace⟩ := Layout.identity_spec h.width
  have hvalid := InteractionGraph.valid_ofCircuit h.wellFormed
  have hcost : (InteractionGraph.ofCircuit c).cost? d.coupling
      (Layout.identity c.numQubits d.numQubits).physical? =
        some (InteractionGraph.ofCircuit c).total := by
    refine InteractionGraph.costOver_of_adj fun e he => ?_
    have hb : e.b < c.numQubits := (hvalid.lt e he).2
    have ha : e.a < c.numQubits := Nat.lt_trans (hvalid.lt e he).1 hb
    exact ⟨e.a, e.b, by rw [hplace, if_pos ha], by rw [hplace, if_pos hb], h.adj_of_mem_edges he⟩
  rw [Layout.choose, if_neg (Nat.not_lt.mpr h.width), Layout.ofGraph, if_pos]
  · rfl
  · exact beq_iff_eq.mpr hcost

end InPlace

/-! ## Routing -/

/-- There is nothing between coupled qubits. -/
theorem CouplingMap.shortestPath?_of_adj {a b : Nat} (h : m.graph.Adj a b) :
    m.shortestPath? a b = some [a, b] := by
  obtain ⟨rest, hwalk, hdescent⟩ := walk_descent (distance?_of_adj h)
  rw [shortestPath?, distance?_of_adj h, Option.map_some, hwalk]
  cases hdescent with
  | step hadj hdist tail =>
    cases tail
    rfl

namespace Route

/-- The block of an operation that stays where it is. -/
def Block.still (op : Operation α) : Block α := ⟨[], op, none⟩

theorem flatMap_ops_still [NatCast α] (ops : List (Operation α)) :
    (ops.map Block.still).flatMap Block.ops = ops := by
  induction ops with
  | nil => rfl
  | cons op rest ih =>
    rw [List.map_cons, List.flatMap_cons, ih]
    rfl

theorem swapCount_still (ops : List (Operation α)) : swapCount (ops.map Block.still) = 0 := by
  simp [swapCount, Block.still, Function.comp_def]

theorem shuttleCount_still (ops : List (Operation α)) :
    shuttleCount (ops.map Block.still) = 0 := by
  simp [shuttleCount, Block.still]

theorem excursion?_eq_none (hzones : d.zones = 1) (op : Operation α) :
    excursion? d op = none := by
  rw [excursion?]
  split
  · rw [if_neg (by simp [hzones])]
  · rfl

end Route

namespace InPlace

variable {l : Layout}

theorem swapsFor_eq (h : InPlace d c) {op : Operation α} (hop : op ∈ c.ops) :
    Route.swapsFor d op = .ok [] := by
  rw [Route.swapsFor]
  split
  · rfl
  · next hbarrier =>
    rcases h.qubits_cases hop (by simpa using hbarrier) with
      hqubits | ⟨x, hqubits⟩ | ⟨x, y, hqubits, hadj⟩
    · simp [hqubits]
    · simp [hqubits]
    · simp [hqubits, CouplingMap.shortestPath?_of_adj hadj, Route.swapsAlong]

/-- Under a layout that is the identity on its qubits an operation stays where
it is. -/
theorem block_eq (h : InPlace d c) (hzones : d.zones = 1)
    (hl : ∀ q < c.numQubits, l.physical? q = some q) {op : Operation α} (hop : op ∈ c.ops) :
    Route.block d l op = .ok (.still op, l) := by
  have hqubits : Route.physicalQubits l op = op.qubits := by
    rw [Route.physicalQubits, List.map_congr_left fun q hq => ?_, List.map_id]
    rw [hl q ((h.wellFormed op hop).qubits_lt q hq)]
    rfl
  have hself : op.withQubits op.qubits = op := rfl
  have happroach : Route.approach [] op.qubits = op.qubits := by
    cases op.qubits <;> rfl
  simp only [Route.block, hqubits, hself, h.swapsFor_eq hop, happroach,
    Route.excursion?_eq_none hzones]
  rfl

theorem blocks_eq (h : InPlace d c) (hzones : d.zones = 1)
    (hl : ∀ q < c.numQubits, l.physical? q = some q) {ops : List (Operation α)}
    (hops : ∀ op ∈ ops, op ∈ c.ops) (i : Nat) :
    Route.blocks d i l ops = .ok (ops.map .still, l) := by
  induction ops generalizing i with
  | nil => rfl
  | cons op rest ih =>
    obtain ⟨hop, hrest⟩ := List.forall_mem_cons.mp hops
    simp only [Route.blocks, h.block_eq hzones hl hop, ih hrest (i + 1)]
    rfl

/-- The circuit as one over all qubits of the device. -/
theorem wellFormed_widened (h : InPlace d c) :
    Circuit.WellFormed { c with numQubits := d.numQubits } := by
  intro op hop
  have hwf := h.wellFormed op hop
  exact hwf.withQubits rfl (fun q hq => Nat.lt_of_lt_of_le (hwf.qubits_lt q hq) h.width) hwf.nodup

theorem route_eq [NatCast α] (h : InPlace d c) (hzones : d.zones = 1) :
    Route.route c d (.identity c.numQubits d.numQubits) =
      .ok ⟨{ c with numQubits := d.numQubits }, (Layout.identity c.numQubits d.numQubits).clone,
        0, 0⟩ := by
  obtain ⟨-, hlogical, hphysical, hplace⟩ := Layout.identity_spec h.width
  have hl : ∀ q < c.numQubits, (Layout.identity c.numQubits d.numQubits).physical? q = some q :=
    fun q hq => by rw [hplace, if_pos hq]
  have hcomplete : (Layout.identity c.numQubits d.numQubits).isComplete = true :=
    Layout.isComplete_of_placed fun q hq => ⟨q, hl q (hlogical ▸ hq)⟩
  have hcause : Route.layoutCause? c d (.identity c.numQubits d.numQubits) = none := by
    rw [Route.layoutCause?, if_neg (by simp [hlogical, hphysical]), if_neg (by simp [hcomplete])]
  have hcircuit : Circuit.ofOperations d.numQubits c.numClbits c.ops =
      .ok { c with numQubits := d.numQubits } :=
    Circuit.ofOperations_eq_ok_iff.mpr ⟨h.wellFormed_widened, rfl⟩
  simp only [Route.route, hcause,
    h.blocks_eq hzones (l := (Layout.identity _ _).clone) hl (fun _ => id),
    Route.flatMap_ops_still, hcircuit, Route.swapCount_still, Route.shuttleCount_still]

end InPlace

/-! ## Expansion -/

namespace Decomposition

variable [RealArith α]

theorem expand_of_native {natives : GateSet} {n k : Nat} {op : Operation α}
    (hop : op.WellFormed n k) (hnative : natives.contains op.kind = true)
    (choices : List Choice) : expand natives n k choices op = .ok [op] := by
  cases choices with
  | nil => rw [expand, if_pos hnative, keep_of_wellFormed hop]
  | cons => rw [expand, if_pos hnative, keep_of_wellFormed hop]

theorem expandAll_of_native {plan : Plan} {n k : Nat} {ops : List (Operation α)}
    (hops : ∀ op ∈ ops, op.WellFormed n k)
    (hnative : ∀ op ∈ ops, plan.natives.contains op.kind = true) (i : Nat) :
    expandAll plan n k i ops = .ok ops := by
  induction ops generalizing i with
  | nil => rfl
  | cons op rest ih =>
    obtain ⟨hop, hrest⟩ := List.forall_mem_cons.mp hops
    obtain ⟨hnative, hnatives⟩ := List.forall_mem_cons.mp hnative
    simp only [expandAll, expand_of_native hop hnative, ih hrest hnatives (i + 1)]
    rfl

/-- Native operations stand for themselves. -/
theorem toNative_eq_self {natives : GateSet} (hc : c.WellFormed)
    (hnative : ∀ op ∈ c.ops, natives.contains op.kind = true) : toNative natives c = .ok c := by
  rw [toNative, expandAll_of_native hc (by rwa [Plan.natives_ofNatives])]

end Decomposition

/-! ## The compilation -/

variable [RealArith α]

namespace Executable

theorem inPlace_of_violation? (hc : c.WellFormed) (h : violation? c d = none) : InPlace d c := by
  obtain ⟨hwidth, hops, -⟩ := violation?_eq_none_iff.mp h
  refine ⟨hc, hwidth, fun op hop => ?_, fun op hop => ?_⟩
  · exact (obstacle?_eq_none_iff.mp (hops op hop)).2.2.2.1
  · exact (obstacle?_eq_none_iff.mp (hops op hop)).2.2.2.2

/-- A circuit stays executable as one over all qubits of the device. -/
theorem violation?_widened (h : violation? c d = none) :
    violation? { c with numQubits := d.numQubits } d = none :=
  violation?_eq_none_iff.mpr ⟨Nat.le_refl _, (violation?_eq_none_iff.mp h).2⟩

end Executable

namespace Pipeline

variable {p : Pipeline α}

/-- The stages of the compilation of an executable circuit. -/
theorem run_executable (hzones : p.device.zones = 1)
    (hlevel : Peephole.Config.level? 0 = some p.optimisation) (hc : c.WellFormed)
    (hexecutable : Executable.violation? c p.device = none) :
    (p.run c).2 = .ok { c with numQubits := p.device.numQubits } ∧
      (p.run c).1.initial = some (Layout.identity c.numQubits p.device.numQubits).freeze ∧
      (p.run c).1.final = some (Layout.identity c.numQubits p.device.numQubits).freeze ∧
      (p.run c).1.swaps = 0 ∧ (p.run c).1.shuttles = 0 := by
  have hplace := Executable.inPlace_of_violation? hc hexecutable
  have hnative : ∀ op ∈ c.ops, p.device.natives.contains op.kind = true := fun op hop =>
    (Executable.obstacle?_eq_none_iff.mp
      ((Executable.violation?_eq_none_iff.mp hexecutable).2.1 op hop)).1
  have hoptimise (x : Circuit α) :
      Peephole.optimise p.device.natives p.optimisation x = (x, 0) := by
    rw [← Option.some.inj hlevel]
    rfl
  simp only [run, hplace.unroll_eq_self, hplace.choose_eq, hplace.route_eq hzones,
    Decomposition.toNative_eq_self hplace.wellFormed_widened hnative, hoptimise,
    Executable.violation?_widened hexecutable, Layout.clone, Layout.freeze, and_self]

/-- On a device with a single zone and without optimisation, an executable
circuit is compiled to itself on the qubits of the device: its operations are
kept in order, both layouts are the identity, and nothing is put in.  The
compiled circuit is compiled to itself. -/
theorem compile_stable (p : Pipeline α) (hzones : p.device.zones = 1)
    (hlevel : Peephole.Config.level? 0 = some p.optimisation) (hc : c.WellFormed)
    (hexecutable : Executable.violation? c p.device = none) :
    ∃ out l, (p.compile c).circuit = .ok out ∧ out.ops = c.ops ∧
      out.numQubits = p.device.numQubits ∧ out.numClbits = c.numClbits ∧
      (p.compile c).initial = some l ∧ (p.compile c).final = some l ∧
      (∀ q < c.numQubits, l.physical? q = some q) ∧
      (p.compile c).report.stats.swaps = 0 ∧ (p.compile c).report.shuttles = 0 ∧
      (p.compile out).circuit = .ok out := by
  have hplace := Executable.inPlace_of_violation? hc hexecutable
  obtain ⟨hcircuit, hinitial, hfinal, hswaps, hshuttles⟩ :=
    run_executable hzones hlevel hc hexecutable
  obtain ⟨-, -, -, hidentity⟩ := Layout.identity_spec hplace.width
  refine ⟨_, _, hcircuit, rfl, rfl, rfl, hinitial, hfinal, fun q hq => ?_, hswaps, hshuttles, ?_⟩
  · exact (hidentity q).trans (if_pos hq)
  · exact (run_executable hzones hlevel hplace.wellFormed_widened
      (Executable.violation?_widened hexecutable)).1

/-- Compilation for a chain without zones and without optimisation. -/
def plainChain : Pipeline Float where
  device := Route.chainDevice ⟨[.gate .cx, .gate .measure, .gate .barrier]⟩ 1
  optimisation := ⟨0, {}⟩
  estimation := none

/-- Coupled pairs in either order, between barriers with and without qubits. -/
def coupledCircuit : Circuit Float :=
  ⟨3, 1, [.ofGate .cx [] [0, 1], { kind := .gate .barrier }, .ofGate .cx [] [2, 1],
    { kind := .gate .barrier, qubits := [2, 0, 1] }, .measure 2 0]⟩

theorem runs_coupledCircuit :
    ∀ op ∈ coupledCircuit.ops, Executable.Runs plainChain.device coupledCircuit.numClbits op := by
  have hwf : ∀ op ∈ coupledCircuit.ops, op.WellFormed plainChain.device.numQubits 1 := by
    unfold coupledCircuit
    decide
  have hnarrow : ∀ op ∈ coupledCircuit.ops, op.isBarrier = true ∨ op.arity ≤ 2 := by decide
  have hcoupled : ∀ op ∈ coupledCircuit.ops, Route.OnCoupled plainChain.device.coupling op := by
    have h01 : plainChain.device.coupling.graph.Adj 0 1 := CouplingMap.graph_adj.mpr (by decide)
    have h21 : plainChain.device.coupling.graph.Adj 2 1 := CouplingMap.graph_adj.mpr (by decide)
    simp [coupledCircuit, Route.OnCoupled, Operation.measure, Operation.ofGate, h01, h21]
  have hresting : ∀ op ∈ coupledCircuit.ops, op.isShuttle = false := by decide
  have hnative : ∀ op ∈ coupledCircuit.ops, plainChain.device.isNative op.kind = true := by decide
  exact fun op hop =>
    { wellFormed := hwf op hop, narrow := hnarrow op hop, coupled := hcoupled op hop
      resting := hresting op hop, native := hnative op hop }

/-- The chain has a qubit more than the circuit, which is compiled to itself. -/
theorem compile_coupledCircuit :
    coupledCircuit.WellFormed ∧ Executable.violation? coupledCircuit plainChain.device = none ∧
      ∃ out l, (plainChain.compile coupledCircuit).circuit = .ok out ∧
        out.ops = coupledCircuit.ops ∧ out.numQubits = 4 ∧ out.numClbits = 1 ∧
        (plainChain.compile coupledCircuit).initial = some l ∧
        (plainChain.compile coupledCircuit).final = some l ∧
        (∀ q < 3, l.physical? q = some q) ∧
        (plainChain.compile coupledCircuit).report.stats.swaps = 0 ∧
        (plainChain.compile coupledCircuit).report.shuttles = 0 ∧
        (plainChain.compile out).circuit = .ok out := by
  have hc : coupledCircuit.WellFormed := by
    unfold Circuit.WellFormed coupledCircuit
    decide
  have hexecutable : Executable.violation? coupledCircuit plainChain.device = none :=
    Executable.violation?_eq_none rfl (by decide) runs_coupledCircuit
  exact ⟨hc, hexecutable, compile_stable plainChain rfl rfl hc hexecutable⟩

end Pipeline

end QuantumCompiler
