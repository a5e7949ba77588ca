import QuantumCompiler.Numeric.Binary64
import QuantumCompiler.Proofs.Route.Blocked

/-!
# Routing as a whole

What routing gives is well formed (`Simulates.wellFormed`) and a run of the
specification (`route_simulates`).  From a layout that serves the circuit it
succeeds unless an operation is blocked (`route_course`).  From a layout that
puts interacting qubits into one region, only an operation on more than two
qubits is (`route_cases`).
-/

namespace QuantumCompiler.Route

variable {α β : Type} {d : Device β} {n m : Nat} {l : Layout}

/-! ## Regions -/

variable {ops : List (Operation α)}

/-- The two qubits of every operation other than a barrier have places in one
region. -/
def Regional (m : CouplingMap) (l : Layout) (ops : List (Operation α)) : Prop :=
  ∀ op ∈ ops, op.isBarrier = false → ∀ a b, op.qubits = [a, b] → ∀ p q,
    l.physical? a = some p → l.physical? b = some q → m.graph.Reachable p q

/-- Only wide operations are blocked if interacting qubits are in one region. -/
theorem Regional.wide {c : CouplingMap} (h : Regional c l ops) {op : Operation α} (hop : op ∈ ops)
    (hblocked : Blocked c l op) : op.isBarrier = false ∧ 2 < op.arity := by
  obtain ⟨hbarrier, hwide | ⟨a, b, p, q, hqubits, hp, hq, hne⟩⟩ := hblocked
  · exact ⟨hbarrier, hwide⟩
  · have hreach := h op hop hbarrier a b hqubits p q hp hq
    exact absurd (SimpleGraph.ConnectedComponent.sound hreach) hne

/-! ## The whole circuit -/

section Routed

variable [NatCast α]

theorem Wrapped.wellFormed {op : Operation α} {before after : List (Operation α)}
    (h : Wrapped d op before after) (hop : op.WellFormed n m) :
    ∀ s ∈ before ++ after, s.WellFormed n m := by
  cases h with
  | home => simp
  | @away p q _ hqubits =>
    have hq : q < n := hop.qubits_lt q (by simp [hqubits])
    intro s hs
    simp only [List.cons_append, List.nil_append, List.mem_cons, List.not_mem_nil, or_false] at hs
    rcases hs with rfl | rfl
    · exact Operation.wellFormed_ofGate (by decide) rfl rfl rfl (by simpa using hq) (by simp)
    · exact Operation.wellFormed_ofGate (by decide) rfl rfl rfl (by simpa using hq) (by simp)

omit [NatCast α] in
/-- A well-formed operation in its place is well formed on the device. -/
theorem Placed.wellFormed {op placed : Operation α} (h : Placed l op placed)
    (hop : op.WellFormed n m) (hl : Ready d n l) : placed.WellFormed d.numQubits m := by
  obtain ⟨hplaced, hqubits⟩ := h
  have hlength : placed.qubits.length = op.qubits.length := by
    have := congrArg List.length hqubits
    simpa using this.symm
  have hnodup : (placed.qubits.map some).Nodup := by
    rw [← hqubits]
    refine List.Nodup.map_on (fun a ha b hb hab => ?_) hop.nodup
    obtain ⟨p, hp⟩ := hl.placed a (hop.qubits_lt a ha)
    exact hl.consistent.injective hp (hab ▸ hp)
  rw [hplaced]
  refine hop.withQubits hlength (fun p hp => ?_) (List.Nodup.of_map some hnodup)
  have hmem : some p ∈ op.qubits.map l.physical? := by
    rw [hqubits]
    exact List.mem_map_of_mem hp
  obtain ⟨q, -, hq⟩ := List.mem_map.mp hmem
  have := hl.consistent.physical_lt hq
  rwa [hl.physical] at this

/-- All operations of a block are well formed on the device. -/
theorem Wrapped.wellFormed_block {swaps : List (Nat × Nat)} {placed : Operation α}
    {before after : List (Operation α)} (h : Wrapped d placed before after)
    (hcoupled : ∀ s ∈ swaps, d.coupling.graph.Adj s.1 s.2)
    (hplaced : placed.WellFormed d.numQubits m) :
    ∀ o ∈ swaps.map (fun s => .swap s.1 s.2) ++ before ++ placed :: after,
      o.WellFormed d.numQubits m := by
  intro o ho
  simp only [List.mem_append, List.mem_map, List.mem_cons] at ho
  rcases ho with (⟨s, hs, rfl⟩ | ho) | rfl | ho
  · obtain ⟨hp, hq⟩ := CouplingMap.lt_size_of_adj (hcoupled s hs)
    have hne := (hcoupled s hs).ne
    exact Operation.wellFormed_ofGate (by decide) rfl rfl rfl
      (by simpa using ⟨hp, hq⟩) (by simpa using hne)
  · exact h.wellFormed hplaced o (List.mem_append_left _ ho)
  · exact hplaced
  · exact h.wellFormed hplaced o (List.mem_append_right _ ho)

/-- What routing gives is well formed on the device. -/
theorem Simulates.wellFormed {routed : List (Operation α)} {final : Layout}
    {swaps : List (Nat × Nat)} {shuttles : Nat}
    (h : Simulates d l ops routed final swaps shuttles)
    (hops : ∀ op ∈ ops, op.WellFormed n m) (hl : Ready d n l) :
    ∀ op ∈ routed, op.WellFormed d.numQubits m := by
  induction h with
  | nil => simp
  | @cons l l' final op placed rest before after routed swaps more shuttles _ hcoupled hswapped
      hplaced hwrapped _ ih =>
    have hready : Ready d n l' := eq_applySwaps hl hcoupled hswapped ▸ hl.applySwaps hcoupled
    have hwf := hplaced.wellFormed (hops op List.mem_cons_self) hready
    intro o ho
    rcases List.mem_append.mp ho with ho | ho
    · exact hwrapped.wellFormed_block hcoupled hwf o ho
    · exact ih (fun o ho => hops o (List.mem_cons_of_mem _ ho)) hready o ho

omit [NatCast α] in
/-- Only an operation on few qubits, or a barrier, has a number of swaps. -/
theorem SwapsNeeded.narrow {c : CouplingMap} {op : Operation α} {k : Nat}
    (h : SwapsNeeded c l op k) : op.isBarrier = true ∨ op.arity ≤ 2 := by
  cases h with
  | none h => exact h.imp_right fun h => by omega
  | apart _ hqubits => exact .inr (by simp [Operation.arity, hqubits])

/-- Every routed operation is a swap, a shuttle for an operation that crosses
zones, or an operation of the circuit, which then acts on few qubits. -/
theorem Simulates.mem_cases {routed : List (Operation α)} {final : Layout}
    {swaps : List (Nat × Nat)} {shuttles : Nat}
    (h : Simulates d l ops routed final swaps shuttles) : ∀ o ∈ routed,
    (∃ p q, o = .swap p q) ∨ (∃ op : Operation α, Crosses d op) ∧ o.isShuttle = true ∨
      ∃ op ∈ ops, o.kind = op.kind ∧ o.arity = op.arity ∧
      (op.isBarrier = true ∨ op.arity ≤ 2) := by
  induction h with
  | nil => simp
  | @cons l l' final op placed rest before after routed swaps more shuttles hcount _ _ hplaced
      hwrapped _ ih =>
    have hshuttles :
        ∀ o ∈ before ++ after, (∃ op : Operation α, Crosses d op) ∧ o.isShuttle = true := by
      cases hwrapped with
      | home => simp
      | away hcrosses =>
        intro o ho
        simp only [List.cons_append, List.nil_append, List.mem_cons, List.not_mem_nil,
          or_false] at ho
        rcases ho with rfl | rfl
        · exact ⟨⟨placed, hcrosses⟩, rfl⟩
        · exact ⟨⟨placed, hcrosses⟩, rfl⟩
    intro o ho
    simp only [List.mem_append, List.mem_map, List.mem_cons] at ho
    rcases ho with ((⟨s, -, rfl⟩ | ho) | rfl | ho) | ho
    · exact .inl ⟨s.1, s.2, rfl⟩
    · exact .inr (.inl (hshuttles o (List.mem_append_left _ ho)))
    · have hlength : o.arity = op.arity := by
        have := congrArg List.length hplaced.2
        simpa [Operation.arity] using this.symm
      exact .inr (.inr ⟨op, List.mem_cons_self, by rw [hplaced.1]; rfl, hlength, hcount.narrow⟩)
    · exact .inr (.inl (hshuttles o (List.mem_append_right _ ho)))
    · rcases ih o ho with hswap | hshuttle | ⟨op', hop', hrest⟩
      · exact .inl hswap
      · exact .inr (.inl hshuttle)
      · exact .inr (.inr ⟨op', List.mem_cons_of_mem _ hop', hrest⟩)

/-- From a layout that serves the circuit, routing succeeds if no operation is
blocked under it, and otherwise fails at the first one that is. -/
theorem route_course {c : Circuit α} (hc : c.WellFormed) (hl : l.Consistent)
    (hcause : layoutCause? c d l = none) :
    (∀ op ∈ c.ops, ¬ Blocked d.coupling l op) ∧ (∃ res, route c d l = .ok res) ∨
      ∃ before op after physical, c.ops = before ++ op :: after ∧
        (∀ o ∈ before, ¬ Blocked d.coupling l o) ∧ Blocked d.coupling l op ∧
        route c d l = .error (.operation before.length physical (refusal op)) := by
  have hready := clone_ready hl hcause
  rcases blocks_cases hc hready 0 with
    ⟨hfree, bs, final, hbs⟩ | ⟨before, op, after, physical, hops, hbefore, hblocked, herror⟩
  · refine .inl ⟨hfree, ?_⟩
    obtain ⟨hsim, -⟩ := blocks_simulates hc hready hbs
    have hcircuit := Circuit.ofOperations_eq_ok_iff.mpr
      ⟨hsim.wellFormed hc hready, rfl⟩
    simp only [route, hcause, hbs, hcircuit]
    exact ⟨_, rfl⟩
  · refine .inr ⟨before, op, after, physical, hops, hbefore, hblocked, ?_⟩
    simp only [route, hcause, herror, Nat.zero_add]

/-- From a layout that serves a circuit and keeps interacting qubits in one
region, routing succeeds exactly when no operation is too wide, and fails
otherwise because of such an operation. -/
theorem route_cases {c : Circuit α} (hc : c.WellFormed) (hl : l.Consistent)
    (hcause : layoutCause? c d l = none) (hregional : Regional d.coupling l c.ops) :
    (∀ op ∈ c.ops, op.isBarrier = true ∨ op.arity ≤ 2) ∧ (∃ res, route c d l = .ok res) ∨
      (∃ op ∈ c.ops, op.isBarrier = false ∧ 3 ≤ op.arity) ∧
        ∃ j physical kind arity,
          route c d l = .error (.operation j physical (.tooWide kind arity)) := by
  rcases route_course hc hl hcause with
    ⟨hfree, hres⟩ | ⟨before, op, after, physical, hops, -, hblocked, herror⟩
  · refine .inl ⟨fun op hop => ?_, hres⟩
    by_contra! hwide
    exact hfree op hop ⟨by simpa using hwide.1, .inl hwide.2⟩
  · have hop : op ∈ c.ops := by simp [hops]
    obtain ⟨hbarrier, hwide⟩ := hregional.wide hop hblocked
    rw [refusal, if_pos hwide] at herror
    exact .inr ⟨⟨op, hop, hbarrier, hwide⟩, _, _, _, _, herror⟩

/-- Routing simulates the given circuit: from every layout that can be built,
the routed operations, the layout at the end and both counts are those of a
run of the specification, every operation on two qubits acts on a coupled
pair, and the widths are those of the device and of the circuit. -/
theorem route_simulates {c : Circuit α} (hc : c.WellFormed) (hl : l.Built) {res : Result α}
    (h : route c d l = .ok res) :
    (∃ swaps, Simulates d l.clone c.ops res.circuit.ops res.layout swaps res.shuttles ∧
      res.swaps = swaps.length) ∧
      (∀ op ∈ res.circuit.ops, OnCoupled d.coupling op) ∧
      res.circuit.numQubits = d.numQubits ∧ res.circuit.numClbits = c.numClbits := by
  obtain ⟨bs, hcause, hblocks, -, hcircuit, hswaps, hshuttles⟩ := route_eq_ok h
  obtain ⟨hsim, hon⟩ := blocks_simulates hc (clone_ready hl.consistent hcause) hblocks
  rw [hcircuit, hshuttles]
  exact ⟨⟨_, hsim, hswaps⟩, hon, rfl, rfl⟩

end Routed

/-! ## A chain of four qubits -/

/-- Four qubits in a row. -/
def chain : CouplingMap where
  size := 4
  edges := [(0, 1), (1, 2), (2, 3)]
  tables := Tables.ofEdges 4 [(0, 1), (1, 2), (2, 3)]
  edges_valid := by decide
  edges_distinct := by decide
  tables_eq := rfl

/-- The chain as a device, split into zones. -/
def chainDevice (natives : GateSet) (zones : Nat) : Device Float :=
  (Device.uncalibrated "chain" chain natives).withZones zones

theorem chain_reachable {p q : Nat} (hp : p < 4) (hq : q < 4) : chain.graph.Reachable p q := by
  have hfirst : ∀ r < 4, chain.graph.Reachable 0 r := by
    have h01 : chain.graph.Adj 0 1 := CouplingMap.graph_adj.mpr (by decide)
    have h12 : chain.graph.Adj 1 2 := CouplingMap.graph_adj.mpr (by decide)
    have h23 : chain.graph.Adj 2 3 := CouplingMap.graph_adj.mpr (by decide)
    intro r hr
    match r with
    | 0 => exact SimpleGraph.Reachable.refl 0
    | 1 => exact h01.reachable
    | 2 => exact h01.reachable.trans h12.reachable
    | 3 => exact (h01.reachable.trans h12.reachable).trans h23.reachable
  exact (hfirst p hp).symm.trans (hfirst q hq)

/-- A gate on two qubits, a barrier and a gate on one of them. -/
def farCircuit : Circuit Float :=
  ⟨2, 0, [.ofGate .cx [] [0, 1], { kind := .gate .barrier }, .ofGate .x [] [0]]⟩

/-- The two qubits start at a distance of two and in different zones. -/
theorem route_farCircuit :
    farCircuit.WellFormed ∧ ∃ l res, l.Built ∧ Layout.ofPhysicals [0, 2] 4 = .ok l ∧
      route farCircuit (chainDevice ⟨[]⟩ 2) l = .ok res ∧
      (∃ swaps, Simulates (chainDevice ⟨[]⟩ 2) l.clone farCircuit.ops res.circuit.ops res.layout
        swaps res.shuttles ∧ res.swaps = swaps.length) ∧
      (∀ op ∈ res.circuit.ops, OnCoupled chain op) ∧
      res.circuit.numQubits = 4 ∧ res.circuit.numClbits = 0 := by
  have hc : farCircuit.WellFormed := by
    unfold Circuit.WellFormed farCircuit
    decide
  have hplaces :
      Layout.ofPhysicals [0, 2] 4 = .ok (((Layout.empty 2 4).place 0 0).place 1 2) := by
    decide
  have hl : Layout.Built (((Layout.empty 2 4).place 0 0).place 1 2) := .ofPhysicals hplaces
  have hcause : layoutCause? farCircuit (chainDevice ⟨[]⟩ 2)
      (((Layout.empty 2 4).place 0 0).place 1 2) = none := by
    have hcomplete : (((Layout.empty 2 4).place 0 0).place 1 2).isComplete = true := by cbv
    rw [layoutCause?, if_neg (by decide), if_neg (by simp [hcomplete])]
  have hregional : Regional chain (((Layout.empty 2 4).place 0 0).place 1 2) farCircuit.ops := by
    intro op _ _ a b _ p q hp hq
    exact chain_reachable (hl.consistent.physical_lt hp) (hl.consistent.physical_lt hq)
  rcases route_cases hc hl.consistent hcause hregional with ⟨-, res, hres⟩ | ⟨hwide, -⟩
  · exact ⟨hc, _, res, hl, hplaces, hres, route_simulates hc hl hres⟩
  · exact absurd hwide (by decide)

end QuantumCompiler.Route
