import QuantumCompiler.Proofs.Route.Success

/-!
# Where routing fails

Routing fails before the first operation if the layout does not serve the
circuit (`Unfit`).  Otherwise it fails at the first operation that is blocked
under the initial layout, and succeeds if there is none (`route_fails_iff`).
The swaps put in before an operation have no part in this.
-/

namespace QuantumCompiler.Route

variable {α β : Type} {c : Circuit α} {d : Device β} {l : Layout}

/-- The layout has too few logical qubits, another number of physical ones than
the device, or a logical qubit without a place. -/
def Unfit (c : Circuit α) (d : Device β) (l : Layout) : Prop :=
  l.numLogical < c.numQubits ∨ l.numPhysical ≠ d.numQubits ∨
  ∃ q < l.numLogical, l.physical? q = none

theorem layoutCause?_eq_none_iff : layoutCause? c d l = none ↔ ¬ Unfit c d l := by
  have hcomplete : l.isComplete = true ↔ ¬ ∃ q < l.numLogical, l.physical? q = none := by
    push Not
    simp only [Option.ne_none_iff_exists']
    exact ⟨fun h q hq => Layout.exists_physical h hq, Layout.isComplete_of_placed⟩
  have hsizes : (l.numLogical < c.numQubits || l.numPhysical != d.numQubits) = true ↔
      l.numLogical < c.numQubits ∨ l.numPhysical ≠ d.numQubits := by simp
  rw [layoutCause?, Unfit, ← or_assoc, not_or, ← hcomplete, ← hsizes]
  split_ifs <;> simp_all

/-- The positions of the operations that are blocked under a layout. -/
def blockedAt (c : Circuit α) (m : CouplingMap) (l : Layout) : Set Nat :=
  {i | ∃ op, c.ops[i]? = some op ∧ Blocked m l op}

theorem isLeast_blockedAt {m : CouplingMap} {before after : List (Operation α)} {op : Operation α}
    (hops : c.ops = before ++ op :: after) (hbefore : ∀ o ∈ before, ¬ Blocked m l o)
    (hop : Blocked m l op) : IsLeast (blockedAt c m l) before.length := by
  refine ⟨⟨op, by simp [hops], hop⟩, ?_⟩
  rintro i ⟨o, hi, ho⟩
  by_contra! hlt
  rw [hops, List.getElem?_append_left hlt] at hi
  exact hbefore o (List.mem_of_getElem? hi) ho

theorem blockedAt_eq_empty_iff {m : CouplingMap} :
    blockedAt c m l = ∅ ↔ ∀ op ∈ c.ops, ¬ Blocked m l op := by
  rw [Set.eq_empty_iff_forall_notMem]
  constructor
  · intro h op hop hblocked
    obtain ⟨i, hi⟩ := List.mem_iff_getElem?.mp hop
    exact h i ⟨op, hi, hblocked⟩
  · rintro h i ⟨op, hi, hblocked⟩
    exact h op (List.mem_of_getElem? hi) hblocked

section Failure

variable [NatCast α]

/-- A layout that does not serve the circuit is refused, and no other one is. -/
theorem route_layout_iff (hc : c.WellFormed) (hl : l.Consistent) :
    (∃ cause, route c d l = .error (.layout cause)) ↔ Unfit c d l := by
  constructor
  · rintro ⟨cause, h⟩
    by_contra hfit
    rcases route_course hc hl (layoutCause?_eq_none_iff.mpr hfit) with
      ⟨-, res, hres⟩ | ⟨before, op, after, physical, -, -, -, herror⟩
    · rw [hres] at h
      cases h
    · rw [herror] at h
      cases h
  · intro hunfit
    have hsome : layoutCause? c d l ≠ none := fun h => layoutCause?_eq_none_iff.mp h hunfit
    obtain ⟨cause, hcause⟩ := Option.ne_none_iff_exists'.mp hsome
    exact ⟨cause, by simp only [route, hcause]⟩

/-- Routing fails at the first operation that is blocked under the initial
layout. -/
theorem route_operation_iff (hc : c.WellFormed) (hl : l.Consistent) (hfit : ¬ Unfit c d l)
    (i : Nat) :
    (∃ physical cause, route c d l = .error (.operation i physical cause)) ↔
      IsLeast (blockedAt c d.coupling l) i := by
  rcases route_course hc hl (layoutCause?_eq_none_iff.mpr hfit) with
    ⟨hfree, res, hres⟩ | ⟨before, op, after, physical, hops, hbefore, hop, herror⟩
  · rw [hres, IsLeast, blockedAt_eq_empty_iff.mpr hfree]
    simp
  · have hleast := isLeast_blockedAt hops hbefore hop
    rw [herror]
    constructor
    · rintro ⟨_, _, h⟩
      cases h
      exact hleast
    · intro hi
      rw [hi.unique hleast]
      exact ⟨_, _, rfl⟩

/-- Routing succeeds if no operation is blocked under the initial layout. -/
theorem route_ok_iff (hc : c.WellFormed) (hl : l.Consistent) (hfit : ¬ Unfit c d l) :
    (∃ res, route c d l = .ok res) ↔ blockedAt c d.coupling l = ∅ := by
  rw [blockedAt_eq_empty_iff]
  rcases route_course hc hl (layoutCause?_eq_none_iff.mpr hfit) with
    ⟨hfree, hres⟩ | ⟨before, op, after, physical, hops, -, hop, herror⟩
  · exact iff_of_true hres hfree
  · rw [herror]
    refine iff_of_false (by simp) fun hfree => ?_
    exact hfree op (by simp [hops]) hop

/-- Routing fails exactly where the initial layout says so: before the first
operation if the layout does not serve the circuit, and else at the first
operation that is blocked under it, if there is one.  The layout after some of
the operations blocks the same ones of the rest. -/
theorem route_fails_iff (hc : c.WellFormed) (hl : l.Built) :
    ((∃ cause, route c d l = .error (.layout cause)) ↔ Unfit c d l) ∧
      (¬ Unfit c d l →
        (∀ i, (∃ physical cause, route c d l = .error (.operation i physical cause)) ↔
          IsLeast (blockedAt c d.coupling l) i) ∧
        ((∃ res, route c d l = .ok res) ↔ blockedAt c d.coupling l = ∅) ∧
        ∀ before after bs l', c.ops = before ++ after → blocks d 0 l.clone before = .ok (bs, l') →
          ∀ op ∈ after, Blocked d.coupling l' op ↔ Blocked d.coupling l op) := by
  refine ⟨route_layout_iff hc hl.consistent, fun hfit =>
    ⟨route_operation_iff hc hl.consistent hfit, route_ok_iff hc hl.consistent hfit, ?_⟩⟩
  intro before after bs l' hops hblocks op _
  have hready := clone_ready hl.consistent (layoutCause?_eq_none_iff.mpr hfit)
  have hbefore : ∀ o ∈ before, o.WellFormed c.numQubits c.numClbits :=
    fun o ho => hc o (by simp [hops, ho])
  exact blocked_blocks_iff hbefore hready hblocks

end Failure

/-! ## A chain and a pair -/

/-- Three qubits in a row, and two more. -/
def chainAndPair : CouplingMap where
  size := 5
  edges := [(0, 1), (1, 2), (3, 4)]
  tables := Tables.ofEdges 5 [(0, 1), (1, 2), (3, 4)]
  edges_valid := by decide
  edges_distinct := by decide
  tables_eq := rfl

/-- A device with these two parts. -/
def twoParts : Device Float := .uncalibrated "parts" chainAndPair ⟨[]⟩

/-- The second gate joins qubits of both parts. -/
def bridgingCircuit : Circuit Float :=
  ⟨3, 0, [.ofGate .cx [] [0, 1], .ofGate .cx [] [1, 2], .ofGate .ccx [] [0, 1, 2]]⟩

/-- Two qubits at the ends of the chain and one in the pair. -/
def spreadLayout : Layout := (((Layout.empty 3 5).place 0 0).place 1 2).place 2 3

/-- No path leads from the chain to the pair. -/
theorem lt_iff_of_reachable {p q : Nat} (h : chainAndPair.graph.Reachable p q) :
    p < 3 ↔ q < 3 := by
  have hedges : ∀ e ∈ chainAndPair.edges, e.1 < 3 ↔ e.2 < 3 := by decide
  obtain ⟨w⟩ := h
  induction w with
  | nil => rfl
  | cons hadj _ ih =>
    rcases CouplingMap.graph_adj.mp hadj with hmem | hmem
    · exact (hedges _ hmem).trans ih
    · exact (hedges _ hmem).symm.trans ih

theorem isLeast_blockedAt_bridgingCircuit :
    IsLeast (blockedAt bridgingCircuit chainAndPair spreadLayout) 1 := by
  have hadj : chainAndPair.graph.Adj 0 1 ∧ chainAndPair.graph.Adj 1 2 := by
    simp only [CouplingMap.graph_adj]
    decide
  have hends : chainAndPair.graph.Reachable 0 2 := hadj.1.reachable.trans hadj.2.reachable
  have hparts : ¬ chainAndPair.graph.Reachable 2 3 :=
    fun h => absurd (lt_iff_of_reachable h) (by decide)
  have hops : bridgingCircuit.ops = [.ofGate .cx [] [0, 1]] ++ .ofGate .cx [] [1, 2] ::
      [.ofGate .ccx [] [0, 1, 2]] := rfl
  refine isLeast_blockedAt hops (fun o ho => ?_) ?_
  · rw [List.mem_singleton.mp ho, blocked_pair_iff rfl rfl rfl rfl]
    exact not_not.mpr hends
  · exact (blocked_pair_iff rfl rfl rfl rfl).mpr hparts

/-- The first gate needs a swap, and routing fails at the second one. -/
theorem route_bridgingCircuit :
    bridgingCircuit.WellFormed ∧ spreadLayout.Built ∧
      ¬ Unfit bridgingCircuit twoParts spreadLayout ∧
      IsLeast (blockedAt bridgingCircuit chainAndPair spreadLayout) 1 ∧
      ∃ physical cause,
        route bridgingCircuit twoParts spreadLayout = .error (.operation 1 physical cause) := by
  have hc : bridgingCircuit.WellFormed := by
    unfold Circuit.WellFormed bridgingCircuit
    decide
  have hplaces : Layout.ofPhysicals [0, 2, 3] 5 = .ok spreadLayout := by decide
  have hl : spreadLayout.Built := .ofPhysicals hplaces
  have hfit : ¬ Unfit bridgingCircuit twoParts spreadLayout := by
    have hcomplete : spreadLayout.isComplete = true := by decide +kernel
    rw [← layoutCause?_eq_none_iff, layoutCause?, if_neg (by decide),
      if_neg (by simp [hcomplete])]
  have hleast := isLeast_blockedAt_bridgingCircuit
  exact ⟨hc, hl, hfit, hleast, (((route_fails_iff hc hl).2 hfit).1 1).mpr hleast⟩

end QuantumCompiler.Route
