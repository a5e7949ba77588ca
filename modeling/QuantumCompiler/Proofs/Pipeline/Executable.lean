import QuantumCompiler.Proofs.Route.Zones

/-!
# Circuits stay executable

Once the qubits of a circuit are in place on a device, with shuttles where it
has zones, neither expansion into native kinds nor optimisation spoils it.
Expansion, too, works on unitary gates only, so the zones at any time are the
same before and after (`replay_parts`), and the gates that are put in act on
the qubits of the gate that made room for them, or on some of them
(`Mapped.product`).
-/

namespace QuantumCompiler.Executable

variable {α β : Type} {d : Device β} {n m : Nat}

/-- What the final check asks for, apart from native kinds. -/
structure Mapped [RealArith α] (d : Device β) (c : Circuit α) : Prop where
  width : c.numQubits ≤ d.numQubits
  narrow : ∀ op ∈ c.ops, op.isBarrier = true ∨ op.arity ≤ 2
  coupled : ∀ op ∈ c.ops, Route.OnCoupled d.coupling op
  zones : ∃ zones, replay d (restingZones d) c.ops = .ok zones

variable [RealArith α] {zones zones' : Array Nat} {op : Operation α} {ops : List (Operation α)}

/-! ## Expansion -/

/-- The operation that is expanded and what it is expanded into lead to the same
zones. -/
theorem replay_expand {choices : List Decomposition.Choice}
    (htable : ∀ c ∈ choices, c.rule ∈ Decomposition.rules) (hop : op.WellFormed n m)
    (hnarrow : op.isBarrier = true ∨ op.arity ≤ 2) {part : List (Operation α)}
    (h : Decomposition.expand d.natives n m choices op = .ok part)
    (htrack : trackZones d zones op = .ok zones') : replay d zones part = .ok zones' := by
  by_cases hunitary : op.isUnitary = true
  · obtain ⟨rfl, hsame⟩ := (trackZones_eq_ok_iff hunitary).mp htrack
    refine replay_eq_self fun o ho => ?_
    have hproduct := Decomposition.expand_products htable hop h o ho
    rcases product_cases hnarrow hproduct with rfl | ⟨hunitary', -, -, hpair⟩
    · exact htrack
    · refine (trackZones_eq_ok_iff hunitary').mpr ⟨rfl, fun p q hpq => ?_⟩
      rcases hpair p q hpq with hpq | hqp
      · exact hsame p q hpq
      · exact (hsame q p hqp).symm
  · -- There are rules for unitary gates only.
    rcases Decomposition.expand_cases h with ⟨-, rfl⟩ | ⟨before, choice, rest, -, rfl, hkind, -⟩
    · rw [replay_cons htrack, replay_nil]
    · have hfit := Decomposition.rules_fit _ (htable choice (by simp))
      exact absurd (Operation.isUnitary_of_kind hkind hfit.1) hunitary

theorem replay_parts {choices : List Decomposition.Choice}
    (htable : ∀ c ∈ choices, c.rule ∈ Decomposition.rules) {parts : List (List (Operation α))}
    (h : List.Forall₂ (fun op part => Decomposition.expand d.natives n m choices op = .ok part)
      ops parts)
    (hops : ∀ op ∈ ops, op.WellFormed n m)
    (hnarrow : ∀ op ∈ ops, op.isBarrier = true ∨ op.arity ≤ 2)
    (hreplay : replay d zones ops = .ok zones') :
    replay d zones parts.flatten = .ok zones' := by
  induction h generalizing zones with
  | nil => exact hreplay
  | @cons op part ops parts hpart _ ih =>
    rw [List.forall_mem_cons] at hops hnarrow
    obtain ⟨mid, htrack, hrest⟩ := replay_cons_eq_ok hreplay
    rw [List.flatten_cons, replay_append (replay_expand htable hops.1 hnarrow.1 hpart htrack)]
    exact ih hops.2 hnarrow.2 hrest

theorem Mapped.product {c : Circuit α} (hc : Mapped d c) (hop : op ∈ c.ops) {o : Operation α}
    (h : Decomposition.Product d.natives c.numQubits m op o) : obstacle? d o = none := by
  have hlt : ∀ q ∈ o.qubits, q < d.numQubits := fun q hq =>
    Nat.lt_of_lt_of_le (h.wellFormed.qubits_lt q hq) hc.width
  refine obstacle?_eq_none_iff.mpr ⟨h.native, hlt, h.wellFormed.nodup, ?_⟩
  rcases product_cases (hc.narrow op hop) h with rfl | ⟨-, hunitary, hnarrow, hpair⟩
  · exact ⟨hc.narrow o hop, hc.coupled o hop⟩
  · refine ⟨.inr hnarrow, fun _ p q hpq => ?_⟩
    have hbarrier := Operation.isBarrier_of_isUnitary hunitary
    rcases hpair p q hpq with hpq | hqp
    · exact hc.coupled op hop hbarrier p q hpq
    · exact (hc.coupled op hop hbarrier q p hqp).symm

theorem Mapped.violation?_toNative {c out : Circuit α} (hc : Mapped d c) (hwf : c.WellFormed)
    (h : Decomposition.toNative d.natives c = .ok out) : violation? out d = none := by
  obtain ⟨hwidth, -, hproducts⟩ := Decomposition.toNative_products hwf h
  refine violation?_eq_none_iff.mpr ⟨hwidth ▸ hc.width, fun o ho => ?_, ?_⟩
  · obtain ⟨op, hop, hproduct⟩ := hproducts o ho
    exact hc.product hop hproduct
  · obtain ⟨zones, hzones⟩ := hc.zones
    obtain ⟨ops, hops, rfl⟩ := Decomposition.toNative_eq_ok h
    obtain ⟨parts, rfl, hparts⟩ := Decomposition.expandAll_eq_ok hops
    rw [Decomposition.Plan.natives_ofNatives] at hparts
    exact ⟨zones,
      replay_parts (Decomposition.Plan.ordered_ofNatives d.natives).mem_rules hparts hwf
      hc.narrow hzones⟩

/-- Expansion and optimisation keep a circuit executable, on every device and
with every configuration: what is executable but for native kinds is executable
once it is expressed by them, and what is executable stays so when it is
optimised. -/
theorem executable_throughout (d : Device β) :
    (∀ c out : Circuit α, c.WellFormed → Mapped d c →
      Decomposition.toNative d.natives c = .ok out →
      violation? out d = none) ∧
    ∀ (c : Circuit α) (config : Peephole.Config), violation? c d = none →
      violation? (Peephole.optimise d.natives config c).1 d = none :=
  ⟨fun _ _ hwf hc h => hc.violation?_toNative hwf h,
    fun _ config h => violation?_optimise h config⟩

/-! ## A swap across zones -/

/-- The chain in two zones, without a native swap. -/
def zonedChain : Device Float := Route.chainDevice ⟨[.gate .cx, .gate .shuttle]⟩ 2

/-- A swap between the zones with the shuttles that it needs. -/
noncomputable def crossingCircuit : Circuit ℝ :=
  ⟨4, 0, [.shuttle 2 1 0, .swap 1 2, .shuttle 2 0 1]⟩

theorem wellFormed_crossingCircuit : crossingCircuit.WellFormed := by
  have hshuttle (a b : Nat) : (.shuttle 2 a b : Operation ℝ).WellFormed 4 0 :=
    Operation.wellFormed_ofGate (by decide) rfl rfl rfl (by decide) (by decide)
  have hswap : (.swap 1 2 : Operation ℝ).WellFormed 4 0 :=
    Operation.wellFormed_ofGate (by decide) rfl rfl rfl (by decide) (by decide)
  have hops : ∀ op ∈ crossingCircuit.ops, op.WellFormed 4 0 := by
    simp [crossingCircuit, hshuttle, hswap]
  exact hops

theorem mapped_crossingCircuit : Mapped zonedChain crossingCircuit where
  width := by decide
  narrow := by
    have hops : ∀ op ∈ crossingCircuit.ops, op.arity ≤ 2 := by
      simp [crossingCircuit, Operation.shuttle, Operation.swap, Operation.ofGate, Operation.arity]
    exact fun op hop => .inr (hops op hop)
  coupled := by
    have hadj : zonedChain.coupling.graph.Adj 1 2 := CouplingMap.graph_adj.mpr (by decide)
    simp [crossingCircuit, Route.OnCoupled, Operation.shuttle, Operation.swap,
      Operation.ofGate, hadj]
  zones := by
    -- The shuttles are those that routing would put around the swap.
    have hcrosses : Route.Crosses zonedChain (.swap 1 2 : Operation ℝ) :=
      ⟨rfl, 1, 2, rfl, by decide⟩
    have hwrapped : Route.Wrapped zonedChain (.swap 1 2 : Operation ℝ) [.shuttle 2 1 0]
        [.shuttle 2 0 1] := .away hcrosses rfl
    have hswap : (.swap 1 2 : Operation ℝ).WellFormed 4 0 :=
      wellFormed_crossingCircuit _ (by simp [crossingCircuit])
    exact ⟨_, hwrapped.replay_eq (fun z _ => truncate_natCast z) hswap rfl⟩

/-- On the chain the swap is expressed by native gates between the same shuttles,
and what optimisation makes of them can be executed. -/
theorem executable_crossingCircuit :
    crossingCircuit.WellFormed ∧ Mapped zonedChain crossingCircuit ∧
      ∃ out, Decomposition.toNative zonedChain.natives crossingCircuit = .ok out ∧
        violation? out zonedChain = none ∧
        ∀ config, violation? (Peephole.optimise zonedChain.natives config out).1 zonedChain =
        none := by
  have hkinds : ∀ op ∈ crossingCircuit.ops,
      Decomposition.Derivable zonedChain.natives op.kind := by
    have hshuttle : Decomposition.Derivable zonedChain.natives (.gate .shuttle) := .native rfl
    have hswap : Decomposition.Derivable zonedChain.natives (.gate .swap) := by
      obtain ⟨rule, hrule, hgate, hsteps⟩ : ∃ rule ∈ Decomposition.rules, rule.gate = .swap ∧
          ∀ step ∈ rule.steps, zonedChain.natives.contains (.gate step.gate) = true := by decide
      exact hgate ▸ .rule hrule fun step hstep => .native (hsteps step hstep)
    simp [crossingCircuit, Operation.shuttle, Operation.swap, Operation.ofGate, hshuttle, hswap]
  obtain ⟨out, hout⟩ := (Decomposition.exists_toNative_iff wellFormed_crossingCircuit).mpr hkinds
  obtain ⟨hexpand, hoptimise⟩ := executable_throughout (α := ℝ) zonedChain
  have hok := hexpand crossingCircuit out wellFormed_crossingCircuit mapped_crossingCircuit hout
  exact ⟨wellFormed_crossingCircuit, mapped_crossingCircuit, out, hout, hok,
    fun config => hoptimise out config hok⟩

end QuantumCompiler.Executable
