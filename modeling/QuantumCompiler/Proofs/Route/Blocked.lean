import QuantumCompiler.Proofs.Route.Simulation

/-!
# Operations that cannot be routed

An operation is `Blocked` under a layout if it acts on more than two qubits, or
on two whose places lie in different connected components of the device.  Swaps
on coupled qubits never take a qubit out of its component, so they block no
operation and free none (`blocked_applySwaps_iff`).  Routing reads the places
under the layout of the moment, and all the same fails at the first operation
that is blocked under the initial one (`blocks_cases`).
-/

namespace QuantumCompiler.Route

variable {α β : Type} {d : Device β} {n m : Nat} {l : Layout} {op : Operation α}

/-- An operation other than a barrier that acts on more than two qubits, or on
two whose places are not connected. -/
def Blocked (m : CouplingMap) (l : Layout) (op : Operation α) : Prop :=
  op.isBarrier = false ∧
    (2 < op.arity ∨ ∃ a b p q, op.qubits = [a, b] ∧ l.physical? a = some p ∧
      l.physical? b = some q ∧ m.graph.connectedComponentMk p ≠ m.graph.connectedComponentMk q)

/-- What is told about a blocked operation. -/
def refusal (op : Operation α) : RouteCause :=
  if 2 < op.arity then .tooWide op.kind.name op.arity else .disconnected

/-! ## Swaps -/

/-- Swaps on coupled qubits keep every qubit in its component. -/
theorem component_permutation {c : CouplingMap} {swaps : List (Nat × Nat)}
    (hcoupled : ∀ s ∈ swaps, c.graph.Adj s.1 s.2) (p : Nat) :
    c.graph.connectedComponentMk (permutation swaps p) = c.graph.connectedComponentMk p := by
  induction swaps generalizing p with
  | nil => rfl
  | cons s rest ih =>
    obtain ⟨hadj, hrest⟩ := List.forall_mem_cons.mp hcoupled
    have hswap : c.graph.connectedComponentMk (Equiv.swap s.1 s.2 p) =
        c.graph.connectedComponentMk p := by
      rw [Equiv.swap_apply_def]
      split_ifs with h1 h2
      · rw [h1]
        exact SimpleGraph.ConnectedComponent.sound hadj.symm.reachable
      · rw [h2]
        exact SimpleGraph.ConnectedComponent.sound hadj.reachable
      · rfl
    exact (ih hrest _).trans hswap

/-- Swaps on coupled qubits block no operation and free none. -/
theorem blocked_applySwaps_iff {swaps : List (Nat × Nat)} (hl : Ready d n l)
    (hcoupled : ∀ s ∈ swaps, d.coupling.graph.Adj s.1 s.2) :
    Blocked d.coupling (applySwaps l swaps) op ↔ Blocked d.coupling l op := by
  have hmove := physical?_applySwaps hl.consistent (swapsBelow_of_adj hl hcoupled)
  refine and_congr_right fun _ => or_congr_right ?_
  constructor
  · rintro ⟨a, b, p, q, hqubits, hp, hq, hne⟩
    rw [hmove, Option.map_eq_some_iff] at hp hq
    obtain ⟨p', hp', rfl⟩ := hp
    obtain ⟨q', hq', rfl⟩ := hq
    rw [component_permutation hcoupled, component_permutation hcoupled] at hne
    exact ⟨a, b, p', q', hqubits, hp', hq', hne⟩
  · rintro ⟨a, b, p, q, hqubits, hp, hq, hne⟩
    refine ⟨a, b, permutation swaps p, permutation swaps q, hqubits, ?_, ?_, ?_⟩
    · rw [hmove, hp, Option.map_some]
    · rw [hmove, hq, Option.map_some]
    · rwa [component_permutation hcoupled, component_permutation hcoupled]

/-! ## One operation -/

theorem three_le_length {qs : List Nat} (h0 : qs ≠ []) (h1 : ∀ p, qs ≠ [p])
    (h2 : ∀ p q, qs ≠ [p, q]) : 3 ≤ qs.length := by
  rcases qs with _ | ⟨p, _ | ⟨q, _ | ⟨r, rest⟩⟩⟩
  · exact absurd rfl h0
  · exact absurd rfl (h1 p)
  · exact absurd rfl (h2 p q)
  · simp

theorem not_blocked_of_arity {c : CouplingMap} (h : op.arity ≤ 1) : ¬ Blocked c l op := by
  rintro ⟨-, hwide | ⟨a, b, p, q, hqubits, -⟩⟩
  · omega
  · simp [Operation.arity, hqubits] at h

theorem blocked_pair_iff {c : CouplingMap} {a b p q : Nat} (hbarrier : op.isBarrier = false)
    (hqubits : op.qubits = [a, b]) (ha : l.physical? a = some p) (hb : l.physical? b = some q) :
    Blocked c l op ↔ ¬ c.graph.Reachable p q := by
  rw [← SimpleGraph.ConnectedComponent.eq]
  constructor
  · rintro ⟨-, hwide | ⟨a', b', p', q', hqubits', ha', hb', hne⟩⟩
    · simp [Operation.arity, hqubits] at hwide
    · rw [hqubits] at hqubits'
      cases hqubits'
      rw [ha] at ha'
      rw [hb] at hb'
      cases ha'
      cases hb'
      exact hne
  · intro hne
    exact ⟨hbarrier, .inr ⟨a, b, p, q, hqubits, ha, hb, hne⟩⟩

/-- An operation has swaps in front of it unless it is blocked. -/
theorem swapsFor_cases (hop : op.WellFormed n m) (hl : Ready d n l) :
    ¬ Blocked d.coupling l op ∧
        (∃ swaps, swapsFor d (op.withQubits (physicalQubits l op)) = .ok swaps) ∨
      Blocked d.coupling l op ∧
        swapsFor d (op.withQubits (physicalQubits l op)) = .error (refusal op) := by
  have hlength : (physicalQubits l op).length = op.arity := by
    simp [physicalQubits, Operation.arity]
  rw [swapsFor]
  split_ifs with hbarrier
  · have hbarrier : op.isBarrier = true := hbarrier
    exact .inl ⟨fun h => by simp [h.1] at hbarrier, _, rfl⟩
  · have hbarrier : op.isBarrier = false := Bool.eq_false_iff.mpr hbarrier
    simp only [Operation.withQubits]
    split
    · next hqubits =>
      rw [hqubits] at hlength
      exact .inl ⟨not_blocked_of_arity (by simp at hlength; omega), _, rfl⟩
    · next p hqubits =>
      rw [hqubits] at hlength
      exact .inl ⟨not_blocked_of_arity (by simp at hlength; omega), _, rfl⟩
    · next p q hqubits =>
      obtain ⟨a, b, hab, ha, hb, -⟩ := exists_pair hop hl hqubits
      have hp : p < d.coupling.size := by
        have := hl.consistent.physical_lt ha
        rwa [hl.physical] at this
      rw [blocked_pair_iff hbarrier hab ha hb, ← CouplingMap.isSome_distance?_iff hp,
        CouplingMap.shortestPath?]
      cases d.coupling.distance? p q with
      | none => simp [refusal, Operation.arity, hab]
      | some k => simp
    · next h0 h1 h2 =>
      have hwide : 2 < op.arity := by
        rw [← hlength]
        exact three_le_length h0 h1 h2
      rw [refusal, if_pos hwide, hlength]
      exact .inr ⟨⟨hbarrier, .inl hwide⟩, rfl⟩

/-! ## All operations -/

variable {ops : List (Operation α)}

/-- One step of routing: the operation is blocked, or it becomes a block. -/
theorem block_cases (hop : op.WellFormed n m) (hl : Ready d n l) :
    ¬ Blocked d.coupling l op ∧ (∃ b swaps, block d l op = .ok (b, applySwaps l swaps) ∧
        ∀ s ∈ swaps, d.coupling.graph.Adj s.1 s.2) ∨
      Blocked d.coupling l op ∧ block d l op = .error (refusal op) := by
  rcases swapsFor_cases hop hl with ⟨hfree, swaps, hswaps⟩ | ⟨hblocked, herror⟩
  · obtain ⟨-, hcoupled, -⟩ := swapsFor_spec hop hl hswaps
    have hblock :
        block d l op = .ok (⟨swaps, op.withQubits (approach swaps (physicalQubits l op)),
          excursion? d (op.withQubits (approach swaps (physicalQubits l op)))⟩,
        applySwaps l swaps) := by
      simp only [block, hswaps]
    exact .inl ⟨hfree, _, swaps, hblock, hcoupled⟩
  · refine .inr ⟨hblocked, ?_⟩
    simp only [block, herror]

/-- Routing succeeds if no operation is blocked under the layout at the start,
and otherwise fails at the first one that is. -/
theorem blocks_cases (hops : ∀ op ∈ ops, op.WellFormed n m) (hl : Ready d n l) (i : Nat) :
    (∀ op ∈ ops, ¬ Blocked d.coupling l op) ∧ (∃ bs final, blocks d i l ops = .ok (bs, final)) ∨
      ∃ before op after physical, ops = before ++ op :: after ∧
        (∀ o ∈ before, ¬ Blocked d.coupling l o) ∧ Blocked d.coupling l op ∧
        blocks d i l ops = .error (.operation (i + before.length) physical (refusal op)) := by
  induction ops generalizing l i with
  | nil => exact .inl ⟨by simp, _, _, rfl⟩
  | cons op rest ih =>
    obtain ⟨hop, hrest⟩ := List.forall_mem_cons.mp hops
    rw [blocks]
    rcases block_cases hop hl with ⟨hfree, b, swaps, hblock, hcoupled⟩ | ⟨hblocked, herror⟩
    · have hsame (o : Operation α) := @blocked_applySwaps_iff α _ _ _ _ o _ hl hcoupled
      simp only [hblock]
      rcases ih hrest (hl.applySwaps hcoupled) (i + 1) with
        ⟨hall, bs, final, hbs⟩ | ⟨before, o, after, physical, rfl, hbefore, ho, herror⟩
      · simp only [hsame] at hall
        simp only [hbs]
        exact .inl ⟨List.forall_mem_cons.mpr ⟨hfree, hall⟩, _, _, rfl⟩
      · simp only [hsame] at hbefore ho
        simp only [herror]
        refine .inr ⟨op :: before, o, after, physical, rfl,
          List.forall_mem_cons.mpr ⟨hfree, hbefore⟩, ho, ?_⟩
        rw [List.length_cons, Nat.add_right_comm, Nat.add_assoc]
    · simp only [herror]
      exact .inr ⟨[], op, rest, physicalQubits l op, rfl, by simp, hblocked, rfl⟩

/-- Under the layout after some operations the same operations are blocked as
before them. -/
theorem blocked_blocks_iff (hops : ∀ op ∈ ops, op.WellFormed n m) (hl : Ready d n l) {i : Nat}
    {bs : List (Block α)} {final : Layout} (h : blocks d i l ops = .ok (bs, final)) :
    Blocked d.coupling final op ↔ Blocked d.coupling l op := by
  induction ops generalizing l i bs with
  | nil =>
    cases h
    rfl
  | cons first rest ih =>
    obtain ⟨hfirst, hrest⟩ := List.forall_mem_cons.mp hops
    rw [blocks] at h
    rcases block_cases hfirst hl with ⟨-, b, swaps, hblock, hcoupled⟩ | ⟨-, herror⟩
    · rw [hblock] at h
      cases hbs : blocks d (i + 1) (applySwaps l swaps) rest with
      | error e =>
        simp only [hbs] at h
        cases h
      | ok out =>
        obtain ⟨bs', final'⟩ := out
        simp only [hbs] at h
        cases h
        exact (ih hrest (hl.applySwaps hcoupled) hbs).trans (blocked_applySwaps_iff hl hcoupled)
    · rw [herror] at h
      cases h

end QuantumCompiler.Route
