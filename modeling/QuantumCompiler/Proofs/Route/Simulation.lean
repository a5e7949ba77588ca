import QuantumCompiler.Proofs.Route.Swaps
import QuantumCompiler.Proofs.WellFormed

/-!
# Routing simulates the given circuit

`Simulates` is the declarative side of routing.  It relates a layout and a list
of operations to the routed operations, the layout at the end, the swaps put
in, and the number of shuttles put in.  Each operation contributes one block:
as many swaps on coupled qubits as its qubits are too far apart, then the
operation where the layout after these swaps has it, between two shuttles if
it crosses zones.

`block_simulates` shows that `Route.block` gives such a block, and
`blocks_simulates` is the induction over the whole circuit.  The operands are
read before the swaps and only the first one is corrected, so the step rests
on two facts about the swaps of a shortest path: they take the first qubit to
the end of the last swap and leave the second one alone.
-/

namespace QuantumCompiler.Route

variable {α β : Type}

/-! ## The specification -/

/-- The number of swaps in front of an operation: none for a barrier and for an
operation on one qubit, and otherwise one less than the distance of the two
qubits under the layout. -/
inductive SwapsNeeded (m : CouplingMap) (l : Layout) (op : Operation α) : Nat → Prop where
  | none (h : op.isBarrier = true ∨ op.arity ≤ 1) : SwapsNeeded m l op 0
  | apart {a b p q k : Nat} (hbarrier : op.isBarrier = false) (hqubits : op.qubits = [a, b])
      (ha : l.physical? a = some p) (hb : l.physical? b = some q)
      (hdistance : m.distance? p q = some (k + 1)) : SwapsNeeded m l op k

/-- An operation with every qubit replaced by its place. -/
def Placed (l : Layout) (op placed : Operation α) : Prop :=
  placed = op.withQubits placed.qubits ∧ op.qubits.map l.physical? = placed.qubits.map some

/-- An operation on two qubits that rest in different zones. -/
def Crosses (d : Device β) (op : Operation α) : Prop :=
  op.isBarrier = false ∧ ∃ p q, op.qubits = [p, q] ∧ d.zoneOf p ≠ d.zoneOf q

/-- The shuttles before and after an operation: none unless it crosses zones,
and then one that takes its second qubit to the zone of the first one and one
that takes it back. -/
inductive Wrapped [NatCast α] (d : Device β) (op : Operation α) :
    List (Operation α) → List (Operation α) → Prop where
  | home (h : ¬ Crosses d op) : Wrapped d op [] []
  | away {p q : Nat} (hcrosses : Crosses d op) (hqubits : op.qubits = [p, q]) :
      Wrapped d op [.shuttle q (d.zoneOf q) (d.zoneOf p)] [.shuttle q (d.zoneOf p) (d.zoneOf q)]

/-- What operations become on a device from a layout on: the routed operations,
the layout at the end, the swaps put in, and the number of shuttles put in. -/
inductive Simulates [NatCast α] (d : Device β) : Layout → List (Operation α) →
    List (Operation α) → Layout → List (Nat × Nat) → Nat → Prop where
  | nil (l : Layout) : Simulates d l [] [] l [] 0
  | cons {l l' final : Layout} {op placed : Operation α}
      {rest before after routed : List (Operation α)} {swaps more : List (Nat × Nat)}
      {shuttles : Nat}
      (count : SwapsNeeded d.coupling l op swaps.length)
      (coupled : ∀ s ∈ swaps, d.coupling.graph.Adj s.1 s.2)
      (swapped : swaps.foldlM (fun l s => l.swap s.1 s.2) l = .ok l')
      (moved : Placed l' op placed)
      (wrapped : Wrapped d placed before after)
      (tail : Simulates d l' rest routed final more shuttles) :
      Simulates d l (op :: rest)
        (swaps.map (fun s => .swap s.1 s.2) ++ before ++ placed :: after ++ routed) final
        (swaps ++ more) (before.length + after.length + shuttles)

/-- An operation other than a barrier on two qubits acts on a coupled pair. -/
def OnCoupled (m : CouplingMap) (op : Operation α) : Prop :=
  op.isBarrier = false → ∀ p q, op.qubits = [p, q] → m.graph.Adj p q

/-! ## Layouts in the course of routing -/

/-- A layout that can be changed and has a place on the device for each of a
number of qubits. -/
structure Ready (d : Device β) (n : Nat) (l : Layout) : Prop where
  consistent : l.Consistent
  frozen : l.frozen = false
  physical : l.numPhysical = d.numQubits
  placed : ∀ q < n, ∃ p, l.physical? q = some p

variable {d : Device β} {n m : Nat} {l : Layout}

theorem swapsBelow_of_adj {swaps : List (Nat × Nat)} (hl : Ready d n l)
    (hcoupled : ∀ s ∈ swaps, d.coupling.graph.Adj s.1 s.2) : SwapsBelow l.numPhysical swaps := by
  intro s hs
  rw [hl.physical]
  exact CouplingMap.lt_size_of_adj (hcoupled s hs)

/-- Swaps on coupled qubits keep a layout ready. -/
theorem Ready.applySwaps {swaps : List (Nat × Nat)} (hl : Ready d n l)
    (hcoupled : ∀ s ∈ swaps, d.coupling.graph.Adj s.1 s.2) :
    Ready d n (applySwaps l swaps) where
  consistent := applySwaps_consistent hl.consistent (swapsBelow_of_adj hl hcoupled)
  frozen := by rw [frozen_applySwaps, hl.frozen]
  physical := by rw [numPhysical_applySwaps, hl.physical]
  placed q hq := by
    obtain ⟨p, hp⟩ := hl.placed q hq
    refine ⟨permutation swaps p, ?_⟩
    rw [physical?_applySwaps hl.consistent (swapsBelow_of_adj hl hcoupled), hp]
    rfl

theorem eq_applySwaps {l' : Layout} {swaps : List (Nat × Nat)} (hl : Ready d n l)
    (hcoupled : ∀ s ∈ swaps, d.coupling.graph.Adj s.1 s.2)
    (hswapped : swaps.foldlM (fun l s => l.swap s.1 s.2) l = .ok l') :
    l' = applySwaps l swaps := by
  rw [foldlM_swap hl.frozen (swapsBelow_of_adj hl hcoupled)] at hswapped
  exact (Except.ok.inj hswapped).symm

/-- The places of the qubits of a well-formed operation. -/
theorem map_physical? (hl : Ready d n l) {op : Operation α} (hop : ∀ q ∈ op.qubits, q < n) :
    op.qubits.map l.physical? = (physicalQubits l op).map some := by
  rw [physicalQubits, List.map_map]
  refine List.map_congr_left fun q hq => ?_
  obtain ⟨p, hp⟩ := hl.placed q (hop q hq)
  simp [hp]

/-! ## One operation -/

section Block

variable {op : Operation α}

/-- The qubits of an operation with two places. -/
theorem exists_pair {p q : Nat} (hop : op.WellFormed n m) (hl : Ready d n l)
    (hqubits : physicalQubits l op = [p, q]) :
    ∃ a b, op.qubits = [a, b] ∧ l.physical? a = some p ∧ l.physical? b = some q ∧ p ≠ q := by
  have hplaces := map_physical? hl hop.qubits_lt
  have hlength : (physicalQubits l op).length = op.qubits.length := by simp [physicalQubits]
  rw [hqubits] at hplaces hlength
  obtain ⟨a, b, hab⟩ := List.length_eq_two.mp hlength.symm
  rw [hab] at hplaces
  simp only [List.map_cons, List.map_nil, List.cons.injEq, and_true] at hplaces
  obtain ⟨ha, hb⟩ := hplaces
  refine ⟨a, b, hab, ha, hb, ?_⟩
  rintro rfl
  have hnodup := hop.nodup
  rw [hab, hl.consistent.injective ha hb] at hnodup
  simp at hnodup

/-- The swaps along a shortest path between the two places of an operation. -/
theorem swapsAlong_pair (hl : Ready d n l) {a b p q : Nat} {path : List Nat}
    (hbarrier : op.isBarrier = false) (hab : op.qubits = [a, b]) (ha : l.physical? a = some p)
    (hb : l.physical? b = some q) (hne : p ≠ q)
    (hpath : d.coupling.shortestPath? p q = some path) :
    SwapsNeeded d.coupling l op (swapsAlong path).length ∧
      (∀ s ∈ swapsAlong path, d.coupling.graph.Adj s.1 s.2) ∧
      op.qubits.map (applySwaps l (swapsAlong path)).physical? =
        (approach (swapsAlong path) [p, q]).map some ∧
      OnCoupled d.coupling (op.withQubits (approach (swapsAlong path) [p, q])) := by
  obtain ⟨k, hdistance, rest, rfl, hdescent⟩ := CouplingMap.shortestPath?_eq_some hpath
  cases k with
  | zero =>
    have hzero := (CouplingMap.distance?_eq_some_iff.mp hdistance).2
    exact absurd (SimpleGraph.edist_eq_zero_iff.mp (by exact_mod_cast hzero)) hne
  | succ k =>
    obtain ⟨hcount, hcoupled, htarget, hstop, hlast⟩ := swapsAlong_spec hdescent
    refine ⟨?_, hcoupled, ?_, ?_⟩
    · rw [hcount]
      exact .apart hbarrier hab ha hb hdistance
    · have hmove := physical?_applySwaps hl.consistent (swapsBelow_of_adj hl hcoupled)
      simp only [hab, approach, List.map_cons, List.map_nil, hmove, ha, hb, Option.map_some,
        htarget, hstop]
    · rintro - p' q' hpq
      simp only [approach, Operation.withQubits, List.cons.injEq, and_true] at hpq
      rw [← hpq.1, ← hpq.2]
      exact hlast

/-- The swaps in front of an operation and where its operands are after them.
The routed operands are those read before the swaps, with the first one
corrected. -/
theorem swapsFor_spec (hop : op.WellFormed n m) (hl : Ready d n l) {swaps : List (Nat × Nat)}
    (h : swapsFor d (op.withQubits (physicalQubits l op)) = .ok swaps) :
    SwapsNeeded d.coupling l op swaps.length ∧
      (∀ s ∈ swaps, d.coupling.graph.Adj s.1 s.2) ∧
      op.qubits.map (applySwaps l swaps).physical? =
        (approach swaps (physicalQubits l op)).map some ∧
      OnCoupled d.coupling (op.withQubits (approach swaps (physicalQubits l op))) := by
  have hplaces := map_physical? hl hop.qubits_lt
  have hlength : (physicalQubits l op).length = op.qubits.length := by simp [physicalQubits]
  have happroach_nil (qs : List Nat) : approach [] qs = qs := by cases qs <;> rfl
  rw [swapsFor] at h
  split_ifs at h with hbarrier
  · cases h
    have hbarrier : op.isBarrier = true := hbarrier
    refine ⟨.none (.inl hbarrier), by simp, ?_, fun hnot => ?_⟩
    · rw [happroach_nil]
      exact hplaces
    · exact absurd (hbarrier.symm.trans hnot) (by simp)
  · have hbarrier : op.isBarrier = false := Bool.eq_false_iff.mpr hbarrier
    simp only [Operation.withQubits] at h
    split at h
    · next hqubits =>
      cases h
      rw [hqubits] at hlength hplaces ⊢
      refine ⟨.none (.inr ?_), by simp, hplaces, fun _ p q hpq => by cases hpq⟩
      rw [Operation.arity, ← hlength]
      simp
    · next p hqubits =>
      cases h
      rw [hqubits] at hlength hplaces ⊢
      refine ⟨.none (.inr ?_), by simp, hplaces, fun _ p q hpq => by cases hpq⟩
      rw [Operation.arity, ← hlength]
      simp
    · next p q hqubits =>
      split at h
      · next path hpath =>
        cases h
        obtain ⟨a, b, hab, ha, hb, hne⟩ := exists_pair hop hl hqubits
        rw [hqubits]
        exact swapsAlong_pair hl hbarrier hab ha hb hne hpath
      · cases h
    · cases h

theorem zoneOf_eq_zero (h : d.zones = 1) (q : Nat) : d.zoneOf q = 0 := by
  simp [Device.zoneOf, h]

/-- An excursion is made exactly for an operation that crosses zones. -/
theorem excursion?_eq (d : Device β) (op : Operation α) :
    excursion? d op = none ∧ ¬ Crosses d op ∨
      ∃ p q, op.qubits = [p, q] ∧ Crosses d op ∧
        excursion? d op = some ⟨q, d.zoneOf q, d.zoneOf p⟩ := by
  rw [excursion?]
  split
  · next p q hbarrier hqubits =>
    by_cases hzones : d.zoneOf p = d.zoneOf q
    · left
      refine ⟨by simp [hzones], ?_⟩
      rintro ⟨-, p', q', hqubits', hne⟩
      rw [hqubits] at hqubits'
      cases hqubits'
      exact hne hzones
    · right
      -- With one zone all qubits rest in it.
      have hmany : 1 < d.zones := by
        by_contra hle
        have hone : d.zones = 1 := by have := d.zones_pos; omega
        exact hzones (by rw [zoneOf_eq_zero hone, zoneOf_eq_zero hone])
      exact ⟨p, q, hqubits, ⟨hbarrier, p, q, hqubits, hzones⟩, by simp [hmany, hzones]⟩
  · next hnot =>
    refine .inl ⟨rfl, ?_⟩
    rintro ⟨hbarrier, p, q, hqubits, -⟩
    exact hnot p q hbarrier hqubits

variable [NatCast α]

/-- The operations of a block around the routed operation. -/
theorem block_ops (d : Device β) (swaps : List (Nat × Nat)) (op : Operation α) :
    ∃ before after, Wrapped d op before after ∧
      (⟨swaps, op, excursion? d op⟩ : Block α).ops =
        swaps.map (fun s => .swap s.1 s.2) ++ before ++ op :: after ∧
      before.length + after.length = if (excursion? d op).isSome then 2 else 0 := by
  rcases excursion?_eq d op with ⟨hnone, hhome⟩ | ⟨p, q, hqubits, hcrosses, hsome⟩
  · refine ⟨[], [], .home hhome, ?_, by simp [hnone]⟩
    simp [Block.ops, hnone]
  · refine ⟨_, _, .away hcrosses hqubits, ?_, by simp [hsome]⟩
    simp [Block.ops, hsome]

/-- What an operation becomes is a block of the specification. -/
theorem block_simulates (hop : op.WellFormed n m) (hl : Ready d n l) {b : Block α} {l' : Layout}
    (h : block d l op = .ok (b, l')) :
    ∃ before after, SwapsNeeded d.coupling l op b.swaps.length ∧
      (∀ s ∈ b.swaps, d.coupling.graph.Adj s.1 s.2) ∧
      b.swaps.foldlM (fun l s => l.swap s.1 s.2) l = .ok l' ∧
      Placed l' op b.op ∧ Wrapped d b.op before after ∧
      b.ops = b.swaps.map (fun s => .swap s.1 s.2) ++ before ++ b.op :: after ∧
      before.length + after.length = (if b.excursion.isSome then 2 else 0) ∧
      OnCoupled d.coupling b.op ∧ Ready d n l' := by
  rw [block] at h
  dsimp only at h
  split at h
  · cases h
  · next swaps hswaps =>
    cases h
    obtain ⟨hcount, hcoupled, hplaces, hon⟩ := swapsFor_spec hop hl hswaps
    obtain ⟨before, after, hwrapped, hops, hshuttles⟩ :=
      block_ops d swaps (op.withQubits (approach swaps (physicalQubits l op)))
    exact ⟨before, after, hcount, hcoupled, foldlM_swap hl.frozen (swapsBelow_of_adj hl hcoupled),
      ⟨rfl, hplaces⟩, hwrapped, hops, hshuttles, hon, hl.applySwaps hcoupled⟩

end Block

/-! ## The whole circuit -/

variable [NatCast α]

theorem Wrapped.onCoupled {op : Operation α} {before after : List (Operation α)}
    (h : Wrapped d op before after) : ∀ s ∈ before ++ after, OnCoupled d.coupling s := by
  cases h with
  | home => simp
  | away =>
    intro s hs _ p q hqubits
    simp only [List.cons_append, List.nil_append, List.mem_cons, List.not_mem_nil, or_false] at hs
    rcases hs with rfl | rfl <;> simp [Operation.shuttle, Operation.ofGate] at hqubits

/-- All operations of a block act on coupled qubits. -/
theorem onCoupled_of_mem {swaps : List (Nat × Nat)} {op : Operation α}
    {before after : List (Operation α)} (hcoupled : ∀ s ∈ swaps, d.coupling.graph.Adj s.1 s.2)
    (hwrapped : Wrapped d op before after) (hop : OnCoupled d.coupling op) :
    ∀ o ∈ swaps.map (fun s => .swap s.1 s.2) ++ before ++ op :: after,
      OnCoupled d.coupling o := by
  intro o ho
  simp only [List.mem_append, List.mem_map, List.mem_cons] at ho
  rcases ho with (⟨s, hs, rfl⟩ | ho) | rfl | ho
  · intro _ p q hqubits
    simp only [Operation.swap, Operation.ofGate, List.cons.injEq, and_true] at hqubits
    rw [← hqubits.1, ← hqubits.2]
    exact hcoupled s hs
  · exact hwrapped.onCoupled o (List.mem_append_left _ ho)
  · exact hop
  · exact hwrapped.onCoupled o (List.mem_append_right _ ho)

/-- Whatever the operations of a circuit become is a run of the specification. -/
theorem blocks_simulates {i : Nat} {ops : List (Operation α)}
    (hops : ∀ op ∈ ops, op.WellFormed n m) (hl : Ready d n l) {bs : List (Block α)}
    {final : Layout} (h : blocks d i l ops = .ok (bs, final)) :
    Simulates d l ops (bs.flatMap Block.ops) final (bs.flatMap (·.swaps)) (shuttleCount bs) ∧
      (∀ op ∈ bs.flatMap Block.ops, OnCoupled d.coupling op) := by
  induction ops generalizing l i bs with
  | nil =>
    cases h
    exact ⟨.nil _, by simp⟩
  | cons op rest ih =>
    rw [blocks] at h
    split at h
    · cases h
    · next b l' hblock =>
      split at h
      · cases h
      · next bs' final' hblocks =>
        cases h
        obtain ⟨before, after, hcount, hcoupled, hswapped, hplaced, hwrapped, hops',
          hshuttles, hon, hl'⟩ := block_simulates (hops op List.mem_cons_self) hl hblock
        obtain ⟨htail, htail'⟩ := ih (fun o ho => hops o (List.mem_cons_of_mem _ ho)) hl' hblocks
        have hcountShuttles : shuttleCount (b :: bs') =
            before.length + after.length + shuttleCount bs' := by
          rw [hshuttles, shuttleCount, shuttleCount, List.countP_cons]
          split_ifs <;> omega
        rw [List.flatMap_cons, List.flatMap_cons, hcountShuttles]
        refine ⟨?_, ?_⟩
        · rw [hops']
          exact .cons hcount hcoupled hswapped hplaced hwrapped htail
        · intro o ho
          rcases List.mem_append.mp ho with ho | ho
          · exact onCoupled_of_mem hcoupled hwrapped hon o (hops' ▸ ho)
          · exact htail' o ho

omit [NatCast α] in
/-- A layout that serves a circuit is ready as soon as it may be changed. -/
theorem clone_ready {c : Circuit α} (hl : l.Consistent) (h : layoutCause? c d l = none) :
    Ready d c.numQubits l.clone := by
  rw [layoutCause?] at h
  split_ifs at h with hsizes hcomplete
  simp only [Bool.or_eq_true, decide_eq_true_eq, bne_iff_ne, ne_eq, not_or, Nat.not_lt,
    not_not] at hsizes
  have hcomplete : l.isComplete = true := by simpa using hcomplete
  refine ⟨hl.congr rfl rfl, rfl, hsizes.2, fun q hq => ?_⟩
  exact Layout.exists_physical hcomplete (Nat.lt_of_lt_of_le hq hsizes.1)

/-- What a successful routing consists of. -/
theorem route_eq_ok {c : Circuit α} {res : Result α} (h : route c d l = .ok res) :
    ∃ bs, layoutCause? c d l = none ∧ blocks d 0 l.clone c.ops = .ok (bs, res.layout) ∧
      (∀ op ∈ bs.flatMap Block.ops, op.WellFormed d.numQubits c.numClbits) ∧
      res.circuit = ⟨d.numQubits, c.numClbits, bs.flatMap Block.ops⟩ ∧
      res.swaps = (bs.flatMap (·.swaps)).length ∧ res.shuttles = shuttleCount bs := by
  rw [route] at h
  split at h
  · cases h
  · next hcause =>
    split at h
    · cases h
    · next bs final hblocks =>
      split at h
      · cases h
      · next circuit hcircuit =>
        cases h
        obtain ⟨hwf, rfl⟩ := Circuit.ofOperations_eq_ok_iff.mp hcircuit
        exact ⟨bs, hcause, hblocks, hwf, rfl, rfl, rfl⟩

theorem wellFormed_of_route {c : Circuit α} {res : Result α} (h : route c d l = .ok res) :
    res.circuit.WellFormed := by
  obtain ⟨bs, -, -, hwf, hcircuit, -⟩ := route_eq_ok h
  rw [hcircuit]
  exact hwf

end QuantumCompiler.Route
