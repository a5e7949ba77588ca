import QuantumCompiler.Proofs.Meaning
import QuantumCompiler.Proofs.Route.Success

/-!
# Routing preserves meaning up to its swaps

A swap may be moved past an operation if its two qubits are renamed there
(`Laws.rename`).  Moving the swaps of a routed circuit to its end, block by
block, undoes the renaming by the layouts after the first one: the routed
operations mean the operations in their first places, followed by all swaps
(`Simulates.meaning_eq`).
-/

namespace QuantumCompiler.Route

variable {α β : Type} {M : Type*} [Monoid M] {d : Device β} {n m k : Nat} {I : Operation α → M}

/-- The laws of an interpretation under which routing is sound. -/
structure Laws (n m : Nat) (I : Operation α → M) : Prop where
  /-- An operation after a swap is the renamed operation before it. -/
  rename : ∀ p q : Nat, ∀ op : Operation α, p < n → q < n → p ≠ q → op.WellFormed n m →
    I (.swap p q) * I op = I (op.mapQubits (Equiv.swap p q)) * I (.swap p q)
  /-- Shuttles mean nothing. -/
  shuttle : ∀ op : Operation α, op.isShuttle = true → I op = 1

/-- The operations for swaps. -/
def swapOps (swaps : List (Nat × Nat)) : List (Operation α) := swaps.map fun s => .swap s.1 s.2

/-- Operations in the places that a layout gives their qubits. -/
def placedBy (l : Layout) (ops : List (Operation α)) : List (Operation α) :=
  ops.map fun op => op.withQubits (physicalQubits l op)

/-! ## Moving swaps -/

/-- Every swap is between two different qubits below a size. -/
def SwapsApart (n : Nat) (swaps : List (Nat × Nat)) : Prop :=
  ∀ s ∈ swaps, s.1 < n ∧ s.2 < n ∧ s.1 ≠ s.2

theorem swapsApart_of_adj {swaps : List (Nat × Nat)}
    (h : ∀ s ∈ swaps, d.coupling.graph.Adj s.1 s.2) : SwapsApart d.numQubits swaps := by
  intro s hs
  obtain ⟨hp, hq⟩ := CouplingMap.lt_size_of_adj (h s hs)
  exact ⟨hp, hq, (h s hs).ne⟩

theorem wellFormed_mapQubits_swap {op : Operation α} (hop : op.WellFormed n m) {p q : Nat}
    (hp : p < n) (hq : q < n) : (op.mapQubits (Equiv.swap p q)).WellFormed n m := by
  refine hop.mapQubits (fun r hr => ?_) fun a _ b _ hab => (Equiv.swap p q).injective hab
  rw [Equiv.swap_apply_def]
  split_ifs
  · exact hq
  · exact hp
  · exact hop.qubits_lt r hr

/-- Swaps before an operation that they rename stand after it as it was. -/
theorem swapOps_mul (hI : Laws n m I) {swaps : List (Nat × Nat)} (hswaps : SwapsApart n swaps)
    {op : Operation α} (hop : op.WellFormed n m) :
    meaning I (swapOps swaps) * I (op.mapQubits (permutation swaps)) =
      I op * meaning I (swapOps swaps) := by
  induction swaps generalizing op with
  | nil => simp [swapOps, permutation, Operation.mapQubits, Operation.withQubits]
  | cons s rest ih =>
    obtain ⟨hp, hq, hne⟩ := hswaps s List.mem_cons_self
    have hrenamed := wellFormed_mapQubits_swap hop hp hq
    have hback : (op.mapQubits (Equiv.swap s.1 s.2)).mapQubits (Equiv.swap s.1 s.2) = op := by
      rw [Operation.mapQubits_mapQubits,
        show ⇑(Equiv.swap s.1 s.2) ∘ ⇑(Equiv.swap s.1 s.2) = id from
          funext fun r => Equiv.swap_apply_self _ _ r]
      simp [Operation.mapQubits, Operation.withQubits]
    have hfirst := hI.rename s.1 s.2 _ hp hq hne hrenamed
    rw [hback] at hfirst
    have hrest := ih (fun s' hs' => hswaps s' (List.mem_cons_of_mem _ hs')) hrenamed
    have hsplit : op.mapQubits (permutation (s :: rest)) =
        (op.mapQubits (Equiv.swap s.1 s.2)).mapQubits (permutation rest) := by
      rw [Operation.mapQubits_mapQubits]
      rfl
    calc meaning I (swapOps (s :: rest)) * I (op.mapQubits (permutation (s :: rest)))
        = I (.swap s.1 s.2) * (meaning I (swapOps rest) *
            I ((op.mapQubits (Equiv.swap s.1 s.2)).mapQubits (permutation rest))) := by
          rw [hsplit, swapOps, List.map_cons, meaning_cons, mul_assoc]
          rfl
      _ = I (.swap s.1 s.2) * I (op.mapQubits (Equiv.swap s.1 s.2)) *
            meaning I (swapOps rest) := by rw [hrest, mul_assoc]
      _ = I op * meaning I (swapOps (s :: rest)) := by
          rw [hfirst, mul_assoc, swapOps, swapOps, List.map_cons, meaning_cons]

theorem swapOps_mul_meaning (hI : Laws n m I) {swaps : List (Nat × Nat)}
    (hswaps : SwapsApart n swaps) {ops : List (Operation α)}
    (hops : ∀ op ∈ ops, op.WellFormed n m) :
    meaning I (swapOps swaps) * meaning I (ops.map (·.mapQubits (permutation swaps))) =
      meaning I ops * meaning I (swapOps swaps) := by
  induction ops with
  | nil => simp
  | cons op rest ih =>
    rw [List.map_cons, meaning_cons, ← mul_assoc,
      swapOps_mul hI hswaps (hops op List.mem_cons_self), mul_assoc,
      ih fun o ho => hops o (List.mem_cons_of_mem _ ho), meaning_cons, mul_assoc]

/-! ## Routed operations -/

variable {l final : Layout} {ops routed : List (Operation α)}

theorem wellFormed_placedBy (hl : Ready d k l) (hops : ∀ op ∈ ops, op.WellFormed k m) :
    ∀ op ∈ placedBy l ops, op.WellFormed d.numQubits m := by
  intro o ho
  obtain ⟨op, hop, rfl⟩ := List.mem_map.mp ho
  exact Placed.wellFormed ⟨rfl, map_physical? hl (hops op hop).qubits_lt⟩ (hops op hop) hl

/-- The places after swaps are the places before them, renamed. -/
theorem placedBy_applySwaps (hl : Ready d k l) (hops : ∀ op ∈ ops, op.WellFormed k m)
    {swaps : List (Nat × Nat)} (hcoupled : ∀ s ∈ swaps, d.coupling.graph.Adj s.1 s.2) :
    placedBy (applySwaps l swaps) ops =
      (placedBy l ops).map (·.mapQubits (permutation swaps)) := by
  rw [placedBy, placedBy, List.map_map]
  refine List.map_congr_left fun op hop => ?_
  show op.mapQubits _ = (op.mapQubits _).mapQubits _
  rw [Operation.mapQubits_mapQubits]
  refine Operation.mapQubits_congr fun q hq => ?_
  obtain ⟨p, hp⟩ := hl.placed q ((hops op hop).qubits_lt q hq)
  rw [physical?_applySwaps hl.consistent (swapsBelow_of_adj hl hcoupled), hp]
  simp [hp]

section Simulation

variable [NatCast α] {swaps : List (Nat × Nat)} {shuttles : Nat}

theorem Wrapped.meaning_eq (hI : Laws n m I) {op : Operation α}
    {before after : List (Operation α)} (h : Wrapped d op before after) :
    meaning I before = 1 ∧ meaning I after = 1 := by
  cases h with
  | home => exact ⟨rfl, rfl⟩
  | away =>
    constructor
    · rw [meaning_cons, hI.shuttle _ rfl, meaning_nil, mul_one]
    · rw [meaning_cons, hI.shuttle _ rfl, meaning_nil, mul_one]

/-- The layout at the end is the first one after all swaps, which are between
coupled qubits. -/
theorem Simulates.final_eq (h : Simulates d l ops routed final swaps shuttles)
    (hl : Ready d k l) :
    final = Route.applySwaps l swaps ∧ ∀ s ∈ swaps, d.coupling.graph.Adj s.1 s.2 := by
  induction h with
  | nil => exact ⟨rfl, by simp⟩
  | @cons l l' final op placed rest before after routed swaps more shuttles _ hcoupled hswapped
      _ _ _ ih =>
    obtain rfl := eq_applySwaps hl hcoupled hswapped
    obtain ⟨hfinal, hmore⟩ := ih (hl.applySwaps hcoupled)
    refine ⟨?_, fun s hs => ?_⟩
    · rw [hfinal]
      simp [Route.applySwaps, List.foldl_append]
    · rcases List.mem_append.mp hs with hs | hs
      · exact hcoupled s hs
      · exact hmore s hs

/-- The permutation of all swaps takes the first layout to the one at the end. -/
theorem Simulates.physical?_final (h : Simulates d l ops routed final swaps shuttles)
    (hl : Ready d k l) (q : Nat) :
    final.physical? q = (l.physical? q).map (permutation swaps) := by
  obtain ⟨rfl, hcoupled⟩ := h.final_eq hl
  exact physical?_applySwaps hl.consistent (swapsBelow_of_adj hl hcoupled) q

theorem Simulates.frozen_final (h : Simulates d l ops routed final swaps shuttles)
    (hl : Ready d k l) : final.frozen = false := by
  obtain ⟨rfl, -⟩ := h.final_eq hl
  rw [frozen_applySwaps, hl.frozen]

/-- The routed operations mean the operations in their first places, followed
by all swaps. -/
theorem Simulates.meaning_eq (hI : Laws d.numQubits m I)
    (h : Simulates d l ops routed final swaps shuttles) (hl : Ready d k l)
    (hops : ∀ op ∈ ops, op.WellFormed k m) :
    meaning I routed = meaning I (placedBy l ops) * meaning I (swapOps swaps) := by
  induction h with
  | nil => simp [placedBy, swapOps]
  | @cons l l' final op placed rest before after routed swaps more shuttles _ hcoupled hswapped
      hplaced hwrapped _ ih =>
    obtain rfl := eq_applySwaps hl hcoupled hswapped
    have hready := hl.applySwaps hcoupled
    obtain ⟨hbefore, hafter⟩ := hwrapped.meaning_eq hI
    have htail := ih hready fun o ho => hops o (List.mem_cons_of_mem _ ho)
    have hop : placed = op.withQubits (physicalQubits (applySwaps l swaps) op) := by
      have hqubits := hplaced.2
      rw [map_physical? hready (hops op List.mem_cons_self).qubits_lt] at hqubits
      rw [hplaced.1, List.map_injective_iff.mpr (Option.some_injective Nat) hqubits]
    have hblock : I placed * meaning I (placedBy (applySwaps l swaps) rest) =
        meaning I (placedBy (applySwaps l swaps) (op :: rest)) := by
      rw [hop, placedBy, placedBy, List.map_cons, meaning_cons]
    calc meaning I (swapOps swaps ++ before ++ placed :: after ++ routed)
        = meaning I (swapOps swaps) *
          (I placed * meaning I (placedBy (applySwaps l swaps) rest)) *
            meaning I (swapOps more) := by
          simp only [meaning_append, meaning_cons, hbefore, hafter, htail, mul_one, mul_assoc]
      _ = meaning I (placedBy l (op :: rest)) * meaning I (swapOps swaps) *
            meaning I (swapOps more) := by
          rw [hblock, placedBy_applySwaps hl hops hcoupled,
            swapOps_mul_meaning hI (swapsApart_of_adj hcoupled) (wellFormed_placedBy hl hops)]
      _ = meaning I (placedBy l (op :: rest)) * meaning I (swapOps (swaps ++ more)) := by
          rw [swapOps, swapOps, swapOps, List.map_append, meaning_append, mul_assoc]

end Simulation

end QuantumCompiler.Route
