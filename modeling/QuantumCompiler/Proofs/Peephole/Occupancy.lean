import QuantumCompiler.Proofs.Peephole.Checked.Sweep

/-!
# What the wires of a pass list

Before every operation of a pass, each wire lists the positions of the live
operations that occupy it, in ascending order from its end (`Sweep.Indexed`).
This is `Sweep.Tracked` read wire by wire, and it has two consequences for what
a pass does with its wires.

* `Sweep.MeetsPartner`: the partner search looks for a partner along the first
  wire only.  Whatever it finds there is on all other wires as well, so the way
  back along them needs no test for the end of the wire.
* `Sweep.TakesOut`: removal deletes a position from the wires that its operation
  occupies, which may be in the middle of them, and from no others.

`pass_indexed` says so for every state of every pass.
-/

namespace QuantumCompiler.Peephole

namespace Sweep

variable {α : Type} {n m : Nat} {s : Sweep α}

/-! ## Wires and live operations -/

/-- There is a list for each of `n` wires.  From its end it goes up, and it holds
exactly the positions of the live operations that occupy the wire. -/
structure Indexed (n : Nat) (s : Sweep α) : Prop where
  size : s.wires.size = n
  ascending : ∀ q < n, (s.wire q).reverse.Pairwise (· < ·)
  mem_wire : ∀ q < n, ∀ i, i ∈ s.wire q ↔ ∃ op, s.at? i = some op ∧ q ∈ wiresOf n op

theorem Tracked.indexed (hs : s.Tracked n m) : s.Indexed n where
  size := hs.size
  ascending _ hq := List.pairwise_reverse.mpr (hs.pairwise_wire hq)
  mem_wire _ hq _ := hs.mem_wire hq

/-- The operation at position `i` occupies some of `n` wires.  Removal takes `i` out
of these and nothing else, and it leaves the other wires as they are. -/
structure TakesOut (n : Nat) (s : Sweep α) (i : Nat) (a : Operation α) : Prop where
  live : ∀ j, (s.remove i).at? j = if j = i then none else s.at? j
  occupied : ∀ q ∈ wiresOf n a, ∃ behind before, s.wire q = behind ++ i :: before ∧
    (s.remove i).wire q = behind ++ before ∧ i ∉ behind ++ before
  other : ∀ q < n, q ∉ wiresOf n a → i ∉ s.wire q ∧ (s.remove i).wire q = s.wire q
  indexed : (s.remove i).Indexed n

theorem Tracked.takesOut (hs : s.Tracked n m) {i : Nat} {a : Operation α}
    (hi : s.at? i = some a) :
    s.TakesOut n i a where
  live := at?_remove s hi
  occupied q hq := by
    have hlt := lt_of_mem_wiresOf (hs.live i a hi) hq
    have hmem : i ∈ s.wire q := (hs.mem_wire hlt).mpr ⟨a, hi, hq⟩
    obtain ⟨behind, before, hsplit, hbehind⟩ := List.eq_append_cons_of_mem hmem
    -- The positions on a wire go down, so none of them comes twice.
    have hbefore : i ∉ before := by
      intro hmem
      have hsorted : (behind ++ i :: before).Pairwise (· > ·) := hsplit ▸ hs.pairwise_wire hlt
      have hbelow := (List.pairwise_cons.mp (List.pairwise_append.mp hsorted).2.1).1
      exact Nat.lt_irrefl i (hbelow i hmem)
    refine ⟨behind, before, hsplit, ?_, by simp [hbehind, hbefore]⟩
    rw [hs.wire_remove hi hlt, if_pos hq, hsplit, List.erase_append_right _ hbehind,
      List.erase_cons_head]
  other q hlt hq := by
    refine ⟨fun hmem => ?_, by rw [hs.wire_remove hi hlt, if_neg hq]⟩
    obtain ⟨op, hop, hmem⟩ := (hs.mem_wire hlt).mp hmem
    cases hi.symm.trans hop
    exact hq hmem
  indexed := (remove_tracked hs hi).indexed

/-! ## The way back to a partner -/

variable [RealArith α] {r : Simplifications} {op : Operation α}

/-- What the search along the first wire of an operation finds is on every other wire
of it.  The way back along such a wire, which has no result if it runs off the wire
or comes to a gap, ends at the partner or before it: its result is whether the
operation passes everything that lies behind the partner. -/
def MeetsPartner (r : Simplifications) (s : Sweep α) (op : Operation α) : Prop :=
  ∀ q others, op.qubits = q :: others → ∀ i c, s.search r op (s.wire q) = some (i, c) →
    ∀ p ∈ others, ∃ behind before, s.wire p = behind ++ i :: before ∧ i ∉ behind ∧
      Checked.Sweep.clearBack r s op i (s.wire p) =
        some (behind.all fun j => (s.at? j).any (passes r · op))

omit [RealArith α] in
/-- The way back along a wire ends at the first place of its target. -/
theorem clearBack_append {i : Nat} {behind : List Nat} (hi : i ∉ behind) (before : List Nat) :
    s.clearBack r op i (behind ++ i :: before) =
      behind.all fun j => (s.at? j).any (passes r · op) := by
  induction behind with
  | nil => simp [clearBack]
  | cons j rest ih =>
    obtain ⟨hj, hrest⟩ := not_or.mp (List.mem_cons.not.mp hi)
    rw [List.cons_append, clearBack, ih hrest, List.all_cons,
      beq_eq_false_iff_ne.mpr (Ne.symm hj), Bool.false_or]
    cases s.at? j <;> rfl

theorem Tracked.meetsPartner (hs : s.Tracked n m) (hop : op.WellFormed n m) :
    s.MeetsPartner r op := by
  intro q others hqubits i c hsearch p hp
  obtain ⟨-, a, ha, hc⟩ := search_some hsearch
  have hmem : p ∈ op.qubits := hqubits ▸ List.mem_cons_of_mem q hp
  have hlt := hop.qubits_lt p hmem
  -- Operations that combine act on the same qubits, in whatever order.
  have hwire : i ∈ s.wire p := hs.mem_wire_of_combine? ha hc hlt hmem
  have hclear :
      Checked.Sweep.clearBack r s op i (s.wire p) = some (s.clearBack r op i (s.wire p)) :=
    Checked.Sweep.clearBack_eq r (fun _ => Checked.Sweep.exists_live hs hlt) hwire
  obtain ⟨behind, before, hsplit, hbehind⟩ := List.eq_append_cons_of_mem hwire
  refine ⟨behind, before, hsplit, hbehind, ?_⟩
  rw [hclear, hsplit, clearBack_append hbehind]

end Sweep

/-! ## Every state of every pass -/

variable {α : Type} [RealArith α]

/-- Passes keep the shape of a circuit, however many there are. -/
theorem iterate_pass_sameShape (r : Simplifications) {c : Circuit α} (hc : c.WellFormed)
    (k : Nat) : SameShape c ((fun d => (pass r d).1)^[k] c) :=
  Function.Iterate.rec (SameShape c) ⟨hc, rfl, rfl⟩ (fun _ h => h.pass) k

/-- Passes over a well-formed circuit are made one after the other, and one of them
has come to some point of its operations.  Then every wire lists its live operations.
For any operation to come, a partner that is found on its first wire is met on all
others.  The removal of any live operation changes the wires that it occupies and no
others. -/
theorem pass_indexed (r : Simplifications) {c : Circuit α} (hc : c.WellFormed) (k : Nat)
    {done rest : List (Operation α)} (hops : ((fun d => (pass r d).1)^[k] c).ops = done ++ rest) :
    ∃ s, s = (Sweep.start c.numQubits).run r done ∧
      s.Indexed c.numQubits ∧
      (∀ op ∈ rest, s.MeetsPartner r op) ∧
      ∀ i a, s.at? i = some a → s.TakesOut c.numQubits i a := by
  have hshape := iterate_pass_sameShape r hc k
  have hwf (op : Operation α) (hop : op ∈ done ++ rest) :
      op.WellFormed c.numQubits c.numClbits := by
    rw [← hshape.qubits, ← hshape.clbits]
    exact hshape.wellFormed op (hops ▸ hop)
  have hs : ((Sweep.start c.numQubits).run r done).Tracked c.numQubits c.numClbits :=
    Sweep.run_tracked Sweep.start_tracked fun op hop => hwf op (List.mem_append_left _ hop)
  refine ⟨_, rfl, hs.indexed, fun op hop => ?_, fun i a hi => hs.takesOut hi⟩
  exact hs.meetsPartner (hwf op (List.mem_append_right _ hop))

/-- A gate and the same gate with its operands exchanged.  A barrier on all wires stands
before them, and a gate on each of their wires between them. -/
def mirroredCircuit : Circuit Float :=
  { numQubits := 3
    numClbits := 0
    ops :=
      [{ kind := .gate .barrier }, .ofGate .cz [] [0, 1], .ofGate .s [] [0], .ofGate .t [] [1],
        .ofGate .cz [] [1, 0]] }

theorem wellFormed_mirroredCircuit : mirroredCircuit.WellFormed := by
  unfold Circuit.WellFormed mirroredCircuit
  decide

/-- The last gate of `mirroredCircuit` finds its partner along wire 1, behind the gate in
position 3.  The way back along wire 0 passes the gate in position 2. -/
theorem pass_indexed_mirroredCircuit :
    mirroredCircuit.WellFormed ∧
      ∃ s,
        s = (Sweep.start 3).run { cancel := true, commute := true }
          (mirroredCircuit.ops.take 4) ∧
        s.search { cancel := true, commute := true } (.ofGate .cz [] [1, 0]) (s.wire 1) =
          some (1, .eliminated) ∧
        s.wire 0 = [2, 1, 0] ∧
        (∃ behind before, s.wire 0 = behind ++ 1 :: before ∧ 1 ∉ behind ∧
          Checked.Sweep.clearBack { cancel := true, commute := true } s (.ofGate .cz [] [1, 0]) 1
              (s.wire 0) =
            some (behind.all fun j => (s.at? j).any
              (Sweep.passes { cancel := true, commute := true } · (.ofGate .cz [] [1, 0])))) ∧
        ((s.remove 1).Indexed 3) := by
  have hops : mirroredCircuit.ops = mirroredCircuit.ops.take 4 ++ [.ofGate .cz [] [1, 0]] := rfl
  obtain ⟨s, hs, -, hmeets, hremoves⟩ :=
    pass_indexed { cancel := true, commute := true } wellFormed_mirroredCircuit 0 hops
  have hsearch : s.search { cancel := true, commute := true } (.ofGate .cz [] [1, 0]) (s.wire 1) =
      some (1, .eliminated) := by
    rw [hs]
    rfl
  refine ⟨wellFormed_mirroredCircuit, s, hs, hsearch, by rw [hs]; rfl, ?_, ?_⟩
  · exact hmeets _ List.mem_cons_self 1 [0] rfl 1 _ hsearch 0 List.mem_cons_self
  · exact (hremoves 1 (.ofGate .cz [] [0, 1]) (by rw [hs]; rfl)).indexed

end QuantumCompiler.Peephole
