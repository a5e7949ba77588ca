import QuantumCompiler.Proofs.Circuit.Checked
import QuantumCompiler.Proofs.Peephole.Checked.Rule
import QuantumCompiler.Proofs.Peephole.Meaning

/-!
# Passes with every access checked

A pass follows the wires of an operation back through the positions of earlier
operations.  The checked steps give no result if a wire or a position does not
exist, if a position on a wire belongs to an operation that was removed, if the
way back along a wire misses the partner that was found on another one, if the
partner does not combine with the operation after all, or if the circuit refuses
an operation that is left.

All of this follows from `Sweep.Tracked`.  Operations that combine act on the
same qubits, so a partner is on every wire of the operation
(`Tracked.mem_wire_of_combine?`), and `clearBack_eq` meets it.  `step_eq` is one
operation, `pass_eq` a pass, and `optimise_eq` all of them.
-/

namespace QuantumCompiler.Checked.Sweep

open Peephole

variable {α : Type}

/-! ## Accesses -/

/-- The operation at a position, which must not have been removed. -/
def live (s : Sweep α) (i : Nat) : Option (Operation α) := s.slots[i]?.join

/-- The positions on a wire, latest first. -/
def wire (s : Sweep α) (q : Nat) : Option (List Nat) := s.wires[q]?

/-- Changes the positions on every wire of a list. -/
def onWires (f : List Nat → List Nat) (wires : Array (List Nat)) (qs : List Nat) :
    Option (Array (List Nat)) := qs.foldlM (fun wires q => update wires q f) wires

/-- Adds an operation at the end. -/
def emit (s : Sweep α) (op : Operation α) : Option (Sweep α) := do
  let wires ← onWires (s.slots.size :: ·) s.wires (wiresOf s.wires.size op)
  some { s with slots := s.slots.push (some op), wires }

/-- Takes the operation at a position out. -/
def remove (s : Sweep α) (i : Nat) : Option (Sweep α) := do
  let op ← live s i
  let slots ← write s.slots i none
  let wires ← onWires (·.erase i) s.wires (wiresOf s.wires.size op)
  some { s with slots, wires }

/-- Puts another operation at a position. -/
def replace (s : Sweep α) (i : Nat) (op : Operation α) : Option (Sweep α) :=
  (write s.slots i (some op)).map fun slots => { s with slots }

/-- Applies what two operations become to the position of the earlier one. -/
def apply (s : Sweep α) (i : Nat) : Combination α → Option (Sweep α)
  | .eliminated => (remove s i).map fun s' => { s' with fired := s.fired + 1 }
  | .merged op => (replace s i op).map fun s' => { s' with fired := s.fired + 1 }

/-! ## The partner search -/

section Search

variable [RealArith α] (r : Simplifications) (s : Sweep α) (op : Operation α)

/-- The position of the latest operation on a wire that an operation combines
with. -/
def search : List Nat → Option (Option Nat)
  | [] => some none
  | i :: rest => do
    let earlier ← live s i
    let found ← combine r earlier op
    if found.isSome then some (some i)
    else if Sweep.passes r earlier op then search rest else some none

omit [RealArith α] in
/-- Whether an operation can be moved back along a wire to a given position,
which must be on the wire. -/
def clearBack (target : Nat) : List Nat → Option Bool
  | [] => none
  | i :: rest =>
    if i == target then some true
    else do
      let earlier ← live s i
      if Sweep.passes r earlier op then clearBack target rest else some false

/-- Whether an operation can be moved back along all wires of a list. -/
def clearAll (target : Nat) : List Nat → Option Bool
  | [] => some true
  | q :: rest => do
    let positions ← wire s q
    let clear ← clearBack r s op target positions
    if clear then clearAll target rest else some false

/-- The position of the earlier operation that a gate combines with. -/
def partner : Option (Option Nat) :=
  if !op.isUnitary then some none
  else
    match op.qubits with
    | [] => some none
    | q :: others => do
      let positions ← wire s q
      match ← search r s op positions with
      | none => some none
      | some i =>
        let clear ← clearAll r s op i others
        some (if clear then some i else none)

/-- Takes the next operation.  Its partner must combine with it. -/
def step : Option (Sweep α) := do
  let trivial ← isTrivial r op
  if trivial then some { s with fired := s.fired + 1 }
  else
    match ← partner r s op with
    | none => emit s op
    | some i =>
      let earlier ← live s i
      let found ← (← combine r earlier op)
      apply s i found

end Search

end QuantumCompiler.Checked.Sweep

namespace QuantumCompiler.Checked

open Peephole

variable {α : Type} [RealArith α]

/-- One pass over a circuit, which must accept all operations that are left. -/
def pass (r : Simplifications) (c : Circuit α) : Option (Circuit α × Nat) := do
  let s ← c.ops.foldlM (Sweep.step r) (Peephole.Sweep.start c.numQubits)
  let ops ← s.ops.mapM (accept c.numQubits c.numClbits)
  some ({ c with ops }, s.fired)

/-- Passes until nothing changes, at most a given number of them. -/
def repeatPass (r : Simplifications) : Nat → Circuit α → Option (Circuit α × Nat)
  | 0, c => some (c, 0)
  | bound + 1, c => do
    let next ← pass r c
    if next.2 == 0 then some (next.1, 1)
    else (repeatPass r bound next.1).map fun result => (result.1, result.2 + 1)

/-- Optimises a circuit over given native kinds, and counts the passes. -/
def optimise (natives : GateSet) (config : Config) (c : Circuit α) : Option (Circuit α × Nat) :=
  repeatPass (config.enabled.within natives) config.maxPasses c

namespace Sweep

/-! ## Accesses in range -/

section Accesses

variable {n m : Nat} {s : Sweep α} (hs : s.Tracked n m) {op : Operation α}

omit [RealArith α] in
theorem live_eq (s : Sweep α) (i : Nat) : live s i = s.at? i := (s.at?_eq_getElem? i).symm

include hs

omit [RealArith α] in
theorem wire_eq {q : Nat} (hq : q < n) : wire s q = some (s.wire q) :=
  getElem?_eq_some_getD (hs.size ▸ hq) []

omit [RealArith α] in
/-- Every position on a wire belongs to an operation that is still there. -/
theorem exists_live {q i : Nat} (hq : q < n) (hi : i ∈ s.wire q) : ∃ a, s.at? i = some a := by
  obtain ⟨a, ha, -⟩ := (hs.mem_wire hq).mp hi
  exact ⟨a, ha⟩

omit [RealArith α] in
theorem onWires_eq (f : List Nat → List Nat) {a : Operation α} (ha : a.WellFormed n m) :
    onWires f s.wires (wiresOf s.wires.size a) =
      some ((wiresOf s.wires.size a).foldl (fun wires q => wires.modify q f) s.wires) := by
  have hlt : ∀ q ∈ wiresOf s.wires.size a, q < n :=
    fun q hq => lt_of_mem_wiresOf ha (hs.size ▸ hq)
  refine (foldlM_eq (P := fun wires : Array (List Nat) => wires.size = n)
    (fun wires hwires q hq => ?_) hs.size).1
  exact ⟨update_eq (hwires ▸ hlt q hq) f, by rw [Array.size_modify, hwires]⟩

omit [RealArith α] in
theorem emit_eq (hop : op.WellFormed n m) : emit s op = some (s.emit op) := by
  rw [emit, onWires_eq hs _ hop]
  rfl

omit [RealArith α] in
theorem remove_eq {i : Nat} {a : Operation α} (ha : s.at? i = some a) :
    remove s i = some (s.remove i) := by
  rw [remove, live_eq, Peephole.Sweep.remove, ha]
  simp only [write_eq (Peephole.Sweep.lt_size_of_at? ha), onWires_eq hs _ (hs.live i a ha),
    Option.bind_eq_bind, Option.bind_some]

omit [RealArith α] in
theorem apply_eq {i : Nat} {a : Operation α} (ha : s.at? i = some a) (c : Combination α) :
    apply s i c = some (s.apply i c) := by
  cases c with
  | eliminated =>
    rw [apply, remove_eq hs ha]
    rfl
  | merged op =>
    rw [apply, replace, write_eq (Peephole.Sweep.lt_size_of_at? ha)]
    rfl

end Accesses

/-! ## The partner search in range -/

section Search

variable {n m : Nat} {s : Sweep α} (hs : s.Tracked n m) {op : Operation α} (r : Simplifications)

include hs

theorem search_eq (hop : op.WellFormed n m) {positions : List Nat}
    (hlive : ∀ i ∈ positions, ∃ a, s.at? i = some a) :
    search r s op positions = some ((s.search r op positions).map (·.1)) := by
  induction positions with
  | nil => rfl
  | cons i rest ih =>
    obtain ⟨⟨a, ha⟩, hrest⟩ := List.forall_mem_cons.mp hlive
    rw [search, Peephole.Sweep.search, live_eq, ha]
    simp only [Option.bind_eq_bind, Option.bind_some, combine_eq r (hs.live i a ha) hop, ih hrest]
    cases Peephole.Sweep.combine? r a op with
    | some c => rfl
    | none => cases Peephole.Sweep.passes r a op <;> rfl

omit [RealArith α] hs in
/-- The way back along a wire meets a position that is on the wire. -/
theorem clearBack_eq {target : Nat} {positions : List Nat}
    (hlive : ∀ i ∈ positions, ∃ a, s.at? i = some a) (hmem : target ∈ positions) :
    clearBack r s op target positions = some (s.clearBack r op target positions) := by
  induction positions with
  | nil => cases hmem
  | cons i rest ih =>
    obtain ⟨⟨a, ha⟩, hrest⟩ := List.forall_mem_cons.mp hlive
    rw [clearBack, Peephole.Sweep.clearBack]
    by_cases hi : i = target
    · simp [hi]
    · have hmem : target ∈ rest := (List.mem_cons.mp hmem).resolve_left (Ne.symm hi)
      simp only [beq_eq_false_iff_ne.mpr hi, Bool.false_or, live_eq, ha, ih hrest hmem,
        Option.bind_eq_bind, Option.bind_some]
      cases Peephole.Sweep.passes r a op <;> rfl

omit [RealArith α] in
theorem clearAll_eq {i : Nat} {qs : List Nat} (hqs : ∀ q ∈ qs, q < n ∧ i ∈ s.wire q) :
    clearAll r s op i qs = some (qs.all fun q => s.clearBack r op i (s.wire q)) := by
  induction qs with
  | nil => rfl
  | cons q rest ih =>
    obtain ⟨⟨hq, hmem⟩, hrest⟩ := List.forall_mem_cons.mp hqs
    rw [clearAll, wire_eq hs hq, List.all_cons]
    simp only [Option.bind_eq_bind, Option.bind_some,
      clearBack_eq r (fun _ => exists_live hs hq) hmem, ih hrest]
    cases s.clearBack r op i (s.wire q) <;> rfl

theorem partner_eq (hop : op.WellFormed n m) :
    partner r s op = some ((s.partner? r op).map (·.1)) := by
  rw [partner, Peephole.Sweep.partner?]
  by_cases hunitary : (!op.isUnitary) = true
  · rw [if_pos hunitary, if_pos hunitary]
    rfl
  · rw [if_neg hunitary, if_neg hunitary]
    cases hqubits : op.qubits with
    | nil => rfl
    | cons q others =>
      have hlt : ∀ p ∈ q :: others, p < n := hqubits ▸ hop.qubits_lt
      have hq := hlt q List.mem_cons_self
      simp only [wire_eq hs hq, search_eq hs r hop fun _ => exists_live hs hq,
        Option.bind_eq_bind, Option.bind_some]
      cases hsearch : s.search r op (s.wire q) with
      | none => rfl
      | some found =>
        obtain ⟨-, a, ha, hc⟩ := Peephole.Sweep.search_some hsearch
        have hothers : ∀ p ∈ others, p < n ∧ found.1 ∈ s.wire p := fun p hp =>
          have hp := List.mem_cons_of_mem q hp
          ⟨hlt p hp, hs.mem_wire_of_combine? ha hc (hlt p hp) (hqubits ▸ hp)⟩
        simp only [Option.map_some, clearAll_eq hs r hothers, Option.bind_some]
        cases others.all fun p => s.clearBack r op found.1 (s.wire p) <;> rfl

/-- One operation reads only what is there, and its partner combines with
it. -/
theorem step_eq (hop : op.WellFormed n m) : step r s op = some (s.step r op) := by
  rw [step, Peephole.Sweep.step, isTrivial_eq, partner_eq hs r hop]
  simp only [Option.bind_eq_bind, Option.bind_some]
  split_ifs
  · rfl
  · cases hpartner : s.partner? r op with
    | none => exact emit_eq hs hop
    | some found =>
      obtain ⟨⟨a, ha, hc⟩, -⟩ := Peephole.Sweep.partner?_eq_some hpartner
      simp only [Option.map_some, live_eq, ha, Option.bind_some,
        combine_eq r (hs.live _ a ha) hop, hc]
      exact apply_eq hs ha found.2

end Search

end Sweep

/-! ## Passes in range -/

variable {c : Circuit α}

theorem pass_eq (r : Simplifications) (hc : c.WellFormed) :
    pass r c = some (Peephole.pass r c) := by
  have hrun := foldlM_eq (f := Sweep.step r) (g := Peephole.Sweep.step r)
    (fun s hs op hop => ⟨Sweep.step_eq hs r (hc op hop),
      Peephole.Sweep.step_tracked hs (hc op hop)⟩)
    (Peephole.Sweep.start_tracked (α := α) (n := c.numQubits) (m := c.numClbits))
  have haccept := mapM_accept_eq (pass_wellFormed (r := r) hc)
  rw [pass, hrun.1]
  simp only [Option.bind_eq_bind, Option.bind_some]
  change ((Peephole.pass r c).1.ops.mapM (accept c.numQubits c.numClbits)).bind _ = _
  rw [show (Peephole.pass r c).1.ops.mapM (accept c.numQubits c.numClbits) =
    some (Peephole.pass r c).1.ops from haccept]
  rfl

theorem repeatPass_eq (r : Simplifications) (bound : Nat) (hc : c.WellFormed) :
    repeatPass r bound c = some (Peephole.repeatPass r bound c) := by
  induction bound generalizing c with
  | zero => rfl
  | succ bound ih =>
    rw [repeatPass, Peephole.repeatPass, pass_eq r hc]
    simp only [Option.bind_eq_bind, Option.bind_some, ih (pass_wellFormed hc), Option.map_some]
    split_ifs <;> rfl

/-- No pass leaves its tables, finds a partner that does not combine, or gives
an operation that the circuit refuses. -/
theorem optimise_eq (natives : GateSet) (config : Config) (hc : c.WellFormed) :
    optimise natives config c = some (Peephole.optimise natives config c) := repeatPass_eq _ _ hc

end QuantumCompiler.Checked
