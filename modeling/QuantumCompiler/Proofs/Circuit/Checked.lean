import QuantumCompiler.Proofs.Access
import QuantumCompiler.Proofs.Circuit.Depth
import QuantumCompiler.Proofs.WellFormed

/-!
# Circuits with every access checked

A circuit refuses operations that are not well formed; `accept` is an operation
that must not be refused.

A schedule reads and writes the levels of qubits and classical bits by their
numbers, and puts an operation into the layer of a number.  `layers_eq` says
that no such number is out of range for a well-formed circuit.  The invariant of
a schedule is `Levelled`: there is a level for every wire, no level is beyond
the first layer that is not there yet, and layers hold the indices of operations
that were scheduled.  `schedule_eq` is one operation and `scheduleAll_eq` a whole
circuit.

The set of active qubits grows by words as needed, so its accesses are always in
range (`activeQubits_eq`).
-/

namespace QuantumCompiler.Checked

variable {α : Type}

/-! ## Operations -/

/-- An operation that a circuit with given widths must accept. -/
def accept (n m : Nat) (op : Operation α) : Option (Operation α) :=
  if (op.fault? n m).isNone then some op else none

theorem accept_eq {n m : Nat} {op : Operation α} (hop : op.WellFormed n m) :
    accept n m op = some op := by
  rw [accept, show op.fault? n m = none from hop]
  rfl

/-- A circuit accepts a list of well-formed operations. -/
theorem mapM_accept_eq {n m : Nat} {ops : List (Operation α)}
    (hops : ∀ op ∈ ops, op.WellFormed n m) : ops.mapM (accept n m) = some ops := by
  rw [mapM_eq fun op hop => accept_eq (hops op hop), List.map_id']

/-! ## Schedules -/

/-- The greatest level on a list of wires. -/
def topLevel (levels : Array Nat) (wires : List Nat) : Option Nat :=
  wires.foldlM (fun top w => levels[w]?.map (max top)) 0

/-- Sets the level of every wire of a list. -/
def setLevel (levels : Array Nat) (wires : List Nat) (level : Nat) : Option (Array Nat) :=
  wires.foldlM (fun levels w => write levels w level) levels

/-- Puts an index at the end of a layer.  Empty layers are added until the layer
is there. -/
def placeInLayer (layers : Array (List Nat)) (layer index : Nat) : Option (Array (List Nat)) :=
  update (layers ++ Array.replicate (layer + 1 - layers.size) []) layer (· ++ [index])

/-- Schedules the operation with a given index. -/
def schedule (s : Schedule) (index : Nat) (op : Operation α) : Option Schedule :=
  if op.isBarrier then do
    let wires := if op.qubits.isEmpty then List.range s.qubitLevel.size else op.qubits
    let top ← topLevel s.qubitLevel wires
    let qubitLevel ← setLevel s.qubitLevel wires top
    some { s with qubitLevel }
  else do
    let onQubits ← topLevel s.qubitLevel op.qubits
    let onClbits ← topLevel s.clbitLevel op.clbits
    let layer := max onQubits onClbits
    let layers ← placeInLayer s.layers layer index
    let qubitLevel ← setLevel s.qubitLevel op.qubits (layer + 1)
    let clbitLevel ← setLevel s.clbitLevel op.clbits (layer + 1)
    some { qubitLevel, clbitLevel, layers }

/-- Schedules operations whose indices start at a given number. -/
def scheduleAll (s : Schedule) : Nat → List (Operation α) → Option Schedule
  | _, [] => some s
  | i, op :: rest => (schedule s i op).bind fun s => scheduleAll s (i + 1) rest

/-- The indices of the operations in each layer. -/
def layers (c : Circuit α) : Option (List (List Nat)) :=
  (scheduleAll (Schedule.start c.numQubits c.numClbits) 0 c.ops).map (·.layers.toList)

/-- Number of layers. -/
def depth (c : Circuit α) : Option Nat := (layers c).map List.length

/-! ## Active qubits -/

/-- Adds a number to a set of bits, after as many words as it takes. -/
def insert (s : BitSet) (v : Nat) : Option BitSet :=
  (update (s.words ++ Array.replicate (v / 64 + 1 - s.words.size) 0) (v / 64)
    fun word => word ||| (1 <<< (v % 64).toUInt64)).map BitSet.mk

/-- The elements of a set of bits. -/
def elements (s : BitSet) : Option (List Nat) :=
  ((List.range s.words.size).mapM fun w =>
    s.words[w]?.map fun word => (BitSet.wordElements word).map (64 * w + ·)).map List.flatten

/-- Adds the qubits of an operation other than a barrier. -/
def activate (active : BitSet) (op : Operation α) : Option BitSet :=
  if op.isBarrier then some active else op.qubits.foldlM insert active

/-- The qubits that some operation other than a barrier acts on. -/
def activeQubits (c : Circuit α) : Option (List Nat) :=
  (c.ops.foldlM activate (BitSet.ofSize c.numQubits.toUInt64)).bind elements

/-! ## Levels -/

section Levels

variable {levels : Array Nat} {wires : List Nat} {bound : Nat}

theorem topLevel_eq (hwires : ∀ w ∈ wires, w < levels.size) :
    topLevel levels wires = some (Schedule.topLevel levels wires) := by
  refine foldlM_eq_of_forall (fun top w hw => ?_) 0
  rw [getElem?_eq_some_getD (hwires w hw) 0]
  rfl

theorem setLevel_eq (hwires : ∀ w ∈ wires, w < levels.size) (level : Nat) :
    setLevel levels wires level = some (Schedule.setLevel levels wires level) ∧
      (Schedule.setLevel levels wires level).size = levels.size := by
  refine foldlM_eq (P := fun xs : Array Nat => xs.size = levels.size) (fun xs hxs w hw => ?_) rfl
  exact ⟨write_eq (hxs ▸ hwires w hw) level, by rw [Array.size_setIfInBounds, hxs]⟩

theorem setLevel_le {level : Nat} (hlevels : ∀ w, levels.getD w 0 ≤ bound)
    (hlevel : level ≤ bound) (w : Nat) :
    (Schedule.setLevel levels wires level).getD w 0 ≤ bound := by
  rw [Schedule.getD_setLevel]
  split_ifs
  · exact hlevel
  · exact hlevels w

end Levels

/-! ## Layers -/

section Place

variable {layers : Array (List Nat)} {layer : Nat}

theorem size_place (h : layer ≤ layers.size) (index : Nat) :
    (Schedule.place layers layer index).size = max layers.size (layer + 1) := by
  rw [Schedule.size_place]
  split_ifs <;> omega

theorem placeInLayer_eq (h : layer ≤ layers.size) (index : Nat) :
    placeInLayer layers layer index = some (Schedule.place layers layer index) := by
  rw [placeInLayer, update_eq (by simp; omega), Schedule.place]
  split_ifs with hlt
  · rw [Nat.sub_eq_zero_of_le hlt]
    simp
  · obtain rfl : layer = layers.size := by omega
    rw [Nat.add_sub_cancel_left]
    refine congrArg some (Array.ext (by simp) fun i hi hi' => ?_)
    simp only [Array.replicate_succ, Array.replicate_zero, Array.append_push, Array.append_empty,
      Array.getElem_modify, Array.getElem_push]
    split_ifs with heq hlt' hlt'
    · omega
    · rfl
    · rfl
    · simp at hi'
      omega

theorem mem_place {index i : Nat} {after : List Nat}
    (h : after ∈ Schedule.place layers layer index) (hi : i ∈ after) :
    i = index ∨ ∃ old ∈ layers, i ∈ old := by
  rw [Schedule.place] at h
  split_ifs at h with hlt
  · obtain ⟨k, hk, rfl⟩ := Array.getElem_of_mem h
    rw [Array.size_modify] at hk
    rw [Array.getElem_modify] at hi
    split_ifs at hi
    · rcases List.mem_append.mp hi with hi | hi
      · exact .inr ⟨layers[k], Array.getElem_mem hk, hi⟩
      · exact .inl (List.mem_singleton.mp hi)
    · exact .inr ⟨layers[k], Array.getElem_mem hk, hi⟩
  · rcases Array.mem_push.mp h with h | rfl
    · exact .inr ⟨after, h, hi⟩
    · exact .inl (List.mem_singleton.mp hi)

end Place

/-! ## Schedules in range -/

/-- The invariant of a schedule of the first operations of a circuit with given
widths. -/
structure Levelled (n m count : Nat) (s : Schedule) : Prop where
  qubits : s.qubitLevel.size = n
  clbits : s.clbitLevel.size = m
  qubitLevel : ∀ q, s.qubitLevel.getD q 0 ≤ s.layers.size
  clbitLevel : ∀ c, s.clbitLevel.getD c 0 ≤ s.layers.size
  indices : ∀ layer ∈ s.layers, ∀ i ∈ layer, i < count

variable {n m : Nat}

theorem levelled_start : Levelled n m 0 (Schedule.start n m) where
  qubits := by simp [Schedule.start]
  clbits := by simp [Schedule.start]
  qubitLevel q := by simp [Schedule.start, Array.getElem?_replicate]; split <;> simp
  clbitLevel c := by simp [Schedule.start, Array.getElem?_replicate]; split <;> simp
  indices layer h := by simp [Schedule.start] at h

/-- A barrier aligns the levels of its qubits. -/
theorem schedule_of_isBarrier {count : Nat} {s : Schedule} (hs : Levelled n m count s)
    {op : Operation α} (hop : op.WellFormed n m) (hbarrier : op.isBarrier = true) :
    schedule s count op = some (s.step count op) ∧
      Levelled n m (count + 1) (s.step count op) := by
  rw [schedule, Schedule.step, if_pos hbarrier, if_pos hbarrier]
  dsimp only
  have hwires : ∀ w ∈ if op.qubits.isEmpty then List.range s.qubitLevel.size else op.qubits,
      w < s.qubitLevel.size := by
    split_ifs
    · exact fun w => List.mem_range.mp
    · exact hs.qubits ▸ hop.qubits_lt
  generalize (if op.qubits.isEmpty then List.range s.qubitLevel.size else op.qubits) =
    wires at hwires
  obtain ⟨hset, hsize⟩ := setLevel_eq hwires (Schedule.topLevel s.qubitLevel wires)
  rw [topLevel_eq hwires, Option.bind_eq_bind, Option.bind_some, hset]
  refine ⟨rfl, hsize.trans hs.qubits, hs.clbits, ?_, hs.clbitLevel, fun layer hlayer i hi => ?_⟩
  · exact setLevel_le hs.qubitLevel (Schedule.topLevel_le_iff.mpr fun w _ => hs.qubitLevel w)
  · exact Nat.lt_succ_of_lt (hs.indices layer hlayer i hi)

/-- Any other operation is put into a layer, which is at most the first one that
is not there yet. -/
theorem schedule_of_not_isBarrier {count : Nat} {s : Schedule} (hs : Levelled n m count s)
    {op : Operation α} (hop : op.WellFormed n m) (hbarrier : ¬ op.isBarrier = true) :
    schedule s count op = some (s.step count op) ∧
      Levelled n m (count + 1) (s.step count op) := by
  obtain ⟨-, hqubits, -, hclbits, -⟩ := Operation.wellFormed_iff.mp hop
  rw [← hs.qubits] at hqubits
  rw [← hs.clbits] at hclbits
  have hlayer : max (Schedule.topLevel s.qubitLevel op.qubits)
      (Schedule.topLevel s.clbitLevel op.clbits) ≤ s.layers.size :=
    Nat.max_le.mpr ⟨Schedule.topLevel_le_iff.mpr fun w _ => hs.qubitLevel w,
      Schedule.topLevel_le_iff.mpr fun w _ => hs.clbitLevel w⟩
  rw [schedule, Schedule.step, if_neg hbarrier, if_neg hbarrier, topLevel_eq hqubits,
    topLevel_eq hclbits]
  simp only [Option.bind_eq_bind, Option.bind_some, placeInLayer_eq hlayer]
  generalize max (Schedule.topLevel s.qubitLevel op.qubits)
    (Schedule.topLevel s.clbitLevel op.clbits) = layer at hlayer
  obtain ⟨hsetq, hsizeq⟩ := setLevel_eq hqubits (layer + 1)
  obtain ⟨hsetc, hsizec⟩ := setLevel_eq hclbits (layer + 1)
  rw [hsetq, Option.bind_some, hsetc, Option.bind_some]
  have hsize := size_place hlayer count
  refine ⟨rfl, hsizeq.trans hs.qubits, hsizec.trans hs.clbits, ?_, ?_, ?_⟩
  · refine setLevel_le (fun w => ?_) (by dsimp only; omega)
    have := hs.qubitLevel w
    dsimp only
    omega
  · refine setLevel_le (fun w => ?_) (by dsimp only; omega)
    have := hs.clbitLevel w
    dsimp only
    omega
  · intro after hafter i hi
    rcases mem_place hafter hi with rfl | ⟨old, hold, hi⟩
    · exact Nat.lt_succ_self _
    · exact Nat.lt_succ_of_lt (hs.indices old hold i hi)

/-- Scheduling a well-formed operation stays in range and keeps the invariant. -/
theorem schedule_eq {count : Nat} {s : Schedule} (hs : Levelled n m count s) {op : Operation α}
    (hop : op.WellFormed n m) :
    schedule s count op = some (s.step count op) ∧
      Levelled n m (count + 1) (s.step count op) := by
  by_cases hbarrier : op.isBarrier = true
  · exact schedule_of_isBarrier hs hop hbarrier
  · exact schedule_of_not_isBarrier hs hop hbarrier

theorem scheduleAll_eq {count : Nat} {s : Schedule} (hs : Levelled n m count s)
    {ops : List (Operation α)} (hops : ∀ op ∈ ops, op.WellFormed n m) :
    scheduleAll s count ops = some (s.run count ops) ∧
      Levelled n m (count + ops.length) (s.run count ops) := by
  induction ops generalizing s count with
  | nil => exact ⟨rfl, hs⟩
  | cons op rest ih =>
    obtain ⟨hop, hrest⟩ := List.forall_mem_cons.mp hops
    obtain ⟨hstep, hs'⟩ := schedule_eq hs hop
    rw [scheduleAll, hstep, Option.bind_some, Schedule.run, List.length_cons,
      Nat.add_comm rest.length, ← Nat.add_assoc]
    exact ih hs' hrest

theorem layers_eq {c : Circuit α} (hc : c.WellFormed) :
    layers c = some c.layers ∧ ∀ layer ∈ c.layers, ∀ i ∈ layer, i < c.ops.length := by
  obtain ⟨hrun, hlevelled⟩ := scheduleAll_eq levelled_start hc
  rw [layers, hrun, Option.map_some]
  refine ⟨rfl, fun layer hlayer i hi => ?_⟩
  have := hlevelled.indices layer (Array.mem_toList_iff.mp hlayer) i hi
  rwa [Nat.zero_add] at this

theorem depth_eq {c : Circuit α} (hc : c.WellFormed) : depth c = some c.depth := by
  rw [depth, (layers_eq hc).1, Option.map_some, Circuit.depth]

/-! ## Active qubits in range -/

theorem insert_eq (s : BitSet) (v : Nat) : insert s v = some (s.insert v) := by
  rw [insert, update_eq (by simp; omega), Option.map_some, BitSet.insert]

theorem elements_eq (s : BitSet) : elements s = some s.elements := by
  have hread : ∀ w ∈ List.range s.words.size, (s.words[w]?.map fun word =>
      (BitSet.wordElements word).map (64 * w + ·)) =
        some ((BitSet.wordElements (s.words.getD w 0)).map (64 * w + ·)) := fun w hw => by
    rw [getElem?_eq_some_getD (List.mem_range.mp hw) 0, Option.map_some]
  rw [elements, mapM_eq hread, Option.map_some, BitSet.elements, List.flatMap]

theorem activate_eq (active : BitSet) (op : Operation α) :
    activate active op = some (if op.isBarrier then active else active.insertAll op.qubits) := by
  rw [activate]
  split_ifs
  · rfl
  · exact foldlM_eq_of_forall (fun s v _ => insert_eq s v) active

theorem activeQubits_eq (c : Circuit α) : activeQubits c = some c.activeQubits.elements := by
  rw [activeQubits, foldlM_eq_of_forall (fun active op _ => activate_eq active op),
    Option.bind_some, elements_eq]
  rfl

end QuantumCompiler.Checked
