import QuantumCompiler.Proofs.Executable

/-!
# What the final check decides

The final check follows the zones of all qubits in a table that shuttles
change.  This module says without that table what can be executed: the zone of
a qubit at any time is read off the operations before, as the destination of
the last shuttle on it (`zoneBefore`), and `Possible` lists the rules for one
operation under given zones.

* `Tracks` says that a table holds the zones left by some operations.  An
  operation is accepted under such a table exactly if it is possible
  (`possible_iff`), and then the next table holds the zones left by it as well
  (`Tracks.concat`).
* `Scan` is what a scan over a list may report, and `firstViolation?_scan` is the
  induction over the operations that are left.
* `violation?_decides` is the check of a circuit.
-/

namespace QuantumCompiler

/-- What a failed check is reported under: the number and the kind of the operation,
or -1 and no kind for the circuit as a whole. -/
def VerificationError.location : VerificationError → Int × String
  | circuit _ => (-1, "")
  | operation i kind _ => (i, kind.name)

namespace Executable

variable {α β : Type} [RealArith α]

/-! ## Zones read off the past -/

/-- Where an operation takes a qubit, if it is a shuttle on it. -/
def destination? (q : Nat) (op : Operation α) : Option Nat :=
  if op.isShuttle && op.actsOn q then op.zones?.map Prod.snd else none

/-- The zone of a qubit after operations: the destination of the last shuttle on
it, or else the zone where it rests. -/
def zoneAfter (d : Device β) (ops : List (Operation α)) (q : Nat) : Nat :=
  (ops.filterMap (destination? q)).getLast?.getD (d.zoneOf q)

/-- The zone of a qubit at the time of an operation of a list. -/
def zoneBefore (d : Device β) (ops : List (Operation α)) (i q : Nat) : Nat :=
  zoneAfter d (ops.take i) q

/-- What an operation has to satisfy when the qubits are in given zones. -/
structure Possible (d : Device β) (zone : Nat → Nat) (op : Operation α) : Prop where
  native : op.isBarrier = true ∨ op.kind ∈ d.natives.kinds
  qubits_lt : ∀ q ∈ op.qubits, q < d.numQubits
  nodup : op.qubits.Nodup
  narrow : op.isBarrier = false → op.arity ≤ 2
  coupled : op.isBarrier = false → ∀ a b, op.qubits = [a, b] →
    (a, b) ∈ d.coupling.edges ∨ (b, a) ∈ d.coupling.edges
  shuttled : op.isShuttle = true → ∃ q target,
    op.qubits = [q] ∧ op.zones? = some (zone q, target) ∧ target < d.zones
  together : op.isBarrier = false → ∀ a b, op.qubits = [a, b] → zone a = zone b

/-- The operation at a place of a list is there and is not possible at its
time. -/
def Refused (d : Device β) (ops : List (Operation α)) (i : Nat) : Prop :=
  ∃ op, ops[i]? = some op ∧ ¬ Possible d (zoneBefore d ops i) op

variable {d : Device β} {n m : Nat} {zones zones' : Array Nat} {zone : Nat → Nat}
  {op : Operation α} {before ops : List (Operation α)}

theorem zoneAfter_concat (d : Device β) (ops : List (Operation α)) (op : Operation α) (q : Nat) :
    zoneAfter d (ops ++ [op]) q = (destination? q op).getD (zoneAfter d ops q) := by
  rw [zoneAfter, zoneAfter, List.filterMap_append]
  cases h : destination? q op with
  | none => simp [h]
  | some z => simp [h]

/-- A shuttle takes its qubit to its destination and no other qubit. -/
theorem destination?_shuttle {q r : Nat} {ends : Nat × Nat} (hshuttle : op.isShuttle = true)
    (hqubits : op.qubits = [q]) (hends : op.zones? = some ends) :
    destination? r op = if r = q then some ends.2 else none := by
  simp [destination?, Operation.actsOn, hshuttle, hqubits, hends]

theorem destination?_of_not_shuttle (hshuttle : op.isShuttle = false) (q : Nat) :
    destination? q op = none := by
  simp [destination?, hshuttle]

/-! ## One operation -/

/-- A table holds the zones of all qubits. -/
structure Tracks (d : Device β) (zones : Array Nat) (zone : Nat → Nat) : Prop where
  size_eq : zones.size = d.numQubits
  zoneAt_eq : ∀ q < d.numQubits, zoneAt zones q = zone q

theorem tracks_restingZones (d : Device β) :
    Tracks d (restingZones d) (zoneAfter d ([] : List (Operation α))) :=
  ⟨size_restingZones d, fun _ hq => zoneAt_restingZones hq⟩

/-- A shuttle is accepted exactly if it starts where its qubit is and ends in a
zone of the device. -/
theorem trackZones_shuttle_iff {q source target : Nat} (hshuttle : op.isShuttle = true)
    (hqubits : op.qubits = [q]) (hends : op.zones? = some (source, target)) :
    trackZones d zones op = .ok zones' ↔
      source = zoneAt zones q ∧ target < d.zones ∧ zones' = zones.setIfInBounds q target := by
  rw [trackZones, if_pos hshuttle, hqubits, hends]
  simp only [List.headD_cons, Option.getD_some, bne_iff_ne]
  split_ifs with hsource htarget
  · exact iff_of_false (by simp) fun h => hsource h.1
  · exact iff_of_false (by simp) fun h => by omega
  · rw [Except.ok.injEq, eq_comm]
    exact ⟨fun h => ⟨not_ne_iff.mp hsource, Nat.lt_of_not_le htarget, h⟩, fun h => h.2.2⟩

/-- The two parts of the check accept an operation exactly if it is possible. -/
theorem possible_iff (hop : op.WellFormed n m) (h : Tracks d zones zone) :
    Possible d zone op ↔
      obstacle? d op = none ∧ ∃ zones', trackZones d zones op = .ok zones' := by
  have hnative : d.isNative op.kind = true ↔ op.isBarrier = true ∨ op.kind ∈ d.natives.kinds := by
    simp [Device.isNative, GateSet.contains, Operation.isBarrier]
  have hnarrow : op.isBarrier = true ∨ op.arity ≤ 2 ↔ (op.isBarrier = false → op.arity ≤ 2) := by
    rw [← Bool.not_eq_true, or_iff_not_imp_left]
  rw [obstacle?_eq_none_iff, hnative, hnarrow]
  constructor
  · intro hp
    refine ⟨⟨hp.native, hp.qubits_lt, hp.nodup, hp.narrow, fun hbarrier a b hqubits => ?_⟩, ?_⟩
    · exact CouplingMap.graph_adj.mpr (hp.coupled hbarrier a b hqubits)
    · by_cases hshuttle : op.isShuttle = true
      · obtain ⟨q, target, hqubits, hends, htarget⟩ := hp.shuttled hshuttle
        have hq := h.zoneAt_eq q (hp.qubits_lt q (by simp [hqubits]))
        exact ⟨_, (trackZones_shuttle_iff hshuttle hqubits hends).mpr ⟨hq.symm, htarget, rfl⟩⟩
      · refine ⟨zones,
          trackZones_eq_self (Bool.eq_false_iff.mpr hshuttle) fun hbarrier a b hqubits => ?_⟩
        rw [h.zoneAt_eq a (hp.qubits_lt a (by simp [hqubits])),
          h.zoneAt_eq b (hp.qubits_lt b (by simp [hqubits]))]
        exact hp.together hbarrier a b hqubits
  · rintro ⟨⟨hkind, hlt, hnodup, hfew, hcoupled⟩, zones', htrack⟩
    refine ⟨hkind, hlt, hnodup, hfew, fun hbarrier a b hqubits => ?_, fun hshuttle => ?_,
      fun hbarrier a b hqubits => ?_⟩
    · exact CouplingMap.graph_adj.mp (hcoupled hbarrier a b hqubits)
    · obtain ⟨q, ⟨source, target⟩, hqubits, hends⟩ := hop.shuttle_shape hshuttle
      obtain ⟨rfl, htarget, -⟩ := (trackZones_shuttle_iff hshuttle hqubits hends).mp htrack
      rw [h.zoneAt_eq q (hlt q (by simp [hqubits]))] at hends
      exact ⟨q, target, hqubits, hends, htarget⟩
    · -- A shuttle has one qubit, so this is an operation that moves nothing.
      have hshuttle : op.isShuttle = false := by
        rw [Bool.eq_false_iff]
        intro hshuttle
        obtain ⟨q, ends, hqubit, -⟩ := hop.shuttle_shape hshuttle
        rw [hqubits] at hqubit
        cases hqubit
      rcases trackZones_of_not_shuttle d zones hshuttle with ⟨-, hsame⟩ | ⟨_, _, -, -, -, herror⟩
      · rw [← h.zoneAt_eq a (hlt a (by simp [hqubits])),
          ← h.zoneAt_eq b (hlt b (by simp [hqubits]))]
        exact hsame hbarrier a b hqubits
      · rw [htrack] at herror
        cases herror

/-- The table after an accepted operation holds the zones after it. -/
theorem Tracks.concat (h : Tracks d zones (zoneAfter d before)) (hop : op.WellFormed n m)
    (hlt : ∀ q ∈ op.qubits, q < d.numQubits) (htrack : trackZones d zones op = .ok zones') :
    Tracks d zones' (zoneAfter d (before ++ [op])) := by
  by_cases hshuttle : op.isShuttle = true
  · obtain ⟨q, ⟨source, target⟩, hqubits, hends⟩ := hop.shuttle_shape hshuttle
    obtain ⟨-, -, rfl⟩ := (trackZones_shuttle_iff hshuttle hqubits hends).mp htrack
    have hq : q < zones.size := h.size_eq ▸ hlt q (by simp [hqubits])
    refine ⟨by rw [Array.size_setIfInBounds, h.size_eq], fun r hr => ?_⟩
    rw [zoneAt_setIfInBounds hq, zoneAfter_concat, destination?_shuttle hshuttle hqubits hends,
      h.zoneAt_eq r hr]
    split_ifs <;> rfl
  · have hnot : op.isShuttle = false := Bool.eq_false_iff.mpr hshuttle
    rcases trackZones_of_not_shuttle d zones hnot with ⟨hsame, -⟩ | ⟨_, _, -, -, -, herror⟩
    · rw [hsame] at htrack
      cases htrack
      refine ⟨h.size_eq, fun r hr => ?_⟩
      rw [zoneAfter_concat, destination?_of_not_shuttle hnot, h.zoneAt_eq r hr]
      rfl
    · rw [htrack] at herror
      cases herror

/-! ## The scan -/

/-- What the scan of a list from some place on may report: nothing if no operation
is refused there, and else the first one that is. -/
inductive Scan (d : Device β) (ops : List (Operation α)) (start : Nat) :
    Option VerificationError → Prop where
  | clear (hall : ∀ i ≥ start, ¬ Refused d ops i) : Scan d ops start none
  | refused {i : Nat} {op : Operation α} (o : Obstacle) (hget : ops[i]? = some op)
      (hrefused : Refused d ops i) (hleast : ∀ j ≥ start, Refused d ops j → i ≤ j) :
      Scan d ops start (some (.operation i op.kind o))

/-- A scan may start at an operation that is not refused as well as behind it. -/
theorem Scan.of_succ {start : Nat} {found : Option VerificationError}
    (hnot : ¬ Refused d ops start) (h : Scan d ops (start + 1) found) :
    Scan d ops start found := by
  have hlater {j : Nat} (hj : j ≥ start) (hrefused : Refused d ops j) : j ≥ start + 1 := by
    rcases Nat.eq_or_lt_of_le hj with rfl | hlt
    · exact absurd hrefused hnot
    · exact hlt
  cases h with
  | clear hall => exact .clear fun i hi hrefused => hall i (hlater hi hrefused) hrefused
  | refused o hget hrefused hleast =>
    exact .refused o hget hrefused fun j hj hj' => hleast j (hlater hj hj') hj'

/-- The operation behind some others is refused exactly if it is not possible in
the zones that they leave. -/
theorem refused_length {rest : List (Operation α)} :
    Refused d (before ++ op :: rest) before.length ↔ ¬ Possible d (zoneAfter d before) op := by
  have hzone : zoneBefore d (before ++ op :: rest) before.length = zoneAfter d before := by
    funext q
    rw [zoneBefore, List.take_left]
  rw [Refused, hzone]
  simp

/-- The operations that are left are scanned from the zones that those before them
leave. -/
theorem firstViolation?_scan {rest : List (Operation α)} (hrest : ∀ op ∈ rest, op.WellFormed n m)
    (h : Tracks d zones (zoneAfter d before)) :
    Scan d (before ++ rest) before.length (firstViolation? d before.length zones rest) := by
  -- The operations move one by one from the list into those before it, and the
  -- table keeps holding the zones that these leave.
  induction rest generalizing before zones with
  | nil =>
    refine .clear fun i hi ⟨op, hget, _⟩ => ?_
    rw [List.append_nil, List.getElem?_eq_none hi] at hget
    cases hget
  | cons op rest ih =>
    obtain ⟨hop, hrest⟩ := List.forall_mem_cons.mp hrest
    have hpossible := possible_iff hop h
    have hstop (hnot : ¬ Possible d (zoneAfter d before) op) (o : Obstacle) :
        Scan d (before ++ op :: rest) before.length (some (.operation before.length op.kind o)) :=
      .refused o (by simp) (refused_length.mpr hnot) fun j hj _ => hj
    rw [firstViolation?]
    cases hobstacle : obstacle? d op with
    | some o => exact hstop (by simp [hpossible, hobstacle]) o
    | none =>
      cases htrack : trackZones d zones op with
      | error o => exact hstop (by simp [hpossible, htrack]) o
      | ok zones' =>
        have hnow : Possible d (zoneAfter d before) op := hpossible.mpr ⟨hobstacle, _, htrack⟩
        have hnext := ih hrest (h.concat hop hnow.qubits_lt htrack)
        rw [List.append_assoc, List.singleton_append, List.length_append,
          List.length_singleton] at hnext
        exact hnext.of_succ fun hrefused => refused_length.mp hrefused hnow

/-! ## The check of a circuit -/

theorem not_refused_iff :
    (∀ i, ¬ Refused d ops i) ↔
      ∀ i op, ops[i]? = some op → Possible d (zoneBefore d ops i) op := by
  simp [Refused]

/-- The final check accepts exactly the circuits that fit on the device and whose
operations are all possible at their times.  Otherwise it reports -1 for a
circuit that is too wide, or the first operation that is not possible. -/
theorem violation?_decides {c : Circuit α} (hc : c.WellFormed) (d : Device β) :
    (violation? c d = none ↔ c.numQubits ≤ d.numQubits ∧
        ∀ i op, c.ops[i]? = some op → Possible d (zoneBefore d c.ops i) op) ∧
      ∀ e, violation? c d = some e →
        (d.numQubits < c.numQubits → e.location = (-1, "")) ∧
          (c.numQubits ≤ d.numQubits → ∃ (i : Nat) (op : Operation α), c.ops[i]? = some op ∧
            e.location = ((i : Int), op.kind.name) ∧ IsLeast {j | Refused d c.ops j} i) := by
  rw [← not_refused_iff]
  by_cases hwidth : d.numQubits < c.numQubits
  · have hfound : violation? c d = some (.circuit (.width c.numQubits d.name d.numQubits)) := by
      rw [violation?, if_pos hwidth]
    rw [hfound]
    refine ⟨iff_of_false (by simp) fun h => by omega, ?_⟩
    rintro e ⟨⟩
    exact ⟨fun _ => rfl, fun h => by omega⟩
  · have hscan : Scan d c.ops 0 (violation? c d) := by
      rw [violation?, if_neg hwidth]
      exact firstViolation?_scan hc (tracks_restingZones d)
    cases hfound : violation? c d with
    | none =>
      rw [hfound] at hscan
      cases hscan with
      | clear hall =>
        exact ⟨iff_of_true rfl ⟨by omega, fun i => hall i (Nat.zero_le i)⟩,
          fun e he => by cases he⟩
    | some e =>
      rw [hfound] at hscan
      cases hscan with
      | @refused i op o hget hrefused hleast =>
        refine ⟨iff_of_false (by simp) fun h => h.2 i hrefused, ?_⟩
        rintro e ⟨⟩
        exact ⟨fun h => absurd h hwidth,
          fun _ => ⟨i, op, hget, rfl, hrefused, fun j hj => hleast j (Nat.zero_le j) hj⟩⟩

/-- Two coupled qubits, each in a zone of its own. -/
def zonedPair : Device Float :=
  (Device.uncalibrated "pair"
    { size := 2
      edges := [(0, 1)]
      tables := ⟨#[[1], [0]], #[#[some 0, some 1], #[some 1, some 0]], #[0, 0]⟩
      edges_valid := by decide
      edges_distinct := by decide
      tables_eq := by cbv } ⟨[.gate .cz, .gate .shuttle]⟩).withZones 2

/-- A qubit is moved into the zone of the other one and back again, which a gate
behind a barrier does not take into account. -/
def returningCircuit : Circuit Float :=
  ⟨2, 0, [.shuttle 0 0 1, .ofGate .cz [] [0, 1], .shuttle 0 1 0, { kind := .gate .barrier },
    .ofGate .cz [] [1, 0], .shuttle 1 0 2]⟩

theorem violation?_returningCircuit :
    returningCircuit.WellFormed ∧
      ∃ e, violation? returningCircuit zonedPair = some e ∧ e.location = (4, "cz") ∧
        IsLeast {j | Refused zonedPair returningCircuit.ops j} 4 := by
  have hc : returningCircuit.WellFormed := by
    unfold Circuit.WellFormed returningCircuit
    decide
  have hfound : violation? returningCircuit zonedPair =
      some (.operation 4 (.gate .cz) (.zonesDiffer 1 0)) := by
    decide +kernel
  obtain ⟨i, op, -, hlocation, hleast⟩ :=
    ((violation?_decides hc zonedPair).2 _ hfound).2 (by decide)
  obtain rfl : 4 = i := Int.ofNat_inj.mp (congrArg Prod.fst hlocation)
  exact ⟨hc, _, hfound, rfl, hleast⟩

end Executable

end QuantumCompiler
