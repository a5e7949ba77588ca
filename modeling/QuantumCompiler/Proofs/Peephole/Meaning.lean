import Mathlib.Algebra.FreeMonoid.Basic
import QuantumCompiler.Peephole.Optimise
import QuantumCompiler.Numeric.Binary64
import QuantumCompiler.Proofs.Meaning
import QuantumCompiler.Proofs.Peephole.Wires

/-!
# Optimisation preserves meaning

`Laws` collects what an interpretation has to satisfy: the local rules are
sound, and a unitary gate commutes with everything that misses its wires.
Under these laws one operation (`step_meaning`), one pass (`pass_meaning`) and
all passes together (`repeatPass_meaning`) keep the meaning of a circuit.

Nothing is assumed about measurements, resets, barriers, shuttles and custom
kinds.  The interpretation `record`, which keeps exactly these operations in
their order, therefore satisfies the laws (`laws_of_isUnitary`).
-/

namespace QuantumCompiler.Peephole

variable {α : Type} {M : Type*} [Monoid M] {n m : Nat} {r : Simplifications} {I : Operation α → M}

/-- The laws of an interpretation under which the local rules are sound, for
operations on given numbers of qubits and classical bits. -/
structure Laws [RealArith α] (n m : Nat) (r : Simplifications) (I : Operation α → M) : Prop where
  /-- A unitary gate commutes with an operation on other wires. -/
  disjoint : ∀ a b : Operation α, a.WellFormed n m → b.WellFormed n m → a.isUnitary = true →
    List.Disjoint (wiresOf n a) (wiresOf n b) → Commute (I a) (I b)
  /-- Operations that are known to commute do commute. -/
  commute : ∀ a b : Operation α, a.WellFormed n m → b.WellFormed n m →
    Peephole.commute a b = true → Commute (I a) (I b)
  /-- An identity means nothing. -/
  identity : ∀ a : Operation α, a.WellFormed n m → isIdentity a = true → I a = 1
  /-- A pair that is eliminated means nothing. -/
  eliminated : ∀ a b : Operation α, a.WellFormed n m → b.WellFormed n m →
    Sweep.combine? r a b = some .eliminated → I a * I b = 1
  /-- A pair means what it is merged into. -/
  merged : ∀ a b op : Operation α, a.WellFormed n m → b.WellFormed n m →
    Sweep.combine? r a b = some (.merged op) → I a * I b = I op

namespace Sweep

/-! ## The operations around a position -/

/-- The operations before and after a live one, and what becomes of them when
it is replaced or removed. -/
theorem ops_around {s : Sweep α} {i : Nat} {a : Operation α} (h : s.at? i = some a) :
    ∃ before after : List (Operation α), s.ops = before ++ a :: after ∧
      (∀ op, (s.replace i op).ops = before ++ op :: after) ∧
      (s.remove i).ops = before ++ after ∧
      ∀ e ∈ after, ∃ j, i < j ∧ s.at? j = some e := by
  have hi : i < s.slots.toList.length := by simpa using lt_size_of_at? h
  have hget : s.slots.toList[i] = some a := by
    rw [at?_eq_getElem?, ← Array.getElem?_toList, List.getElem?_eq_getElem hi] at h
    simpa using h
  have hset (slot : Option (Operation α)) : (s.slots.setIfInBounds i slot).toList =
      s.slots.toList.take i ++ slot :: s.slots.toList.drop (i + 1) := by
    rw [Array.toList_setIfInBounds, List.set_eq_take_append_cons_drop, if_pos hi]
  refine ⟨(s.slots.toList.take i).filterMap id, (s.slots.toList.drop (i + 1)).filterMap id,
    ?_, fun op => ?_, ?_, fun e he => ?_⟩
  · have hsplit : s.slots.toList =
        s.slots.toList.take i ++ some a :: s.slots.toList.drop (i + 1) := by
      rw [← hget, List.cons_getElem_drop_succ, List.take_append_drop]
    conv_lhs => rw [ops, hsplit]
    simp [List.filterMap_append]
  · rw [ops, replace, hset]
    simp [List.filterMap_append]
  · rw [ops, remove, h]
    simp only [hset]
    simp [List.filterMap_append]
  · rw [List.mem_filterMap] at he
    obtain ⟨slot, hslot, rfl⟩ := he
    obtain ⟨k, hk, hslot⟩ := List.mem_iff_getElem.mp hslot
    rw [List.getElem_drop] at hslot
    refine ⟨i + 1 + k, by omega, ?_⟩
    have hlt : i + 1 + k < s.slots.toList.length := by
      rw [List.length_drop] at hk
      omega
    rw [at?_eq_getElem?, ← Array.getElem?_toList, List.getElem?_eq_getElem hlt, hslot]
    rfl

variable [RealArith α]

/-! ## One operation -/

/-- Combining an operation with its partner has the meaning of doing it at the
end: it commutes with everything behind the partner. -/
theorem apply_meaning (hI : Laws n m r I) {s : Sweep α} (hs : s.Tracked n m) {op : Operation α}
    (hop : op.WellFormed n m) {i : Nat} {c : Combination α} {a : Operation α}
    (ha : s.at? i = some a) (hc : combine? r a op = some c)
    (hbehind : ∀ j e, i < j → s.at? j = some e →
      List.Disjoint op.qubits (wiresOf n e) ∨ commute e op = true) :
    meaning I (s.apply i c).ops = meaning I s.ops * I op := by
  obtain ⟨hunitary_a, hunitary⟩ := isUnitary_of_combine? hc
  obtain ⟨before, after, hops, hreplace, hremove, hafter⟩ := ops_around ha
  have hcommute : Commute (meaning I after) (I op) := by
    refine commute_meaning fun e he => ?_
    obtain ⟨j, hij, hj⟩ := hafter e he
    have hwf := hs.live j e hj
    rcases hbehind j e hij hj with hdisj | hcomm
    · rw [← wiresOf_of_isUnitary hunitary] at hdisj
      exact (hI.disjoint op e hop hwf hunitary hdisj).symm
    · exact hI.commute e op hwf hop hcomm
  have hend : meaning I s.ops * I op = meaning I before * (I a * I op) * meaning I after := by
    rw [hops, meaning_append, meaning_cons]
    simp only [mul_assoc, hcommute.eq]
  rw [hend]
  cases c with
  | eliminated =>
    rw [hI.eliminated a op (hs.live i a ha) hop hc, mul_one, ← meaning_append, ← hremove]
    rfl
  | merged op' =>
    rw [hI.merged a op op' (hs.live i a ha) hop hc, mul_assoc, ← meaning_cons, ← meaning_append,
      ← hreplace]
    rfl

/-- One operation adds its meaning at the end. -/
theorem step_meaning (hI : Laws n m r I) {s : Sweep α} (hs : s.Tracked n m) {op : Operation α}
    (hop : op.WellFormed n m) : meaning I (s.step r op).ops = meaning I s.ops * I op := by
  rcases step_cases r s op with ⟨hid, h⟩ | ⟨i, c, a, ha, hc, h, hback⟩ | h
  · rw [h, hI.identity op hop hid, mul_one]
    rfl
  · rw [h]
    exact apply_meaning hI hs hop ha hc fun _ _ hij hj => LeadsBack.behind hs hop hback hij hj
  · rw [h]
    simp [ops, emit, List.filterMap_append]

/-- All operations of a list add their meaning at the end. -/
theorem run_meaning (hI : Laws n m r I) {s : Sweep α} (hs : s.Tracked n m)
    {ops : List (Operation α)} (hops : ∀ op ∈ ops, op.WellFormed n m) :
    meaning I (s.run r ops).ops = meaning I s.ops * meaning I ops := by
  induction ops generalizing s with
  | nil => simp [run]
  | cons op rest ih =>
    have hop := hops op List.mem_cons_self
    have hrest := ih (step_tracked (r := r) hs hop) fun op' hop' =>
      hops op' (List.mem_cons_of_mem _ hop')
    rw [meaning_cons, ← mul_assoc, ← step_meaning hI hs hop]
    exact hrest

end Sweep

variable [RealArith α]

/-! ## Passes -/

/-- A pass keeps the widths of a circuit and well-formed operations. -/
theorem pass_wellFormed {c : Circuit α} (hc : c.WellFormed) : (pass r c).1.WellFormed := by
  intro op hop
  obtain ⟨i, hi⟩ := Sweep.mem_ops.mp hop
  exact (Sweep.run_tracked Sweep.start_tracked hc).live i op hi

/-- A pass keeps the meaning of a circuit. -/
theorem pass_meaning {c : Circuit α} (hc : c.WellFormed)
    (hI : Laws c.numQubits c.numClbits r I) :
    meaning I (pass r c).1.ops = meaning I c.ops := by
  have h := Sweep.run_meaning hI Sweep.start_tracked hc
  rw [show (Sweep.start c.numQubits : Sweep α).ops = [] from rfl, meaning_nil, one_mul] at h
  exact h

/-- What every pass keeps, repeated passes keep. -/
theorem repeatPass_keeps {P : Circuit α → Prop} (hP : ∀ c, P c → P (pass r c).1)
    {c : Circuit α} (h : P c) (bound : Nat) : P (repeatPass r bound c).1 := by
  induction bound generalizing c with
  | zero => exact h
  | succ bound ih =>
    have hnext := hP c h
    rw [repeatPass]
    split
    next next fired hpass =>
    rw [hpass] at hnext
    split_ifs
    · exact hnext
    · exact ih hnext

/-- A well-formed circuit with the widths of another one. -/
structure SameShape (c c' : Circuit α) : Prop where
  wellFormed : c'.WellFormed
  qubits : c'.numQubits = c.numQubits
  clbits : c'.numClbits = c.numClbits

theorem SameShape.pass {c c' : Circuit α} (h : SameShape c c') : SameShape c (pass r c').1 :=
  ⟨pass_wellFormed h.wellFormed, h.qubits, h.clbits⟩

theorem repeatPass_sameShape {c : Circuit α} (hc : c.WellFormed) (bound : Nat) :
    SameShape c (repeatPass r bound c).1 :=
  repeatPass_keeps (P := SameShape c) (fun _ h => h.pass) ⟨hc, rfl, rfl⟩ bound

theorem optimise_wellFormed {c : Circuit α} (hc : c.WellFormed) (natives : GateSet)
    (config : Config) :
    (optimise natives config c).1.WellFormed := (repeatPass_sameShape hc _).wellFormed

/-- Repeated passes keep the meaning of a circuit. -/
theorem repeatPass_meaning {c : Circuit α} (hc : c.WellFormed)
    (hI : Laws c.numQubits c.numClbits r I) (bound : Nat) :
    meaning I (repeatPass r bound c).1.ops = meaning I c.ops := by
  refine (repeatPass_keeps (P := fun c' => SameShape c c' ∧ meaning I c'.ops = meaning I c.ops)
    ?_ ⟨⟨hc, rfl, rfl⟩, rfl⟩ bound).2
  rintro c' ⟨hshape, hmeaning⟩
  refine ⟨hshape.pass, ?_⟩
  rw [pass_meaning hshape.wellFormed (by rw [hshape.qubits, hshape.clbits]; exact hI), hmeaning]

/-- Optimisation keeps the meaning of every well-formed circuit, for all
native kinds, bounds and simplifications. -/
theorem optimise_meaning (natives : GateSet) (config : Config) {c : Circuit α}
    (hc : c.WellFormed)
    (hI : Laws c.numQubits c.numClbits (config.enabled.within natives) I) :
    meaning I (optimise natives config c).1.ops = meaning I c.ops :=
  repeatPass_meaning hc hI config.maxPasses

/-! ## The record of operations that are not unitary -/

/-- An interpretation that gives no meaning to unitary gates satisfies the laws,
whatever is simplified. -/
theorem laws_of_isUnitary (h : ∀ op : Operation α, op.isUnitary = true → I op = 1) :
    Laws n m r I where
  disjoint a b _ _ hunitary _ := by
    rw [h a hunitary]
    exact Commute.one_left _
  commute a b _ _ hcomm := by
    simp only [Peephole.commute, Bool.and_eq_true] at hcomm
    rw [h a hcomm.1.1]
    exact Commute.one_left _
  identity a _ hid := h a (isUnitary_of_isIdentity hid)
  eliminated a b _ _ hc := by
    obtain ⟨ha, hb⟩ := isUnitary_of_combine? hc
    rw [h a ha, h b hb, mul_one]
  merged a b op hwf _ hc := by
    obtain ⟨ha, hb⟩ := isUnitary_of_combine? hc
    rw [h a ha, h b hb, h op (standsFor_of_combine? hc).unitary, mul_one]

/-- Unitary gates mean nothing, and all other operations stand for themselves. -/
def record (op : Operation α) : FreeMonoid (Operation α) :=
  if op.isUnitary then 1 else FreeMonoid.of op

/-- Gates around a measurement and a barrier on all wires, some of which
cancel. -/
def guardedCircuit : Circuit Float :=
  { numQubits := 2
    numClbits := 1
    ops :=
      [.ofGate .x [] [0], .ofGate .cx [] [0, 1], .ofGate .rz [0.5] [0], .ofGate .cx [] [0, 1],
        .measure 0 0, .ofGate .x [] [0], { kind := .gate .barrier }, .ofGate .h [] [1],
        .ofGate .h [] [1]] }

theorem wellFormed_guardedCircuit : guardedCircuit.WellFormed := by
  unfold Circuit.WellFormed guardedCircuit
  decide

/-- At the highest level the measurement and the barrier of `guardedCircuit`
stay as they are. -/
theorem optimise_guardedCircuit :
    guardedCircuit.WellFormed ∧
      Laws guardedCircuit.numQubits guardedCircuit.numClbits
        ((Config.levels.getD 3 default).enabled.within (.ofNames ["u", "cx", "measure"]))
        (record : Operation Float → FreeMonoid (Operation Float)) ∧
      meaning record (optimise (.ofNames ["u", "cx", "measure"]) (Config.levels.getD 3 default)
        guardedCircuit).1.ops = meaning record guardedCircuit.ops := by
  have hlaws : Laws guardedCircuit.numQubits guardedCircuit.numClbits
      ((Config.levels.getD 3 default).enabled.within (.ofNames ["u", "cx", "measure"]))
      (record : Operation Float → FreeMonoid (Operation Float)) :=
    laws_of_isUnitary fun op hop => by rw [record, if_pos hop]
  exact ⟨wellFormed_guardedCircuit, hlaws, optimise_meaning _ _ wellFormed_guardedCircuit hlaws⟩

end QuantumCompiler.Peephole
