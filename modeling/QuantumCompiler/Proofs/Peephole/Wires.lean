import QuantumCompiler.Proofs.OptionalEntry
import QuantumCompiler.Proofs.Peephole.Rule

/-!
# The wires of a pass

A pass keeps, beside the operations that it has emitted, a list of positions
for every wire.  `Sweep.Tracked` is the invariant of a pass: the list of a wire
holds exactly the positions of the live operations on it, latest first, and
every live operation is well formed.  `step_tracked` is what one operation
preserves, and `run_tracked` is what a whole pass preserves.

The partner search goes back along one wire and then checks the others.
`LeadsBack` is what it establishes for each of them, and `LeadsBack.behind` reads
it under the invariant: everything that lives behind the partner either shares
no wire with the operation that is moved back or is known to commute with it.
-/

namespace QuantumCompiler.Peephole.Sweep

variable {α : Type} {n m : Nat}

/-- Whether what is at a position occupies a wire. -/
def occupies (n q : Nat) (slot : Option (Operation α)) : Bool :=
  slot.any fun op => (wiresOf n op).contains q

/-- The positions of the live operations on a wire, latest first. -/
def occupants (n : Nat) (s : Sweep α) (q : Nat) : List Nat :=
  ((List.range s.slots.size).filter fun i => occupies n q (s.at? i)).reverse

/-- The invariant of a pass over a circuit with given widths. -/
structure Tracked (n m : Nat) (s : Sweep α) : Prop where
  /-- There is a list for every wire. -/
  size : s.wires.size = n
  /-- The list of a wire holds the positions of its live operations. -/
  wire : ∀ q < n, s.wire q = s.occupants n q
  /-- The live operations are well formed. -/
  live : ∀ i op, s.at? i = some op → op.WellFormed n m

/-! ## Changes of one position -/

theorem at?_eq_getElem? (s : Sweep α) (i : Nat) : s.at? i = (s.slots[i]?).join := by
  rw [at?, Array.getD_eq_getD_getElem?]
  cases s.slots[i]? <;> rfl

theorem lt_size_of_at? {s : Sweep α} {i : Nat} {op : Operation α} (h : s.at? i = some op) :
    i < s.slots.size := lt_size_of_getD h

theorem at?_emit (s : Sweep α) (op : Operation α) (i : Nat) :
    (s.emit op).at? i = if i = s.slots.size then some op else s.at? i := by
  rw [at?_eq_getElem?, at?_eq_getElem?, emit, Array.getElem?_push]
  split_ifs <;> rfl

theorem at?_replace (s : Sweep α) {i : Nat} {a : Operation α} (h : s.at? i = some a)
    (op : Operation α) (j : Nat) :
    (s.replace i op).at? j = if j = i then some op else s.at? j := by
  rw [at?, replace, getD_setIfInBounds (lt_size_of_at? h), at?]

theorem at?_remove (s : Sweep α) {i : Nat} {a : Operation α} (h : s.at? i = some a) (j : Nat) :
    (s.remove i).at? j = if j = i then none else s.at? j := by
  rw [remove, h, at?, getD_setIfInBounds (lt_size_of_at? h), at?]

/-! ## Changes of several wires -/

theorem size_foldl_modify (f : List Nat → List Nat) (qs : List Nat) (ws : Array (List Nat)) :
    (qs.foldl (fun ws q => ws.modify q f) ws).size = ws.size := by
  induction qs generalizing ws with
  | nil => rfl
  | cons q rest ih => rw [List.foldl_cons, ih, Array.size_modify]

/-- Changing the lists of distinct wires changes each of them once. -/
theorem getD_foldl_modify (f : List Nat → List Nat) {qs : List Nat} (hnodup : qs.Nodup)
    (ws : Array (List Nat)) {q : Nat} (hq : q < ws.size) :
    (qs.foldl (fun ws p => ws.modify p f) ws).getD q [] =
      if q ∈ qs then f (ws.getD q []) else ws.getD q [] := by
  induction qs generalizing ws with
  | nil => simp
  | cons p rest ih =>
    obtain ⟨hp, hrest⟩ := List.nodup_cons.mp hnodup
    rw [List.foldl_cons, ih hrest _ (by rwa [Array.size_modify])]
    by_cases hqp : q = p
    · subst hqp
      simp [hp, hq, Array.getElem_modify]
    · have hget : (ws.modify p f).getD q [] = ws.getD q [] := by
        simp [hq, Array.getElem_modify, Ne.symm hqp]
      simp [hget, hqp]

theorem mem_occupants {s : Sweep α} {q i : Nat} :
    i ∈ s.occupants n q ↔ ∃ op, s.at? i = some op ∧ q ∈ wiresOf n op := by
  rw [occupants, List.mem_reverse, List.mem_filter, List.mem_range]
  constructor
  · rintro ⟨-, h⟩
    obtain ⟨op, hop, hq⟩ := (Option.any_eq_true _ _).mp h
    exact ⟨op, hop, by simpa using hq⟩
  · rintro ⟨op, hop, hq⟩
    refine ⟨lt_size_of_at? hop, ?_⟩
    rw [occupies, hop]
    simpa using hq

/-- The positions on a wire go down. -/
theorem pairwise_occupants (s : Sweep α) (q : Nat) : (s.occupants n q).Pairwise (· > ·) := by
  rw [occupants, List.pairwise_reverse]
  exact List.pairwise_lt_range.filter _

namespace Tracked

variable {s : Sweep α} {q i : Nat}

/-- A wire lists the live operations that occupy it. -/
theorem mem_wire (h : s.Tracked n m) (hq : q < n) :
    i ∈ s.wire q ↔ ∃ op, s.at? i = some op ∧ q ∈ wiresOf n op := by
  rw [h.wire q hq, mem_occupants]

theorem pairwise_wire (h : s.Tracked n m) (hq : q < n) : (s.wire q).Pairwise (· > ·) := by
  rw [h.wire q hq]
  exact pairwise_occupants s q

/-- Removal changes the wires of the removed operation. -/
theorem wire_remove (h : s.Tracked n m) {a : Operation α} (hi : s.at? i = some a) (hq : q < n) :
    (s.remove i).wire q = if q ∈ wiresOf n a then (s.wire q).erase i else s.wire q := by
  rw [Sweep.wire, remove, hi, h.size]
  exact getD_foldl_modify _ (nodup_wiresOf (h.live i a hi)) _ (by rwa [h.size])

end Tracked

/-! ## The invariant along a pass -/

theorem start_tracked : (start n : Sweep α).Tracked n m where
  size := by simp [start]
  wire q hq := by simp [start, wire, occupants, hq]
  live i op h := by
    have hlt := lt_size_of_at? h
    simp [start] at hlt

theorem emit_tracked {s : Sweep α} (h : s.Tracked n m) {op : Operation α}
    (hop : op.WellFormed n m) : (s.emit op).Tracked n m where
  size := by rw [emit, size_foldl_modify, h.size]
  wire q hq := by
    have hwire : (s.emit op).wire q =
        if q ∈ wiresOf n op then s.slots.size :: s.wire q else s.wire q := by
      rw [wire, emit, h.size]
      exact getD_foldl_modify _ (nodup_wiresOf hop) _ (by rwa [h.size])
    have hold : (List.range s.slots.size).filter (fun i => occupies n q ((s.emit op).at? i)) =
        (List.range s.slots.size).filter fun i => occupies n q (s.at? i) := by
      refine List.filter_congr fun i hi => ?_
      rw [at?_emit, if_neg (Nat.ne_of_lt (List.mem_range.mp hi))]
    have hnew : occupies n q ((s.emit op).at? s.slots.size) = decide (q ∈ wiresOf n op) := by
      rw [at?_emit, if_pos rfl]
      simp [occupies]
    rw [hwire, h.wire q hq, occupants, occupants]
    rw [show (s.emit op).slots.size = s.slots.size + 1 by simp [emit], List.range_succ,
      List.filter_append, hold, List.filter_singleton, hnew, List.reverse_append]
    by_cases hmem : q ∈ wiresOf n op <;> simp [hmem]
  live i op' h' := by
    rw [at?_emit] at h'
    split_ifs at h' with hi
    · cases h'
      exact hop
    · exact h.live i op' h'

theorem remove_tracked {s : Sweep α} (h : s.Tracked n m) {i : Nat} {a : Operation α}
    (hi : s.at? i = some a) : (s.remove i).Tracked n m where
  size := by
    rw [remove, hi]
    exact (size_foldl_modify _ _ _).trans h.size
  wire q hq := by
    have hsize : (s.remove i).slots.size = s.slots.size := by
      rw [remove, hi]
      exact Array.size_setIfInBounds
    have hnew : (s.remove i).occupants n q = (s.occupants n q).filter (· != i) := by
      rw [occupants, occupants, hsize, List.filter_reverse, List.filter_filter]
      congr 1
      refine List.filter_congr fun j hj => ?_
      rw [at?_remove s hi]
      by_cases hj : j = i <;> simp [hj, occupies]
    have hnodup : (s.occupants n q).Nodup :=
      (pairwise_occupants s q).imp fun hgt => Nat.ne_of_gt hgt
    rw [h.wire_remove hi hq, h.wire q hq, hnew]
    split_ifs with hmem
    · exact hnodup.erase_eq_filter i
    · -- An operation that does not occupy the wire is not in its list.
      refine (List.filter_eq_self.mpr fun j hj => ?_).symm
      obtain ⟨op, hop, hqop⟩ := mem_occupants.mp hj
      rw [bne_iff_ne]
      rintro rfl
      rw [hi] at hop
      cases hop
      exact hmem hqop
  live j op h' := by
    rw [at?_remove s hi] at h'
    split_ifs at h'
    exact h.live j op h'

theorem replace_tracked {s : Sweep α} (h : s.Tracked n m) {i : Nat} {a op : Operation α}
    (hi : s.at? i = some a) (hop : op.WellFormed n m) (hwires : wiresOf n op = wiresOf n a) :
    (s.replace i op).Tracked n m where
  size := h.size
  wire q hq := by
    have hsize : (s.replace i op).slots.size = s.slots.size := Array.size_setIfInBounds
    rw [show (s.replace i op).wire q = s.wire q from rfl, h.wire q hq, occupants, occupants,
      hsize]
    congr 1
    refine List.filter_congr fun j hj => ?_
    rw [at?_replace s hi]
    by_cases hj : j = i
    · subst hj
      simp [occupies, hi, hwires]
    · simp [hj]
  live j op' h' := by
    rw [at?_replace s hi] at h'
    split_ifs at h' with hj
    · cases h'
      exact hop
    · exact h.live j op' h'

section Search

variable [RealArith α] {r : Simplifications}

/-! ## The partner search -/

/-- What combines with an operation is on every wire of the operation. -/
theorem Tracked.mem_wire_of_combine? {s : Sweep α} (h : s.Tracked n m) {i q : Nat}
    {a op : Operation α} {c : Combination α} (ha : s.at? i = some a)
    (hc : combine? r a op = some c) (hq : q < n) (hmem : q ∈ op.qubits) : i ∈ s.wire q := by
  refine (h.mem_wire hq).mpr ⟨a, ha, ?_⟩
  rw [wiresOf_of_isUnitary (isUnitary_of_combine? hc).1]
  exact (mem_qubits_of_combine? hc q).mpr hmem

/-- A list of positions leads back to a position, and a gate passes everything
on the way. -/
def LeadsBack (s : Sweep α) (r : Simplifications) (op : Operation α) (l : List Nat) (i : Nat) :
    Prop :=
  ∃ front back, l = front ++ i :: back ∧ ∀ j ∈ front, ∃ e, s.at? j = some e ∧ passes r e op = true

omit [RealArith α] in
theorem LeadsBack.head (s : Sweep α) (op : Operation α) (i : Nat) (l : List Nat) :
    s.LeadsBack r op (i :: l) i :=
  ⟨[], l, rfl, by simp⟩

omit [RealArith α] in
theorem LeadsBack.cons {s : Sweep α} {op e : Operation α} {l : List Nat} {i k : Nat}
    (h : s.LeadsBack r op l i) (he : s.at? k = some e) (hpass : passes r e op = true) :
    s.LeadsBack r op (k :: l) i := by
  obtain ⟨front, back, rfl, hfront⟩ := h
  refine ⟨k :: front, back, rfl, ?_⟩
  intro j hj
  rcases List.mem_cons.mp hj with rfl | hj
  · exact ⟨e, he, hpass⟩
  · exact hfront j hj

/-- The search along a wire stops at the first operation that combines. -/
theorem search_some {s : Sweep α} {op : Operation α} {l : List Nat} {i : Nat} {c : Combination α}
    (h : s.search r op l = some (i, c)) :
    s.LeadsBack r op l i ∧ ∃ a, s.at? i = some a ∧ combine? r a op = some c := by
  induction l with
  | nil => cases h
  | cons k rest ih =>
    rw [search] at h
    split at h
    · cases h
    · next e he =>
      split at h
      · next c' hc' =>
        cases h
        exact ⟨.head s op _ rest, e, he, hc'⟩
      · split_ifs at h with hpass
        obtain ⟨hback, hi⟩ := ih h
        exact ⟨hback.cons he hpass, hi⟩

omit [RealArith α] in
theorem leadsBack_of_clearBack {s : Sweep α} {op : Operation α} {l : List Nat} {i : Nat}
    (h : s.clearBack r op i l = true) : s.LeadsBack r op l i := by
  induction l with
  | nil => cases h
  | cons k rest ih =>
    rw [clearBack, Bool.or_eq_true, beq_iff_eq] at h
    rcases h with rfl | h
    · exact .head s op k rest
    · split at h
      · cases h
      · next e he =>
        obtain ⟨hpass, hrest⟩ := Bool.and_eq_true_iff.mp h
        exact (ih hrest).cons he hpass

omit [RealArith α] in
/-- If a wire leads back to a position, a gate passes everything that lives
behind this position on the wire. -/
theorem LeadsBack.passes {s : Sweep α} (hs : s.Tracked n m) {op e : Operation α} {p i j : Nat}
    (hp : p < n) (h : s.LeadsBack r op (s.wire p) i) (hij : i < j) (hj : s.at? j = some e)
    (hpe : p ∈ wiresOf n e) : passes r e op = true := by
  obtain ⟨front, back, hsplit, hfront⟩ := h
  have hsorted : (front ++ i :: back).Pairwise (· > ·) := hsplit ▸ hs.pairwise_wire hp
  have hmem : j ∈ front ++ i :: back := hsplit ▸ (hs.mem_wire hp).mpr ⟨e, hj, hpe⟩
  -- The positions on a wire go down, so those behind `i` are in front of it.
  have hjfront : j ∈ front := by
    rcases List.mem_append.mp hmem with hjf | hjb
    · exact hjf
    · have hback := (List.pairwise_append.mp hsorted).2.1
      rcases List.mem_cons.mp hjb with rfl | hjb
      · omega
      · have := (List.pairwise_cons.mp hback).1 j hjb
        omega
  obtain ⟨e', he', hpass⟩ := hfront j hjfront
  rw [hj] at he'
  cases he'
  exact hpass

omit [RealArith α] in
/-- If all wires of a gate lead back to a position, what lives behind it either
misses the wires of the gate or commutes with it. -/
theorem LeadsBack.behind {s : Sweep α} (hs : s.Tracked n m) {op : Operation α}
    (hop : op.WellFormed n m) {i : Nat} (h : ∀ p ∈ op.qubits, s.LeadsBack r op (s.wire p) i)
    {j : Nat} {e : Operation α} (hij : i < j) (hj : s.at? j = some e) :
    List.Disjoint op.qubits (wiresOf n e) ∨ Peephole.commute e op = true := by
  by_cases hdisj : List.Disjoint op.qubits (wiresOf n e)
  · exact .inl hdisj
  · simp only [List.Disjoint, not_forall] at hdisj
    obtain ⟨p, hp, hpe, -⟩ := hdisj
    have hpass := (h p hp).passes hs (hop.qubits_lt p hp) hij hj hpe
    exact .inr (Bool.and_eq_true_iff.mp hpass).2

/-- The partner of a gate is live, combines with it, and all wires of the gate
lead back to it. -/
theorem partner?_eq_some {s : Sweep α} {op : Operation α} {i : Nat} {c : Combination α}
    (h : s.partner? r op = some (i, c)) :
    (∃ a, s.at? i = some a ∧ combine? r a op = some c) ∧
      ∀ p ∈ op.qubits, s.LeadsBack r op (s.wire p) i := by
  rw [partner?] at h
  split_ifs at h
  split at h
  · cases h
  · next q others hqubits =>
    split at h
    · cases h
    · next i' c' hsearch =>
      split_ifs at h with hclear
      cases h
      obtain ⟨hback, hi⟩ := search_some hsearch
      refine ⟨hi, fun p hp => ?_⟩
      -- The first wire leads back to the partner by the search, the others are clear.
      rw [hqubits] at hp
      rcases List.mem_cons.mp hp with rfl | hp
      · exact hback
      · exact leadsBack_of_clearBack (List.all_eq_true.mp hclear p hp)

/-! ## One operation and a whole pass -/

/-- What one operation can do to the state of a pass. -/
theorem step_cases (r : Simplifications) (s : Sweep α) (op : Operation α) :
    isIdentity op = true ∧ s.step r op = { s with fired := s.fired + 1 } ∨
      (∃ i c a, s.at? i = some a ∧ combine? r a op = some c ∧ s.step r op = s.apply i c ∧
        ∀ p ∈ op.qubits, s.LeadsBack r op (s.wire p) i) ∨
      s.step r op = s.emit op := by
  rw [step]
  split_ifs with hidentity
  · exact .inl ⟨(Bool.and_eq_true_iff.mp hidentity).2, rfl⟩
  · right
    split
    · next i c hpartner =>
      obtain ⟨⟨a, ha, hc⟩, hback⟩ := partner?_eq_some hpartner
      exact .inl ⟨i, c, a, ha, hc, rfl, hback⟩
    · exact .inr rfl

theorem apply_tracked {s : Sweep α} (hs : s.Tracked n m) {i : Nat} {a op : Operation α}
    {c : Combination α} (ha : s.at? i = some a) (hc : combine? r a op = some c) :
    (s.apply i c).Tracked n m := by
  cases c with
  | eliminated =>
    have h := remove_tracked hs ha
    exact ⟨h.size, h.wire, h.live⟩
  | merged op' =>
    have hop' := standsFor_of_combine? hc
    have hwires : wiresOf n op' = wiresOf n a := by
      rw [wiresOf_of_isUnitary hop'.unitary, wiresOf_of_isUnitary (isUnitary_of_combine? hc).1,
        hop'.qubits]
    have h := replace_tracked hs ha (wellFormed_of_combine? (hs.live i a ha) hc) hwires
    exact ⟨h.size, h.wire, h.live⟩

/-- One operation keeps the invariant. -/
theorem step_tracked {s : Sweep α} (hs : s.Tracked n m) {op : Operation α}
    (hop : op.WellFormed n m) : (s.step r op).Tracked n m := by
  rcases step_cases r s op with ⟨-, h⟩ | ⟨i, c, a, ha, hc, h, -⟩ | h
  · rw [h]
    exact ⟨hs.size, hs.wire, hs.live⟩
  · rw [h]
    exact apply_tracked hs ha hc
  · rw [h]
    exact emit_tracked hs hop

/-- A whole pass keeps the invariant. -/
theorem run_tracked {s : Sweep α} (hs : s.Tracked n m) {ops : List (Operation α)}
    (hops : ∀ op ∈ ops, op.WellFormed n m) : (s.run r ops).Tracked n m := by
  induction ops generalizing s with
  | nil => exact hs
  | cons op rest ih =>
    exact ih (step_tracked hs (hops op List.mem_cons_self))
      fun op' hop' => hops op' (List.mem_cons_of_mem _ hop')

end Search

/-- The operations that are left are the live ones. -/
theorem mem_ops {s : Sweep α} {op : Operation α} : op ∈ s.ops ↔ ∃ i, s.at? i = some op := by
  simp only [ops, List.mem_filterMap, Array.mem_toList_iff, exists_eq_right, at?_eq_getElem?,
    Array.mem_iff_getElem?]
  constructor
  · rintro ⟨i, hi⟩
    exact ⟨i, by rw [hi]; rfl⟩
  · rintro ⟨i, hi⟩
    refine ⟨i, ?_⟩
    cases hslot : s.slots[i]? with
    | none => rw [hslot] at hi; cases hi
    | some slot => rw [hslot] at hi; exact congrArg some hi

end QuantumCompiler.Peephole.Sweep
