import Mathlib.Logic.Function.Basic
import QuantumCompiler.Proofs.Peephole.Thinning

/-!
# Optimisation stays between operations that are not unitary

Measurements, resets, barriers, shuttles and custom operations cut each wire
that they occupy into segments.  Optimisation keeps these operations, and the
gates that it combines lie in the same segment on every wire.

`Ledger` is the state of a pass with a record of what the pass does: for each
live operation the positions, in the original circuit, of the operations it
stands for, and the groups of operations that were eliminated together.  The
record follows the decisions of the pass and has no influence on them
(`sweep_run`).  `History` is the record of all passes.

`Ledger.Recorded` is the invariant: what a live operation stands for lies in the
segments in which it lies itself.  A gate that is moved back to its partner only
passes unitary gates on its wires, so no cut lies between the two
(`cutsBefore_of_leadsBack`).  One operation keeps the invariant
(`Recorded.step`), hence a pass does (`Recorded.run`), and hence all passes do
(`History.repeatPass_sound`).
-/

namespace QuantumCompiler.Peephole

variable {α : Type} {n m : Nat} {r : Simplifications}

/-! ## Segments -/

/-- Whether an operation cuts a wire. -/
def cuts (n q : Nat) (op : Operation α) : Bool := !op.isUnitary && (wiresOf n op).contains q

/-- The number of the segment of a wire in which a position of a list of
operations lies. -/
def segment (n q : Nat) (ops : List (Operation α)) (i : Nat) : Nat :=
  (ops.take i).countP (cuts n q)

theorem cuts_of_isUnitary {op : Operation α} (h : op.isUnitary = true) (q : Nat) :
    cuts n q op = false := by
  rw [cuts, h]
  rfl

/-- Operations at some positions of a list stand for an operation that lies in
given segments: they occupy the same wires and lie in the same segments, and if
there are several of them they are unitary gates. -/
structure StandIn (n : Nat) (ops : List (Operation α)) (op : Operation α) (place : Nat → Nat)
    (group : List Nat) : Prop where
  /-- Each of them is like the operation. -/
  member : ∀ i ∈ group, ∃ a, ops[i]? = some a ∧ a.isUnitary = op.isUnitary ∧
    ∀ q, (q ∈ wiresOf n a ↔ q ∈ wiresOf n op) ∧
      (q ∈ wiresOf n op → segment n q ops i = place q)
  /-- Only unitary gates are put together. -/
  alone : op.isUnitary = false → group.length = 1
  /-- There is one at least. -/
  nonempty : group ≠ []

namespace StandIn

variable {ops : List (Operation α)} {op op' : Operation α} {place place' : Nat → Nat}
  {group group' : List Nat}

theorem congr (h : StandIn n ops op place group) (hunitary : op'.isUnitary = op.isUnitary)
    (hwires : ∀ q, q ∈ wiresOf n op' ↔ q ∈ wiresOf n op)
    (hplace : ∀ q ∈ wiresOf n op', place' q = place q) : StandIn n ops op' place' group where
  member i hi := by
    obtain ⟨a, ha, haunitary, hq⟩ := h.member i hi
    refine ⟨a, ha, haunitary.trans hunitary.symm, fun q => ⟨(hq q).1.trans (hwires q).symm, ?_⟩⟩
    intro hmem
    rw [(hq q).2 ((hwires q).mp hmem), hplace q hmem]
  alone hop := h.alone (hunitary ▸ hop)
  nonempty := h.nonempty

theorem append (h : StandIn n ops op place group) (h' : StandIn n ops op place group')
    (hunitary : op.isUnitary = true) : StandIn n ops op place (group ++ group') where
  member i hi := (List.mem_append.mp hi).elim (h.member i) (h'.member i)
  alone hop := by rw [hunitary] at hop; cases hop
  nonempty := by simp [h.nonempty]

end StandIn

/-- Gates that were put together: they occupy the same wires and lie in the same
segment on each, and if there are several they are unitary. -/
def Together (n : Nat) (ops : List (Operation α)) (group : List Nat) : Prop :=
  ∀ i ∈ group, ∀ j ∈ group, ∃ a b, ops[i]? = some a ∧ ops[j]? = some b ∧
    (group.length ≠ 1 → a.isUnitary = true) ∧
    ∀ q, (q ∈ wiresOf n a ↔ q ∈ wiresOf n b) ∧
      (q ∈ wiresOf n a → segment n q ops i = segment n q ops j)

theorem StandIn.together {ops : List (Operation α)} {op : Operation α} {place : Nat → Nat}
    {group : List Nat} (h : StandIn n ops op place group) : Together n ops group := by
  intro i hi j hj
  obtain ⟨a, ha, haunitary, hqa⟩ := h.member i hi
  obtain ⟨b, hb, -, hqb⟩ := h.member j hj
  refine ⟨a, b, ha, hb, fun hlength => ?_,
    fun q => ⟨(hqa q).1.trans (hqb q).1.symm, fun hq => ?_⟩⟩
  · cases hop : op.isUnitary with
    | true => rw [haunitary, hop]
    | false => exact absurd (h.alone hop) hlength
  · have hmem := (hqa q).1.mp hq
    rw [(hqa q).2 hmem, (hqb q).2 hmem]

/-! ## The record of a pass -/

/-- An operation with the positions, in the original circuit, of what it stands
for. -/
abbrev Sourced (α : Type) := Operation α × List Nat

/-- The state of a pass with a record of what it does. -/
structure Ledger (α : Type) where
  /-- The state of the pass. -/
  sweep : Sweep α
  /-- What the operation at a position stands for. -/
  sources : Nat → List Nat
  /-- The groups that were eliminated. -/
  retired : List (List Nat)

namespace Ledger

/-- The state before the first operation. -/
def start (width : Nat) : Ledger α := ⟨.start width, fun _ => [], []⟩

/-- What is at a position. -/
def record? (l : Ledger α) (i : Nat) : Option (Sourced α) :=
  (l.sweep.at? i).map fun op => (op, l.sources i)

/-- The operations that are left, with what they stand for. -/
def left (l : Ledger α) : List (Sourced α) := (List.range l.sweep.slots.size).filterMap l.record?

/-- The number of live operations before a position that cut a wire. -/
def cutsBefore (n : Nat) (s : Sweep α) (q i : Nat) : Nat :=
  (List.range i).countP fun j => (s.at? j).any (cuts n q)

/-- Adds an operation at the end. -/
def emit (l : Ledger α) (x : Sourced α) : Ledger α :=
  ⟨l.sweep.emit x.1, Function.update l.sources l.sweep.slots.size x.2, l.retired⟩

/-- Drops an operation. -/
def drop (l : Ledger α) (x : Sourced α) : Ledger α :=
  ⟨{ l.sweep with fired := l.sweep.fired + 1 }, l.sources, x.2 :: l.retired⟩

/-- Puts an operation together with the one at a position. -/
def apply (l : Ledger α) (i : Nat) (group : List Nat) : Combination α → Ledger α
  | .eliminated => ⟨l.sweep.apply i .eliminated, l.sources, (l.sources i ++ group) :: l.retired⟩
  | .merged op =>
    ⟨l.sweep.apply i (.merged op), Function.update l.sources i (l.sources i ++ group), l.retired⟩

/-! ## Cuts before a position -/

/-- A change that keeps the cuts at every position keeps their numbers. -/
theorem cutsBefore_congr {s s' : Sweep α} {q i : Nat}
    (h : ∀ j < i, (s'.at? j).any (cuts n q) = (s.at? j).any (cuts n q)) :
    cutsBefore n s' q i = cutsBefore n s q i :=
  List.countP_congr fun j hj => by rw [h j (List.mem_range.mp hj)]

/-- Changing one unitary gate, or taking it out, keeps the numbers of cuts. -/
theorem cutsBefore_of_set {s s' : Sweep α} {i : Nat} {a : Operation α} (ha : s.at? i = some a)
    (hunitary : a.isUnitary = true) {slot : Option (Operation α)}
    (hslot : ∀ op, slot = some op → op.isUnitary = true)
    (h : ∀ j, s'.at? j = if j = i then slot else s.at? j) (q k : Nat) :
    cutsBefore n s' q k = cutsBefore n s q k := by
  refine cutsBefore_congr fun j _ => ?_
  rw [h j]
  split_ifs with hj
  · subst hj
    rw [ha, Option.any_some, cuts_of_isUnitary hunitary]
    cases slot with
    | none => rfl
    | some op => exact cuts_of_isUnitary (hslot op rfl) q
  · rfl

theorem cutsBefore_emit (s : Sweep α) (op : Operation α) {q i : Nat} (hi : i ≤ s.slots.size) :
    cutsBefore n (s.emit op) q i = cutsBefore n s q i := by
  refine cutsBefore_congr fun j hj => ?_
  rw [Sweep.at?_emit, if_neg (by omega)]

/-- Between a gate and its partner there is no cut on a wire of the gate. -/
theorem cutsBefore_of_leadsBack {s : Sweep α} (hs : s.Tracked n m) {op a : Operation α}
    {i q : Nat} (hq : q < n) (h : s.LeadsBack r op (s.wire q) i) (ha : s.at? i = some a)
    (hunitary : a.isUnitary = true) :
    cutsBefore n s q s.slots.size = cutsBefore n s q i := by
  have hi := Sweep.lt_size_of_at? ha
  obtain ⟨d, hd⟩ := Nat.exists_eq_add_of_le (Nat.le_of_lt hi)
  rw [cutsBefore, hd, List.range_add, List.countP_append, cutsBefore, Nat.add_eq_left,
    List.countP_eq_zero]
  intro j hj hcut
  obtain ⟨k, -, rfl⟩ := List.mem_map.mp hj
  obtain ⟨e, he, hcuts⟩ := (Option.any_eq_true _ _).mp hcut
  simp only [cuts, Bool.and_eq_true, Bool.not_eq_true', List.contains_iff_mem] at hcuts
  rcases Nat.eq_zero_or_pos k with rfl | hk
  · rw [Nat.add_zero, ha] at he
    cases he
    rw [hunitary] at hcuts
    cases hcuts.1
  · have hpass := h.passes hs hq (Nat.lt_add_of_pos_right hk) he hcuts.2
    simp only [Sweep.passes, commute, Bool.and_eq_true] at hpass
    rw [hpass.2.1.1] at hcuts
    cases hcuts.1

/-! ## What is left of a pass -/

/-- What is at one position, and the rest. -/
theorem left_perm (l : Ledger α) {i : Nat} (hi : i < l.sweep.slots.size) :
    l.left.Perm ((l.record? i).toList ++
      ((List.range l.sweep.slots.size).erase i).filterMap l.record?) := by
  have h := (List.perm_cons_erase (List.mem_range.mpr hi)).filterMap l.record?
  rw [List.filterMap_cons, ← left] at h
  cases hrecord : l.record? i with
  | none => simpa only [hrecord, Option.toList_none, List.nil_append] using h
  | some x => simpa only [hrecord, Option.toList_some, List.singleton_append] using h

/-- If two records agree but for one position, what they leave agrees but for
what is there. -/
theorem left_perm_of_set {l l' : Ledger α} {i : Nat} {x : Sourced α} (hx : l.record? i = some x)
    (hsize : l'.sweep.slots.size = l.sweep.slots.size)
    (h : ∀ j, j ≠ i → l'.record? j = l.record? j) :
    ∃ rest, l.left.Perm (x :: rest) ∧ l'.left.Perm ((l'.record? i).toList ++ rest) := by
  obtain ⟨op, hop, -⟩ := Option.map_eq_some_iff.mp hx
  have hi := Sweep.lt_size_of_at? hop
  refine ⟨((List.range l.sweep.slots.size).erase i).filterMap l.record?, ?_, ?_⟩
  · have hperm := l.left_perm hi
    rwa [hx] at hperm
  · have hperm := l'.left_perm (hsize ▸ hi)
    have hrest : ((List.range l.sweep.slots.size).erase i).filterMap l'.record? =
        ((List.range l.sweep.slots.size).erase i).filterMap l.record? :=
      List.filterMap_congr fun j hj => h j (List.nodup_range.mem_erase_iff.mp hj).1
    rwa [hsize, hrest] at hperm

theorem map_fst_filterMap_record? (l : Ledger α) (positions : List Nat) :
    (positions.filterMap l.record?).map Prod.fst = positions.filterMap l.sweep.at? := by
  rw [List.map_filterMap]
  refine List.filterMap_congr fun i _ => ?_
  rw [record?, Option.map_map]
  exact Option.map_id'

theorem map_fst_left_eq_ops (l : Ledger α) : l.left.map Prod.fst = l.sweep.ops := by
  have hslots : l.sweep.slots.toList =
      (List.range l.sweep.slots.size).map fun i => l.sweep.at? i := by
    refine List.ext_getElem? fun i => ?_
    rw [Array.getElem?_toList, List.getElem?_map]
    by_cases hi : i < l.sweep.slots.size <;> simp [hi, Sweep.at?_eq_getElem?]
  rw [left, map_fst_filterMap_record?, Sweep.ops, hslots, List.filterMap_map]
  rfl

/-- An operation that is left comes from a position, and what is left before it
comes from the positions before. -/
theorem exists_of_getElem?_filterMap_range {β : Type} (f : Nat → Option β) {size p : Nat} {x : β}
    (h : ((List.range size).filterMap f)[p]? = some x) :
    ∃ i, f i = some x ∧ ((List.range size).filterMap f).take p = (List.range i).filterMap f := by
  induction size with
  | zero => simp at h
  | succ size ih =>
    rw [List.range_succ, List.filterMap_append] at h ⊢
    by_cases hp : p < ((List.range size).filterMap f).length
    · rw [List.getElem?_append_left hp] at h
      rw [List.take_append_of_le_length (Nat.le_of_lt hp)]
      exact ih h
    · -- Only the last position is left.
      have hle := Nat.le_of_not_lt hp
      rw [List.getElem?_append_right hle] at h
      cases hlast : f size with
      | none => simp [hlast] at h
      | some y =>
        simp only [List.filterMap_cons, hlast, List.filterMap_nil, List.getElem?_singleton] at h
        split_ifs at h with hzero
        cases h
        refine ⟨size, hlast, ?_⟩
        rw [show p = ((List.range size).filterMap f).length by omega, List.take_left]

/-! ## The invariant -/

/-- The invariant of a pass with record.  The operations of `done` have been
taken, and `ops` are those of the original circuit. -/
structure Recorded (n m : Nat) (ops : List (Operation α)) (done : List (Sourced α))
    (l : Ledger α) : Prop where
  /-- The pass itself is in order. -/
  tracked : l.sweep.Tracked n m
  /-- No cut is lost. -/
  total : ∀ q, cutsBefore n l.sweep q l.sweep.slots.size = (done.map Prod.fst).countP (cuts n q)
  /-- What a live operation stands for lies where it lies. -/
  live : ∀ i op, l.sweep.at? i = some op →
    StandIn n ops op (fun q => cutsBefore n l.sweep q i) (l.sources i)
  /-- What was eliminated lies in one segment. -/
  retired : ∀ group ∈ l.retired, Together n ops group
  /-- All that was taken is on record. -/
  complete : (l.left.map Prod.snd ++ l.retired).flatten.Perm (done.map Prod.snd).flatten

namespace Recorded

variable {ops : List (Operation α)} {done : List (Sourced α)} {l : Ledger α} {x : Sourced α}

theorem start (ops : List (Operation α)) : Recorded n m ops [] (Ledger.start n) where
  tracked := Sweep.start_tracked
  total q := rfl
  live i op h := by
    have hlt := Sweep.lt_size_of_at? h
    simp [Ledger.start, Sweep.start] at hlt
  retired group h := by cases h
  complete := .refl _

theorem emit (h : Recorded n m ops done l) (hx : x.1.WellFormed n m)
    (hin : StandIn n ops x.1 (fun q => (done.map Prod.fst).countP (cuts n q)) x.2) :
    Recorded n m ops (done ++ [x]) (l.emit x) := by
  have hsize : (l.emit x).sweep.slots.size = l.sweep.slots.size + 1 := by
    simp [Ledger.emit, Sweep.emit]
  have hat (i : Nat) : (l.emit x).sweep.at? i =
      if i = l.sweep.slots.size then some x.1 else l.sweep.at? i := Sweep.at?_emit _ _ _
  have hsources (i : Nat) : (l.emit x).sources i =
      if i = l.sweep.slots.size then x.2 else l.sources i := Function.update_apply _ _ _ _
  have hbefore {i : Nat} (hi : i ≤ l.sweep.slots.size) (q : Nat) :
      cutsBefore n (l.emit x).sweep q i = cutsBefore n l.sweep q i := cutsBefore_emit _ _ hi
  refine ⟨Sweep.emit_tracked h.tracked hx, fun q => ?_, fun i op hop => ?_, h.retired, ?_⟩
  · rw [hsize, cutsBefore, List.range_succ, List.countP_append, ← cutsBefore,
      hbefore (Nat.le_refl _), h.total q, List.map_append, List.countP_append]
    simp [hat]
  · rw [hat] at hop
    rw [hsources]
    split_ifs at hop ⊢ with hi
    · cases hop
      refine hin.congr rfl (fun _ => Iff.rfl) fun q _ => ?_
      rw [hi]
      exact (hbefore (Nat.le_refl _) q).trans (h.total q)
    · refine (h.live i op hop).congr rfl (fun _ => Iff.rfl) fun q _ => ?_
      exact hbefore (Nat.le_of_lt (Sweep.lt_size_of_at? hop)) q
  · have hrecord : ∀ i ∈ List.range l.sweep.slots.size, (l.emit x).record? i = l.record? i := by
      intro i hi
      have hne := Nat.ne_of_lt (List.mem_range.mp hi)
      rw [record?, record?, hat, hsources, if_neg hne, if_neg hne]
    have hleft : (l.emit x).left = l.left ++ [x] := by
      rw [left, hsize, List.range_succ, List.filterMap_append, List.filterMap_congr hrecord, left]
      simp [record?, hat, hsources]
    refine List.perm_iff_count.mpr fun k => ?_
    have hcomplete := h.complete.count_eq k
    rw [hleft, show (l.emit x).retired = l.retired from rfl]
    simp only [List.map_append, List.flatten_append, List.count_append] at hcomplete ⊢
    omega

/-- A unitary gate adds no cut. -/
theorem total_of_isUnitary (h : Recorded n m ops done l) (hunitary : x.1.isUnitary = true)
    (q : Nat) :
    cutsBefore n l.sweep q l.sweep.slots.size =
      ((done ++ [x]).map Prod.fst).countP (cuts n q) := by
  rw [h.total q, List.map_append, List.countP_append]
  simp [cuts_of_isUnitary hunitary]

theorem drop (h : Recorded n m ops done l) (hunitary : x.1.isUnitary = true)
    (hin : StandIn n ops x.1 (fun q => (done.map Prod.fst).countP (cuts n q)) x.2) :
    Recorded n m ops (done ++ [x]) (l.drop x) where
  tracked := ⟨h.tracked.size, h.tracked.wire, h.tracked.live⟩
  total := h.total_of_isUnitary hunitary
  live := h.live
  retired := List.forall_mem_cons.mpr ⟨hin.together, h.retired⟩
  complete := by
    refine List.perm_iff_count.mpr fun k => ?_
    have hcomplete := h.complete.count_eq k
    rw [show (l.drop x).left = l.left from rfl,
      show (l.drop x).retired = x.2 :: l.retired from rfl]
    simp only [List.map_append, List.flatten_append, List.count_append, List.flatten_cons,
      List.map_cons, List.map_nil, List.flatten_nil, List.append_nil] at hcomplete ⊢
    omega

/-- Putting a gate together with the one at a position, where the result lies
in the same segments. -/
theorem set (h : Recorded n m ops done l) (hunitary : x.1.isUnitary = true) {i : Nat}
    {a : Operation α} (ha : l.sweep.at? i = some a) (hunitary_a : a.isUnitary = true)
    {l' : Ledger α} (slot : Option (Operation α)) (htracked : l'.sweep.Tracked n m)
    (hsize : l'.sweep.slots.size = l.sweep.slots.size)
    (hat : ∀ j, l'.sweep.at? j = if j = i then slot else l.sweep.at? j)
    (hsources : ∀ j, j ≠ i → l'.sources j = l.sources j)
    (hslot : ∀ op, slot = some op → op.isUnitary = true ∧
      StandIn n ops op (fun q => cutsBefore n l.sweep q i) (l'.sources i))
    (hretired : ∀ group ∈ l'.retired, Together n ops group)
    (hcomplete : (slot.toList.map (fun _ => l'.sources i) ++ l'.retired).flatten.Perm
      (l.sources i ++ x.2 ++ l.retired.flatten)) :
    Recorded n m ops (done ++ [x]) l' := by
  have hbefore := cutsBefore_of_set (n := n) ha hunitary_a (fun op hop => (hslot op hop).1) hat
  refine ⟨htracked, fun q => ?_, fun j op hop => ?_, hretired, ?_⟩
  · rw [hsize, hbefore q, h.total_of_isUnitary hunitary q]
  · rw [hat] at hop
    split_ifs at hop with hj
    · subst hj
      exact (hslot op hop).2.congr rfl (fun _ => Iff.rfl) fun q _ => hbefore q j
    · rw [hsources j hj]
      exact (h.live j op hop).congr rfl (fun _ => Iff.rfl) fun q _ => hbefore q j
  · have hrecord : l.record? i = some (a, l.sources i) := by rw [record?, ha]; rfl
    have hrecord' : l'.record? i = slot.map fun op => (op, l'.sources i) := by
      rw [record?, hat, if_pos rfl]
    obtain ⟨rest, hold, hnew⟩ := left_perm_of_set hrecord hsize fun j hj => by
      rw [record?, record?, hat, if_neg hj, hsources j hj]
    have hmap : (l'.record? i).toList.map Prod.snd = slot.toList.map fun _ => l'.sources i := by
      rw [hrecord']
      cases slot <;> rfl
    refine List.perm_iff_count.mpr fun k => ?_
    have hold := ((hold.map Prod.snd).flatten).count_eq k
    have hnew := ((hnew.map Prod.snd).flatten).count_eq k
    have hall := h.complete.count_eq k
    have hcomplete := hcomplete.count_eq k
    rw [List.map_append, hmap] at hnew
    simp only [List.map_append, List.flatten_append, List.count_append, List.flatten_cons,
      List.map_cons, List.map_nil, List.flatten_nil,
      List.append_nil] at hold hnew hall hcomplete ⊢
    omega

end Recorded

/-! ## Steps of a pass -/

variable [RealArith α]

/-- Takes the next operation. -/
def step (r : Simplifications) (l : Ledger α) (x : Sourced α) : Ledger α :=
  if r.identities && isIdentity x.1 then l.drop x
  else
    match l.sweep.partner? r x.1 with
    | some (i, c) => l.apply i x.2 c
    | none => l.emit x

/-- Takes all operations of a list. -/
def run (r : Simplifications) (l : Ledger α) (xs : List (Sourced α)) : Ledger α :=
  xs.foldl (step r) l

/-- What the next operation can do to the record. -/
theorem step_cases (r : Simplifications) (l : Ledger α) (x : Sourced α) :
    isIdentity x.1 = true ∧ l.step r x = l.drop x ∨
      (∃ i c a, l.sweep.at? i = some a ∧ Sweep.combine? r a x.1 = some c ∧
        l.step r x = l.apply i x.2 c ∧
        ∀ p ∈ x.1.qubits, l.sweep.LeadsBack r x.1 (l.sweep.wire p) i) ∨
      l.step r x = l.emit x := by
  rw [step]
  split_ifs with hidentity
  · exact .inl ⟨(Bool.and_eq_true_iff.mp hidentity).2, rfl⟩
  · right
    split
    · next i c hpartner =>
      obtain ⟨⟨a, ha, hc⟩, hback⟩ := Sweep.partner?_eq_some hpartner
      exact .inl ⟨i, c, a, ha, hc, rfl, hback⟩
    · exact .inr rfl

theorem sweep_step (l : Ledger α) (x : Sourced α) :
    (l.step r x).sweep = l.sweep.step r x.1 := by
  rw [step, Sweep.step]
  split_ifs
  · rfl
  · cases l.sweep.partner? r x.1 with
    | none => rfl
    | some found =>
      obtain ⟨i, c⟩ := found
      cases c <;> rfl

/-- The record has no influence on the pass. -/
theorem sweep_run (l : Ledger α) (xs : List (Sourced α)) :
    (l.run r xs).sweep = l.sweep.run r (xs.map Prod.fst) := by
  induction xs generalizing l with
  | nil => rfl
  | cons x rest ih =>
    have h : (l.run r (x :: rest)).sweep = (l.step r x).sweep.run r (rest.map Prod.fst) :=
      ih (l.step r x)
    rw [h, sweep_step]
    rfl

namespace Recorded

variable {ops : List (Operation α)} {done : List (Sourced α)} {l : Ledger α} {x : Sourced α}

/-- A gate and its partner lie in the same segments. -/
theorem joined (h : Recorded n m ops done l) (hx : x.1.WellFormed n m)
    (hin : StandIn n ops x.1 (fun q => (done.map Prod.fst).countP (cuts n q)) x.2) {i : Nat}
    {a : Operation α} {c : Combination α} (ha : l.sweep.at? i = some a)
    (hc : Sweep.combine? r a x.1 = some c)
    (hback : ∀ p ∈ x.1.qubits, l.sweep.LeadsBack r x.1 (l.sweep.wire p) i) :
    StandIn n ops a (fun q => cutsBefore n l.sweep q i) (l.sources i ++ x.2) := by
  obtain ⟨hunitary_a, hunitary⟩ := isUnitary_of_combine? hc
  have hqubits (q : Nat) : q ∈ wiresOf n a ↔ q ∈ x.1.qubits := by
    rw [wiresOf_of_isUnitary hunitary_a, mem_qubits_of_combine? hc]
  refine (h.live i a ha).append (hin.congr ?_ (fun q => ?_) fun q hq => ?_) hunitary_a
  · rw [hunitary_a, hunitary]
  · rw [hqubits, wiresOf_of_isUnitary hunitary]
  · have hq' := (hqubits q).mp hq
    rw [← h.total q]
    exact (cutsBefore_of_leadsBack h.tracked (hx.qubits_lt q hq') (hback q hq') ha
      hunitary_a).symm

theorem apply (h : Recorded n m ops done l) {i : Nat} {a : Operation α} {c : Combination α}
    (ha : l.sweep.at? i = some a) (hc : Sweep.combine? r a x.1 = some c)
    (hjoined : StandIn n ops a (fun q => cutsBefore n l.sweep q i) (l.sources i ++ x.2)) :
    Recorded n m ops (done ++ [x]) (l.apply i x.2 c) := by
  obtain ⟨hunitary_a, hunitary⟩ := isUnitary_of_combine? hc
  have htracked := Sweep.apply_tracked h.tracked ha hc
  cases c with
  | eliminated =>
    have hsize : (l.sweep.remove i).slots.size = l.sweep.slots.size := by
      rw [Sweep.remove, ha]
      exact Array.size_setIfInBounds
    refine h.set hunitary ha hunitary_a none htracked hsize
      (Sweep.at?_remove l.sweep ha) (fun _ _ => rfl) (fun _ h => by cases h) ?_ (.refl _)
    exact List.forall_mem_cons.mpr ⟨hjoined.together, h.retired⟩
  | merged op =>
    have hop := standsFor_of_combine? hc
    refine h.set hunitary ha hunitary_a (some op) htracked Array.size_setIfInBounds
      (Sweep.at?_replace l.sweep ha op) (fun j hj => Function.update_of_ne hj _ _) ?_ h.retired ?_
    · rintro _ ⟨⟩
      refine ⟨hop.unitary, ?_⟩
      rw [show (l.apply i x.2 (.merged op)).sources i = l.sources i ++ x.2 from
        Function.update_self _ _ _]
      refine hjoined.congr ?_ (fun q => ?_) fun _ _ => rfl
      · rw [hop.unitary, hunitary_a]
      · rw [wiresOf_of_isUnitary hop.unitary, wiresOf_of_isUnitary hunitary_a, hop.qubits]
    · rw [show (l.apply i x.2 (.merged op)).sources i = l.sources i ++ x.2 from
        Function.update_self _ _ _]
      exact .refl _

/-- One operation keeps the invariant. -/
theorem step (h : Recorded n m ops done l) (hx : x.1.WellFormed n m)
    (hin : StandIn n ops x.1 (fun q => (done.map Prod.fst).countP (cuts n q)) x.2) :
    Recorded n m ops (done ++ [x]) (l.step r x) := by
  rcases step_cases r l x with ⟨hid, hstep⟩ | ⟨i, c, a, ha, hc, hstep, hback⟩ | hstep
  · rw [hstep]
    exact h.drop (isUnitary_of_isIdentity hid) hin
  · rw [hstep]
    exact h.apply ha hc (h.joined hx hin ha hc hback)
  · rw [hstep]
    exact h.emit hx hin

/-- A whole pass keeps the invariant. -/
theorem run (h : Recorded n m ops done l) {xs : List (Sourced α)}
    (hxs : ∀ x ∈ xs, x.1.WellFormed n m)
    (hin : ∀ p x, xs[p]? = some x → StandIn n ops x.1
      (fun q => ((done ++ xs.take p).map Prod.fst).countP (cuts n q)) x.2) :
    Recorded n m ops (done ++ xs) (l.run r xs) := by
  induction xs generalizing l done with
  | nil =>
    rw [List.append_nil]
    exact h
  | cons x rest ih =>
    have hfirst : StandIn n ops x.1 (fun q => (done.map Prod.fst).countP (cuts n q)) x.2 := by
      simpa using hin 0 x rfl
    have hstep := h.step (r := r) (hxs x List.mem_cons_self) hfirst
    have hrest := ih hstep (fun y hy => hxs y (List.mem_cons_of_mem _ hy)) fun p y hy => by
      simpa using hin (p + 1) y (by simpa using hy)
    rw [List.append_assoc, List.singleton_append] at hrest
    exact hrest

omit [RealArith α] in
/-- What is left at the end lies in the segments of what it stands for. -/
theorem standIn_left (h : Recorded n m ops done l) {p : Nat} (hx : l.left[p]? = some x) :
    x.1.WellFormed n m ∧
      StandIn n ops x.1 (fun q => segment n q (l.left.map Prod.fst) p) x.2 := by
  obtain ⟨i, hi, htake⟩ := exists_of_getElem?_filterMap_range l.record? hx
  obtain ⟨op, hop, rfl⟩ := Option.map_eq_some_iff.mp hi
  refine ⟨h.tracked.live i op hop, (h.live i op hop).congr rfl (fun _ => Iff.rfl) fun q _ => ?_⟩
  rw [segment, ← List.map_take, left, htake, map_fst_filterMap_record?, List.countP_filterMap]
  refine List.countP_congr fun j _ => ?_
  cases l.sweep.at? j <;> simp

end Recorded

end Ledger

/-! ## All passes -/

/-- What is left of a circuit, with what it stands for, and the groups that
were eliminated. -/
structure History (α : Type) where
  /-- The operations that are left, with what they stand for. -/
  left : List (Sourced α)
  /-- The groups that were eliminated. -/
  retired : List (List Nat)

namespace History

/-- The history of operations to which nothing was done. -/
def start (ops : List (Operation α)) : History α := ⟨ops.zipIdx.map fun x => (x.1, [x.2]), []⟩

/-- The groups of operations that became one or were eliminated together. -/
def groups (h : History α) : List (List Nat) := h.left.map Prod.snd ++ h.retired

/-- A history in which everything is on record, and in which groups lie in one
segment. -/
structure Sound (n m : Nat) (ops : List (Operation α)) (h : History α) : Prop where
  /-- What is left is well formed and lies in the segments of what it stands for. -/
  live : ∀ p x, h.left[p]? = some x →
    x.1.WellFormed n m ∧ StandIn n ops x.1 (fun q => segment n q (h.left.map Prod.fst) p) x.2
  /-- What was eliminated lies in one segment. -/
  retired : ∀ group ∈ h.retired, Together n ops group
  /-- Every position is on record once. -/
  complete : h.groups.flatten.Perm (List.range ops.length)

theorem map_fst_start (ops : List (Operation α)) : (start ops).left.map Prod.fst = ops := by
  rw [start, List.map_map]
  exact List.zipIdx_map_fst 0 ops

theorem start_sound {ops : List (Operation α)} (hops : ∀ op ∈ ops, op.WellFormed n m) :
    (start ops).Sound n m ops where
  live p x hx := by
    have hget : (start ops).left[p]? = ops[p]?.map fun op => (op, [p]) := by
      rw [start, List.getElem?_map, List.getElem?_zipIdx, Option.map_map, Nat.zero_add]
      rfl
    rw [hget] at hx
    obtain ⟨op, hop, rfl⟩ := Option.map_eq_some_iff.mp hx
    refine ⟨hops op (List.mem_of_getElem? hop), fun i hi => ?_, fun _ => rfl,
      List.cons_ne_nil _ _⟩
    rw [List.mem_singleton.mp hi, map_fst_start]
    exact ⟨op, hop, rfl, fun q => ⟨Iff.rfl, fun _ => rfl⟩⟩
  retired group hgroup := by cases hgroup
  complete := by
    have hgroups : (start ops).groups = (List.range ops.length).map fun i => [i] := by
      rw [groups, start, List.map_map, List.append_nil, List.range_eq_range',
        ← List.zipIdx_map_snd 0 ops, List.map_map]
      rfl
    rw [hgroups, ← List.flatMap_def, List.flatMap_singleton']

/-- Every group lies in one segment. -/
theorem Sound.together {ops : List (Operation α)} {h : History α} (hs : h.Sound n m ops) :
    ∀ group ∈ h.groups, Together n ops group := by
  refine List.forall_mem_append.mpr ⟨fun group hgroup => ?_, hs.retired⟩
  obtain ⟨x, hx, rfl⟩ := List.mem_map.mp hgroup
  obtain ⟨p, hp⟩ := List.mem_iff_getElem?.mp hx
  exact (hs.live p x hp).2.together

variable [RealArith α]

/-- One pass with record. -/
def pass (r : Simplifications) (width : Nat) (h : History α) : History α × Nat :=
  let l := (Ledger.start width).run r h.left
  (⟨l.left, l.retired ++ h.retired⟩, l.sweep.fired)

/-- Passes with record until nothing changes, at most a given number of them. -/
def repeatPass (r : Simplifications) (width : Nat) : Nat → History α → History α
  | 0, h => h
  | bound + 1, h =>
    if (h.pass r width).2 == 0 then (h.pass r width).1
    else (h.pass r width).1.repeatPass r width bound

theorem pass_sound {ops : List (Operation α)} {h : History α} (hs : h.Sound n m ops) :
    (h.pass r n).1.Sound n m ops := by
  have hrun : Ledger.Recorded n m ops h.left ((Ledger.start n).run r h.left) := by
    refine (Ledger.Recorded.start ops).run (fun x hx => ?_) fun p x hx => ?_
    · obtain ⟨p, hp⟩ := List.mem_iff_getElem?.mp hx
      exact (hs.live p x hp).1
    · rw [List.nil_append, List.map_take]
      exact (hs.live p x hx).2
  refine ⟨fun p x hx => hrun.standIn_left hx, ?_, ?_⟩
  · exact List.forall_mem_append.mpr ⟨hrun.retired, hs.retired⟩
  · refine .trans ?_ hs.complete
    have hcomplete := hrun.complete.append_right h.retired.flatten
    rw [← List.flatten_append, ← List.flatten_append, List.append_assoc] at hcomplete
    exact hcomplete

theorem repeatPass_sound {ops : List (Operation α)} {h : History α} (hs : h.Sound n m ops)
    (bound : Nat) : (h.repeatPass r n bound).Sound n m ops := by
  induction bound generalizing h with
  | zero => exact hs
  | succ bound ih =>
    rw [repeatPass]
    split_ifs
    · exact pass_sound hs
    · exact ih (pass_sound hs)

/-- The record has no influence on the pass. -/
theorem pass_eq {c : Circuit α} {h : History α} (hc : h.left.map Prod.fst = c.ops) :
    (h.pass r c.numQubits).1.left.map Prod.fst = (Peephole.pass r c).1.ops ∧
      (h.pass r c.numQubits).2 = (Peephole.pass r c).2 := by
  have hsweep := Ledger.sweep_run (r := r) (Ledger.start c.numQubits) h.left
  rw [hc] at hsweep
  refine ⟨(Ledger.map_fst_left_eq_ops _).trans ?_, ?_⟩
  · exact congrArg Sweep.ops hsweep
  · exact congrArg Sweep.fired hsweep

theorem repeatPass_eq {c : Circuit α} {h : History α} (hc : h.left.map Prod.fst = c.ops)
    (bound : Nat) :
    (h.repeatPass r c.numQubits bound).left.map Prod.fst =
      (Peephole.repeatPass r bound c).1.ops := by
  induction bound generalizing c h with
  | zero => exact hc
  | succ bound ih =>
    obtain ⟨hops, hfired⟩ := pass_eq (r := r) hc
    rw [repeatPass, Peephole.repeatPass, hfired]
    dsimp only
    split_ifs
    · exact hops
    · exact ih (c := (Peephole.pass r c).1) hops

end History

variable [RealArith α]

/-- The history of optimising a circuit. -/
def history (natives : GateSet) (config : Config) (c : Circuit α) : History α :=
  (History.start c.ops).repeatPass (config.enabled.within natives) c.numQubits config.maxPasses

/-- Optimisation keeps the operations that are not unitary, and never works
across them.  The history accounts for all operations of the circuit and ends
with the operations of the result.  The operations of a group occupy the same
wires and lie in the same segment on each of them, and what is left of a group
lies in the same segments of the result. -/
theorem optimise_within_segments (natives : GateSet) (config : Config) {c : Circuit α}
    (hc : c.WellFormed) :
    (optimise natives config c).1.ops.filter (!·.isUnitary) = c.ops.filter (!·.isUnitary) ∧
      (history natives config c).left.map Prod.fst = (optimise natives config c).1.ops ∧
      (history natives config c).groups.flatten.Perm (List.range c.ops.length) ∧
      (∀ group ∈ (history natives config c).groups, Together c.numQubits c.ops group) ∧
      ∀ p op group, (history natives config c).left[p]? = some (op, group) →
        StandIn c.numQubits c.ops op
          (fun q => segment c.numQubits q (optimise natives config c).1.ops p) group := by
  have hsound := History.repeatPass_sound (r := config.enabled.within natives)
    (History.start_sound hc) config.maxPasses
  have hops : (history natives config c).left.map Prod.fst = (optimise natives config c).1.ops :=
    History.repeatPass_eq (History.map_fst_start c.ops) config.maxPasses
  refine ⟨?_, hops, hsound.complete, ?_, ?_⟩
  · exact (repeatPass_thinned _ _ c).filter_not_isUnitary
  · exact hsound.together
  · intro p op group h
    rw [← hops]
    exact (hsound.live p (op, group) h).2

/-- The two `x` of `guardedCircuit` lie in different segments of their wire, and
no group holds both; the measurement and the barrier stay. -/
theorem optimise_guardedCircuit_segments :
    guardedCircuit.WellFormed ∧
      (optimise (.ofNames ["u", "cx", "measure"]) (Config.levels.getD 3 default)
        guardedCircuit).1.ops.filter (!·.isUnitary) = [.measure 0 0, { kind := .gate .barrier }] ∧
      ∀ group ∈ (history (.ofNames ["u", "cx", "measure"]) (Config.levels.getD 3 default)
        guardedCircuit).groups, ¬ (0 ∈ group ∧ 5 ∈ group) := by
  obtain ⟨hfilter, -, -, htogether, -⟩ := optimise_within_segments
    (.ofNames ["u", "cx", "measure"]) (Config.levels.getD 3 default) wellFormed_guardedCircuit
  refine ⟨wellFormed_guardedCircuit, hfilter.trans rfl, ?_⟩
  rintro group hgroup ⟨hfirst, hsecond⟩
  obtain ⟨a, b, ha, hb, -, hq⟩ := htogether group hgroup 0 hfirst 5 hsecond
  cases ha
  have hsegment : segment 2 0 guardedCircuit.ops 0 = segment 2 0 guardedCircuit.ops 5 :=
    (hq 0).2 (by decide)
  exact absurd hsegment (by decide)

end QuantumCompiler.Peephole
