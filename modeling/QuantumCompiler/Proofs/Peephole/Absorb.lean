import QuantumCompiler.Proofs.Peephole.FixedPoint

/-!
# A pass on the list of what is left

The state of a pass keeps positions and wires, so that its partner search is
fast.  Read on the list of the operations that are left, latest first, the
search is a plain recursion: `absorb` goes back through the list, past what
misses the wires of the gate or commutes with it, and stops at the first
operation that combines with the gate or cannot be passed.

`trail_step` says that one operation taken by a pass does to the list what
`Trail.step` does, and `trail_run` says the same of a whole pass.  What a pass does
to a given circuit can then be calculated on lists.
-/

namespace QuantumCompiler.Peephole

variable {α : Type} {n m : Nat} {r : Simplifications}

/-- A gate can be moved past an earlier operation on other wires, and past one
that commutes with it if such are passed. -/
def Clear (r : Simplifications) (n : Nat) (e op : Operation α) : Prop :=
  (∀ q ∈ op.qubits, q ∉ wiresOf n e) ∨ Sweep.passes r e op = true

instance (r : Simplifications) (n : Nat) (e op : Operation α) : Decidable (Clear r n e op) :=
  inferInstanceAs (Decidable (_ ∨ _))

/-- The operations that are left, latest first, when two have become one or none
in front of others. -/
def Combination.onto : Combination α → List (Operation α) → List (Operation α)
  | .eliminated, rest => rest
  | .merged op, rest => op :: rest

variable [RealArith α]

/-- What is left of operations, latest first, when a gate is moved back to the
operation that it combines with.  There is nothing if it meets none. -/
def absorb (r : Simplifications) (n : Nat) (op : Operation α) :
    List (Operation α) → Option (List (Operation α))
  | [] => none
  | e :: rest =>
    match Sweep.combine? r e op with
    | some c => some (c.onto rest)
    | none => if Clear r n e op then (absorb r n op rest).map (e :: ·) else none

/-- The operations that are left, latest first, with the number of
simplifications made. -/
structure Trail (α : Type) where
  /-- The operations that are left, latest first. -/
  left : List (Operation α)
  /-- Number of simplifications made. -/
  fired : Nat

/-- Takes the next operation. -/
def Trail.step (r : Simplifications) (n : Nat) (t : Trail α) (op : Operation α) : Trail α :=
  if r.identities && isIdentity op then ⟨t.left, t.fired + 1⟩
  else
    match absorb r n op t.left with
    | some left => ⟨left, t.fired + 1⟩
    | none => ⟨op :: t.left, t.fired⟩

/-- Takes all operations of a list. -/
def Trail.run (r : Simplifications) (n : Nat) (t : Trail α) (ops : List (Operation α)) :
    Trail α :=
  ops.foldl (Trail.step r n) t

@[simp] theorem Trail.run_nil (t : Trail α) : t.run r n [] = t := rfl

@[simp] theorem Trail.run_cons (t : Trail α) (op : Operation α) (ops : List (Operation α)) :
    t.run r n (op :: ops) = (t.step r n op).run r n ops := rfl

@[simp] theorem Trail.run_append (t : Trail α) (xs ys : List (Operation α)) :
    t.run r n (xs ++ ys) = (t.run r n xs).run r n ys := List.foldl_append

/-! ## Going back through a list -/

/-- What a gate neither combines with nor is stopped by is left as it is. -/
theorem absorb_append {op : Operation α} {front : List (Operation α)}
    (h : ∀ e ∈ front, Sweep.combine? r e op = none ∧ Clear r n e op) (rest : List (Operation α)) :
    absorb r n op (front ++ rest) = (absorb r n op rest).map (front ++ ·) := by
  induction front with
  | nil => simp
  | cons e front ih =>
    obtain ⟨⟨hnone, hclear⟩, hfront⟩ := List.forall_mem_cons.mp h
    rw [List.cons_append, absorb, hnone]
    dsimp only
    rw [if_pos hclear, ih hfront, Option.map_map]
    rfl

/-- A gate is absorbed where it combines. -/
theorem absorb_cons_of_combine? {e op : Operation α} {c : Combination α}
    (h : Sweep.combine? r e op = some c) (rest : List (Operation α)) :
    absorb r n op (e :: rest) = some (c.onto rest) := by
  rw [absorb, h]

/-- A gate that is stopped is not absorbed. -/
theorem absorb_cons_of_not_clear {e op : Operation α} (hnone : Sweep.combine? r e op = none)
    (hclear : ¬ Clear r n e op) (rest : List (Operation α)) :
    absorb r n op (e :: rest) = none := by
  rw [absorb, hnone]
  dsimp only
  rw [if_neg hclear]

/-- Where a gate is absorbed, everything behind its partner is clear. -/
theorem exists_of_absorb {op : Operation α} {ops left : List (Operation α)}
    (h : absorb r n op ops = some left) :
    ∃ front e back, ops = front ++ e :: back ∧ (∃ c, Sweep.combine? r e op = some c) ∧
      ∀ f ∈ front, Sweep.combine? r f op = none ∧ Clear r n f op := by
  induction ops generalizing left with
  | nil => cases h
  | cons e rest ih =>
    cases hc : Sweep.combine? r e op with
    | some c => exact ⟨[], e, rest, rfl, ⟨c, hc⟩, by simp⟩
    | none =>
      rw [absorb, hc] at h
      dsimp only at h
      split_ifs at h with hclear
      obtain ⟨left', hleft', -⟩ := Option.map_eq_some_iff.mp h
      obtain ⟨front, e', back, hsplit, hc', hfront⟩ := ih hleft'
      refine ⟨e :: front, e', back, by rw [hsplit, List.cons_append], hc', ?_⟩
      exact List.forall_mem_cons.mpr ⟨⟨hc, hclear⟩, hfront⟩

namespace Sweep

/-! ## The partner search on the list -/

/-- The search along a wire finds a position that combines, if what comes
before it on the wire is passed and does not combine. -/
theorem search_of_clear {s : Sweep α} {op e : Operation α} {c : Combination α} {i : Nat}
    (hi : s.at? i = some e) (hc : combine? r e op = some c) {l : List Nat}
    (hsorted : l.Pairwise (· > ·)) (hmem : i ∈ l)
    (h : ∀ j ∈ l, i < j → ∃ f, s.at? j = some f ∧ combine? r f op = none ∧ passes r f op = true) :
    s.search r op l = some (i, c) := by
  induction l with
  | nil => cases hmem
  | cons j rest ih =>
    obtain ⟨hfirst, hrest⟩ := List.pairwise_cons.mp hsorted
    rw [search]
    rcases List.mem_cons.mp hmem with rfl | hmem
    · simp only [hi, hc]
    · obtain ⟨f, hf, hnone, hpass⟩ := h j List.mem_cons_self (hfirst i hmem)
      simp only [hf, hnone, hpass, if_true]
      exact ih hrest hmem fun k hk => h k (List.mem_cons_of_mem _ hk)

omit [RealArith α] in
theorem clearBack_of_clear {s : Sweep α} {op : Operation α} {i : Nat} {l : List Nat}
    (hsorted : l.Pairwise (· > ·)) (hmem : i ∈ l)
    (h : ∀ j ∈ l, i < j → ∃ f, s.at? j = some f ∧ passes r f op = true) :
    s.clearBack r op i l = true := by
  induction l with
  | nil => cases hmem
  | cons j rest ih =>
    obtain ⟨hfirst, hrest⟩ := List.pairwise_cons.mp hsorted
    rw [clearBack, Bool.or_eq_true, beq_iff_eq]
    rcases List.mem_cons.mp hmem with rfl | hmem
    · exact .inl rfl
    · obtain ⟨f, hf, hpass⟩ := h j List.mem_cons_self (hfirst i hmem)
      right
      simp only [hf, hpass, Bool.true_and]
      exact ih hrest hmem fun k hk => h k (List.mem_cons_of_mem _ hk)

/-- What the search along a wire has come past does not combine. -/
theorem search_combine? {s : Sweep α} {op : Operation α} {l : List Nat} {i : Nat}
    {c : Combination α} (h : s.search r op l = some (i, c)) (hsorted : l.Pairwise (· > ·)) :
    ∀ j ∈ l, i < j → ∀ f, s.at? j = some f → combine? r f op = none := by
  induction l with
  | nil => cases h
  | cons k rest ih =>
    obtain ⟨hfirst, hrest⟩ := List.pairwise_cons.mp hsorted
    rw [search] at h
    split at h
    · cases h
    · next e he =>
      split at h
      · -- The search ends here, and the other positions come before.
        cases h
        intro j hj hij
        rcases List.mem_cons.mp hj with rfl | hj
        · omega
        · have := hfirst j hj
          omega
      · next hnone =>
        split_ifs at h
        intro j hj hij f hf
        rcases List.mem_cons.mp hj with rfl | hj
        · rw [he] at hf
          cases hf
          exact hnone
        · exact ih h hrest j hj hij f hf

/-- The partner of a gate is found along one of its wires. -/
theorem partner?_search {s : Sweep α} {op : Operation α} {i : Nat} {c : Combination α}
    (h : s.partner? r op = some (i, c)) :
    ∃ q ∈ op.qubits, s.search r op (s.wire q) = some (i, c) := by
  rw [partner?] at h
  split_ifs at h
  split at h
  · cases h
  · next q others hqubits =>
    split at h
    · cases h
    · next i' c' hsearch =>
      split_ifs at h
      cases h
      exact ⟨q, by rw [hqubits]; exact List.mem_cons_self, hsearch⟩

/-- What lives behind the partner of a gate neither combines with the gate nor
stops it. -/
theorem partner?_behind {s : Sweep α} (hs : s.Tracked n m) {op : Operation α}
    (hop : op.WellFormed n m) {i : Nat} {c : Combination α} (h : s.partner? r op = some (i, c))
    {j : Nat} {f : Operation α} (hij : i < j) (hj : s.at? j = some f) :
    combine? r f op = none ∧ Clear r n f op := by
  obtain ⟨-, hback⟩ := partner?_eq_some h
  obtain ⟨q, hq, hsearch⟩ := partner?_search h
  have hlt := hop.qubits_lt q hq
  constructor
  · -- What combines with the gate shares the wire along which the partner was found.
    by_contra hne
    obtain ⟨c', hc'⟩ := Option.ne_none_iff_exists'.mp hne
    exact hne (search_combine? hsearch (hs.pairwise_wire hlt) j
      (hs.mem_wire_of_combine? hj hc' hlt hq) hij f hj)
  · by_cases hdisj : ∀ p ∈ op.qubits, p ∉ wiresOf n f
    · exact .inl hdisj
    · push Not at hdisj
      obtain ⟨p, hp, hpf⟩ := hdisj
      exact .inr ((hback p hp).passes hs (hop.qubits_lt p hp) hij hj hpf)

omit [RealArith α] in
/-- The position of an operation in the list of what is left. -/
theorem exists_position {s : Sweep α} {before after : List (Operation α)} {e : Operation α}
    (h : s.ops = before ++ e :: after) :
    ∃ i, s.at? i = some e ∧ ∀ j f, i < j → s.at? j = some f → f ∈ after := by
  rw [ops, List.filterMap_eq_append_iff] at h
  obtain ⟨first, second, hslots, -, hsecond⟩ := h
  rw [List.filterMap_eq_cons_iff] at hsecond
  obtain ⟨gaps, slot, third, rfl, -, rfl, rfl⟩ := hsecond
  have hget (j : Nat) : s.at? j = ((first ++ (gaps ++ some e :: third))[j]?).join := by
    rw [at?_eq_getElem?, ← Array.getElem?_toList, hslots]
  rw [← List.append_assoc] at hget
  refine ⟨(first ++ gaps).length, ?_, fun j f hj hf => ?_⟩
  · rw [hget, List.getElem?_append_right (Nat.le_refl _), Nat.sub_self]
    rfl
  · rw [hget, List.getElem?_append_right (Nat.le_of_lt hj)] at hf
    obtain ⟨k, hk⟩ := Nat.exists_eq_add_of_lt hj
    rw [show j - (first ++ gaps).length = k + 1 by omega, List.getElem?_cons_succ] at hf
    refine List.mem_filterMap.mpr ⟨some f, ?_, rfl⟩
    cases hthird : third[k]? with
    | none => rw [hthird] at hf; cases hf
    | some slot =>
      rw [hthird] at hf
      exact List.mem_of_getElem? (hthird.trans (congrArg some hf))

/-- A gate without a partner is not absorbed. -/
theorem absorb_of_partner?_eq_none {s : Sweep α} (hs : s.Tracked n m) {op : Operation α}
    (hop : op.WellFormed n m) (h : s.partner? r op = none) :
    absorb r n op s.ops.reverse = none := by
  by_contra hne
  obtain ⟨left, hleft⟩ := Option.ne_none_iff_exists'.mp hne
  obtain ⟨front, e, back, hsplit, ⟨c, hc⟩, hfront⟩ := exists_of_absorb hleft
  have hunitary := isUnitary_of_combine? hc
  have hops : s.ops = back.reverse ++ e :: front.reverse := by
    rw [← List.reverse_reverse s.ops, hsplit]
    simp
  obtain ⟨i, hi, hafter⟩ := exists_position hops
  -- On a wire of the gate, everything behind the partner is passed and does not combine.
  have hwire (p : Nat) (hp : p ∈ op.qubits) :
      (s.wire p).Pairwise (· > ·) ∧ i ∈ s.wire p ∧ ∀ j ∈ s.wire p, i < j →
        ∃ f, s.at? j = some f ∧ combine? r f op = none ∧ passes r f op = true := by
    have hlt := hop.qubits_lt p hp
    refine ⟨hs.pairwise_wire hlt, hs.mem_wire_of_combine? hi hc hlt hp, fun j hj hij => ?_⟩
    obtain ⟨f, hf, hpf⟩ := (hs.mem_wire hlt).mp hj
    obtain ⟨hnone, hclear⟩ := hfront f (List.mem_reverse.mp (hafter j f hij hf))
    exact ⟨f, hf, hnone, hclear.resolve_left fun hdisj => hdisj p hp hpf⟩
  cases hqubits : op.qubits with
  | nil => exact hop.qubits_ne_nil hunitary.2 hqubits
  | cons q others =>
    obtain ⟨hsorted, hmem, hbehind⟩ := hwire q (by rw [hqubits]; exact List.mem_cons_self)
    have hothers : (others.all fun p => s.clearBack r op i (s.wire p)) = true := by
      refine List.all_eq_true.mpr fun p hp => ?_
      obtain ⟨hsorted', hmem', hbehind'⟩ :=
        hwire p (by rw [hqubits]; exact List.mem_cons_of_mem _ hp)
      refine clearBack_of_clear hsorted' hmem' fun j hj hij => ?_
      obtain ⟨f, hf, -, hpass⟩ := hbehind' j hj hij
      exact ⟨f, hf, hpass⟩
    simp only [partner?, hunitary.2, Bool.not_true, Bool.false_eq_true, if_false, hqubits,
      search_of_clear hi hc hsorted hmem hbehind, hothers, if_true, reduceCtorEq] at h

/-- The state of a pass read on the list of what is left. -/
def trail (s : Sweep α) : Trail α := ⟨s.ops.reverse, s.fired⟩

/-- One operation does to the list of what is left what `Trail.step` says. -/
theorem trail_step {s : Sweep α} (hs : s.Tracked n m) {op : Operation α}
    (hop : op.WellFormed n m) : (s.step r op).trail = s.trail.step r n op := by
  rw [step, Trail.step]
  split_ifs with hidentity
  · rfl
  · cases hpartner : s.partner? r op with
    | none =>
      have habsorb := absorb_of_partner?_eq_none hs hop hpartner
      simp only [trail, habsorb]
      simp [ops, emit, List.filterMap_append]
    | some found =>
      obtain ⟨i, c⟩ := found
      obtain ⟨⟨a, ha, hc⟩, -⟩ := partner?_eq_some hpartner
      obtain ⟨before, after, hops, hreplace, hremove, hafter⟩ := ops_around ha
      have hfront : ∀ e ∈ after.reverse, combine? r e op = none ∧ Clear r n e op := by
        intro e he
        obtain ⟨j, hij, hj⟩ := hafter e (List.mem_reverse.mp he)
        exact partner?_behind hs hop hpartner hij hj
      have habsorb :
          absorb r n op s.ops.reverse = some (after.reverse ++ c.onto before.reverse) := by
        rw [hops, List.reverse_append, List.reverse_cons, List.append_assoc,
          List.singleton_append, absorb_append hfront, absorb_cons_of_combine? hc]
        rfl
      simp only [trail, habsorb]
      cases c with
      | eliminated =>
        show Trail.mk (s.remove i).ops.reverse _ = _
        rw [hremove, List.reverse_append]
        rfl
      | merged op' =>
        show Trail.mk (s.replace i op').ops.reverse _ = _
        rw [hreplace]
        simp [Combination.onto, apply]

theorem trail_run {s : Sweep α} (hs : s.Tracked n m) {ops : List (Operation α)}
    (hops : ∀ op ∈ ops, op.WellFormed n m) : (s.run r ops).trail = s.trail.run r n ops := by
  induction ops generalizing s with
  | nil => rfl
  | cons op rest ih =>
    obtain ⟨hop, hrest⟩ := List.forall_mem_cons.mp hops
    have h := ih (step_tracked (r := r) hs hop) hrest
    rw [trail_step hs hop] at h
    exact h

end Sweep

/-- A pass over a well-formed circuit, calculated on lists. -/
theorem pass_eq_trail {c : Circuit α} (hc : c.WellFormed) {left : List (Operation α)}
    {fired : Nat} (h : Trail.run r c.numQubits ⟨[], 0⟩ c.ops = ⟨left, fired⟩) :
    pass r c = ({ c with ops := left.reverse }, fired) := by
  have htrail := Sweep.trail_run (r := r) Sweep.start_tracked hc
  rw [show (Sweep.start c.numQubits : Sweep α).trail = ⟨[], 0⟩ from rfl, h, Sweep.trail,
    Trail.mk.injEq] at htrail
  rw [pass, ← htrail.1, ← htrail.2, List.reverse_reverse]

end QuantumCompiler.Peephole
