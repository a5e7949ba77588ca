import QuantumCompiler.Proofs.Peephole.Absorb

/-!
# One pass is enough

What a pass leaves is read as a list, latest first.  `Irreducible` says that no
operation of the list is absorbed by those before it, and that none is an
identity if identities are removed.  A pass over such a list makes no
simplification (`run_irreducible`).

A pass keeps its list irreducible unless gates are both fused and moved past
commuting ones (`step_irreducible`).  The step that matters is a gate that is
absorbed deep inside the list.  Whatever the gate has passed on its way has
been passed by its partner too, or could have been: gates that combine have the
same axis on every qubit (`Alike`).  So nothing has become reducible behind the
place where the partner was removed or changed.

Fusion changes the axis of a gate.  Without commutation that does not matter,
since a gate then only passes what misses its wires.
-/

namespace QuantumCompiler.Peephole

variable {α : Type} {n m : Nat} {r : Simplifications}

/-! ## Axes -/

/-- Unitary gates on the same qubits with the same axes. -/
structure Alike (a b : Operation α) : Prop where
  unitary : a.isUnitary = true ∧ b.isUnitary = true
  qubits : ∀ q, q ∈ a.qubits ↔ q ∈ b.qubits
  axes : ∀ q, axisOn? a q = axisOn? b q

/-- What commutes with a gate commutes with every gate that is alike. -/
theorem Alike.commute {a b f : Operation α} (h : Alike a b) (ha : a.qubits.Nodup)
    (hb : b.qubits.Nodup) (hcommute : commute b f = true) : commute a f = true := by
  obtain ⟨-, huf, hshared⟩ := (commute_iff hb).mp hcommute
  refine (commute_iff ha).mpr ⟨h.unitary.1, huf, fun q hqa hqf => ?_⟩
  rw [h.axes q]
  exact hshared q ((h.qubits q).mp hqa) hqf

/-- Operations on the same qubits, in the same order where it matters, have the
same axes if their kinds have. -/
theorem axisOn?_of_sameQubits {a b : Operation α} {g g' : Gate} (h : sameQubits a b = true)
    (ha : a.kind = .gate g) (hb : b.kind = .gate g') (haxes : axis? g = axis? g') (q : Nat) :
    axisOn? a q = axisOn? b q := by
  have hmem := mem_qubits_of_sameQubits h q
  rw [sameQubits, Bool.or_eq_true, Bool.and_eq_true] at h
  rcases h with hsame | ⟨hsymmetric, hexchanged⟩
  · have hqubits := beq_iff_eq.mp hsame
    have hoperand : operandAxis? a = operandAxis? b := by
      funext i
      simp only [operandAxis?, ha, hb, Kind.gate?, Option.bind_some, hqubits, haxes]
    rw [axisOn?, axisOn?, hqubits, hoperand]
  · -- The axis of a symmetric kind does not depend on the position.
    have hflat (i j : Nat) : axis? g 2 i = axis? g 2 j := by
      have hg : g = .cz ∨ g = .swap ∨ g = .cp ∨ g = .rzz := by
        simpa [ha, isSymmetric, or_assoc] using hsymmetric
      rcases hg with rfl | rfl | rfl | rfl <;> rfl
    split at hexchanged
    · next hap hbr =>
      have hoperand (i j : Nat) : operandAxis? a i = operandAxis? b j := by
        simp only [operandAxis?, ha, hb, Kind.gate?, Option.bind_some, hap, hbr, List.length_cons,
          List.length_nil, ← haxes, hflat i j]
      rw [← List.isSome_idxOf?, ← List.isSome_idxOf?] at hmem
      rw [axisOn?, axisOn?]
      generalize a.qubits.idxOf? q = position at hmem ⊢
      generalize b.qubits.idxOf? q = position' at hmem ⊢
      cases position with
      | none =>
        cases position' with
        | none => rfl
        | some j => simp at hmem
      | some i =>
        cases position' with
        | none => simp at hmem
        | some j => exact hoperand i j
    · cases hexchanged

/-! ## Gates that combine -/

theorem axis?_of_inverse? {g g' : Gate} (h : inverse? g = some g') : axis? g = axis? g' := by
  cases g <;> cases h <;> rfl

variable [RealArith α]

/-- Gates that cancel or merge are alike. -/
theorem alike_of_combine? (hfuse : r.fuse = false) {a b : Operation α} {c : Combination α}
    (h : Sweep.combine? r a b = some c) : Alike a b where
  unitary := isUnitary_of_combine? h
  qubits := mem_qubits_of_combine? h
  axes q := by
    rcases combine?_some h with ⟨hinverse, -⟩ | ⟨op, hmerge | ⟨hr, -⟩, -⟩
    · rw [isInversePair] at hinverse
      split at hinverse
      · next g hkind =>
        simp only [Bool.and_eq_true, Option.any_eq_true, beq_iff_eq] at hinverse
        obtain ⟨⟨g', hg', hkind'⟩, hsame⟩ := hinverse
        exact axisOn?_of_sameQubits hsame hkind hkind' (axis?_of_inverse? hg') q
      · cases hinverse
    · obtain ⟨g, hkind, -⟩ := Operation.exists_gate_of_isUnitary (isUnitary_of_combine? h).1
      rw [merge?] at hmerge
      split at hmerge
      · cases hmerge
      · split_ifs at hmerge with hsame
        simp only [Bool.and_eq_true, beq_iff_eq] at hsame
        exact axisOn?_of_sameQubits hsame.1.2 hkind (hsame.1.1 ▸ hkind) rfl q
    · rw [hfuse] at hr
      cases hr

/-- Two operations do not combine if no rule that is switched on applies. -/
theorem combine?_eq_none_iff {a b : Operation α} : Sweep.combine? r a b = none ↔
    (r.cancel && isInversePair a b) = false ∧ (r.merge = true → merge? a b = none) ∧
      (r.fuse = true → fuse? a b = none) := by
  have hswitch (on : Bool) (result : Option (Operation α)) :
      (on = true → result = none) ↔ (if on then result else none) = none := by
    cases on <;> simp
  have hresult (op : Operation α) : (if r.identities && isIdentity op then
      some .eliminated else some (.merged op) : Option (Combination α)) ≠ none := by
    split_ifs <;> simp
  rw [Sweep.combine?, hswitch r.merge, hswitch r.fuse]
  cases (r.cancel && isInversePair a b) with
  | true => simp
  | false =>
    -- The first rule with a result decides.
    cases (if r.merge then merge? a b else none) with
    | some op => exact iff_of_false (hresult op) (by simp)
    | none =>
      cases (if r.fuse then fuse? a b else none) with
      | some op => exact iff_of_false (hresult op) (by simp)
      | none => simp

theorem merge?_eq_none_iff {a b : Operation α} : merge? a b = none ↔
    (period? a.kind : Option α) = none ∨
      (a.kind == b.kind && sameQubits a b && sameAxis a b) = false := by
  rw [merge?]
  cases (period? a.kind : Option α) with
  | none => simp
  | some period => cases (a.kind == b.kind && sameQubits a b && sameAxis a b) <;> simp

theorem fuse?_eq_none_iff {a b : Operation α} : fuse? a b = none ↔
    ∀ q, a.qubits = [q] → b.qubits = [q] → a.unitary?.isSome = true →
      b.unitary?.isSome = false := by
  rw [fuse?]
  split
  · next q hq =>
    by_cases hb : b.qubits = [q]
    · cases a.unitary? <;> cases b.unitary? <;> simp [hq, hb]
    · simp only [hq, beq_iff_eq, hb, if_false, true_iff, List.cons.injEq, and_true]
      rintro _ rfl hq'
      exact absurd hq' hb
  · next hnone =>
    exact iff_of_true rfl fun q hq => absurd hq (hnone q)

/-- Whether a gate has a matrix depends on its kind only. -/
theorem isSome_unitary?_congr {a b : Operation α} (h : a.kind = b.kind) :
    a.unitary?.isSome = b.unitary?.isSome := by
  rw [Operation.unitary?, Operation.unitary?, h]
  cases b.kind with
  | custom => rfl
  | gate g => cases g <;> rfl

/-- The same operation up to an angle that adds up.  No rule asks for this angle
to decide whether it applies. -/
structure Retuned (a a' : Operation α) : Prop where
  kind : a'.kind = a.kind
  qubits : a'.qubits = a.qubits
  axis : a'.param 1 = a.param 1

theorem Retuned.refl (a : Operation α) : Retuned a a := ⟨rfl, rfl, rfl⟩

theorem retuned_set (a : Operation α) (θ : α) : Retuned a { a with params := a.params.set 0 θ } :=
  ⟨rfl, rfl, by simp [Operation.param, List.getD]⟩

theorem combine?_retuned {a a' b b' : Operation α} (ha : Retuned a a') (hb : Retuned b b')
    (h : Sweep.combine? r a b = none) : Sweep.combine? r a' b' = none := by
  have hsame : sameQubits a' b' = sameQubits a b := by
    rw [sameQubits, sameQubits, ha.kind, ha.qubits, hb.qubits]
  have haxis : sameAxis a' b' = sameAxis a b := by
    rw [sameAxis, sameAxis, ha.kind, ha.axis, hb.axis]
  rw [combine?_eq_none_iff] at h ⊢
  obtain ⟨hcancel, hmerge, hfuse⟩ := h
  refine ⟨?_, fun hr => ?_, fun hr => ?_⟩
  · rw [isInversePair, ha.kind, hb.kind, hsame]
    exact hcancel
  · rw [merge?_eq_none_iff, ha.kind, hb.kind, hsame, haxis]
    exact merge?_eq_none_iff.mp (hmerge hr)
  · rw [fuse?_eq_none_iff, ha.qubits, hb.qubits, isSome_unitary?_congr ha.kind,
      isSome_unitary?_congr hb.kind]
    exact fuse?_eq_none_iff.mp (hfuse hr)

/-- A fused gate combines with nothing that the first of the two gates does not
combine with. -/
theorem combine?_fused {x a b op : Operation α} (hr : r.fuse = true) (h : fuse? a b = some op)
    (hx : Sweep.combine? r x a = none) : Sweep.combine? r x op = none := by
  obtain ⟨-, -, q, θ, φ, lam, hq, rfl⟩ := fuse?_eq_some h
  have hmatrix : a.unitary?.isSome = true := by
    by_contra hnot
    rw [fuse?_eq_none_iff.mpr fun _ _ _ hsome => absurd hsome hnot] at h
    cases h
  refine combine?_eq_none_iff.mpr ⟨?_, fun _ => merge?_eq_none_iff.mpr ?_,
    fun _ => fuse?_eq_none_iff.mpr ?_⟩
  · -- The general rotation undoes nothing, and it does not merge.
    rw [isInversePair]
    split
    · next g _ => cases g <;> simp [inverse?, Operation.ofGate]
    · simp
  · by_cases hkind : x.kind = .gate .u
    · left
      rw [hkind]
      rfl
    · right
      simp [Operation.ofGate, hkind]
  · intro p hp hp' hsome
    obtain rfl : q = p := by simpa [Operation.ofGate] using hp'
    have hfuse := (combine?_eq_none_iff.mp hx).2.2 hr
    rw [fuse?_eq_none_iff.mp hfuse q hp hq hsome] at hmatrix
    cases hmatrix

/-- What takes the place of two gates combines with nothing before it that the
first of them does not combine with. -/
theorem combine?_merged {x a b op : Operation α} (h : Sweep.combine? r a b = some (.merged op))
    (hx : Sweep.combine? r x a = none) : Sweep.combine? r x op = none := by
  rcases combine?_some h with ⟨-, hc⟩ | ⟨op', hop', ⟨-, hc⟩ | hc⟩
  · cases hc
  · cases hc
  · cases hc
    rcases hop' with hmerge | ⟨hr, hfuse⟩
    · obtain ⟨-, -, θ, rfl⟩ := merge?_eq_some hmerge
      exact combine?_retuned (.refl x) (retuned_set a θ) hx
    · exact combine?_fused hr hfuse hx

/-- An identity is never put in the place of two gates where identities are
removed. -/
theorem not_identity_of_combine? {a b op : Operation α}
    (h : Sweep.combine? r a b = some (.merged op)) : (r.identities && isIdentity op) = false := by
  rw [Sweep.combine?] at h
  by_cases hcancel : (r.cancel && isInversePair a b) = true
  · rw [if_pos hcancel] at h
    cases h
  · rw [if_neg hcancel] at h
    split at h
    · cases h
    · split_ifs at h with hidentity
      · cases h
      · cases h
        simpa using hidentity

/-! ## Lists without a pair to combine -/

theorem absorb_cons_eq_none_iff {op e : Operation α} {rest : List (Operation α)} :
    absorb r n op (e :: rest) = none ↔
      Sweep.combine? r e op = none ∧ (Clear r n e op → absorb r n op rest = none) := by
  rw [absorb]
  cases Sweep.combine? r e op with
  | some c => simp
  | none =>
    by_cases hclear : Clear r n e op <;> simp [hclear]

/-- What is not unitary is not absorbed. -/
theorem absorb_of_not_isUnitary {op : Operation α} (h : op.isUnitary = false)
    (ops : List (Operation α)) : absorb r n op ops = none := by
  by_contra hne
  obtain ⟨left, hleft⟩ := Option.ne_none_iff_exists'.mp hne
  obtain ⟨_, e, _, -, ⟨c, hc⟩, -⟩ := exists_of_absorb hleft
  rw [(isUnitary_of_combine? hc).2] at h
  cases h

/-- No operation of a list, latest first, is absorbed by those before it, and
none is an identity where identities are removed. -/
def Irreducible (r : Simplifications) (n : Nat) : List (Operation α) → Prop
  | [] => True
  | op :: rest =>
    (r.identities && isIdentity op) = false ∧ absorb r n op rest = none ∧ Irreducible r n rest

/-- A pass over an irreducible list makes no simplification. -/
theorem run_irreducible {ops : List (Operation α)} (h : Irreducible r n ops) :
    Trail.run r n ⟨[], 0⟩ ops.reverse = ⟨ops, 0⟩ := by
  induction ops with
  | nil => rfl
  | cons op rest ih =>
    obtain ⟨hidentity, habsorb, hrest⟩ := h
    rw [List.reverse_cons, Trail.run_append, ih hrest, Trail.run_cons, Trail.run_nil, Trail.step,
      hidentity, habsorb]
    rfl

section Apart

variable (hapart : r.commute = false ∨ r.fuse = false)

include hapart

/-- What a gate can be moved past can itself be moved past the partner of the
gate. -/
theorem clear_of_combine? {a e op : Operation α} {c : Combination α} (ha : a.WellFormed n m)
    (he : e.WellFormed n m) (hop : op.WellFormed n m) (hc : Sweep.combine? r a op = some c)
    (hunitary : e.isUnitary = true) (h : Clear r n e op) : Clear r n a e := by
  rcases h with hdisj | hpass
  · left
    intro q hqe hqa
    rw [wiresOf_of_isUnitary (isUnitary_of_combine? hc).1] at hqa
    rw [wiresOf_of_isUnitary hunitary] at hdisj
    exact hdisj q ((mem_qubits_of_combine? hc q).mp hqa) hqe
  · right
    obtain ⟨hr, hcommute⟩ := Bool.and_eq_true_iff.mp hpass
    have hfuse : r.fuse = false := hapart.resolve_left (by simp [hr])
    have halike := alike_of_combine? hfuse hc
    exact Bool.and_eq_true_iff.mpr
      ⟨hr, halike.commute ha.nodup hop.nodup (commute_symm he.nodup hop.nodup hcommute)⟩

/-- What takes the place of two gates is only moved past what the first of them
can be moved past. -/
theorem clear_of_merged {x a b op : Operation α} (h : Sweep.combine? r a b = some (.merged op))
    (hclear : Clear r n x op) : Clear r n x a := by
  have hstands := standsFor_of_combine? h
  rcases hclear with hdisj | hpass
  · left
    rwa [← hstands.qubits]
  · right
    obtain ⟨hr, hcommute⟩ := Bool.and_eq_true_iff.mp hpass
    have hfuse : r.fuse = false := hapart.resolve_left (by simp [hr])
    have hkind : op.kind = a.kind := hstands.kind.resolve_right (by simp [hfuse])
    refine Bool.and_eq_true_iff.mpr ⟨hr, ?_⟩
    rw [← hcommute]
    simp only [commute, Operation.isUnitary, operandAxis?, hkind, hstands.qubits]

/-- What takes the place of two gates combines with nothing behind them that the
first of them does not combine with and the second was moved past. -/
theorem combine?_behind {x x' e op : Operation α} (hop : op.WellFormed n m)
    (hunitary : e.isUnitary = true) (h : Sweep.combine? r x op = some (.merged x'))
    (hclear : Clear r n e op) (hxe : Sweep.combine? r x e = none) :
    Sweep.combine? r x' e = none := by
  rcases hclear with hdisj | hpass
  · -- A gate on other wires combines with neither of them.
    by_contra hne
    obtain ⟨c, hc⟩ := Option.ne_none_iff_exists'.mp hne
    obtain ⟨q, hq⟩ := List.exists_mem_of_ne_nil _ (hop.qubits_ne_nil (isUnitary_of_combine? h).2)
    have hqx : q ∈ x'.qubits := by
      rw [(standsFor_of_combine? h).qubits]
      exact (mem_qubits_of_combine? h q).mpr hq
    rw [wiresOf_of_isUnitary hunitary] at hdisj
    exact hdisj q hq ((mem_qubits_of_combine? hc q).mp hqx)
  · have hfuse : r.fuse = false :=
      hapart.resolve_left (by simp [(Bool.and_eq_true_iff.mp hpass).1])
    rcases combine?_eq_merged h with ⟨θ, rfl⟩ | ⟨hr, -⟩
    · exact combine?_retuned (retuned_set x θ) (.refl e) hxe
    · rw [hfuse] at hr
      cases hr

/-- A gate that is absorbed by none of some operations is absorbed by none of
what is left of them when another gate is moved past it and absorbed. -/
theorem absorb_of_absorb {e op : Operation α} (he : e.WellFormed n m) (hop : op.WellFormed n m)
    (hunitary : e.isUnitary = true) (hclear : Clear r n e op) {ops left : List (Operation α)}
    (hops : ∀ f ∈ ops, f.WellFormed n m) (h : absorb r n op ops = some left)
    (hnone : absorb r n e ops = none) : absorb r n e left = none := by
  induction ops generalizing left with
  | nil => cases h
  | cons x rest ih =>
    obtain ⟨hx, hrest⟩ := List.forall_mem_cons.mp hops
    obtain ⟨hxe, hback⟩ := absorb_cons_eq_none_iff.mp hnone
    cases hc : Sweep.combine? r x op with
    | some c =>
      rw [absorb_cons_of_combine? hc] at h
      cases h
      have habsorb := hback (clear_of_combine? hapart hx he hop hc hunitary hclear)
      cases c with
      | eliminated => exact habsorb
      | merged x' =>
        have hx'e := combine?_behind hapart hop hunitary hc hclear hxe
        exact absorb_cons_eq_none_iff.mpr ⟨hx'e, fun _ => habsorb⟩
    | none =>
      rw [absorb, hc] at h
      dsimp only at h
      split_ifs at h
      obtain ⟨left', hleft', rfl⟩ := Option.map_eq_some_iff.mp h
      exact absorb_cons_eq_none_iff.mpr ⟨hxe, fun hclear' => ih hrest hleft' (hback hclear')⟩

/-- What takes the place of two gates is absorbed by nothing if the first of them
is not. -/
theorem absorb_merged {a b op : Operation α} (h : Sweep.combine? r a b = some (.merged op))
    {ops : List (Operation α)} (hnone : absorb r n a ops = none) : absorb r n op ops = none := by
  induction ops with
  | nil => rfl
  | cons x rest ih =>
    obtain ⟨hxa, hback⟩ := absorb_cons_eq_none_iff.mp hnone
    refine absorb_cons_eq_none_iff.mpr ⟨combine?_merged h hxa, fun hclear => ?_⟩
    exact ih (hback (clear_of_merged hapart h hclear))

/-- Absorbing a gate keeps a list irreducible. -/
theorem absorb_irreducible {op : Operation α} (hop : op.WellFormed n m)
    {ops left : List (Operation α)} (hops : ∀ f ∈ ops, f.WellFormed n m)
    (hirreducible : Irreducible r n ops) (h : absorb r n op ops = some left) :
    Irreducible r n left := by
  induction ops generalizing left with
  | nil => cases h
  | cons e rest ih =>
    obtain ⟨he, hrest⟩ := List.forall_mem_cons.mp hops
    obtain ⟨hidentity, habsorb, htail⟩ := hirreducible
    cases hc : Sweep.combine? r e op with
    | some c =>
      rw [absorb_cons_of_combine? hc] at h
      cases h
      cases c with
      | eliminated => exact htail
      | merged e' => exact ⟨not_identity_of_combine? hc, absorb_merged hapart hc habsorb, htail⟩
    | none =>
      rw [absorb, hc] at h
      dsimp only at h
      split_ifs at h with hclear
      obtain ⟨left', hleft', rfl⟩ := Option.map_eq_some_iff.mp h
      refine ⟨hidentity, ?_, ih hrest htail hleft'⟩
      cases hunitary : e.isUnitary with
      | false => exact absorb_of_not_isUnitary hunitary _
      | true => exact absorb_of_absorb hapart he hop hunitary hclear hrest hleft' habsorb

/-- One operation keeps the list of what is left irreducible. -/
theorem step_irreducible {t : Trail α} {op : Operation α} (hop : op.WellFormed n m)
    (ht : ∀ f ∈ t.left, f.WellFormed n m) (h : Irreducible r n t.left) :
    Irreducible r n (t.step r n op).left := by
  rw [Trail.step]
  split_ifs with hidentity
  · exact h
  · cases habsorb : absorb r n op t.left with
    | some left => exact absorb_irreducible hapart hop ht h habsorb
    | none => exact ⟨by simpa using hidentity, habsorb, h⟩

/-- A pass leaves an irreducible list. -/
theorem run_start_irreducible {s : Sweep α} (hs : s.Tracked n m)
    (h : Irreducible r n s.ops.reverse) {ops : List (Operation α)}
    (hops : ∀ op ∈ ops, op.WellFormed n m) : Irreducible r n (s.run r ops).ops.reverse := by
  induction ops generalizing s with
  | nil => exact h
  | cons op rest ih =>
    obtain ⟨hop, hrest⟩ := List.forall_mem_cons.mp hops
    have hleft : ∀ f ∈ s.trail.left, f.WellFormed n m := by
      intro f hf
      obtain ⟨i, hi⟩ := Sweep.mem_ops.mp (List.mem_reverse.mp hf)
      exact hs.live i f hi
    have hstep := step_irreducible hapart hop hleft h
    rw [← Sweep.trail_step hs hop] at hstep
    exact ih (Sweep.step_tracked hs hop) hstep hrest

/-! ## Passes -/

/-- A second pass makes no simplification and returns what the first one
returned. -/
theorem pass_pass {c : Circuit α} (hc : c.WellFormed) :
    pass r (pass r c).1 = ((pass r c).1, 0) := by
  have hleft : Irreducible r c.numQubits (pass r c).1.ops.reverse :=
    run_start_irreducible hapart Sweep.start_tracked trivial hc
  have hrun := run_irreducible hleft
  rw [List.reverse_reverse] at hrun
  rw [pass_eq_trail (pass_wellFormed hc) hrun, List.reverse_reverse]

/-- However many passes there may be, they return what the first one returns, and
at most one more is made. -/
theorem repeatPass_succ_eq {c : Circuit α} (hc : c.WellFormed) (bound : Nat) :
    (repeatPass r (bound + 1) c).1 = (pass r c).1 ∧ (repeatPass r (bound + 1) c).2 ≤ 2 := by
  by_cases hfired : (pass r c).2 = 0
  · rw [repeatPass_succ_of_not_fired bound hfired, pass_of_fired_eq_zero hfired]
    exact ⟨rfl, Nat.le_succ 1⟩
  · have hfixed : (pass r (pass r c).1).2 = 0 := by rw [pass_pass hapart hc]
    rw [repeatPass_succ_of_fired bound hfired]
    refine ⟨repeatPass_of_fired_eq_zero hfixed bound, ?_⟩
    cases bound with
    | zero => exact Nat.le_succ 1
    | succ bound =>
      have hone : (repeatPass r (bound + 1) (pass r c).1).2 = 1 := by
        rw [repeatPass_succ_of_not_fired bound hfixed]
      exact Nat.succ_le_succ (Nat.le_of_eq hone)

theorem repeatPass_passes_le {c : Circuit α} (hc : c.WellFormed) (bound : Nat) :
    (repeatPass r bound c).2 ≤ 2 := by
  cases bound with
  | zero => exact Nat.zero_le 2
  | succ bound => exact (repeatPass_succ_eq hapart hc bound).2

theorem repeatPass_idempotent {c : Circuit α} (hc : c.WellFormed) (bound : Nat) :
    (repeatPass r bound (repeatPass r bound c).1).1 = (repeatPass r bound c).1 := by
  cases bound with
  | zero => rfl
  | succ bound =>
    rw [(repeatPass_succ_eq hapart hc bound).1]
    exact repeatPass_of_fired_eq_zero (by rw [pass_pass hapart hc]) (bound + 1)

end Apart

/-- The two middle levels fuse nothing. -/
theorem fuse_within_of_level? {level : Nat} (hlevel : level = 1 ∨ level = 2) {config : Config}
    (h : Config.level? level = some config) (natives : GateSet) :
    (config.enabled.within natives).fuse = false := by
  rcases hlevel with rfl | rfl <;> cases h <;> rfl

/-- Unless gates are both fused and moved past commuting ones, one pass reaches
the fixed point: a second pass makes no simplification and returns the same
circuit.  So at most two passes are made whatever their bound is, the result is
the same for every positive bound, and optimising it once more returns it.  The
two middle levels are always of this kind. -/
theorem optimise_single_pass (natives : GateSet) {c : Circuit α} (hc : c.WellFormed) :
    (∀ config : Config, ¬ (config.enabled.commute = true ∧
      (config.enabled.within natives).fuse = true) →
      pass (config.enabled.within natives) (pass (config.enabled.within natives) c).1 =
          ((pass (config.enabled.within natives) c).1, 0) ∧
        (optimise natives config c).2 ≤ 2 ∧
        (∀ bound, 1 ≤ bound → (optimise natives { config with maxPasses := bound } c).1 =
          (pass (config.enabled.within natives) c).1) ∧
        (optimise natives config (optimise natives config c).1).1 =
        (optimise natives config c).1) ∧
    ∀ level config, level = 1 ∨ level = 2 → Config.level? level = some config →
      (optimise natives config c).2 ≤ 2 ∧
        (optimise natives config (optimise natives config c).1).1 =
        (optimise natives config c).1 := by
  refine ⟨fun config hconfig => ?_, fun level config hlevel hconfig => ?_⟩
  · have hapart : (config.enabled.within natives).commute = false ∨
        (config.enabled.within natives).fuse = false := by
      rw [← Bool.not_eq_true, ← Bool.not_eq_true, ← not_and_or]
      exact hconfig
    refine ⟨pass_pass hapart hc, repeatPass_passes_le hapart hc _, fun bound hbound => ?_,
      repeatPass_idempotent hapart hc _⟩
    obtain ⟨k, rfl⟩ := Nat.exists_eq_add_of_le' hbound
    exact (repeatPass_succ_eq hapart hc k).1
  · have hapart := fuse_within_of_level? hlevel hconfig natives
    exact ⟨repeatPass_passes_le (.inr hapart) hc _, repeatPass_idempotent (.inr hapart) hc _⟩

/-- Native kinds without the general rotation. -/
def plainNatives : GateSet := ⟨[.gate .cx, .gate .measure, .gate .rz]⟩

/-- Where the general rotation is not native, the highest level fuses nothing and
reaches its fixed point in one pass. -/
theorem optimise_single_pass_guardedCircuit :
    guardedCircuit.WellFormed ∧
      ¬ (Config.highest.enabled.commute = true ∧
        (Config.highest.enabled.within plainNatives).fuse = true) ∧
      (optimise plainNatives .highest guardedCircuit).2 ≤ 2 ∧
      (optimise plainNatives .highest (optimise plainNatives .highest guardedCircuit).1).1 =
        (optimise plainNatives .highest guardedCircuit).1 := by
  have hplain : ¬ (Config.highest.enabled.commute = true ∧
      (Config.highest.enabled.within plainNatives).fuse = true) := by
    decide
  obtain ⟨-, hpasses, -, hidempotent⟩ :=
    (optimise_single_pass plainNatives wellFormed_guardedCircuit).1 .highest hplain
  exact ⟨wellFormed_guardedCircuit, hplain, hpasses, hidempotent⟩

end QuantumCompiler.Peephole
