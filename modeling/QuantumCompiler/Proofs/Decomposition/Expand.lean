import QuantumCompiler.Proofs.Decomposition.Plan
import QuantumCompiler.Proofs.Meaning

/-!
# Unrolling and expansion

`RuleLaw` says that every rule of the table, instantiated, has the meaning of
the gate it decomposes.  Under this law `unrollOp` and `expand` keep the
meaning of an operation.  `expand_cases` follows the recursion of `expand`
once, and every fact about its result is read off from there.

`exists_toNative_iff` is the exact account of success: a circuit is expressed
by native operations if and only if all its kinds are derivable.  Otherwise the
first operation of another kind is told (`toNative_eq_error`).
-/

namespace QuantumCompiler.Decomposition

variable {α : Type} [RealArith α] {M : Type*} [Monoid M] {n m : Nat} {I : Operation α → M}

/-- Every rule has the meaning of the gate that it decomposes. -/
def RuleLaw (n m : Nat) (I : Operation α → M) : Prop :=
  ∀ rule ∈ rules, ∀ op : Operation α, op.WellFormed n m → op.kind = .gate rule.gate →
    I op = meaning I (rule.instantiate op)

/-! ## Unrolling -/

theorem firstRule?_some {kind : Kind} {rule : Rule} (h : firstRule? kind = some rule) :
    rule ∈ rules ∧ kind = .gate rule.gate := by
  refine ⟨List.mem_of_find?_eq_some h, ?_⟩
  simpa using List.find?_some h

/-- One level of unrolling: either the operation stays, or a rule takes its
place. -/
theorem unrollOp_succ (depth : Nat) (op : Operation α) :
    unrollOp (depth + 1) op = [op] ∨
      ∃ rule ∈ rules, op.kind = .gate rule.gate ∧
        unrollOp (depth + 1) op = (rule.instantiate op).flatMap (unrollOp depth) := by
  rw [unrollOp]
  split_ifs with hwide
  · cases hrule : firstRule? op.kind with
    | none => exact .inl rfl
    | some rule =>
      obtain ⟨hmem, hkind⟩ := firstRule?_some hrule
      exact .inr ⟨rule, hmem, hkind, rfl⟩
  · exact .inl rfl

theorem wellFormed_unrollOp {depth : Nat} {op : Operation α} (hop : op.WellFormed n m) :
    ∀ o ∈ unrollOp depth op, o.WellFormed n m := by
  induction depth generalizing op with
  | zero => simpa [unrollOp] using hop
  | succ depth ih =>
    rcases unrollOp_succ depth op with h | ⟨rule, hmem, hkind, h⟩
    · rw [h]
      simpa using hop
    · rw [h]
      intro o ho
      obtain ⟨step, hstep, ho⟩ := List.mem_flatMap.mp ho
      exact ih (wellFormed_instantiate (rules_fit rule hmem) hop hkind step hstep) o ho

/-- Unrolling creates unitary gates only. -/
theorem mem_unrollOp {depth : Nat} {op o : Operation α} (ho : o ∈ unrollOp depth op) :
    o = op ∨ o.isUnitary = true := by
  induction depth generalizing op with
  | zero => exact .inl (by simpa [unrollOp] using ho)
  | succ depth ih =>
    rcases unrollOp_succ depth op with h | ⟨rule, hmem, -, h⟩
    · rw [h] at ho
      exact .inl (by simpa using ho)
    · rw [h] at ho
      obtain ⟨step, hstep, ho⟩ := List.mem_flatMap.mp ho
      right
      rcases ih ho with rfl | hunitary
      · obtain ⟨s, hs, hkind⟩ := kind_instantiate hstep
        exact Operation.isUnitary_of_kind hkind (isUnitary_step hmem s hs)
      · exact hunitary

theorem unrollOp_mapQubits {depth : Nat} {op : Operation α} (hop : op.WellFormed n m)
    (f : Nat → Nat) :
    unrollOp depth (op.mapQubits f) = (unrollOp depth op).map (·.mapQubits f) := by
  induction depth generalizing op with
  | zero => rfl
  | succ depth ih =>
    have hbarrier : (op.mapQubits f).isBarrier = op.isBarrier := rfl
    have harity : (op.mapQubits f).arity = op.arity := by simp [Operation.arity]
    rw [unrollOp, unrollOp, hbarrier, harity, Operation.mapQubits_kind]
    split_ifs with hwide
    · cases hrule : firstRule? op.kind with
      | none => rfl
      | some rule =>
        obtain ⟨hmem, hkind⟩ := firstRule?_some hrule
        have hfit := rules_fit rule hmem
        have hlength := (lengths_of_wellFormed hop hkind hfit.1).1
        dsimp only
        rw [instantiate_mapQubits hfit hlength, List.flatMap_map, List.map_flatMap]
        refine List.flatMap_congr fun step hstep => ?_
        exact ih (wellFormed_instantiate hfit hop hkind step hstep)
    · rfl

theorem meaning_unrollOp (hI : RuleLaw n m I) {depth : Nat} {op : Operation α}
    (hop : op.WellFormed n m) : meaning I (unrollOp depth op) = I op := by
  induction depth generalizing op with
  | zero => simp [unrollOp]
  | succ depth ih =>
    rcases unrollOp_succ depth op with h | ⟨rule, hmem, hkind, h⟩
    · simp [h]
    · have hwf := wellFormed_instantiate (rules_fit rule hmem) hop hkind
      rw [h, meaning_flatMap fun step hstep => ih (hwf step hstep), ← hI rule hmem op hop hkind]

theorem unroll_wellFormed {c : Circuit α} (hc : c.WellFormed) : (unroll c).WellFormed := by
  intro o ho
  obtain ⟨op, hop, ho⟩ := List.mem_flatMap.mp ho
  exact wellFormed_unrollOp (hc op hop) o ho

/-- Unrolling keeps the meaning of a circuit whose qubits are renamed. -/
theorem meaning_unroll (hI : RuleLaw n m I) {c : Circuit α} (hc : c.WellFormed) {f : Nat → Nat}
    (hf : ∀ op ∈ c.ops, (op.mapQubits f).WellFormed n m) :
    meaning I ((unroll c).ops.map (·.mapQubits f)) = meaning I (c.ops.map (·.mapQubits f)) := by
  have hcommute : (unroll c).ops.map (·.mapQubits f) =
      (c.ops.map (·.mapQubits f)).flatMap (unrollOp rules.length) := by
    rw [unroll, List.map_flatMap, List.flatMap_map]
    refine List.flatMap_congr fun op hop => ?_
    exact (unrollOp_mapQubits (hc op hop) f).symm
  rw [hcommute]
  refine meaning_flatMap fun op' hop' => ?_
  obtain ⟨op, hop, rfl⟩ := List.mem_map.mp hop'
  exact meaning_unrollOp hI (hf op hop)

/-! ## Expansion -/

omit [RealArith α] in
theorem keep_eq_ok {op : Operation α} {out : List (Operation α)} (h : keep n m op = .ok out) :
    out = [op] ∧ op.WellFormed n m := by
  rw [keep] at h
  split at h
  · cases h
  · next hfault =>
    cases h
    exact ⟨rfl, hfault⟩

omit [RealArith α] in
/-- A list is expanded by expanding its members. -/
theorem mapM_eq_ok {f : Operation α → Except Cause (List (Operation α))}
    {xs : List (Operation α)} {ys : List (List (Operation α))} (h : xs.mapM f = .ok ys) :
    List.Forall₂ (fun x y => f x = .ok y) xs ys := by
  induction xs generalizing ys with
  | nil =>
    cases h
    exact .nil
  | cons x rest ih =>
    rw [List.mapM_cons] at h
    cases hx : f x with
    | error e => rw [hx] at h; cases h
    | ok y =>
      cases hrest : rest.mapM f with
      | error e => rw [hx, hrest] at h; cases h
      | ok ys' =>
        rw [hx, hrest] at h
        cases h
        exact .cons hx (ih hrest)

omit [RealArith α] in
theorem mem_flatten_of_forall₂ {R : Operation α → List (Operation α) → Prop}
    {xs : List (Operation α)} {parts : List (List (Operation α))} (h : List.Forall₂ R xs parts)
    {o : Operation α} (ho : o ∈ parts.flatten) : ∃ x ∈ xs, ∃ part, R x part ∧ o ∈ part := by
  induction h with
  | nil => simp at ho
  | @cons x part xs parts hx _ ih =>
    rw [List.flatten_cons, List.mem_append] at ho
    rcases ho with ho | ho
    · exact ⟨x, List.mem_cons_self, part, hx, ho⟩
    · obtain ⟨y, hy, hpart⟩ := ih ho
      exact ⟨y, List.mem_cons_of_mem _ hy, hpart⟩

omit [RealArith α] in
theorem meaning_flatten {R : Operation α → List (Operation α) → Prop}
    {xs : List (Operation α)} {parts : List (List (Operation α))} (h : List.Forall₂ R xs parts)
    (hR : ∀ x ∈ xs, ∀ part, R x part → meaning I part = I x) :
    meaning I parts.flatten = meaning I xs := by
  induction h with
  | nil => rfl
  | @cons x part xs parts hx _ ih =>
    rw [List.flatten_cons, meaning_append, meaning_cons, hR x List.mem_cons_self part hx,
      ih fun y hy => hR y (List.mem_cons_of_mem _ hy)]

/-- A successful expansion keeps a native operation, or goes through the steps
of one of the choices with the choices after it. -/
theorem expand_cases {natives : GateSet} {choices : List Choice} {op : Operation α}
    {out : List (Operation α)} (h : expand natives n m choices op = .ok out) :
    natives.contains op.kind = true ∧ out = [op] ∨
      ∃ before choice rest parts, choices = before ++ choice :: rest ∧
        op.kind = .gate choice.rule.gate ∧ out = parts.flatten ∧
        List.Forall₂ (fun o part => expand natives n m rest o = .ok part)
          (choice.rule.instantiate op) parts := by
  induction choices with
  | nil =>
    rw [expand] at h
    split_ifs at h with hnative
    exact .inl ⟨hnative, (keep_eq_ok h).1⟩
  | cons choice rest ih =>
    rw [expand] at h
    split_ifs at h with hnative hkind
    · exact .inl ⟨hnative, (keep_eq_ok h).1⟩
    · right
      split at h
      · cases h
      · cases hparts : (choice.rule.instantiate op).mapM (expand natives n m rest) with
        | error e => rw [hparts] at h; cases h
        | ok parts =>
          rw [hparts] at h
          cases h
          exact ⟨[], choice, rest, parts, rfl, by simpa using hkind, rfl, mapM_eq_ok hparts⟩
    · rcases ih h with hstay | ⟨before, c, rest', parts, rfl, hrest⟩
      · exact .inl hstay
      · exact .inr ⟨choice :: before, c, rest', parts, rfl, hrest⟩

/-- What may come out of the expansion of an operation. -/
structure Product (natives : GateSet) (n m : Nat) (op o : Operation α) : Prop where
  wellFormed : o.WellFormed n m
  native : natives.contains o.kind = true
  qubits : ∀ q ∈ o.qubits, q ∈ op.qubits
  unitary : o = op ∨ o.isUnitary = true ∧ op.isUnitary = true

/-- Expansion gives native operations on the qubits of the operation. -/
theorem expand_products {natives : GateSet} {choices : List Choice}
    (htable : ∀ c ∈ choices, c.rule ∈ rules) {op : Operation α} (hop : op.WellFormed n m)
    {out : List (Operation α)} (h : expand natives n m choices op = .ok out) :
    ∀ o ∈ out, Product natives n m op o := by
  -- The steps of a choice are expanded by fewer choices.
  induction hk : choices.length using Nat.strongRecOn generalizing choices op out with
  | _ k ih =>
    subst hk
    intro o ho
    rcases expand_cases h with
      ⟨hnative, rfl⟩ | ⟨before, choice, rest, parts, rfl, hkind, rfl, hparts⟩
    · rw [List.mem_singleton.mp ho]
      exact ⟨hop, hnative, fun q hq => hq, .inl rfl⟩
    · have hfit := rules_fit _ (htable choice (by simp))
      obtain ⟨s, hs, part, hpart, ho⟩ := mem_flatten_of_forall₂ hparts ho
      have hproduct := ih rest.length (by simp; omega) (fun c hc => htable c (by simp [hc]))
        (wellFormed_instantiate hfit hop hkind s hs) hpart rfl o ho
      have hqubits := qubits_instantiate hfit (lengths_of_wellFormed hop hkind hfit.1).1 s hs
      refine
        { hproduct with
          qubits := fun q hq => hqubits q (hproduct.qubits q hq)
          unitary := ?_ }
      refine .inr ⟨?_, Operation.isUnitary_of_kind hkind hfit.1⟩
      rcases hproduct.unitary with rfl | ⟨hunitary, -⟩
      · obtain ⟨step, hmemstep, hkind'⟩ := kind_instantiate hs
        exact Operation.isUnitary_of_kind hkind' (hfit.2 step hmemstep).1
      · exact hunitary

/-- Expansion keeps the meaning of an operation. -/
theorem meaning_expand (hI : RuleLaw n m I) {natives : GateSet} {choices : List Choice}
    (htable : ∀ c ∈ choices, c.rule ∈ rules) {op : Operation α} (hop : op.WellFormed n m)
    {out : List (Operation α)} (h : expand natives n m choices op = .ok out) :
    meaning I out = I op := by
  induction hk : choices.length using Nat.strongRecOn generalizing choices op out with
  | _ k ih =>
    subst hk
    rcases expand_cases h with ⟨-, rfl⟩ | ⟨before, choice, rest, parts, rfl, hkind, rfl, hparts⟩
    · simp
    · have hmem := htable choice (by simp)
      rw [hI _ hmem op hop hkind]
      refine meaning_flatten hparts fun s hs part hpart => ?_
      exact ih rest.length (by simp; omega) (fun c hc => htable c (by simp [hc]))
        (wellFormed_instantiate (rules_fit _ hmem) hop hkind s hs) hpart rfl

/-! ## Success -/

omit [RealArith α] in
theorem exists_mapM_eq_ok {f : Operation α → Except Cause (List (Operation α))}
    {xs : List (Operation α)} (h : ∀ x ∈ xs, ∃ y, f x = .ok y) : ∃ ys, xs.mapM f = .ok ys := by
  induction xs with
  | nil => exact ⟨[], rfl⟩
  | cons x rest ih =>
    obtain ⟨y, hy⟩ := h x List.mem_cons_self
    obtain ⟨ys, hys⟩ := ih fun x' hx' => h x' (List.mem_cons_of_mem _ hx')
    refine ⟨y :: ys, ?_⟩
    rw [List.mapM_cons, hy, hys]
    rfl

omit [RealArith α] in
theorem keep_of_wellFormed {op : Operation α} (hop : op.WellFormed n m) :
    keep n m op = .ok [op] := by
  rw [keep, show op.fault? n m = none from hop]

omit [RealArith α] in
theorem paramCause?_of_wellFormed {op : Operation α} {g : Gate} (hop : op.WellFormed n m)
    (hkind : op.kind = .gate g) (hg : g.isUnitary = true) : paramCause? op = none := by
  have hparams := (lengths_of_wellFormed hop hkind hg).2
  simp [paramCause?, hkind, hparams]

/-- Ordered choices expand every operation that they cover. -/
theorem exists_expand {natives : GateSet} {choices : List Choice} (hord : Ordered natives choices)
    {op : Operation α} (hop : op.WellFormed n m) (hkind : Covered natives choices op.kind) :
    ∃ out, expand natives n m choices op = .ok out := by
  induction choices generalizing op with
  | nil =>
    rcases hkind with hnative | ⟨c, hc, -⟩
    · exact ⟨[op], by rw [expand, if_pos hnative, keep_of_wellFormed hop]⟩
    · simp at hc
  | cons choice rest ih =>
    obtain ⟨hmem, -, hsteps, hrest⟩ := hord
    by_cases hnative : natives.contains op.kind = true
    · exact ⟨[op], by rw [expand, if_pos hnative, keep_of_wellFormed hop]⟩
    rw [expand, if_neg hnative]
    by_cases hfirst : op.kind = .gate choice.rule.gate
    · have hfit := rules_fit _ hmem
      obtain ⟨parts, hparts⟩ : ∃ parts,
          (choice.rule.instantiate op).mapM (expand natives n m rest) = .ok parts := by
        refine exists_mapM_eq_ok fun o ho => ?_
        obtain ⟨step, hstep, hkind'⟩ := kind_instantiate ho
        exact ih hrest (wellFormed_instantiate hfit hop hfirst o ho) (hkind' ▸ hsteps step hstep)
      refine ⟨parts.flatten, ?_⟩
      rw [if_pos (by simpa using hfirst), paramCause?_of_wellFormed hop hfirst hfit.1]
      dsimp only
      rw [hparts]
      rfl
    · rw [if_neg (by simpa using hfirst)]
      refine ih hrest hop ?_
      rcases hkind with h | ⟨c, hc, hkind⟩
      · exact absurd h hnative
      · rcases List.mem_cons.mp hc with rfl | hc
        · exact absurd hkind hfirst
        · exact .inr ⟨c, hc, hkind⟩

theorem covered_of_expand {natives : GateSet} {choices : List Choice} {op : Operation α}
    {out : List (Operation α)} (h : expand natives n m choices op = .ok out) :
    Covered natives choices op.kind := by
  rcases expand_cases h with ⟨hnative, -⟩ | ⟨before, choice, rest, -, rfl, hkind, -⟩
  · exact .inl hnative
  · exact .inr ⟨choice, by simp, hkind⟩

theorem expand_of_not_covered {natives : GateSet} {choices : List Choice} {op : Operation α}
    (h : ¬ Covered natives choices op.kind) :
    expand natives n m choices op = .error (.noRule op.kind.name natives.text) := by
  obtain ⟨hnative, hchoice⟩ := not_or.mp h
  induction choices with
  | nil => rw [expand, if_neg hnative]
  | cons choice rest ih =>
    have hkind : ¬ op.kind = .gate choice.rule.gate := fun hkind =>
      hchoice ⟨choice, List.mem_cons_self, hkind⟩
    rw [expand, if_neg hnative, if_neg (by simpa using hkind)]
    have hrest : ¬ ∃ c ∈ rest, op.kind = .gate c.rule.gate := by
      rintro ⟨c, hc, hkind⟩
      exact hchoice ⟨c, List.mem_cons_of_mem _ hc, hkind⟩
    exact ih (not_or.mpr ⟨hnative, hrest⟩) hrest

/-! ## Circuits -/

theorem expandAll_eq_ok {plan : Plan} {i : Nat} {ops out : List (Operation α)}
    (h : expandAll plan n m i ops = .ok out) :
    ∃ parts, out = parts.flatten ∧ List.Forall₂
      (fun op part => expand plan.natives n m plan.choices op = .ok part) ops parts := by
  induction ops generalizing i out with
  | nil =>
    cases h
    exact ⟨[], rfl, .nil⟩
  | cons op rest ih =>
    rw [expandAll] at h
    split at h
    · cases h
    · next first hfirst =>
      split at h
      · cases h
      · next others hothers =>
        cases h
        obtain ⟨parts, rfl, hparts⟩ := ih hothers
        exact ⟨first :: parts, rfl, .cons hfirst hparts⟩

theorem exists_expandAll_iff {plan : Plan} {i : Nat} {ops : List (Operation α)} :
    (∃ out, expandAll plan n m i ops = .ok out) ↔
      ∀ op ∈ ops, ∃ part, expand plan.natives n m plan.choices op = .ok part := by
  induction ops generalizing i with
  | nil => simp [expandAll]
  | cons op rest ih =>
    rw [List.forall_mem_cons, ← ih (i := i + 1), expandAll]
    cases expand plan.natives n m plan.choices op <;>
      cases expandAll plan n m (i + 1) rest <;> simp

theorem toNative_eq_ok {natives : GateSet} {c out : Circuit α}
    (h : toNative natives c = .ok out) :
    ∃ ops, expandAll (Plan.ofNatives natives) c.numQubits c.numClbits 0 c.ops = .ok ops ∧
      out = { c with ops } := by
  rw [toNative] at h
  split at h
  · next ops hops =>
    cases h
    exact ⟨ops, hops, rfl⟩
  · cases h

/-- Expressing a circuit by native operations gives products of its
operations. -/
theorem toNative_products {natives : GateSet} {c out : Circuit α} (hc : c.WellFormed)
    (h : toNative natives c = .ok out) :
    out.numQubits = c.numQubits ∧ out.numClbits = c.numClbits ∧
      ∀ o ∈ out.ops, ∃ op ∈ c.ops, Product natives c.numQubits c.numClbits op o := by
  obtain ⟨ops, hops, rfl⟩ := toNative_eq_ok h
  obtain ⟨parts, rfl, hparts⟩ := expandAll_eq_ok hops
  rw [Plan.natives_ofNatives] at hparts
  refine ⟨rfl, rfl, fun o ho => ?_⟩
  obtain ⟨op, hop, part, hpart, ho⟩ := mem_flatten_of_forall₂ hparts ho
  exact ⟨op, hop,
    expand_products (Plan.ordered_ofNatives natives).mem_rules (hc op hop) hpart o ho⟩

theorem toNative_wellFormed {natives : GateSet} {c out : Circuit α} (hc : c.WellFormed)
    (h : toNative natives c = .ok out) : out.WellFormed := by
  obtain ⟨hqubits, hclbits, hproducts⟩ := toNative_products hc h
  intro o ho
  obtain ⟨op, -, hproduct⟩ := hproducts o ho
  rw [hqubits, hclbits]
  exact hproduct.wellFormed

/-- Expressing a circuit by native operations keeps its meaning. -/
theorem meaning_toNative {natives : GateSet} {c out : Circuit α} (hc : c.WellFormed)
    (hI : RuleLaw c.numQubits c.numClbits I) (h : toNative natives c = .ok out) :
    meaning I out.ops = meaning I c.ops := by
  obtain ⟨ops, hops, rfl⟩ := toNative_eq_ok h
  obtain ⟨parts, rfl, hparts⟩ := expandAll_eq_ok hops
  rw [Plan.natives_ofNatives] at hparts
  exact meaning_flatten hparts fun op hop part hpart =>
    meaning_expand hI (Plan.ordered_ofNatives natives).mem_rules (hc op hop) hpart

/-- A circuit is expressed by native operations if and only if all its kinds
are derivable. -/
theorem exists_toNative_iff {natives : GateSet} {c : Circuit α} (hc : c.WellFormed) :
    (∃ out, toNative natives c = .ok out) ↔ ∀ op ∈ c.ops, Derivable natives op.kind := by
  have hall : (∃ out, toNative natives c = .ok out) ↔
      ∃ ops, expandAll (Plan.ofNatives natives) c.numQubits c.numClbits 0 c.ops = .ok ops := by
    rw [toNative]
    cases expandAll (Plan.ofNatives natives) c.numQubits c.numClbits 0 c.ops <;> simp
  rw [hall, exists_expandAll_iff, Plan.natives_ofNatives]
  refine forall₂_congr fun op hop => ?_
  rw [← Plan.covered_ofNatives_iff]
  constructor
  · intro ⟨part, hpart⟩
    exact covered_of_expand hpart
  · exact exists_expand (Plan.ordered_ofNatives natives) (hc op hop)

/-- The expansion of a list fails at its first operation that is not covered. -/
theorem expandAll_eq_error {plan : Plan} (hord : Ordered plan.natives plan.choices) {i : Nat}
    {ops : List (Operation α)} (hops : ∀ op ∈ ops, op.WellFormed n m) {e : ExpansionError}
    (h : expandAll plan n m i ops = .error e) :
    ∃ before op after, ops = before ++ op :: after ∧
      (∀ o ∈ before, Covered plan.natives plan.choices o.kind) ∧
      ¬ Covered plan.natives plan.choices op.kind ∧
      e = ⟨i + before.length, op.kind, .noRule op.kind.name plan.natives.text⟩ := by
  induction ops generalizing i with
  | nil => cases h
  | cons op rest ih =>
    obtain ⟨hop, hrest⟩ := List.forall_mem_cons.mp hops
    rw [expandAll] at h
    by_cases hcovered : Covered plan.natives plan.choices op.kind
    · obtain ⟨first, hfirst⟩ := exists_expand hord hop hcovered
      rw [hfirst] at h
      cases hothers : expandAll plan n m (i + 1) rest with
      | ok others => simp only [hothers, reduceCtorEq] at h
      | error e' =>
        simp only [hothers] at h
        cases h
        obtain ⟨before, o, after, rfl, hbefore, ho, rfl⟩ := ih hrest hothers
        refine ⟨op :: before, o, after, rfl, List.forall_mem_cons.mpr ⟨hcovered, hbefore⟩, ho, ?_⟩
        rw [List.length_cons, Nat.add_right_comm, Nat.add_assoc]
    · rw [expand_of_not_covered hcovered] at h
      cases h
      exact ⟨[], op, rest, rfl, by simp, hcovered, rfl⟩

/-- A circuit that is not expressed by native operations has a first operation
from whose kind no rules lead to native kinds, and this is what the error
tells. -/
theorem toNative_eq_error {natives : GateSet} {c : Circuit α} (hc : c.WellFormed)
    {e : ExpansionError} (h : toNative natives c = .error e) :
    ∃ before op after, c.ops = before ++ op :: after ∧
      (∀ o ∈ before, Derivable natives o.kind) ∧ ¬ Derivable natives op.kind ∧
      e = ⟨before.length, op.kind, .noRule op.kind.name natives.text⟩ := by
  rw [toNative] at h
  split at h
  · cases h
  · next hexpand =>
    cases h
    have hord : Ordered (Plan.ofNatives natives).natives (Plan.ofNatives natives).choices := by
      rw [Plan.natives_ofNatives]
      exact Plan.ordered_ofNatives natives
    obtain ⟨before, op, after, hops, hbefore, hop, rfl⟩ := expandAll_eq_error hord hc hexpand
    simp only [Plan.natives_ofNatives, Plan.covered_ofNatives_iff, Nat.zero_add] at hbefore hop ⊢
    exact ⟨before, op, after, hops, hbefore, hop, rfl⟩

end QuantumCompiler.Decomposition
