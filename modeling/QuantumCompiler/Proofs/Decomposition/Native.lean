import QuantumCompiler.Proofs.Decomposition.Derivation
import QuantumCompiler.Proofs.Decomposition.Expand

/-!
# Native operations in place of a circuit

`Unfolds` is the recursion that replaces an operation by native ones, read as a
relation: a native operation stays, and any other one is replaced by the steps
of the rule that the whole plan has for its kind, each of them unfolded in the
same way.  `expand` only looks at the choices made before, so that it ends; it
unfolds all the same, because the plan has one choice for a kind
(`unfolds_of_expand`).

`toNative_expands` is the full account of expressing a circuit by native
operations.  `cost_optimal_exact` adds that an operation becomes as many
operations as the plan says, and that no derivation has fewer leaves.
-/

namespace QuantumCompiler.Decomposition

variable {α : Type} [RealArith α] {n m : Nat} {natives : GateSet}

/-- The recursion through the rules of a plan, down to native operations. -/
inductive Unfolds (plan : Plan) : Operation α → List (Operation α) → Prop
  | native {op : Operation α} (stays : plan.natives.contains op.kind = true) :
      Unfolds plan op [op]
  | rule {op : Operation α} {choice : Choice} {part : Operation α → List (Operation α)}
      (foreign : plan.natives.contains op.kind = false)
      (chosen : plan.choice? op.kind = some choice)
        (steps : ∀ o ∈ choice.rule.instantiate op, Unfolds plan o (part o)) :
      Unfolds plan op ((choice.rule.instantiate op).flatMap part)

theorem Unfolds.unique {plan : Plan} {op : Operation α} {out out' : List (Operation α)}
    (h : Unfolds plan op out) (h' : Unfolds plan op out') : out = out' := by
  induction h generalizing out' with
  | native stays =>
    cases h' with
    | native => rfl
    | rule foreign =>
      rw [stays] at foreign
      cases foreign
  | @rule op choice part foreign chosen _ ih =>
    cases h' with
    | native stays =>
      rw [stays] at foreign
      cases foreign
    | @rule _ choice' part' _ chosen' steps' =>
      rw [chosen] at chosen'
      cases chosen'
      exact List.flatMap_congr fun o ho => ih o ho (steps' o ho)

/-! ## Expansion unfolds -/

omit [RealArith α] in
/-- The members of a list that is expanded have expansions, whose concatenation
is the result. -/
theorem exists_part {f : Operation α → Except Cause (List (Operation α))}
    {xs : List (Operation α)} {parts : List (List (Operation α))}
    (h : List.Forall₂ (fun x part => f x = .ok part) xs parts) :
    ∃ part : Operation α → List (Operation α),
      parts.flatten = xs.flatMap part ∧ ∀ x ∈ xs, f x = .ok (part x) := by
  refine ⟨fun x => (f x).toOption.getD [], ?_⟩
  induction h with
  | nil => simp
  | @cons x part xs parts hx _ ih =>
    obtain ⟨hflatten, hall⟩ := ih
    have hpart : (f x).toOption.getD [] = part := by rw [hx]; rfl
    rw [List.flatten_cons, List.flatMap_cons, hpart, hflatten]
    exact ⟨rfl, List.forall_mem_cons.mpr ⟨hx.trans (congrArg _ hpart.symm), hall⟩⟩

/-- Expansion by the last choices of a plan unfolds by the whole plan. -/
theorem unfolds_of_expand {plan : Plan} (hord : Ordered plan.natives plan.choices)
    {later choices : List Choice} (hplan : plan.choices = later ++ choices) {op : Operation α}
    {out : List (Operation α)} (h : expand plan.natives n m choices op = .ok out) :
    Unfolds plan op out := by
  induction hk : choices.length using Nat.strongRecOn generalizing later choices op out with
  | _ k ih =>
    subst hk
    rcases expand_cases h with
      ⟨hnative, rfl⟩ | ⟨before, choice, rest, parts, rfl, hkind, rfl, hparts⟩
    · exact .native hnative
    · obtain ⟨part, hflatten, hpart⟩ := exists_part hparts
      have hmem : choice ∈ plan.choices := by simp [hplan]
      rw [hflatten]
      refine .rule (hkind ▸ hord.foreign choice hmem) (hkind ▸ Plan.choice?_of_mem hord hmem)
        fun o ho => ?_
      have hrest : plan.choices = (later ++ before ++ [choice]) ++ rest := by simp [hplan]
      exact ih rest.length (by simp; omega) hrest (hpart o ho) rfl

/-! ## Circuits -/

/-- What takes the place of an operation: the native operations that the plan
unfolds it to.  They act on its qubits, and a native operation stays as it
is. -/
structure Expansion (natives : GateSet) (op : Operation α) (part : List (Operation α)) :
    Prop where
  unfolds : Unfolds (Plan.ofNatives natives) op part
  native : ∀ o ∈ part, o.isBarrier = true ∨ o.kind ∈ natives.kinds
  unchanged : natives.contains op.kind = true → part = [op]
  qubits : ∀ o ∈ part, ∀ q ∈ o.qubits, q ∈ op.qubits

theorem expansion_of_expand {op : Operation α} (hop : op.WellFormed n m)
    {part : List (Operation α)}
    (h : expand natives n m (Plan.ofNatives natives).choices op = .ok part) :
    Expansion natives op part := by
  have hord := Plan.ordered_ofNatives natives
  have hproducts := expand_products hord.mem_rules hop h
  have hunfolds : Unfolds (Plan.ofNatives natives) op part := by
    refine unfolds_of_expand (n := n) (m := m) ?_ (List.nil_append _).symm ?_
    · simpa using hord
    · simpa using h
  refine ⟨hunfolds, fun o ho => ?_, fun hnative => ?_, fun o ho => (hproducts o ho).qubits⟩
  · have hnative := contains_iff.mp (hproducts o ho).native
    exact hnative.imp_left fun hbarrier => by simp [Operation.isBarrier, hbarrier]
  · exact hunfolds.unique (.native (by simpa using hnative))

/-- Every well-formed operation of an expressible kind unfolds, in one way. -/
theorem existsUnique_unfolds {op : Operation α} (hop : op.WellFormed n m)
    (hkind : Expressible natives op.kind) :
    ∃! part, Unfolds (Plan.ofNatives natives) op part := by
  have hcovered := Plan.covered_ofNatives_iff.mpr (derivable_iff.mpr hkind)
  obtain ⟨part, hpart⟩ := exists_expand (Plan.ordered_ofNatives natives) hop hcovered
  have hunfolds := (expansion_of_expand hop hpart).unfolds
  exact ⟨part, hunfolds, fun part' hpart' => hpart'.unique hunfolds⟩

/-- Expressing a circuit by native operations succeeds exactly if every kind is
a barrier or has a derivation.  Otherwise the first operation of another kind is
told.  The result puts the expansions of the operations one after the other.
The recursion that makes them ends for every operation of such a kind. -/
theorem toNative_expands {c : Circuit α} (hc : c.WellFormed) :
    ((∃ out, toNative natives c = .ok out) ↔ ∀ op ∈ c.ops, Expressible natives op.kind) ∧
      (∀ e, toNative natives c = .error e →
        ∃ before op after, c.ops = before ++ op :: after ∧
          (∀ o ∈ before, Expressible natives o.kind) ∧ ¬ Expressible natives op.kind ∧
          e = ⟨before.length, op.kind, .noRule op.kind.name natives.text⟩) ∧
      (∀ out, toNative natives c = .ok out →
        out.numQubits = c.numQubits ∧ out.numClbits = c.numClbits ∧
          ∃ part, out.ops = c.ops.flatMap part ∧ ∀ op ∈ c.ops, Expansion natives op (part op)) ∧
      ∀ op : Operation α, op.WellFormed c.numQubits c.numClbits → Expressible natives op.kind →
        ∃! part, Unfolds (Plan.ofNatives natives) op part := by
  refine ⟨?_, fun e he => ?_, fun out hout => ?_, fun op hop => existsUnique_unfolds hop⟩
  · simp only [exists_toNative_iff hc, derivable_iff]
  · simpa only [derivable_iff] using toNative_eq_error hc he
  · obtain ⟨ops, hops, rfl⟩ := toNative_eq_ok hout
    obtain ⟨parts, rfl, hparts⟩ := expandAll_eq_ok hops
    obtain ⟨part, hflatten, hpart⟩ := exists_part hparts
    rw [Plan.natives_ofNatives] at hpart
    exact ⟨rfl, rfl, part, hflatten, fun op hop => expansion_of_expand (hc op hop) (hpart op hop)⟩

/-- A gate on three qubits, a barrier and a native rotation. -/
def guardedToffoli : Circuit Float :=
  ⟨3, 0, [.ofGate .ccx [] [0, 1, 2], { kind := .gate .barrier }, .ofGate .rz [1] [2]]⟩

/-- Controlled not gates, rotations about one axis and square roots of not. -/
def rootNatives : GateSet := ⟨[.gate .cx, .gate .rz, .gate .sx]⟩

theorem expressible_of_covers {kind : Kind} (h : (Plan.ofNatives natives).covers kind = true) :
    Expressible natives kind := by
  have hcovered := Plan.covers_iff.mp h
  rw [Plan.natives_ofNatives] at hcovered
  exact derivable_iff.mp (Plan.covered_ofNatives_iff.mp hcovered)

/-- The gate on three qubits is expanded in front of the barrier, and what
follows stays. -/
theorem toNative_guardedToffoli :
    guardedToffoli.WellFormed ∧ ∃ out part, toNative rootNatives guardedToffoli = .ok out ∧
      out.ops = guardedToffoli.ops.flatMap part ∧
      ∀ op ∈ guardedToffoli.ops, Expansion rootNatives op (part op) := by
  have hc : guardedToffoli.WellFormed := by
    unfold Circuit.WellFormed guardedToffoli
    decide
  have hkinds :
      ∀ op ∈ guardedToffoli.ops, (Plan.ofNatives rootNatives).covers op.kind = true := by
    decide +kernel
  obtain ⟨hsuccess, -, hresult, -⟩ := @toNative_expands _ _ rootNatives _ hc
  obtain ⟨out, hout⟩ := hsuccess.mpr fun op hop => expressible_of_covers (hkinds op hop)
  obtain ⟨-, -, part, hops, hpart⟩ := hresult out hout
  exact ⟨hc, out, part, hout, hops, hpart⟩

/-! ## Costs -/

omit [RealArith α] in
/-- Steps that become as many operations as they cost become together as many
as they cost together. -/
theorem length_flatMap_steps {plan : Plan} {steps : List Step} {total : Nat}
    (h : plan.stepsCost? steps = some total) {part : Step → List (Operation α)}
    (hpart : ∀ step ∈ steps, ∀ cost, plan.cost? (.gate step.gate) = some cost →
      (part step).length = cost) : (steps.flatMap part).length = total := by
  induction steps generalizing total with
  | nil =>
    cases h
    rfl
  | cons step rest ih =>
    obtain ⟨hfirst, hrest⟩ := List.forall_mem_cons.mp hpart
    rw [Plan.stepsCost?] at h
    split at h
    · next cost others hcost hothers =>
      cases h
      rw [List.flatMap_cons, List.length_append, hfirst cost hcost, ih hothers hrest]
    · cases h

/-- An operation unfolds to as many operations as its kind costs. -/
theorem Unfolds.length_eq {plan : Plan} (hsettled : Settled plan.natives plan.choices)
    {op : Operation α} {out : List (Operation α)} (h : Unfolds plan op out) {cost : Nat}
    (hcost : plan.cost? op.kind = some cost) : out.length = cost := by
  induction h generalizing cost with
  | @native op stays =>
    by_cases hmem : op.kind ∈ plan.natives.kinds
    · rw [Plan.cost?_of_native hmem] at hcost
      cases hcost
      rfl
    · -- A barrier that is not listed has no cost.
      have hopen : plan.cost? op.kind = none := by
        refine Plan.cost?_eq_none_iff.mpr ⟨hmem, fun c hc hkind => ?_⟩
        rw [hkind, (Plan.ordered_of_settled hsettled).foreign c hc] at stays
        cases stays
      rw [hopen] at hcost
      cases hcost
  | @rule op choice part foreign chosen _ ih =>
    obtain ⟨hmem, hkind⟩ := Plan.choice?_eq_some chosen
    rw [hkind, hsettled.cost?_of_mem hmem] at hcost
    cases hcost
    rw [Rule.instantiate, List.flatMap_map]
    refine length_flatMap_steps (hsettled.stepsCost?_of_mem hmem) fun step hstep cost hcost => ?_
    exact ih _ (List.mem_map_of_mem hstep) hcost

/-- The cost of a kind is the least number of leaves of its derivations, and
every operation of that kind becomes as many operations. -/
theorem cost_optimal_exact {kind : Kind} {cost : Nat}
    (h : (Plan.ofNatives natives).cost? kind = some cost) :
    IsLeast (Set.range (Derivation.leaves : Derivation natives kind → Nat)) cost ∧
      ∀ (n m : Nat) (op : Operation α), op.WellFormed n m → op.kind = kind →
        ∃ out, toNative natives ⟨n, m, [op]⟩ = .ok out ∧ out.ops.length = cost := by
  have hsettled := Plan.settled_ofNatives natives
  have hleast : IsLeast (Set.range (Derivation.leaves : Derivation natives kind → Nat)) cost :=
    hsettled.isLeast (by rwa [Plan.mk_ofNatives])
  refine ⟨hleast, ?_⟩
  rintro n m op hop rfl
  obtain ⟨t, -⟩ := hleast.1
  have hcovered := Plan.covered_ofNatives_iff.mpr t.derivable
  obtain ⟨part, hpart⟩ := exists_expand (Plan.ordered_ofNatives natives) hop hcovered
  have hlength : part.length = cost :=
    (expansion_of_expand hop hpart).unfolds.length_eq (by simpa using hsettled) h
  refine ⟨⟨n, m, part⟩, ?_, hlength⟩
  rw [toNative, expandAll, Plan.natives_ofNatives, hpart]
  simp [expandAll]

/-- The controlled exchange costs two more than the gate on three qubits that it
rests on. -/
theorem cost_optimal_exact_cswap :
    (Plan.ofNatives rootNatives).cost? (.gate .cswap) = some 21 ∧
      IsLeast (Set.range (Derivation.leaves : Derivation rootNatives (.gate .cswap) → Nat)) 21 ∧
      ∃ out,
        toNative rootNatives ⟨3, 0, [(.ofGate .cswap [] [0, 1, 2] : Operation Float)]⟩ = .ok out ∧
        out.ops.length = 21 := by
  have hcost : (Plan.ofNatives rootNatives).cost? (.gate .cswap) = some 21 := by decide +kernel
  obtain ⟨hleast, hexact⟩ := cost_optimal_exact (α := Float) hcost
  exact ⟨hcost, hleast, hexact 3 0 _ (by unfold Operation.WellFormed; decide) rfl⟩

end QuantumCompiler.Decomposition
