import Mathlib.Algebra.BigOperators.Fin
import Mathlib.Algebra.Order.BigOperators.Group.Finset
import QuantumCompiler.Proofs.Decomposition.Plan

/-!
# Derivations and their cost

A `Derivation` is a finite tree that leads from a kind to native kinds: its
leaves are native, and at every other kind a rule of the table expresses it by
the kinds of its steps.  `derivable_iff` says that the kinds with a derivation
are the derivable ones, barriers apart.

The plan settles the cheapest open kind first.  A tree of an open kind always
passes a rule whose steps are all settled, so it has no fewer leaves than the
next choice costs (`best_le_leaves`).  From there on the cost of every settled
kind is the least number of leaves (`Settled.isLeast`), and kinds are settled in
the order of their costs (`Settled.cost_le`).
-/

namespace QuantumCompiler.Decomposition

/-- A tree of rules that leads from a kind to native kinds.  Native kinds are
never expanded. -/
inductive Derivation (natives : GateSet) : Kind → Type
  | leaf {kind : Kind} (native : kind ∈ natives.kinds) : Derivation natives kind
  | node (rule : Rule) (listed : rule ∈ rules) (foreign : .gate rule.gate ∉ natives.kinds)
      (subs : (i : Fin rule.steps.length) → Derivation natives (.gate (rule.steps.get i).gate)) :
      Derivation natives (.gate rule.gate)

variable {natives : GateSet} {kind : Kind}

/-- Number of leaves of a derivation. -/
def Derivation.leaves {kind : Kind} : Derivation natives kind → Nat
  | leaf _ => 1
  | node _ _ _ subs => ∑ i, (subs i).leaves

/-- A barrier, or a kind with a derivation. -/
def Expressible (natives : GateSet) (kind : Kind) : Prop :=
  kind = .gate .barrier ∨ Nonempty (Derivation natives kind)

/-! ## Which kinds have a derivation -/

theorem contains_iff :
    natives.contains kind = true ↔ kind = .gate .barrier ∨ kind ∈ natives.kinds := by
  simp [GateSet.contains]

theorem Derivation.derivable (t : Derivation natives kind) : Derivable natives kind := by
  induction t with
  | leaf native => exact .native (contains_iff.mpr (.inr native))
  | node rule listed _ _ ih =>
    refine .rule listed fun step hstep => ?_
    obtain ⟨i, rfl⟩ := List.mem_iff_get.mp hstep
    exact ih i

/-- The derivable kinds are the barriers and the kinds with a derivation. -/
theorem derivable_iff : Derivable natives kind ↔ Expressible natives kind := by
  constructor
  · intro h
    induction h with
    | native h => exact (contains_iff.mp h).imp_right fun hmem => ⟨.leaf hmem⟩
    | @rule rule hmem _ ih =>
      right
      by_cases hnative : .gate rule.gate ∈ natives.kinds
      · exact ⟨.leaf hnative⟩
      -- No step is a barrier, so each one has a derivation.
      have hsubs (i : Fin rule.steps.length) :
          Nonempty (Derivation natives (.gate (rule.steps.get i).gate)) := by
        have hstep := List.get_mem rule.steps i
        refine (ih _ hstep).resolve_left fun hbarrier => ?_
        exact Gate.ne_barrier_of_isUnitary (isUnitary_step hmem _ hstep) (Kind.gate.inj hbarrier)
      exact ⟨.node rule hmem hnative fun i => (hsubs i).some⟩
  · rintro (rfl | ⟨⟨t⟩⟩)
    · exact .native rfl
    · exact t.derivable

namespace Plan

/-! ## Costs of kinds and of steps -/

variable {plan : Plan}

theorem cost?_of_native (h : kind ∈ plan.natives.kinds) : plan.cost? kind = some 1 := by
  rw [cost?, if_pos (by simpa using h)]

theorem cost?_of_foreign (h : kind ∉ plan.natives.kinds) :
    plan.cost? kind = (plan.choice? kind).map (·.cost) := by
  rw [cost?, if_neg (by simpa using h)]

/-- The open kinds are those that are neither native nor chosen. -/
theorem cost?_eq_none_iff :
    plan.cost? kind = none ↔
      kind ∉ plan.natives.kinds ∧ ∀ c ∈ plan.choices, kind ≠ .gate c.rule.gate := by
  by_cases hnative : kind ∈ plan.natives.kinds
  · simp [cost?_of_native hnative, hnative]
  · simp [cost?_of_foreign hnative, hnative, choice?]

/-- The cost of a kind after another choice. -/
theorem cost?_cons {choice : Choice} {rest : List Choice} (h : kind ∉ natives.kinds) :
    cost? ⟨natives, choice :: rest⟩ kind =
      if kind = .gate choice.rule.gate then some choice.cost else cost? ⟨natives, rest⟩ kind := by
  rw [cost?_of_foreign h, cost?_of_foreign h, choice?, choice?, List.find?_cons]
  by_cases hkind : kind = .gate choice.rule.gate
  · simp [hkind]
  · rw [if_neg hkind, beq_eq_false_iff_ne.mpr hkind]

/-- Steps have a cost if each of them has one, and it is the sum of these. -/
theorem stepsCost?_eq_some_iff {steps : List Step} {total : Nat} :
    plan.stepsCost? steps = some total ↔
      ∃ costs : Fin steps.length → Nat,
        (∀ i, plan.cost? (.gate (steps.get i).gate) = some (costs i)) ∧ ∑ i, costs i = total := by
  induction steps generalizing total with
  | nil => simp [stepsCost?]
  | cons step rest ih =>
    constructor
    · intro h
      rw [stepsCost?] at h
      split at h
      · next first others hfirst hothers =>
        cases h
        obtain ⟨costs, hcosts, rfl⟩ := ih.mp hothers
        refine ⟨Fin.cons first costs, fun i => ?_, Fin.sum_cons first costs⟩
        refine Fin.cases ?_ (fun i => ?_) i
        · exact hfirst
        · exact hcosts i
      · cases h
    · rintro ⟨costs, hcosts, rfl⟩
      have hothers : plan.stepsCost? rest = some (∑ i : Fin rest.length, costs i.succ) :=
        ih.mpr ⟨fun i => costs i.succ, fun i => hcosts i.succ, rfl⟩
      have hfirst : plan.cost? (.gate step.gate) = some (costs 0) := hcosts 0
      rw [stepsCost?, hfirst, hothers]
      exact congrArg some (Fin.sum_univ_succ costs).symm

/-- A rule can be chosen if its kind is open and its steps have a cost. -/
theorem openCost?_eq_some_iff {rule : Rule} (hmem : rule ∈ rules) {cost : Nat} :
    plan.openCost? rule = some cost ↔
      plan.cost? (.gate rule.gate) = none ∧ plan.stepsCost? rule.steps = some cost := by
  have hcovers : plan.covers (.gate rule.gate) = (plan.cost? (.gate rule.gate)).isSome := by
    rw [Bool.eq_iff_iff, covers_iff, isSome_cost?_iff (rules_fit rule hmem).1]
  rw [openCost?, hcovers]
  cases plan.cost? (.gate rule.gate) <;> simp

/-- The best choice is a rule of the table for an open kind, at the cost of its
steps. -/
theorem best?_cost {choice : Choice} (h : plan.best? rules = some choice) :
    choice.rule ∈ rules ∧ plan.cost? (.gate choice.rule.gate) = none ∧
      plan.stepsCost? choice.rule.steps = some choice.cost := by
  obtain ⟨hcost, front, back, htable, -⟩ := best?_eq_some h
  have hmem : choice.rule ∈ rules := by simp [htable]
  exact ⟨hmem, (openCost?_eq_some_iff hmem).mp hcost⟩

end Plan

/-! ## The cost of a settled kind -/

/-- The derivations of a native kind are leaves. -/
theorem isLeast_leaves_of_native (h : kind ∈ natives.kinds) {choices : List Choice} {cost : Nat}
    (hcost : Plan.cost? ⟨natives, choices⟩ kind = some cost) :
    IsLeast (Set.range (Derivation.leaves : Derivation natives kind → Nat)) cost := by
  rw [Plan.cost?_of_native h] at hcost
  cases hcost
  refine ⟨⟨.leaf h, rfl⟩, ?_⟩
  rintro _ ⟨t, rfl⟩
  cases t with
  | leaf => exact Nat.le_refl 1
  | node rule listed foreign subs => exact absurd h foreign

/-- A derivation of an open kind has no fewer leaves than the best choice costs,
if the costs of the settled kinds are such bounds. -/
theorem best_le_leaves {choices : List Choice} {choice : Choice}
    (hsettled : ∀ {kind : Kind} {cost : Nat} (t : Derivation natives kind),
      Plan.cost? ⟨natives, choices⟩ kind = some cost → cost ≤ t.leaves)
    (hbest : Plan.best? ⟨natives, choices⟩ rules = some choice) (t : Derivation natives kind)
    (hopen : Plan.cost? ⟨natives, choices⟩ kind = none) : choice.cost ≤ t.leaves := by
  induction t with
  | leaf native =>
    rw [Plan.cost?_of_native native] at hopen
    cases hopen
  | node rule listed foreign subs ih =>
    rw [Derivation.leaves]
    by_cases hsub : ∃ i, Plan.cost? ⟨natives, choices⟩ (.gate (rule.steps.get i).gate) = none
    · -- The bound holds of an open step already.
      obtain ⟨i, hi⟩ := hsub
      exact (ih i hi).trans
        (Finset.single_le_sum (f := fun i => (subs i).leaves) (fun _ _ => Nat.zero_le _)
          (Finset.mem_univ i))
    · -- All steps are settled, so the rule was at hand.
      push Not at hsub
      choose costs hcosts using fun i => Option.ne_none_iff_exists'.mp (hsub i)
      have hcost : Plan.openCost? ⟨natives, choices⟩ rule = some (∑ i, costs i) :=
        (Plan.openCost?_eq_some_iff listed).mpr
          ⟨hopen, Plan.stepsCost?_eq_some_iff.mpr ⟨costs, hcosts, rfl⟩⟩
      exact (Plan.best?_le hbest rule listed _ hcost).trans
        (Finset.sum_le_sum fun i _ => hsettled (subs i) (hcosts i))

namespace Settled

variable {choices : List Choice}

/-- The cost of a settled kind is the least number of leaves of its
derivations. -/
theorem isLeast (h : Settled natives choices) {cost : Nat}
    (hcost : Plan.cost? ⟨natives, choices⟩ kind = some cost) :
    IsLeast (Set.range (Derivation.leaves : Derivation natives kind → Nat)) cost := by
  induction choices generalizing kind cost with
  | nil =>
    by_cases hnative : kind ∈ natives.kinds
    · exact isLeast_leaves_of_native hnative hcost
    · rw [Plan.cost?_of_foreign hnative] at hcost
      cases hcost
  | cons choice rest ih =>
    obtain ⟨hbest, hrest⟩ := h
    by_cases hnative : kind ∈ natives.kinds
    · exact isLeast_leaves_of_native hnative hcost
    rw [Plan.cost?_cons hnative] at hcost
    split_ifs at hcost with hkind
    · subst hkind
      cases hcost
      obtain ⟨hmem, hopen, hsteps⟩ := Plan.best?_cost hbest
      constructor
      · obtain ⟨costs, hcosts, hsum⟩ := Plan.stepsCost?_eq_some_iff.mp hsteps
        choose subs hsubs using fun i => (ih hrest (hcosts i)).1
        refine ⟨.node choice.rule hmem hnative subs, ?_⟩
        rw [Derivation.leaves, ← hsum]
        exact Finset.sum_congr rfl fun i _ => hsubs i
      · rintro _ ⟨t, rfl⟩
        exact best_le_leaves (fun t ht => (ih hrest ht).2 ⟨t, rfl⟩) hbest t hopen
    · exact ih hrest hcost

theorem of_append {later : List Choice} (h : Settled natives (later ++ choices)) :
    Settled natives choices := by
  induction later with
  | nil => exact h
  | cons choice later ih => exact ih h.2

/-- A settled kind keeps its cost. -/
theorem cost?_append {later : List Choice} (h : Settled natives (later ++ choices)) {cost : Nat}
    (hcost : Plan.cost? ⟨natives, choices⟩ kind = some cost) :
    Plan.cost? ⟨natives, later ++ choices⟩ kind = some cost := by
  cases hlater : Plan.cost? ⟨natives, later ++ choices⟩ kind with
  | none =>
    obtain ⟨hnative, hchoice⟩ := Plan.cost?_eq_none_iff.mp hlater
    have hnone : Plan.cost? ⟨natives, choices⟩ kind = none :=
      Plan.cost?_eq_none_iff.mpr ⟨hnative, fun c hc => hchoice c (List.mem_append_right _ hc)⟩
    rw [hnone] at hcost
    cases hcost
  | some cost' => rw [(h.isLeast hlater).unique (h.of_append.isLeast hcost)]

theorem cost?_head {choice : Choice} (h : Settled natives (choice :: choices)) :
    Plan.cost? ⟨natives, choice :: choices⟩ (.gate choice.rule.gate) = some choice.cost := by
  obtain ⟨-, hopen, -⟩ := Plan.best?_cost h.1
  rw [Plan.cost?_cons (Plan.cost?_eq_none_iff.mp hopen).1, if_pos rfl]

theorem cost?_of_mem (h : Settled natives choices) {choice : Choice}
    (hmem : choice ∈ choices) :
    Plan.cost? ⟨natives, choices⟩ (.gate choice.rule.gate) = some choice.cost := by
  obtain ⟨later, earlier, rfl⟩ := List.append_of_mem hmem
  exact h.cost?_append h.of_append.cost?_head

/-- Steps that were settled before a choice keep their cost. -/
theorem stepsCost?_append {later earlier : List Choice} {choice : Choice}
    (h : Settled natives (later ++ choice :: earlier)) {steps : List Step} {total : Nat}
    (hcost : Plan.stepsCost? ⟨natives, earlier⟩ steps = some total) :
    Plan.stepsCost? ⟨natives, later ++ choice :: earlier⟩ steps = some total := by
  have hall : Settled natives ((later ++ [choice]) ++ earlier) := by simpa using h
  obtain ⟨costs, hcosts, rfl⟩ := Plan.stepsCost?_eq_some_iff.mp hcost
  refine Plan.stepsCost?_eq_some_iff.mpr ⟨costs, fun i => ?_, rfl⟩
  simpa using hall.cost?_append (hcosts i)

/-- The steps of a chosen rule cost what the choice says. -/
theorem stepsCost?_of_mem (h : Settled natives choices) {choice : Choice}
    (hmem : choice ∈ choices) :
    Plan.stepsCost? ⟨natives, choices⟩ choice.rule.steps = some choice.cost := by
  obtain ⟨later, earlier, rfl⟩ := List.append_of_mem hmem
  obtain ⟨-, -, hsteps⟩ := Plan.best?_cost h.of_append.1
  exact h.stepsCost?_append hsteps

/-- Kinds are settled in the order of their costs. -/
theorem cost_le {later earlier : List Choice} {choice : Choice}
    (h : Settled natives (later ++ choice :: earlier)) : ∀ c ∈ later, choice.cost ≤ c.cost := by
  intro c hc
  obtain ⟨after, between, rfl⟩ := List.append_of_mem hc
  rw [List.append_assoc, List.cons_append] at h
  have hc := h.of_append
  have hchoice : Settled natives (choice :: earlier) := of_append hc.2
  -- The kind of `c` has a derivation of that cost, and was open when `choice` was made.
  obtain ⟨t, ht⟩ := (hc.isLeast hc.cost?_head).1
  obtain ⟨-, hopen, -⟩ := Plan.best?_cost hc.1
  obtain ⟨hforeign, hnew⟩ := Plan.cost?_eq_none_iff.mp hopen
  have hopen' : Plan.cost? ⟨natives, earlier⟩ (.gate c.rule.gate) = none :=
    Plan.cost?_eq_none_iff.mpr ⟨hforeign, fun c' hc' => hnew c' (by simp [hc'])⟩
  rw [← ht]
  exact best_le_leaves (fun t ht => (hchoice.2.isLeast ht).2 ⟨t, rfl⟩) hchoice.1 t hopen'

end Settled

end QuantumCompiler.Decomposition
