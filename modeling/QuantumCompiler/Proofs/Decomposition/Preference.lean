import QuantumCompiler.Proofs.Decomposition.Native

/-!
# Which of the cheapest rules is chosen

Several rules for a kind can cost the same.  The one that is chosen is the first
in the table among those whose steps were settled before the kind
(`choice_preferred`).  A rule in front of it that turns out to be as cheap has a
step which alone costs as much as the kind and was settled after it.

Such rules exist (`cheapest_rule_passed_over`), and they cannot all be preferred:
where everything is made of one general rotation, the first of the cheapest
rules for `rz` is `p`, and the first one for `p` is `rz`.
-/

namespace QuantumCompiler.Decomposition

variable {natives : GateSet} {kind : Kind}

/-- The rule is one for a kind, and its steps cost what the kind costs. -/
def isCheapest (plan : Plan) (kind : Kind) (rule : Rule) : Bool :=
  kind == .gate rule.gate && plan.stepsCost? rule.steps == plan.cost? kind

/-- The cheapest rules for a kind in the order of the table. -/
def cheapestRules (plan : Plan) (kind : Kind) : List Rule := rules.filter (isCheapest plan kind)

theorem isCheapest_iff {plan : Plan} {rule : Rule} :
    isCheapest plan kind rule = true ↔
      kind = .gate rule.gate ∧ plan.stepsCost? rule.steps = plan.cost? kind := by
  simp [isCheapest]

theorem cheapestRules_eq {plan : Plan} {front back : List Rule} {rule : Rule}
    (htable : rules = front ++ rule :: back) (h : isCheapest plan kind rule = true) :
    cheapestRules plan kind =
      front.filter (isCheapest plan kind) ++ rule :: back.filter (isCheapest plan kind) := by
  rw [cheapestRules, htable, List.filter_append, List.filter_cons_of_pos h]

/-- No rule uses the gate that it decomposes. -/
theorem ne_of_mem_rules : ∀ rule ∈ rules, ∀ step ∈ rule.steps, step.gate ≠ rule.gate := by decide

/-- A step costs no more than all steps together. -/
theorem exists_cost_le_stepsCost? {plan : Plan} {steps : List Step} {total : Nat}
    (h : plan.stepsCost? steps = some total) {step : Step} (hstep : step ∈ steps) :
    ∃ cost ≤ total, plan.cost? (.gate step.gate) = some cost := by
  obtain ⟨costs, hcosts, rfl⟩ := Plan.stepsCost?_eq_some_iff.mp h
  obtain ⟨i, rfl⟩ := List.mem_iff_get.mp hstep
  exact ⟨costs i, Finset.single_le_sum (fun _ _ => Nat.zero_le _) (Finset.mem_univ i), hcosts i⟩

/-- A step of the rule is not native and not settled by the earlier choices.  It
is settled by a later one, at the given cost. -/
def Late (plan : Plan) (later earlier : List Choice) (cost : Nat) (rule : Rule) : Prop :=
  ∃ step ∈ rule.steps, ¬ Covered plan.natives earlier (.gate step.gate) ∧
    (∃ c ∈ later, c.rule.gate = step.gate) ∧ plan.cost? (.gate step.gate) = some cost

section Passed

variable {later earlier : List Choice} {choice : Choice} {rule : Rule}

/-- A rule that was passed over although it is as cheap has a step that was open
then. -/
theorem Settled.exists_open_step (h : Settled natives (later ++ choice :: earlier))
    (hmem : rule ∈ rules) (hgate : rule.gate = choice.rule.gate)
    (hcost : Plan.stepsCost? ⟨natives, later ++ choice :: earlier⟩ rule.steps = some choice.cost)
    (hpassed : ∀ cost, Plan.openCost? ⟨natives, earlier⟩ rule = some cost → choice.cost < cost) :
    ∃ step ∈ rule.steps, ¬ Covered natives earlier (.gate step.gate) := by
  by_contra! hall
  -- With all its steps settled, the rule was at hand at its final cost.
  obtain ⟨total, htotal⟩ := Option.isSome_iff_exists.mp
    ((@Plan.isSome_stepsCost?_iff ⟨natives, earlier⟩ _ (isUnitary_step hmem)).mpr hall)
  rw [h.stepsCost?_append htotal] at hcost
  cases hcost
  obtain ⟨-, hopen, -⟩ := Plan.best?_cost h.of_append.1
  rw [← hgate] at hopen
  exact Nat.lt_irrefl _ (hpassed _ ((Plan.openCost?_eq_some_iff hmem).mpr ⟨hopen, htotal⟩))

/-- That step is settled later, and costs as much as the rule. -/
theorem Settled.late (h : Settled natives (later ++ choice :: earlier))
    (hmem : rule ∈ rules) (hgate : rule.gate = choice.rule.gate)
    (hcost : Plan.stepsCost? ⟨natives, later ++ choice :: earlier⟩ rule.steps = some choice.cost)
    (hpassed : ∀ cost, Plan.openCost? ⟨natives, earlier⟩ rule = some cost → choice.cost < cost) :
    Late ⟨natives, later ++ choice :: earlier⟩ later earlier choice.cost rule := by
  obtain ⟨step, hstep, hopen⟩ := h.exists_open_step hmem hgate hcost hpassed
  obtain ⟨cost, hle, hstepCost⟩ := exists_cost_le_stepsCost? hcost hstep
  have hcovered :=
    (Plan.isSome_cost?_iff (isUnitary_step hmem step hstep)).mp
      (Option.isSome_of_eq_some hstepCost)
  rcases hcovered with hnative | ⟨c, hc, hkind⟩
  · exact absurd (.inl hnative) hopen
  · have hkind : step.gate = c.rule.gate := Kind.gate.inj hkind
    have hlater : c ∈ later := by
      rcases List.mem_append.mp hc with hc | hc
      · exact hc
      · rcases List.mem_cons.mp hc with rfl | hc
        · exact absurd (hkind.trans hgate.symm) (ne_of_mem_rules rule hmem step hstep)
        · exact absurd (.inr ⟨c, hc, by rw [hkind]⟩) hopen
    -- Later kinds cost no less, and a step costs no more than its rule.
    have hcCost := h.cost?_of_mem hc
    rw [← hkind, hstepCost] at hcCost
    have hge := h.cost_le c hlater
    obtain rfl : cost = choice.cost := by
      cases hcCost
      omega
    exact ⟨step, hstep, hopen, ⟨c, hlater, hkind.symm⟩, hstepCost⟩

/-- The cheapest rules for a kind, around the one that was chosen. -/
theorem Settled.exists_cheapestRules_eq (h : Settled natives (later ++ choice :: earlier)) :
    ∃ front back,
      cheapestRules ⟨natives, later ++ choice :: earlier⟩ (.gate choice.rule.gate) =
        front ++ choice.rule :: back ∧
      ∀ rule ∈ front,
        Late ⟨natives, later ++ choice :: earlier⟩ later earlier choice.cost rule := by
  have hmem : choice ∈ later ++ choice :: earlier :=
    List.mem_append_right later List.mem_cons_self
  obtain ⟨-, front, back, htable, hfront⟩ := Plan.best?_eq_some h.of_append.1
  have hcost := h.cost?_of_mem hmem
  have hchosen : isCheapest ⟨natives, later ++ choice :: earlier⟩ (.gate choice.rule.gate)
      choice.rule = true := isCheapest_iff.mpr ⟨rfl, by rw [h.stepsCost?_of_mem hmem, hcost]⟩
  refine ⟨_, _, cheapestRules_eq htable hchosen, fun rule hrule => ?_⟩
  obtain ⟨hrule, hcheapest⟩ := List.mem_filter.mp hrule
  obtain ⟨hgate, hsame⟩ := isCheapest_iff.mp hcheapest
  have hmem : rule ∈ rules := by simp [htable, hrule]
  exact h.late hmem (Kind.gate.inj hgate).symm (hsame.trans hcost) (hfront rule hrule)

end Passed

/-- Among the cheapest rules for a kind, the chosen one is the first whose steps
are native or settled before the kind.  A rule in front of it has a step that
costs as much as the kind itself and is settled after it. -/
theorem choice_preferred (hforeign : natives.contains kind = false)
    (hkind : Expressible natives kind) :
    ∃ later choice earlier front back,
      (Plan.ofNatives natives).choices = later ++ choice :: earlier ∧
      (Plan.ofNatives natives).choice? kind = some choice ∧
      (Plan.ofNatives natives).cost? kind = some choice.cost ∧
      cheapestRules (Plan.ofNatives natives) kind = front ++ choice.rule :: back ∧
      (∀ step ∈ choice.rule.steps, Covered natives earlier (.gate step.gate)) ∧
      ∀ rule ∈ front, Late (Plan.ofNatives natives) later earlier choice.cost rule := by
  have hord := Plan.ordered_ofNatives natives
  rcases Plan.covered_ofNatives_iff.mpr (derivable_iff.mpr hkind) with
    hnative | ⟨choice, hmem, rfl⟩
  · rw [hforeign] at hnative
    cases hnative
  have hchoice : (Plan.ofNatives natives).choice? (.gate choice.rule.gate) = some choice :=
    Plan.choice?_of_mem (by simpa using hord) hmem
  have hsettled := Plan.settled_ofNatives natives
  have hcost := hsettled.cost?_of_mem hmem
  obtain ⟨later, earlier, hchoices⟩ := List.append_of_mem hmem
  rw [hchoices] at hsettled
  obtain ⟨front, back, hcheapest, hfront⟩ := hsettled.exists_cheapestRules_eq
  rw [← hchoices, Plan.mk_ofNatives] at hcheapest
  simp only [← hchoices, Plan.mk_ofNatives] at hfront
  rw [Plan.mk_ofNatives] at hcost
  refine ⟨later, choice, earlier, front, back, hchoices, hchoice, hcost, hcheapest, ?_, hfront⟩
  exact (Plan.ordered_of_settled hsettled.of_append).2.2.1

/-! ## Rules passed over -/

/-- Rotations about one axis and square roots of not. -/
def rotationNatives : GateSet := ⟨[.gate .rz, .gate .sx]⟩

theorem choice_preferred_rx :
    rotationNatives.contains (.gate .rx) = false ∧ Expressible rotationNatives (.gate .rx) ∧
      ∃ later choice earlier front back,
        (Plan.ofNatives rotationNatives).choices = later ++ choice :: earlier ∧
        (Plan.ofNatives rotationNatives).choice? (.gate .rx) = some choice ∧
        (Plan.ofNatives rotationNatives).cost? (.gate .rx) = some choice.cost ∧
        cheapestRules (Plan.ofNatives rotationNatives) (.gate .rx) =
        front ++ choice.rule :: back ∧
        (∀ step ∈ choice.rule.steps, Covered rotationNatives earlier (.gate step.gate)) ∧
        ∀ rule ∈ front, Late (Plan.ofNatives rotationNatives) later earlier choice.cost rule := by
  have hkind : Expressible rotationNatives (.gate .rx) :=
    expressible_of_covers (by decide +kernel)
  exact ⟨by decide, hkind, choice_preferred (by decide) hkind⟩

/-- The rule for `rx` by `prx` is the first of the cheapest ones, and another
one is chosen: `prx` is settled after `rx`.  Preferring the first of the cheapest
rules throughout would lead from `rz` to `p` and back where `u` is native. -/
theorem cheapest_rule_passed_over :
    (Plan.ofNatives rotationNatives).choice? (.gate .rx) =
        some ⟨⟨.rx, [.on .h [0], .on .rz [0] [.same 0], .on .h [0]]⟩, 7⟩ ∧
      (cheapestRules (Plan.ofNatives rotationNatives) (.gate .rx)).head? =
        some ⟨.rx, [.on .prx [0] [.same 0, .flat]]⟩ ∧
      (cheapestRules (Plan.ofNatives ⟨[.gate .u]⟩) (.gate .rz)).head? =
        some ⟨.rz, [.on .p [0] [.same 0]]⟩ ∧
      (cheapestRules (Plan.ofNatives ⟨[.gate .u]⟩) (.gate .p)).head? =
        some ⟨.p, [.on .rz [0] [.same 0]]⟩ := by
  decide +kernel

end QuantumCompiler.Decomposition
