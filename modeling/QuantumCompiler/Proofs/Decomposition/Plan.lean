import Mathlib.Data.List.Nodup
import Mathlib.Data.List.Perm.Subperm
import QuantumCompiler.Decomposition.Plan
import QuantumCompiler.Proofs.Decomposition.Rule

/-!
# Which kinds have a plan

A kind is `Derivable` from native kinds if rules lead from it to native kinds,
in whatever way.  The plan settles kinds one by one, by the cheapest rule, and
stops after a fixed number of rounds.  `covered_ofNatives_iff` says that this
finds a rule for every derivable kind and for no other.

`Settled` is the history of a plan: each choice was the best one at its time,
which is the cheapest, and the first in the table among equally cheap ones
(`best?_le`, `best?_eq_some`).  It follows that the choices are `Ordered`: a
chosen rule uses native kinds and kinds settled before, and its own kind was
open until then.
-/

namespace QuantumCompiler.Decomposition

/-- Operations of this kind are native, or a rule expresses them by derivable
kinds. -/
inductive Derivable (natives : GateSet) : Kind → Prop
  | native {kind : Kind} (h : natives.contains kind = true) : Derivable natives kind
  | rule {rule : Rule} (hmem : rule ∈ rules)
      (hsteps : ∀ step ∈ rule.steps, Derivable natives (.gate step.gate)) :
      Derivable natives (.gate rule.gate)

/-- A kind is native or has a choice. -/
def Covered (natives : GateSet) (choices : List Choice) (kind : Kind) : Prop :=
  natives.contains kind = true ∨ ∃ c ∈ choices, kind = .gate c.rule.gate

/-- Each choice opens a new kind by a rule over what the choices after it
cover. -/
def Ordered (natives : GateSet) : List Choice → Prop
  | [] => True
  | choice :: rest =>
    choice.rule ∈ rules ∧ ¬ Covered natives rest (.gate choice.rule.gate) ∧
      (∀ step ∈ choice.rule.steps, Covered natives rest (.gate step.gate)) ∧
      Ordered natives rest

/-- Each choice is the best one after the choices that follow it. -/
def Settled (natives : GateSet) : List Choice → Prop
  | [] => True
  | choice :: rest => Plan.best? ⟨natives, rest⟩ rules = some choice ∧ Settled natives rest

variable {natives : GateSet}

theorem Ordered.mem_rules {choices : List Choice} (h : Ordered natives choices) :
    ∀ c ∈ choices, c.rule ∈ rules := by
  induction choices with
  | nil => simp
  | cons choice rest ih =>
    obtain ⟨hmem, -, -, hrest⟩ := h
    intro c hc
    rcases List.mem_cons.mp hc with rfl | hc
    · exact hmem
    · exact ih hrest c hc

theorem Ordered.nodup {choices : List Choice} (h : Ordered natives choices) :
    (choices.map (·.rule.gate)).Nodup := by
  induction choices with
  | nil => simp
  | cons choice rest ih =>
    obtain ⟨-, hopen, -, hrest⟩ := h
    refine List.nodup_cons.mpr ⟨fun hmem => hopen (.inr ?_), ih hrest⟩
    obtain ⟨c, hc, heq⟩ := List.mem_map.mp hmem
    exact ⟨c, hc, by rw [heq]⟩

/-- No choice is made for a native kind. -/
theorem Ordered.foreign {choices : List Choice} (h : Ordered natives choices) :
    ∀ c ∈ choices, natives.contains (.gate c.rule.gate) = false := by
  induction choices with
  | nil => simp
  | cons choice rest ih =>
    obtain ⟨-, hopen, -, hrest⟩ := h
    refine List.forall_mem_cons.mpr ⟨?_, ih hrest⟩
    exact Bool.eq_false_iff.mpr fun hnative => hopen (.inl hnative)

/-- What ordered choices cover is derivable. -/
theorem Ordered.derivable {choices : List Choice} (h : Ordered natives choices) {kind : Kind}
    (hkind : Covered natives choices kind) : Derivable natives kind := by
  induction choices generalizing kind with
  | nil =>
    rcases hkind with hnative | ⟨c, hc, -⟩
    · exact .native hnative
    · simp at hc
  | cons choice rest ih =>
    obtain ⟨hmem, -, hsteps, hrest⟩ := h
    rcases hkind with hnative | ⟨c, hc, rfl⟩
    · exact .native hnative
    · rcases List.mem_cons.mp hc with rfl | hc
      · exact .rule hmem fun step hstep => ih hrest (hsteps step hstep)
      · exact ih hrest (.inr ⟨c, hc, rfl⟩)

namespace Plan

/-! ## One round -/

theorem covers_iff {plan : Plan} {kind : Kind} :
    plan.covers kind = true ↔ Covered plan.natives plan.choices kind := by
  have hchoice :
      (plan.choice? kind).isSome = true ↔ ∃ c ∈ plan.choices, kind = .gate c.rule.gate := by
    simp [choice?]
  unfold covers cost? Covered
  by_cases hnative : plan.natives.kinds.contains kind = true
  · have hcontains : plan.natives.contains kind = true := by
      rw [GateSet.contains, hnative, Bool.or_true]
    simp only [hcontains, Bool.or_true, true_or]
  · rw [if_neg hnative, Option.isSome_map, Bool.or_eq_true, hchoice, or_comm]

/-- A step of a rule is settled exactly if its gate is covered. -/
theorem isSome_cost?_iff {plan : Plan} {g : Gate} (hg : g.isUnitary = true) :
    (plan.cost? (.gate g)).isSome = true ↔ Covered plan.natives plan.choices (.gate g) := by
  have hcontains : plan.natives.contains (.gate g) = plan.natives.kinds.contains (.gate g) := by
    simp [GateSet.contains, Gate.ne_barrier_of_isUnitary hg]
  rw [← covers_iff, covers, Bool.or_eq_true]
  refine ⟨.inl, fun h => h.elim id fun hnative => ?_⟩
  rw [hcontains] at hnative
  rw [cost?, if_pos hnative]
  rfl

theorem isSome_stepsCost?_iff {plan : Plan} {steps : List Step}
    (hsteps : ∀ step ∈ steps, step.gate.isUnitary = true) :
    (plan.stepsCost? steps).isSome = true ↔
      ∀ step ∈ steps, Covered plan.natives plan.choices (.gate step.gate) := by
  induction steps with
  | nil => simp [stepsCost?]
  | cons step rest ih =>
    have hstep := @isSome_cost?_iff plan _ (hsteps step List.mem_cons_self)
    have hrest := ih fun s hs => hsteps s (List.mem_cons_of_mem _ hs)
    rw [List.forall_mem_cons, ← hstep, ← hrest, stepsCost?]
    cases plan.cost? (.gate step.gate) <;> cases plan.stepsCost? rest <;> simp

/-- A rule can be chosen exactly if its gate is open and its steps are
covered. -/
theorem isSome_openCost?_iff {plan : Plan} {rule : Rule} (hmem : rule ∈ rules) :
    (plan.openCost? rule).isSome = true ↔
      ¬ Covered plan.natives plan.choices (.gate rule.gate) ∧
        ∀ step ∈ rule.steps, Covered plan.natives plan.choices (.gate step.gate) := by
  rw [openCost?, ← covers_iff, ← isSome_stepsCost?_iff (isUnitary_step hmem)]
  by_cases hcovers : plan.covers (.gate rule.gate) = true <;> simp [hcovers]

theorem best?_eq_none_iff {plan : Plan} {table : List Rule} :
    plan.best? table = none ↔ ∀ rule ∈ table, plan.openCost? rule = none := by
  induction table with
  | nil => simp [best?]
  | cons rule rest ih =>
    rw [List.forall_mem_cons, ← ih, best?]
    cases plan.openCost? rule <;> cases plan.best? rest <;> simp

@[simp] theorem cost_cheaper (a b : Choice) : (cheaper a b).cost = min a.cost b.cost := by
  unfold cheaper
  split_ifs with h
  · exact (Nat.min_eq_right (Nat.le_of_lt h)).symm
  · exact (Nat.min_eq_left (Nat.le_of_not_lt h)).symm

/-- No rule of the table costs less than the best choice. -/
theorem best?_le {plan : Plan} {table : List Rule} {choice : Choice}
    (h : plan.best? table = some choice) :
    ∀ rule ∈ table, ∀ cost, plan.openCost? rule = some cost → choice.cost ≤ cost := by
  induction table generalizing choice with
  | nil => simp
  | cons rule rest ih =>
    rw [best?] at h
    cases hopen : plan.openCost? rule with
    | none =>
      rw [hopen] at h
      simpa [hopen] using ih h
    | some cost =>
      rw [hopen] at h
      cases hrest : plan.best? rest with
      | none =>
        rw [hrest] at h
        cases h
        have hnone := best?_eq_none_iff.mp hrest
        refine List.forall_mem_cons.mpr ⟨by simp [hopen], fun r hr c hc => ?_⟩
        rw [hnone r hr] at hc
        cases hc
      | some later =>
        rw [hrest] at h
        cases h
        rw [cost_cheaper]
        refine List.forall_mem_cons.mpr ⟨fun c hc => ?_, fun r hr c hc => ?_⟩
        · rw [hopen] at hc
          cases hc
          exact Nat.min_le_left _ _
        · exact Nat.le_trans (Nat.min_le_right _ _) (ih hrest r hr c hc)

/-- A choice has the cost of its rule, and every rule of the table in front of
that one would cost more. -/
theorem best?_eq_some {plan : Plan} {table : List Rule} {choice : Choice}
    (h : plan.best? table = some choice) :
    plan.openCost? choice.rule = some choice.cost ∧
      ∃ front back, table = front ++ choice.rule :: back ∧
        ∀ rule ∈ front, ∀ cost, plan.openCost? rule = some cost → choice.cost < cost := by
  induction table generalizing choice with
  | nil => simp [best?] at h
  | cons rule rest ih =>
    rw [best?] at h
    cases hopen : plan.openCost? rule with
    | none =>
      rw [hopen] at h
      obtain ⟨hcost, front, back, rfl, hfront⟩ := ih h
      exact ⟨hcost, rule :: front, back, rfl, by simpa [hopen] using hfront⟩
    | some cost =>
      rw [hopen] at h
      cases hrest : plan.best? rest with
      | none =>
        rw [hrest] at h
        cases h
        exact ⟨hopen, [], rest, rfl, by simp⟩
      | some later =>
        rw [hrest] at h
        obtain ⟨hcost, front, back, rfl, hfront⟩ := ih hrest
        cases h
        unfold cheaper
        split_ifs with hlt
        · exact ⟨hcost, rule :: front, back, rfl, by simpa [hopen, hlt] using hfront⟩
        · exact ⟨hopen, [], _, rfl, by simp⟩

/-! ## All rounds -/

@[simp] theorem natives_settle {fuel : Nat} {plan : Plan} :
    (settle fuel plan).natives = plan.natives := by
  induction fuel generalizing plan with
  | zero => rfl
  | succ fuel ih =>
    rw [settle]
    split
    · rfl
    · rw [ih]

@[simp] theorem natives_ofNatives (natives : GateSet) : (ofNatives natives).natives = natives :=
  natives_settle

theorem mk_ofNatives (natives : GateSet) :
    (⟨natives, (ofNatives natives).choices⟩ : Plan) = ofNatives natives :=
  congrArg (Plan.mk · (ofNatives natives).choices) (natives_ofNatives natives).symm

theorem ordered_best {plan : Plan} (h : Ordered plan.natives plan.choices) {choice : Choice}
    (hbest : plan.best? rules = some choice) :
    Ordered plan.natives (choice :: plan.choices) := by
  obtain ⟨hcost, front, back, htable, -⟩ := best?_eq_some hbest
  have hmem : choice.rule ∈ rules := by simp [htable]
  obtain ⟨hopen, hsteps⟩ := (isSome_openCost?_iff hmem).mp (by rw [hcost]; rfl)
  exact ⟨hmem, hopen, hsteps, h⟩

theorem settled_settle {fuel : Nat} {plan : Plan} (h : Settled plan.natives plan.choices) :
    Settled plan.natives (settle fuel plan).choices := by
  induction fuel generalizing plan with
  | zero => exact h
  | succ fuel ih =>
    rw [settle]
    split
    · exact h
    · next choice hbest => exact @ih ⟨plan.natives, choice :: plan.choices⟩ ⟨hbest, h⟩

theorem settled_ofNatives (natives : GateSet) : Settled natives (ofNatives natives).choices :=
  @settled_settle _ (start natives) trivial

theorem ordered_of_settled {natives : GateSet} {choices : List Choice}
    (h : Settled natives choices) : Ordered natives choices := by
  induction choices with
  | nil => trivial
  | cons choice rest ih => exact @ordered_best ⟨natives, rest⟩ (ih h.2) choice h.1

theorem ordered_ofNatives (natives : GateSet) : Ordered natives (ofNatives natives).choices :=
  ordered_of_settled (settled_ofNatives natives)

theorem choice?_eq_some {plan : Plan} {kind : Kind} {choice : Choice}
    (h : plan.choice? kind = some choice) :
    choice ∈ plan.choices ∧ kind = .gate choice.rule.gate :=
  ⟨List.mem_of_find?_eq_some h, by simpa using List.find?_some h⟩

/-- Only one choice is made for a kind. -/
theorem choice?_of_mem {plan : Plan} (h : Ordered plan.natives plan.choices) {choice : Choice}
    (hmem : choice ∈ plan.choices) : plan.choice? (.gate choice.rule.gate) = some choice := by
  obtain ⟨natives, choices⟩ := plan
  induction choices with
  | nil => cases hmem
  | cons first rest ih =>
    obtain ⟨-, hopen, -, hrest⟩ := h
    rw [choice?, List.find?_cons]
    rcases List.mem_cons.mp hmem with rfl | hmem
    · simp
    · have hne : Kind.gate choice.rule.gate ≠ .gate first.rule.gate := fun heq =>
        hopen (.inr ⟨choice, hmem, heq.symm⟩)
      rw [beq_eq_false_iff_ne.mpr hne]
      exact ih hrest hmem

/-- A plan that has chosen as often as there are gates has settled them all. -/
theorem covered_of_length_le {plan : Plan} (h : Ordered plan.natives plan.choices)
    (hlength : Gate.all.length ≤ plan.choices.length) (g : Gate) :
    Covered plan.natives plan.choices (.gate g) := by
  by_contra hopen
  have hnew : g ∉ plan.choices.map (·.rule.gate) := fun hmem => by
    obtain ⟨c, hc, rfl⟩ := List.mem_map.mp hmem
    exact hopen (.inr ⟨c, hc, rfl⟩)
  have hnodup : (g :: plan.choices.map (·.rule.gate)).Nodup := List.nodup_cons.mpr ⟨hnew, h.nodup⟩
  have hle := (hnodup.subperm fun g' _ => Gate.mem_all g').length_le
  rw [List.length_cons, List.length_map] at hle
  omega

/-- With a round for every gate left, nothing stays open that could be settled. -/
theorem best?_settle {fuel : Nat} {plan : Plan} (h : Ordered plan.natives plan.choices)
    (hfuel : Gate.all.length ≤ plan.choices.length + fuel) :
    (settle fuel plan).best? rules = none := by
  induction fuel generalizing plan with
  | zero =>
    refine best?_eq_none_iff.mpr fun rule hmem => ?_
    rw [settle, openCost?, if_pos (covers_iff.mpr (covered_of_length_le h hfuel rule.gate))]
  | succ fuel ih =>
    rw [settle]
    split
    · next hbest => exact hbest
    · next choice hbest =>
      refine @ih ⟨plan.natives, choice :: plan.choices⟩ (ordered_best h hbest) ?_
      rw [List.length_cons]
      omega

/-- The plan for native kinds covers the derivable kinds and no others. -/
theorem covered_ofNatives_iff {natives : GateSet} {kind : Kind} :
    Covered natives (ofNatives natives).choices kind ↔ Derivable natives kind := by
  refine ⟨(ordered_ofNatives natives).derivable, fun h => ?_⟩
  have hstuck : (ofNatives natives).best? rules = none :=
    @best?_settle _ (start natives) trivial (by simp)
  induction h with
  | native hnative => exact .inl hnative
  | @rule rule hmem _ ih =>
    -- A rule over covered kinds that is not covered itself would still be chosen.
    by_contra hopen
    have hsome := (@isSome_openCost?_iff (ofNatives natives) rule hmem).mpr
      ⟨by simpa using hopen, by simpa using ih⟩
    rw [best?_eq_none_iff.mp hstuck rule hmem] at hsome
    exact Bool.noConfusion hsome

end Plan

end QuantumCompiler.Decomposition
