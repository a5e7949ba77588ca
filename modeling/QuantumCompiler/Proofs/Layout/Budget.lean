import Mathlib.Data.Prod.Lex
import QuantumCompiler.Proofs.Layout.Optimal

/-!
# A larger budget

Placements are ordered by their `rank`: the cost decides first, then the order of
the lists of places.  A larger budget gives a layout of the same rank or of a
smaller one, and whatever the budget, the layout costs no more than the placement
that the search starts from (`choose_antitone`).

* Within a search the rank of the incumbent only improves (`visit_improves`).  A
  placement of equal cost is only taken as long as the incumbent is the one known
  at the start, and until then the comparison with it is exact.
* Of two searches the one with the smaller budget does the same as the other one
  until its budget is used up, and nothing afterwards (`visit_outlasts`).
-/

namespace QuantumCompiler

variable {α β : Type} {g : InteractionGraph} {m : CouplingMap}

/-! ## The rank of a placement -/

/-- The cost of places for the qubits of a circuit, and the places themselves. -/
noncomputable def Circuit.rank (c : Circuit α) (m : CouplingMap) (w : List Nat) :
    ℕ∞ ×ₗ List Nat :=
  toLex (c.placementCost m w, w)

/-- The same for a graph of interactions. -/
noncomputable def InteractionGraph.rank (g : InteractionGraph) (m : CouplingMap) (w : List Nat) :
    ℕ∞ ×ₗ List Nat :=
  toLex (g.costOf m w, w)

theorem InteractionGraph.rank_ofCircuit {c : Circuit α} (hc : c.WellFormed) (w : List Nat) :
    (ofCircuit c).rank m w = c.rank m w := by
  rw [rank, Circuit.rank, costOf_ofCircuit hc]

theorem InteractionGraph.costOf_le_of_rank_le {v w : List Nat} (h : g.rank m v ≤ g.rank m w) :
    g.costOf m v ≤ g.costOf m w :=
  (Prod.Lex.toLex_le_toLex.mp h).elim le_of_lt fun heq => le_of_eq heq.1

namespace Search

variable {known : List Nat} {s s' s'' : Incumbent} {placed : Array Nat} {cost more q : Nat}
  {lex : Ordering}

/-! ## The incumbent improves -/

/-- What holds at a node of the search with a number of qubits still to place. -/
structure Reaches (g : InteractionGraph) (m : CouplingMap) (known : List Nat) (more : Nat)
    (placed : Array Nat) (cost : Nat) (lex : Ordering) (s : Incumbent) : Prop where
  begins : Begins g m placed cost
  size : placed.size + more = g.numQubits
  tracks : Tracks g m known s
  compares : s.improved = false → Compares lex placed.toList known

/-- A part of the search leaves the incumbent as it was or replaces it by a
better one. -/
structure Improves (g : InteractionGraph) (m : CouplingMap) (known : List Nat)
    (s s' : Incumbent) :
    Prop where
  tracks : Tracks g m known s'
  rank_le : g.rank m s'.best.toList ≤ g.rank m s.best.toList
  fresh : s'.improved = false → s.improved = false

theorem Improves.refl (hs : Tracks g m known s) : Improves g m known s s :=
  ⟨hs, le_rfl, id⟩

theorem Improves.trans (h : Improves g m known s s') (h' : Improves g m known s' s'') :
    Improves g m known s s'' :=
  ⟨h'.tracks, h'.rank_le.trans h.rank_le, fun hold => h.fresh (h'.fresh hold)⟩

/-- Entering a node counts it. -/
theorem Reaches.count (h : Reaches g m known more placed cost lex s) :
    Reaches g m known more placed cost lex { s with nodes := s.nodes + 1 } :=
  ⟨h.begins, h.size, ⟨h.tracks.assignment, h.tracks.cost, h.tracks.start⟩, h.compares⟩

/-- The node is the same after a part of the search below it. -/
theorem Reaches.of_improves (h : Reaches g m known more placed cost lex s)
    (hs : Improves g m known s s') : Reaches g m known more placed cost lex s' :=
  ⟨h.begins, h.size, hs.tracks, fun hold => h.compares (hs.fresh hold)⟩

/-- A branch that is entered leads to a node. -/
theorem Reaches.push (hg : g.Weighted) (h : Reaches g m known (more + 1) placed cost lex s)
    (hq : q < m.size) {c : Nat} (hentered : entered? g m placed cost lex s q = some c) :
    Reaches g m known more (placed.push q) (cost + c) (refine s lex placed.size q) s := by
  have hsize := h.size
  obtain ⟨hfree, hc⟩ := entered?_eq_some hentered
  refine ⟨h.begins.push hg (by omega) hq hfree hc, by rw [Array.size_push]; omega, h.tracks, ?_⟩
  intro hold
  rw [Array.toList_push]
  exact h.tracks.compares_refine hold (h.compares hold) (by omega)

/-- A complete placement is only taken if it is better. -/
theorem conclude_improves (hg : g.Weighted) (h : Reaches g m known 0 placed cost lex s) :
    Improves g m known s (conclude s placed cost lex) := by
  have hplaced := h.begins.assignment h.size
  have hcost := h.begins.costOf_eq hg h.size
  rw [conclude]
  split_ifs with hbetter
  · refine ⟨⟨hplaced, hcost, by simp⟩, Prod.Lex.toLex_le_toLex.mpr ?_, by simp⟩
    simp only [Bool.or_eq_true, Bool.and_eq_true, decide_eq_true_eq, beq_iff_eq,
      Bool.not_eq_true'] at hbetter
    show g.costOf m placed.toList < g.costOf m s.best.toList ∨ _
    rw [hcost, h.tracks.cost]
    rcases hbetter with hless | ⟨⟨heq, hlex⟩, hold⟩
    · exact .inl (by exact_mod_cast hless)
    · refine .inr ⟨by rw [heq], le_of_lt ?_⟩
      rw [h.tracks.start hold]
      exact (h.compares hold).below hlex _ List.prefix_rfl
  · exact .refl h.tracks

/-- A search for a number of further qubits improves the incumbent at every
node. -/
def ImprovesNodes (g : InteractionGraph) (m : CouplingMap) (known : List Nat) (more : Nat)
    (descend : Array Nat → Nat → Ordering → Incumbent → Incumbent) : Prop :=
  ∀ placed cost lex s, Reaches g m known more placed cost lex s →
    Improves g m known s (descend placed cost lex s)

section Branches

variable {descend : Array Nat → Nat → Ordering → Incumbent → Incumbent}

theorem branch_improves (hg : g.Weighted) (hdescend : ImprovesNodes g m known more descend)
    (h : Reaches g m known (more + 1) placed cost lex s) (hq : q < m.size) :
    Improves g m known s (branch g m descend placed cost lex s q) := by
  rw [branch]
  cases hentered : entered? g m placed cost lex s q with
  | none => exact .refl h.tracks
  | some c => exact hdescend _ _ _ _ (h.push hg hq hentered)

theorem foldl_improves (hg : g.Weighted) (hdescend : ImprovesNodes g m known more descend)
    (h : Reaches g m known (more + 1) placed cost lex s) {qs : List Nat}
    (hqs : ∀ q ∈ qs, q < m.size) :
    Improves g m known s (qs.foldl (branch g m descend placed cost lex) s) := by
  refine List.foldlRecOn (motive := Improves g m known s) _ _ (.refl h.tracks) ?_
  intro s' hs' q hq
  exact hs'.trans (branch_improves hg hdescend (h.of_improves hs') (hqs q hq))

end Branches

/-- Whatever the budget, the incumbent only improves. -/
theorem visit_improves (hg : g.Weighted) (budget more : Nat) :
    ImprovesNodes g m known more (visit (Problem.of g m budget) more) := by
  induction more with
  | zero =>
    intro placed cost lex s h
    rw [visit_zero]
    split_ifs
    · exact .refl h.tracks
    · have hstep := conclude_improves hg h.count
      exact ⟨hstep.tracks, hstep.rank_le, hstep.fresh⟩
  | succ more ih =>
    intro placed cost lex s h
    have hsize := h.size
    rw [visit_succ (by omega)]
    split_ifs
    · exact .refl h.tracks
    · have hsteps := foldl_improves hg ih h.count (fun q => List.mem_range.mp)
      exact ⟨hsteps.tracks, hsteps.rank_le, hsteps.fresh⟩

/-! ## Two budgets -/

/-- A search with a small budget has done the same as one with a larger budget,
or its budget is used up and the incumbent of the other one is no worse. -/
def Outlasts (g : InteractionGraph) (m : CouplingMap) (budget : Nat) (s s' : Incumbent) : Prop :=
  s = s' ∨ budget ≤ s.nodes ∧ g.rank m s'.best.toList ≤ g.rank m s.best.toList

theorem Outlasts.rank_le {budget : Nat} (h : Outlasts g m budget s s') :
    g.rank m s'.best.toList ≤ g.rank m s.best.toList := by
  rcases h with rfl | ⟨-, hle⟩
  · exact le_rfl
  · exact hle

/-- At every node the search with the larger budget outlasts the other one. -/
def OutlastsNodes (g : InteractionGraph) (m : CouplingMap) (known : List Nat)
    (more small large : Nat) : Prop :=
  ∀ placed cost lex s, Reaches g m known more placed cost lex s →
    Outlasts g m small (visit (Problem.of g m small) more placed cost lex s)
      (visit (Problem.of g m large) more placed cost lex s)

/-- A budget that is used up stops the search. -/
theorem visit_of_budget_le {budget : Nat} (h : budget ≤ s.nodes) :
    visit (Problem.of g m budget) more placed cost lex s = s := by
  cases more with
  | zero => exact if_pos h
  | succ more => exact if_pos h

theorem branch_of_budget_le {budget : Nat} (h : budget ≤ s.nodes) :
    branch g m (visit (Problem.of g m budget) more) placed cost lex s q = s := by
  rw [branch]
  cases entered? g m placed cost lex s q with
  | none => rfl
  | some c => exact visit_of_budget_le h

section Budgets

variable {small large : Nat}

/-- One place for the next qubit in both searches. -/
theorem branch_outlasts (hg : g.Weighted) (hvisit : OutlastsNodes g m known more small large)
    (h : Reaches g m known (more + 1) placed cost lex s') (hq : q < m.size)
    (hss : Outlasts g m small s s') :
    Outlasts g m small (branch g m (visit (Problem.of g m small) more) placed cost lex s q)
      (branch g m (visit (Problem.of g m large) more) placed cost lex s' q) := by
  rcases hss with rfl | ⟨hused, hrank⟩
  · rw [branch, branch]
    cases hentered : entered? g m placed cost lex s q with
    | none => exact .inl rfl
    | some c => exact hvisit _ _ _ _ (h.push hg hq hentered)
  · -- The first search stands still, the second one improves.
    rw [branch_of_budget_le hused]
    have hstep := branch_improves hg (visit_improves hg large more) h hq
    exact .inr ⟨hused, hstep.rank_le.trans hrank⟩

theorem foldl_outlasts (hg : g.Weighted) (hvisit : OutlastsNodes g m known more small large)
    (h : Reaches g m known (more + 1) placed cost lex s') {qs : List Nat}
    (hqs : ∀ q ∈ qs, q < m.size) (hss : Outlasts g m small s s') :
    Outlasts g m small
      (qs.foldl (branch g m (visit (Problem.of g m small) more) placed cost lex) s)
      (qs.foldl (branch g m (visit (Problem.of g m large) more) placed cost lex) s') := by
  induction qs generalizing s s' with
  | nil => exact hss
  | cons q rest ih =>
    rw [List.forall_mem_cons] at hqs
    have hstep := branch_improves hg (visit_improves hg large more) h hqs.1
    exact ih (h.of_improves hstep) hqs.2 (branch_outlasts hg hvisit h hqs.1 hss)

theorem outlasts_of_budget_le (hg : g.Weighted) (hused : small ≤ s.nodes)
    (h : Reaches g m known more placed cost lex s) :
    Outlasts g m small (visit (Problem.of g m small) more placed cost lex s)
      (visit (Problem.of g m large) more placed cost lex s) := by
  rw [visit_of_budget_le hused]
  exact .inr ⟨hused, (visit_improves hg large more _ _ _ _ h).rank_le⟩

theorem visit_outlasts (hg : g.Weighted) (hle : small ≤ large) (more : Nat) :
    OutlastsNodes g m known more small large := by
  induction more with
  | zero =>
    intro placed cost lex s h
    by_cases hused : small ≤ s.nodes
    · exact outlasts_of_budget_le hg hused h
    · have hleft : ¬ large ≤ s.nodes := fun hlarge => hused (hle.trans hlarge)
      rw [visit_zero, visit_zero, if_neg hused, if_neg hleft]
      exact .inl rfl
  | succ more ih =>
    intro placed cost lex s h
    by_cases hused : small ≤ s.nodes
    · exact outlasts_of_budget_le hg hused h
    · -- Both searches count the node and go through its branches side by side.
      have hleft : ¬ large ≤ s.nodes := fun hlarge => hused (hle.trans hlarge)
      have hsize := h.size
      rw [visit_succ (by omega), visit_succ (by omega), if_neg hused, if_neg hleft]
      exact foldl_outlasts hg ih h.count (fun q => List.mem_range.mp) (.inl rfl)

end Budgets

/-- The search begins at a node with no qubit placed. -/
theorem reaches_start {start : Array Nat} (hstart : Assignment g.numQubits m start.toList)
    (hcost : g.costOf m start.toList = cost) :
    Reaches g m start.toList start.size #[] 0 .eq ⟨start, cost, 0, false⟩ where
  begins := begins_empty
  size := by
    rw [← hstart.length]
    exact Nat.zero_add _
  tracks := ⟨hstart, hcost, fun _ => rfl⟩
  compares _ := ⟨by simp, fun _ => List.nil_prefix, by simp⟩

/-- The search ends no worse than it starts. -/
theorem rank_search_le (hg : g.Weighted) {start : Array Nat}
    (hstart : Assignment g.numQubits m start.toList) (hcost : g.costOf m start.toList = cost)
    (budget : Nat) :
    g.rank m (search g m budget start cost).best.toList ≤ g.rank m start.toList :=
  (visit_improves hg budget _ _ _ _ _ (reaches_start hstart hcost)).rank_le

theorem rank_search_antitone (hg : g.Weighted) {start : Array Nat}
    (hstart : Assignment g.numQubits m start.toList) (hcost : g.costOf m start.toList = cost) :
    Antitone fun budget => g.rank m (search g m budget start cost).best.toList :=
  fun _ _ hle => (visit_outlasts hg hle _ _ _ _ _ (reaches_start hstart hcost)).rank_le

end Search

namespace Layout

theorem ofGraph_antitone (hg : g.Weighted) (hle : g.numQubits ≤ m.size)
    (hplaceable : g.Placeable m) :
    ∃ start cost, heuristic g m = .ok (start, cost) ∧ g.costOf m start.toList = cost ∧
      ∃ v : Nat → List Nat,
        (∀ budget, ∃ l, ofGraph g m budget = .ok l ∧ l.physicals = (v budget).map some) ∧
        (Antitone fun budget => g.rank m (v budget)) ∧
        ∀ budget, g.costOf m (v budget) ≤ cost := by
  obtain ⟨targets, hfits⟩ := hg.exists_fits hplaceable
  obtain ⟨start, cost, hheuristic, hfull, hcost⟩ := heuristic_exact hg hle hfits
  refine ⟨start, cost, hheuristic, hcost, ?_⟩
  by_cases hidentity : g.cost? m (identity g.numQubits m.size).physical? = some g.total
  · refine ⟨fun _ => List.range g.numQubits, fun budget => ⟨_, ?_, physicals_identity hle⟩,
      antitone_const, fun _ => ?_⟩
    · rw [ofGraph, if_pos (beq_iff_eq.mpr hidentity)]
    · rw [← hcost]
      exact (identity_isLeast hg hle hidentity).1.2 _ hfull.assignment
  · refine ⟨fun budget => (Search.search g m budget start cost).best.toList,
      ofGraph_of_search hg.toValid hidentity hheuristic hfull,
      Search.rank_search_antitone hg hfull.assignment hcost, fun budget => ?_⟩
    rw [← hcost]
    exact InteractionGraph.costOf_le_of_rank_le
      (Search.rank_search_le hg hfull.assignment hcost budget)

/-- More budget never gives a worse layout.  If a layout of a circuit is found
with one budget, one is found with every budget.  Its rank never goes up with the
budget, and it costs no more than the placement that local improvement ends with. -/
theorem choose_antitone {c : Circuit α} {d : Device β} (hc : c.WellFormed) {budget : Nat}
    {l : Layout} (hchosen : choose budget c d = .ok l) :
    ∃ start cost, heuristic (InteractionGraph.ofCircuit c) d.coupling = .ok (start, cost) ∧
      c.placementCost d.coupling start.toList = cost ∧
      ∃ v : Nat → List Nat,
        (∀ b, ∃ l, choose b c d = .ok l ∧ l.physicals = (v b).map some) ∧
        (Antitone fun b => c.rank d.coupling (v b)) ∧
        ∀ b, c.placementCost d.coupling (v b) ≤ cost := by
  have hplaceable := (settles_of_choose hc hchosen).placeable
  have hle : c.numQubits ≤ d.numQubits :=
    ((InteractionGraph.placeable_ofCircuit hc).mp hplaceable).numQubits_le
  have h := ofGraph_antitone (InteractionGraph.weighted_ofCircuit hc) hle hplaceable
  simp only [InteractionGraph.costOf_ofCircuit hc, InteractionGraph.rank_ofCircuit hc] at h
  simpa only [choose, if_neg (Nat.not_lt.mpr hle)] using h

/-- Without a search three qubits around a star stay where local improvement
leaves them.  Fourteen nodes are enough for a smaller placement of the same
cost. -/
theorem choose_antitone_triangleCircuit :
    triangleCircuit.WellFormed ∧
      choose 0 triangleCircuit starDevice = .ok ⟨#[some 3, some 0, some 1, some 2],
        #[some 1, some 2, some 3, some 0], false⟩ ∧
      choose 14 triangleCircuit starDevice = .ok ⟨#[some 0, some 1, some 3, some 2],
        #[some 0, some 1, some 3, some 2], false⟩ ∧
      ∃ start cost, heuristic (InteractionGraph.ofCircuit triangleCircuit) starMap =
          .ok (start, cost) ∧
        triangleCircuit.placementCost starMap start.toList = cost ∧
        ∃ v : Nat → List Nat,
          (∀ b, ∃ l, choose b triangleCircuit starDevice = .ok l ∧ l.physicals = (v b).map some) ∧
          (Antitone fun b => triangleCircuit.rank starMap (v b)) ∧
          ∀ b, triangleCircuit.placementCost starMap (v b) ≤ cost := by
  have hchoose (b : Nat) : choose b triangleCircuit starDevice =
      ofGraph (InteractionGraph.ofCircuit triangleCircuit) starMap b := if_neg (by decide)
  have hchosen : ofGraph (InteractionGraph.ofCircuit triangleCircuit) starMap 0 =
      .ok ⟨#[some 3, some 0, some 1, some 2], #[some 1, some 2, some 3, some 0], false⟩ := by cbv
  have hsearched : ofGraph (InteractionGraph.ofCircuit triangleCircuit) starMap 14 =
      .ok ⟨#[some 0, some 1, some 3, some 2], #[some 0, some 1, some 3, some 2], false⟩ := by cbv
  rw [← hchoose] at hchosen hsearched
  exact ⟨wellFormed_triangleCircuit, hchosen, hsearched,
    choose_antitone (d := starDevice) wellFormed_triangleCircuit hchosen⟩

end Layout

end QuantumCompiler
