import QuantumCompiler.Proofs.Layout.Exact

/-!
# The layout is the best one

The `cheapest` placements are those of least cost.  If the budget does not cut
the search, or the identity is taken without one, the layout is the least of
them (`choose_isLeast`): the cost decides first, and the order of the lists of
places among placements of the same cost.

* The search from a placement of known cost ends there (`search_isLeast`), and
  the cost that local improvement hands over is exact.
* The identity is only taken if it costs no more than the weight of all
  interactions, which no placement can beat (`total_le_costOf`), and no list of
  different places is smaller (`range'_le_of_nodup`).
-/

namespace QuantumCompiler

variable {α β : Type} {g : InteractionGraph} {m : CouplingMap}

/-! ## The cheapest placements -/

/-- The cost of places for the qubits of a circuit: over all pairs of qubits the
number of operations on both times their distance. -/
noncomputable def Circuit.placementCost (c : Circuit α) (m : CouplingMap) (w : List Nat) : ℕ∞ :=
  ∑ x ∈ c.qubitPairs, (c.weight x.1 x.2 : ℕ∞) * m.graph.edist (w.getD x.1 0) (w.getD x.2 0)

/-- The placements of least cost for a circuit. -/
def Circuit.cheapest (c : Circuit α) (m : CouplingMap) : Set (List Nat) :=
  {w | Assignment c.numQubits m w ∧
    ∀ w', Assignment c.numQubits m w' → c.placementCost m w ≤ c.placementCost m w'}

namespace InteractionGraph

/-- The same for a graph of interactions. -/
def cheapest (g : InteractionGraph) (m : CouplingMap) : Set (List Nat) :=
  {w | Assignment g.numQubits m w ∧
    ∀ w', Assignment g.numQubits m w' → g.costOf m w ≤ g.costOf m w'}

theorem costOf_ofCircuit {c : Circuit α} (hc : c.WellFormed) (w : List Nat) :
    (ofCircuit c).costOf m w = c.placementCost m w :=
  costAt_ofCircuit hc m _

theorem cheapest_ofCircuit {c : Circuit α} (hc : c.WellFormed) :
    (ofCircuit c).cheapest m = c.cheapest m := by
  simp only [cheapest, Circuit.cheapest, costOf_ofCircuit hc]
  rfl

/-- No placement costs less than the weight of all interactions. -/
theorem Valid.total_le_costOf (hg : g.Valid) {w : List Nat} (hw : Assignment g.numQubits m w) :
    (g.total : ℕ∞) ≤ g.costOf m w := by
  have hopen : Search.openWeight g 0 = g.total := by
    simp [Search.openWeight, total]
  have hle := hg.costBelow_add_le (m := m) (f := fun q => w.getD q 0) (fun e => hw.getD_ne hg) 0
  rwa [costBelow_zero, zero_add, hopen] at hle

end InteractionGraph

/-- Different numbers from a first one on are in no order smaller than the
ascending one. -/
theorem range'_le_of_nodup {k : Nat} {w : List Nat} (hnodup : w.Nodup) (hge : ∀ p ∈ w, k ≤ p) :
    List.range' k w.length ≤ w := by
  induction w generalizing k with
  | nil => exact le_rfl
  | cons p rest ih =>
    obtain ⟨hp, hrest⟩ := List.nodup_cons.mp hnodup
    rw [List.length_cons, List.range'_succ]
    rcases Nat.lt_or_eq_of_le (hge p List.mem_cons_self) with hlt | rfl
    · exact le_of_lt (List.cons_lt_cons_iff.mpr (.inl hlt))
    · have hle : List.range' (k + 1) rest.length ≤ rest := by
        refine ih hrest fun r hr => ?_
        have hne : r ≠ k := fun h => hp (h ▸ hr)
        have := hge r (List.mem_cons_of_mem k hr)
        omega
      rcases lt_or_eq_of_le hle with hlt | heq
      · exact le_of_lt (List.cons_lt_cons_iff.mpr (.inr ⟨rfl, hlt⟩))
      · exact le_of_eq (congrArg (List.cons k) heq)

/-! ## The choice -/

theorem Search.Full.assignment {known : Array Nat} (h : Search.Full g m known) :
    Assignment g.numQubits m known.toList :=
  ⟨h.2, h.1.nodup, h.1.lt⟩

/-- A search that is not cut ends with the least of the cheapest placements. -/
theorem Search.search_isLeast (hg : g.Weighted) {known : Array Nat} {budget cost : Nat}
    (hknown : Assignment g.numQubits m known.toList) (hcost : g.costOf m known.toList = cost)
    (h : Uncut g m budget known cost) :
    IsLeast (g.cheapest m) (search g m budget known cost).best.toList := by
  obtain ⟨htracks, hgood⟩ := search_asGood hg hknown hcost h
  refine ⟨⟨htracks.assignment, fun w hw => ?_⟩, fun w hw => ?_⟩
  · rw [htracks.cost]
    exact (hgood w hw).cost_le
  · have hle := hw.2 _ htracks.assignment
    rw [htracks.cost] at hle
    exact ((hgood w hw.1).resolve_left (not_lt.mpr hle)).2

namespace Layout

/-- The identity is the least of the cheapest placements if no interaction is
between qubits that are apart. -/
theorem identity_isLeast (hg : g.Weighted) (hle : g.numQubits ≤ m.size)
    (h : g.cost? m (identity g.numQubits m.size).physical? = some g.total) :
    IsLeast (g.cheapest m) (List.range g.numQubits) := by
  have hserves := (identity_settles hg.toValid hle (by rw [h]; rfl)).toServes
  obtain ⟨-, -, -, hplace⟩ := identity_spec hle
  have hassignment : Assignment g.numQubits m (List.range g.numQubits) :=
    ⟨List.length_range, List.nodup_range,
      fun p hp => Nat.lt_of_lt_of_le (List.mem_range.mp hp) hle⟩
  have hposition (q : Nat) (hq : q < g.numQubits) :
      (List.range g.numQubits).getD q 0 = (identity g.numQubits m.size).position q := by
    rw [position_eq (hplace q ▸ if_pos hq)]
    simp [hq]
  have hcost : g.costOf m (List.range g.numQubits) = g.total := by
    rw [← extended_some, ← h, hserves.extended_cost? hg]
    refine InteractionGraph.costAt_congr fun e he => ?_
    obtain ⟨hab, hb⟩ := hg.lt e he
    exact ⟨hposition e.a (Nat.lt_trans hab hb), hposition e.b hb⟩
  refine ⟨⟨hassignment, fun w hw => ?_⟩, fun w hw => ?_⟩
  · rw [hcost]
    exact hg.total_le_costOf hw
  · rw [List.range_eq_range', ← hw.1.length]
    exact range'_le_of_nodup hw.1.nodup fun p _ => Nat.zero_le p

theorem physicals_identity {n size : Nat} (hle : n ≤ size) :
    (identity n size).physicals = (List.range n).map some := by
  obtain ⟨-, hlog, -, hplace⟩ := identity_spec hle
  refine physicals_eq (by simp [hlog]) fun q hq => ?_
  rw [List.length_map, List.length_range] at hq
  rw [hplace, if_pos hq]
  simp [hq]

/-- If the identity is not taken, the layout is what the search ends with. -/
theorem ofGraph_of_search (hg : g.Valid)
    (hidentity : g.cost? m (identity g.numQubits m.size).physical? ≠ some g.total)
    {known : Array Nat} {cost : Nat} (hheuristic : heuristic g m = .ok (known, cost))
    (hfull : Search.Full g m known) (budget : Nat) :
    ∃ l, ofGraph g m budget = .ok l ∧
      l.physicals = (Search.search g m budget known cost).best.toList.map some := by
  obtain ⟨l, hl, -, hphysicals⟩ :=
    ofPhysicals_settles hg (@Search.search_best g m hg budget cost known hfull)
  refine ⟨l, ?_, hphysicals⟩
  rw [ofGraph, if_neg (by simpa using hidentity)]
  simp only [hheuristic, hl]

/-- The identity is taken without a search, or the budget does not cut the
search. -/
def Finishes (budget : Nat) (g : InteractionGraph) (m : CouplingMap) : Prop :=
  g.cost? m (identity g.numQubits m.size).physical? = some g.total ∨
    ∀ known cost, heuristic g m = .ok (known, cost) → Search.Uncut g m budget known cost

theorem ofGraph_isLeast (hg : g.Weighted) (hle : g.numQubits ≤ m.size)
    (hplaceable : g.Placeable m) {budget : Nat} (hfinishes : Finishes budget g m) :
    ∃ l v, ofGraph g m budget = .ok l ∧ l.physicals = v.map some ∧ IsLeast (g.cheapest m) v := by
  by_cases hidentity : g.cost? m (identity g.numQubits m.size).physical? = some g.total
  · exact ⟨_, _, by rw [ofGraph, if_pos (beq_iff_eq.mpr hidentity)], physicals_identity hle,
      identity_isLeast hg hle hidentity⟩
  · obtain ⟨targets, hfits⟩ := hg.exists_fits hplaceable
    obtain ⟨known, cost, hheuristic, hfull, hcost⟩ := heuristic_exact hg hle hfits
    obtain ⟨l, hl, hphysicals⟩ := ofGraph_of_search hg.toValid hidentity hheuristic hfull budget
    exact ⟨l, _, hl, hphysicals, Search.search_isLeast hg hfull.assignment hcost
      (hfinishes.resolve_left hidentity known cost hheuristic)⟩

/-- The exact search is exact.  For a placeable circuit, with a budget that does
not cut the search, the layout is the least of all placements of least cost, in
the order of their lists of places. -/
theorem choose_isLeast {c : Circuit α} {d : Device β} (hc : c.WellFormed)
    (hplaceable : c.Placeable d.coupling) {budget : Nat}
    (hfinishes : Finishes budget (InteractionGraph.ofCircuit c) d.coupling) :
    ∃ l v, choose budget c d = .ok l ∧ l.physicals = v.map some ∧
      IsLeast (c.cheapest d.coupling) v := by
  have hle : c.numQubits ≤ d.numQubits := hplaceable.numQubits_le
  rw [choose, if_neg (Nat.not_lt.mpr hle), ← InteractionGraph.cheapest_ofCircuit hc]
  exact ofGraph_isLeast (InteractionGraph.weighted_ofCircuit hc) hle
    ((InteractionGraph.placeable_ofCircuit hc).mpr hplaceable) hfinishes

/-! ## Three qubits around a star -/

/-- Three qubits, each coupled with the last one. -/
def starMap : CouplingMap where
  size := 4
  edges := [(0, 3), (1, 3), (2, 3)]
  tables := Tables.ofEdges 4 [(0, 3), (1, 3), (2, 3)]
  edges_valid := by decide
  edges_distinct := by decide
  tables_eq := rfl

/-- A device with this coupling. -/
def starDevice : Device Float := .uncalibrated "star" starMap ⟨[]⟩

/-- Three qubits that interact with each other, and one on which nothing acts. -/
def triangleCircuit : Circuit Float :=
  ⟨4, 0, [.ofGate .cx [] [0, 1], .ofGate .cx [] [1, 2], .ofGate .cx [] [0, 2]]⟩

theorem wellFormed_triangleCircuit : triangleCircuit.WellFormed := by
  unfold Circuit.WellFormed triangleCircuit
  decide

theorem placeable_triangleCircuit : triangleCircuit.Placeable starMap := by
  have hcentre (q : Nat) (hq : q < 3) : starMap.graph.Reachable q 3 := by
    have hedge : ∀ q < 3, (q, 3) ∈ starMap.edges := by decide
    exact (CouplingMap.graph_adj.mpr (.inl (hedge q hq))).reachable
  refine ⟨id, fun _ hq => hq, fun _ _ _ _ hab => hab, ?_⟩
  have hqubits : ∀ op ∈ triangleCircuit.ops, ∀ q ∈ op.qubits, q < 3 := by decide
  exact fun op hop _ a ha b hb =>
    (hcentre a (hqubits op hop a ha)).trans (hcentre b (hqubits op hop b hb)).symm

/-- The search visits fourteen nodes, and that many are enough. -/
theorem finishes_triangleCircuit :
    Finishes 14 (InteractionGraph.ofCircuit triangleCircuit) starMap := by
  have hknown : heuristic (InteractionGraph.ofCircuit triangleCircuit) starMap =
      .ok (#[3, 0, 1, 2], 4) := by cbv
  have hexplore : Search.explore (InteractionGraph.ofCircuit triangleCircuit) starMap 4 #[] 0 .eq
      ⟨#[3, 0, 1, 2], 4, 0, false⟩ = ⟨#[0, 1, 3, 2], 4, 14, true⟩ := by cbv
  refine .inr fun known cost h => ?_
  rw [hknown] at h
  cases h
  exact (Search.uncut_iff rfl).mpr (Nat.le_of_eq (congrArg Search.Incumbent.nodes hexplore))

/-- No placement reaches the weight of the three interactions, and the one known
before the search is of the best cost, but not the least of them. -/
theorem choose_triangleCircuit :
    triangleCircuit.WellFormed ∧ triangleCircuit.Placeable starMap ∧
      Finishes 14 (InteractionGraph.ofCircuit triangleCircuit) starMap ∧
      ∃ l v, choose 14 triangleCircuit starDevice = .ok l ∧ l.physicals = v.map some ∧
        IsLeast (triangleCircuit.cheapest starMap) v :=
  ⟨wellFormed_triangleCircuit, placeable_triangleCircuit, finishes_triangleCircuit,
    choose_isLeast (d := starDevice) wellFormed_triangleCircuit placeable_triangleCircuit
      finishes_triangleCircuit⟩

end Layout

end QuantumCompiler
