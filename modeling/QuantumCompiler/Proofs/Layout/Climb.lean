import QuantumCompiler.Proofs.Layout.Cost

/-!
# The running cost of local improvement

Local improvement never adds up the cost of all interactions.  It is given the
cost of a placement and changes it with every exchange by what the two qubits
save.  `climb_running_cost` says that this is the cost of the placement it ends
with, for any different places of the interacting qubits that have a cost.

That the cost stays exact, and that all interacting qubits stay connected, is
`climb_exact` and `climb_serves`.  Here a placement is a plain list
(`IsPlacement`): such a list makes a layout, and what is left of the layout at
the end is such a list again, with the same qubits in it (`climb_placed`).
-/

namespace QuantumCompiler

variable {g : InteractionGraph} {m : CouplingMap} {l : Layout}

/-! ## Placements as lists -/

/-- Different places below a size for some of `n` qubits. -/
structure IsPlacement (n size : Nat) (places : List (Option Nat)) : Prop where
  length : places.length = n
  nodup : places.reduceOption.Nodup
  lt : ∀ p ∈ places.reduceOption, p < size

theorem Layout.physicals_eq_map (l : Layout) :
    l.physicals = (List.range l.numLogical).map l.physical? := by
  refine physicals_eq (by simp) fun q hq => ?_
  rw [List.length_map, List.length_range] at hq
  simp [hq]

/-- The places of a layout whose directions agree. -/
theorem Layout.Consistent.isPlacement (hl : l.Consistent) :
    IsPlacement l.numLogical l.numPhysical l.physicals where
  length := rfl
  nodup := by
    rw [l.physicals_eq_map, List.reduceOption, List.filterMap_map]
    exact List.nodup_range.filterMap fun _ _ _ h h' => hl.injective h h'
  lt p hp := by
    rw [l.physicals_eq_map, List.reduceOption_mem_iff, List.mem_map] at hp
    obtain ⟨q, -, hq⟩ := hp
    exact hl.physical_lt hq

namespace Climb

variable {s : State} {p q : Nat}

/-! ## What exchanges keep -/

theorem tryExchange_cost_le (g : InteractionGraph) (m : CouplingMap) (s : State) (p q : Nat) :
    (tryExchange g m s p q).1.cost ≤ s.cost := by
  rcases tryExchange_cases g m s p q with hstay | ⟨before, after, -, -, -, hmade⟩
  · rw [hstay]
  · rw [hmade]
    exact Nat.sub_le _ _

/-- An exchange moves qubits, but none of them loses its place or gets one. -/
theorem tryExchange_placed (hs : s.layout.Consistent) (k : Nat) :
    ((tryExchange g m s p q).1.layout.physical? k).isSome = (s.layout.physical? k).isSome := by
  rcases tryExchange_cases g m s p q with hstay | ⟨before, after, -, -, -, hmade⟩
  · rw [hstay]
  · rw [hmade, hs.physical?_exchange, Option.isSome_map]

theorem climb_cost_le (g : InteractionGraph) (m : CouplingMap) (s : State) :
    (climb g m s).cost ≤ s.cost :=
  climb_keeps (P := fun t => t.cost ≤ s.cost)
    (fun _ _ _ _ t ht => Nat.le_trans (tryExchange_cost_le g m t _ _) ht) (Nat.le_refl _)

theorem climb_placed (hg : g.Valid) (hs : s.layout.Serves g m) (k : Nat) :
    ((climb g m s).layout.physical? k).isSome = (s.layout.physical? k).isSome := by
  refine (climb_keeps (P := fun t => t.layout.Serves g m ∧
    (t.layout.physical? k).isSome = (s.layout.physical? k).isSome) ?_ ⟨hs, rfl⟩).2
  intro p hp q hq t ht
  rw [hs.physical] at hp hq
  exact ⟨tryExchange_serves hg ht.1 hp hq, (tryExchange_placed ht.1.consistent k).trans ht.2⟩

/-- Local improvement of any placement that has a cost ends with a placement of the
same qubits whose cost is the one returned, and that cost is not greater than the
first. -/
theorem climb_running_cost (hg : g.Weighted) {places : List (Option Nat)}
    (hplaces : IsPlacement g.numQubits m.size places) {cost : Nat}
    (hcost : g.cost? m (places.getD · none) = some cost) :
    ∃ l final, (Layout.empty g.numQubits m.size).assignAll 0 places = .ok l ∧
      climb g m ⟨l, cost⟩ = final ∧
      g.cost? m (final.layout.physicals.getD · none) = some final.cost ∧
      final.cost ≤ cost ∧
      IsPlacement g.numQubits m.size final.layout.physicals ∧
      final.layout.physicals.map Option.isSome = places.map Option.isSome := by
  obtain ⟨l, hl, hcons, hphys, hphysicals⟩ := Layout.assignAll_empty hplaces.nodup hplaces.lt
  rw [hplaces.length] at hl
  have hplace (l : Layout) : (l.physicals.getD · none) = l.physical? :=
    funext fun q => (l.physical?_eq_getD q).symm
  have hexact : g.cost? m l.physical? = some cost := by rw [← hplace, hphysicals, hcost]
  -- A placement that has a cost connects all interacting qubits.
  have hserves : l.Serves g m := by
    refine ⟨hcons, ?_, hphys, hg.toValid.isSome_cost?_iff.mp (by rw [hexact]; rfl)⟩
    rw [← hplaces.length, ← hphysicals]
    rfl
  have hfinal := climb_serves (s := ⟨l, cost⟩) hg.toValid hserves
  refine ⟨l, climb g m ⟨l, cost⟩, hl, rfl, ?_, climb_cost_le g m ⟨l, cost⟩, ?_, ?_⟩
  · rw [hplace]
    exact climb_exact (s := ⟨l, cost⟩) hg hserves hexact
  · have := hfinal.consistent.isPlacement
    rwa [hfinal.logical, hfinal.physical] at this
  · rw [← hphysicals, l.physicals_eq_map, Layout.physicals_eq_map, hfinal.logical,
      hserves.logical, List.map_map, List.map_map]
    exact List.map_congr_left fun k _ => climb_placed (s := ⟨l, cost⟩) hg.toValid hserves k

/-! ## Three qubits on a line -/

/-- Five physical qubits in a row. -/
def lineMap : CouplingMap where
  size := 5
  edges := [(0, 1), (1, 2), (2, 3), (3, 4)]
  tables := Tables.ofEdges 5 [(0, 1), (1, 2), (2, 3), (3, 4)]
  edges_valid := by decide
  edges_distinct := by decide
  tables_eq := rfl

/-- A qubit that interacts twice with a second one and once with a third, and one on
which nothing acts. -/
def bentCircuit : Circuit Float :=
  ⟨4, 0, [.ofGate .cx [] [0, 1], .ofGate .cz [] [1, 0], .ofGate .cx [] [0, 2]]⟩

theorem wellFormed_bentCircuit : bentCircuit.WellFormed := by
  unfold Circuit.WellFormed bentCircuit
  decide

/-- The first two qubits are four steps apart at first, and the last one has no place
before and none after. -/
theorem climb_running_cost_bentCircuit :
    IsPlacement 4 5 [some 0, some 4, some 1, none] ∧
      (InteractionGraph.ofCircuit bentCircuit).cost? lineMap
        ([some 0, some 4, some 1, none].getD · none) = some 9 ∧
      ∃ l final, (Layout.empty 4 5).assignAll 0 [some 0, some 4, some 1, none] = .ok l ∧
        climb (InteractionGraph.ofCircuit bentCircuit) lineMap ⟨l, 9⟩ = final ∧
        (InteractionGraph.ofCircuit bentCircuit).cost? lineMap
          (final.layout.physicals.getD · none) = some final.cost ∧
        final.cost ≤ 9 ∧ IsPlacement 4 5 final.layout.physicals ∧
        final.layout.physicals.map Option.isSome = [true, true, true, false] := by
  have hplaces : IsPlacement 4 5 [some 0, some 4, some 1, none] := ⟨rfl, by decide, by decide⟩
  have hcost : (InteractionGraph.ofCircuit bentCircuit).cost? lineMap
      ([some 0, some 4, some 1, none].getD · none) = some 9 := by cbv
  exact ⟨hplaces, hcost,
    climb_running_cost (m := lineMap)
      (InteractionGraph.weighted_ofCircuit wellFormed_bentCircuit) hplaces hcost⟩

end Climb

end QuantumCompiler
