import QuantumCompiler.Device.Topology
import QuantumCompiler.Proofs.Device.Paths

/-!
# Distances on the standard topologies

Every standard topology has a coupling map at every size, and the distances on it
are given by a formula (`Topology.metric`).

* `IsPotential` is how a formula is recognised as a distance without looking at
  paths: along an edge it changes by at most one, and from every other qubit than
  the target some edge lowers it.  `IsPotential.edist_eq` is the induction.
* The edges of each topology are described by arithmetic (`mem_linear`, `mem_ring`,
  `mem_star`, `mem_full`, and `mem_grid` by rows and columns), after which the two properties
  are facts about numbers (`isPotential`).
* `distance?_of_coupling` reads the formula off the table of a coupling map, and
  `components_of_coupling` says that everything is connected.
-/

namespace QuantumCompiler

/-! ## Potentials -/

/-- A function that tells the distances to a target: along an edge it drops by at
most one, and elsewhere than at the target some edge lowers it. -/
structure IsPotential (G : SimpleGraph ℕ) (size target : Nat) (f : Nat → Nat) : Prop where
  zero : f target = 0
  drop : ∀ p q, G.Adj p q → f p ≤ f q + 1
  closer : ∀ p < size, p ≠ target → ∃ q < size, G.Adj p q ∧ f p = f q + 1

namespace IsPotential

variable {G : SimpleGraph ℕ} {size target p : Nat} {f : Nat → Nat}

/-- A potential is not above the length of a walk to the target. -/
theorem le_length (h : IsPotential G size target f) (w : G.Walk p target) : f p ≤ w.length := by
  induction w with
  | nil => rw [h.zero]; exact Nat.zero_le _
  | cons hadj w ih =>
    have hdrop := h.drop _ _ hadj
    have hrest := ih h
    rw [SimpleGraph.Walk.length_cons]
    omega

/-- From every qubit there is a walk to the target as long as the potential. -/
theorem exists_walk (h : IsPotential G size target f) (hp : p < size) :
    ∃ w : G.Walk p target, w.length = f p := by
  induction hk : f p generalizing p with
  | zero =>
    have htarget : p = target := by
      by_contra hne
      obtain ⟨q, -, -, hstep⟩ := h.closer p hp hne
      omega
    subst htarget
    exact ⟨.nil, rfl⟩
  | succ k ih =>
    have hne : p ≠ target := by
      rintro rfl
      rw [h.zero] at hk
      cases hk
    obtain ⟨q, hq, hadj, hstep⟩ := h.closer p hp hne
    obtain ⟨w, hw⟩ := ih hq (by omega)
    exact ⟨.cons hadj w, by rw [SimpleGraph.Walk.length_cons, hw]⟩

/-- A potential is the distance to the target. -/
theorem edist_eq (h : IsPotential G size target f) (hp : p < size) : G.edist p target = f p := by
  obtain ⟨w, hw⟩ := h.exists_walk hp
  refine le_antisymm (hw ▸ SimpleGraph.edist_le w) ?_
  obtain ⟨w', hw'⟩ := SimpleGraph.Reachable.exists_walk_length_eq_edist ⟨w⟩
  rw [← hw']
  exact_mod_cast h.le_length w'

end IsPotential

/-! ## Edges -/

namespace Topology

variable {n rows columns a b p q : Nat}

/-- The distance of two qubits on a topology. -/
def metric : Topology → Nat → Nat → Nat
  | linear _, a, b => ((a : Int) - b).natAbs
  | ring n, a, b => min ((a : Int) - b).natAbs (n - ((a : Int) - b).natAbs)
  | star _, a, b => if a = b then 0 else if a = 0 ∨ b = 0 then 1 else 2
  | grid _ columns, a, b =>
    (((a / columns : Nat) : Int) - (b / columns : Nat)).natAbs +
      (((a % columns : Nat) : Int) - (b % columns : Nat)).natAbs
  | full _, a, b => if a = b then 0 else 1

theorem mem_linear : (a, b) ∈ (linear n).edges ↔ b = a + 1 ∧ b < n := by
  simp only [edges, chain, List.mem_map, List.mem_range, Prod.mk.injEq]
  constructor
  · rintro ⟨i, hi, rfl, rfl⟩
    omega
  · rintro ⟨rfl, hb⟩
    exact ⟨a, by omega, rfl, rfl⟩

theorem mem_ring : (a, b) ∈ (ring n).edges ↔ b = a + 1 ∧ b < n ∨ 2 < n ∧ a = n - 1 ∧ b = 0 := by
  rw [edges, List.mem_append, show chain n = (linear n).edges from rfl, mem_linear]
  split_ifs with hn
  · simp [hn]
  · simp [hn]

theorem mem_star : (a, b) ∈ (star n).edges ↔ a = 0 ∧ 0 < b ∧ b < n := by
  simp only [edges, List.mem_map, List.mem_range, Prod.mk.injEq]
  constructor
  · rintro ⟨i, hi, rfl, rfl⟩
    omega
  · rintro ⟨rfl, hpos, hb⟩
    exact ⟨b - 1, by omega, rfl, by omega⟩

theorem mem_full : (a, b) ∈ (full n).edges ↔ a < b ∧ b < n := by
  simp only [edges, List.mem_flatMap, List.mem_map, List.mem_range, Prod.mk.injEq]
  constructor
  · rintro ⟨i, hi, k, hk, rfl, rfl⟩
    omega
  · rintro ⟨hab, hb⟩
    exact ⟨a, by omega, b - a - 1, by omega, rfl, by omega⟩

theorem mem_grid : (a, b) ∈ (grid rows columns).edges ↔
    ∃ r < rows, ∃ c < columns, a = r * columns + c ∧
      (c + 1 < columns ∧ b = r * columns + (c + 1) ∨
        r + 1 < rows ∧ b = (r + 1) * columns + c) := by
  simp only [edges, List.mem_flatMap, List.mem_range, gridEdgesAt, List.mem_append,
    List.mem_ite_nil_right, List.mem_singleton, Prod.mk.injEq]
  refine exists_congr fun r => and_congr_right fun _ => exists_congr fun c =>
    and_congr_right fun _ => ?_
  have hdown : (r + 1) * columns + c = r * columns + c + columns := by
    rw [Nat.succ_mul, Nat.add_right_comm]
  rw [hdown, ← Nat.add_assoc]
  tauto

/-- The qubit at a row and a column of a lattice. -/
theorem place_lt {r c : Nat} (hr : r < rows) (hc : c < columns) :
    r * columns + c < rows * columns :=
  calc r * columns + c < r * columns + columns := Nat.add_lt_add_left hc _
    _ = (r + 1) * columns := (Nat.succ_mul r columns).symm
    _ ≤ rows * columns := Nat.mul_le_mul_right columns hr

theorem exists_place (hp : p < rows * columns) :
    ∃ r < rows, ∃ c < columns, p = r * columns + c := by
  have hpos : 0 < columns := Nat.pos_of_ne_zero fun h => by simp [h] at hp
  refine ⟨p / columns, ?_, p % columns, Nat.mod_lt p hpos, (Nat.div_add_mod' p columns).symm⟩
  exact Nat.div_lt_of_lt_mul (Nat.mul_comm rows columns ▸ hp)

theorem valid (t : Topology) : EdgesValid t.size t.edges := by
  rintro ⟨a, b⟩ h
  cases t with
  | linear n => have := mem_linear.mp h; simp only [size]; omega
  | ring n => have := mem_ring.mp h; simp only [size]; omega
  | star n => have := mem_star.mp h; simp only [size]; omega
  | full n => have := mem_full.mp h; simp only [size]; omega
  | grid rows columns =>
    obtain ⟨r, hr, c, hc, rfl, ⟨hright, rfl⟩ | ⟨hbelow, rfl⟩⟩ := mem_grid.mp h
    · exact ⟨place_lt hr hc, place_lt hr hright, by omega⟩
    · have hne : r * columns < (r + 1) * columns :=
        Nat.mul_lt_mul_of_pos_right (Nat.lt_succ_self r) (by omega)
      exact ⟨place_lt hr hc, place_lt hbelow hc, by dsimp only; omega⟩

/-- The graph of a topology. -/
theorem adj_iff (t : Topology) :
    (edgeGraph t.edges).Adj p q ↔ (p, q) ∈ t.edges ∨ (q, p) ∈ t.edges :=
  edgeGraph_adj t.valid

/-! ## Formulas as potentials -/

theorem isPotential_linear (hb : b < n) :
    IsPotential (edgeGraph (linear n).edges) n b ((linear n).metric · b) where
  zero := by simp [metric]
  drop p q hadj := by
    rw [adj_iff, mem_linear, mem_linear] at hadj
    simp only [metric]
    omega
  closer p hp hne := by
    simp only [adj_iff, mem_linear, metric]
    rcases Nat.lt_or_gt_of_ne hne with hlt | hgt
    · exact ⟨p + 1, by omega, .inl ⟨rfl, by omega⟩, by omega⟩
    · exact ⟨p - 1, by omega, .inr (by omega), by omega⟩

/-- On a ring the way to the target leads over the end of the chain if that is
shorter. -/
theorem isPotential_ring (hb : b < n) :
    IsPotential (edgeGraph (ring n).edges) n b ((ring n).metric · b) where
  zero := by simp [metric]
  drop p q hadj := by
    rw [adj_iff, mem_ring, mem_ring] at hadj
    simp only [metric]
    omega
  closer p hp hne := by
    simp only [adj_iff, mem_ring, metric]
    by_cases hover : n - ((p : Int) - b).natAbs < ((p : Int) - b).natAbs
    · rcases Nat.lt_or_gt_of_ne hne with hlt | hgt
      · by_cases hend : p = 0
        · exact ⟨n - 1, by omega, .inr (.inr (by omega)), by omega⟩
        · exact ⟨p - 1, by omega, .inr (.inl (by omega)), by omega⟩
      · by_cases hend : p = n - 1
        · exact ⟨0, by omega, .inl (.inr (by omega)), by omega⟩
        · exact ⟨p + 1, by omega, .inl (.inl (by omega)), by omega⟩
    · rcases Nat.lt_or_gt_of_ne hne with hlt | hgt
      · exact ⟨p + 1, by omega, .inl (.inl (by omega)), by omega⟩
      · exact ⟨p - 1, by omega, .inr (.inl (by omega)), by omega⟩

theorem isPotential_star (hb : b < n) :
    IsPotential (edgeGraph (star n).edges) n b ((star n).metric · b) where
  zero := by simp [metric]
  drop p q hadj := by
    rw [adj_iff, mem_star, mem_star] at hadj
    simp only [metric]
    split_ifs <;> omega
  closer p hp hne := by
    simp only [adj_iff, mem_star, metric, if_neg hne]
    by_cases hcentre : p = 0 ∨ b = 0
    · refine ⟨b, hb, by omega, ?_⟩
      rw [if_pos hcentre, if_pos rfl]
    · refine ⟨0, by omega, by omega, ?_⟩
      rw [if_neg hcentre, if_neg (by omega), if_pos (.inl rfl)]

theorem isPotential_full (hb : b < n) :
    IsPotential (edgeGraph (full n).edges) n b ((full n).metric · b) where
  zero := by simp [metric]
  drop p q _ := by
    simp only [metric]
    split_ifs <;> omega
  closer p hp hne := by
    simp only [adj_iff, mem_full, metric, if_neg hne]
    exact ⟨b, hb, by omega, by rw [if_pos rfl]⟩

/-- On a lattice distances are the sums of those of rows and of columns. -/
theorem metric_grid {r c r' c' : Nat} (hc : c < columns) (hc' : c' < columns) :
    (grid rows columns).metric (r * columns + c) (r' * columns + c') =
      ((r : Int) - r').natAbs + ((c : Int) - c').natAbs := by
  have hdiv {r c : Nat} (hc : c < columns) : (r * columns + c) / columns = r := by
    rw [Nat.mul_comm, Nat.mul_add_div (by omega), Nat.div_eq_of_lt hc, Nat.add_zero]
  have hmod {r c : Nat} (hc : c < columns) : (r * columns + c) % columns = c := by
    rw [Nat.mul_add_mod_self_right, Nat.mod_eq_of_lt hc]
  rw [metric, hdiv hc, hdiv hc', hmod hc, hmod hc']

theorem isPotential_grid (hb : b < rows * columns) :
    IsPotential (edgeGraph (grid rows columns).edges) (rows * columns) b
      ((grid rows columns).metric · b) := by
  obtain ⟨r', hr', c', hc', rfl⟩ := exists_place hb
  refine ⟨by simp [metric], fun p q hadj => ?_, fun p hp hne => ?_⟩
  · rw [adj_iff, mem_grid, mem_grid] at hadj
    rcases hadj with ⟨r, hr, c, hc, rfl, ⟨hright, rfl⟩ | ⟨hbelow, rfl⟩⟩ |
      ⟨r, hr, c, hc, rfl, ⟨hright, rfl⟩ | ⟨hbelow, rfl⟩⟩
    · rw [metric_grid hc hc', metric_grid hright hc']; omega
    · rw [metric_grid hc hc', metric_grid hc hc']; omega
    · rw [metric_grid hc hc', metric_grid hright hc']; omega
    · rw [metric_grid hc hc', metric_grid hc hc']; omega
  · obtain ⟨r, hr, c, hc, rfl⟩ := exists_place hp
    have hright {r c : Nat} (hr : r < rows) (hc : c + 1 < columns) :
        (edgeGraph (grid rows columns).edges).Adj (r * columns + c) (r * columns + (c + 1)) :=
      (adj_iff _).mpr (.inl (mem_grid.mpr ⟨r, hr, c, by omega, rfl, .inl ⟨hc, rfl⟩⟩))
    have hbelow {r : Nat} (hr : r + 1 < rows) :
        (edgeGraph (grid rows columns).edges).Adj (r * columns + c) ((r + 1) * columns + c) :=
      (adj_iff _).mpr (.inl (mem_grid.mpr ⟨r, by omega, c, hc, rfl, .inr ⟨hr, rfl⟩⟩))
    -- First along the row to the column of the target, then along the column.
    rcases Nat.lt_trichotomy c c' with hlt | rfl | hgt
    · refine ⟨r * columns + (c + 1), place_lt hr (by omega), hright hr (by omega), ?_⟩
      rw [metric_grid hc hc', metric_grid (by omega) hc']
      omega
    · rcases Nat.lt_trichotomy r r' with hlt | rfl | hgt
      · refine ⟨(r + 1) * columns + c, place_lt (by omega) hc, hbelow (by omega), ?_⟩
        rw [metric_grid hc hc, metric_grid hc hc]
        omega
      · exact absurd rfl hne
      · obtain ⟨k, rfl⟩ : ∃ k, r = k + 1 := ⟨r - 1, by omega⟩
        refine ⟨k * columns + c, place_lt (by omega) hc, (hbelow hr).symm, ?_⟩
        rw [metric_grid hc hc, metric_grid hc hc]
        omega
    · obtain ⟨k, rfl⟩ : ∃ k, c = k + 1 := ⟨c - 1, by omega⟩
      refine ⟨r * columns + k, place_lt hr (by omega), (hright hr hc).symm, ?_⟩
      rw [metric_grid hc hc', metric_grid (by omega) hc']
      omega

theorem isPotential (t : Topology) (hb : b < t.size) :
    IsPotential (edgeGraph t.edges) t.size b (t.metric · b) := by
  cases t with
  | linear n => exact isPotential_linear hb
  | ring n => exact isPotential_ring hb
  | star n => exact isPotential_star hb
  | grid rows columns => exact isPotential_grid hb
  | full n => exact isPotential_full hb

/-! ## Coupling maps -/

/-- Every topology has a coupling map. -/
theorem exists_coupling (t : Topology) : ∃ m, t.coupling = .ok m :=
  CouplingMap.exists_ofEdges t.valid

variable {t : Topology} {m : CouplingMap}

theorem size_of_coupling (h : t.coupling = .ok m) : m.size = t.size :=
  CouplingMap.size_of_ofEdges h

theorem edist_of_coupling (h : t.coupling = .ok m) (ha : a < t.size) (hb : b < t.size) :
    m.graph.edist a b = t.metric a b := by
  rw [CouplingMap.graph_of_ofEdges h]
  exact (t.isPotential hb).edist_eq ha

theorem distance?_of_coupling (h : t.coupling = .ok m) (ha : a < t.size) (hb : b < t.size) :
    m.distance? a b = some (t.metric a b) :=
  CouplingMap.distance?_eq_some_iff.mpr ⟨size_of_coupling h ▸ ha, edist_of_coupling h ha hb⟩

/-- All qubits of a topology are connected. -/
theorem components_of_coupling (h : t.coupling = .ok m) (hpos : 0 < t.size) :
    m.components = [List.range t.size] := by
  have hsize := size_of_coupling h
  rw [← hsize] at hpos ⊢
  refine CouplingMap.components_eq_singleton hpos fun q hq => ?_
  refine SimpleGraph.reachable_of_edist_ne_top ?_
  rw [edist_of_coupling h (hsize ▸ hq) (hsize ▸ hpos)]
  exact ENat.natCast_ne_top _

end Topology

end QuantumCompiler
