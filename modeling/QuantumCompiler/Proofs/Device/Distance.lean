import Mathlib.Data.List.GetD
import Mathlib.Data.List.Permutation
import Mathlib.Combinatorics.SimpleGraph.Metric
import QuantumCompiler.Device.Coupling
import QuantumCompiler.Proofs.OptionalEntry

/-!
# Distances on a coupling map

The tables of a coupling map are calculated by a search level by level.  This
module reads them on the graph of the edges.

* `edgeGraph` is the undirected graph of a list of edges, and
  `CouplingMap.graph` that of a coupling map.
* `RowUpTo` is the invariant of the search: after a number of levels the row
  holds exactly the distances up to that number.  `spread_row` is the
  induction over the levels.
* `CouplingMap.distance?_eq_some_iff` says that the table holds the distances
  of the graph.
* `CouplingMap.isRegion`, `components_disjoint` and `exists_region` say that
  the components are the connected regions of the graph.
-/

namespace QuantumCompiler

/-! ## The graph of a list of edges -/

/-- The undirected graph of a list of edges. -/
def edgeGraph (edges : List Edge) : SimpleGraph ℕ := SimpleGraph.fromRel fun a b => (a, b) ∈ edges

/-- Every edge joins two different qubits below a size. -/
def EdgesValid (size : Nat) (edges : List Edge) : Prop :=
  ∀ e ∈ edges, e.1 < size ∧ e.2 < size ∧ e.1 ≠ e.2

theorem Edge.error?_eq_none_iff {size : Nat} {e : Edge} :
    e.error? size = none ↔ e.1 < size ∧ e.2 < size ∧ e.1 ≠ e.2 := by
  rw [Edge.error?]
  split_ifs with hbounds hloop
  · simp only [Bool.or_eq_true, decide_eq_true_eq] at hbounds
    constructor
    · intro h; cases h
    · omega
  · simp only [beq_iff_eq] at hloop
    constructor
    · intro h; cases h
    · exact fun h => absurd hloop h.2.2
  · simp only [Bool.or_eq_true, decide_eq_true_eq] at hbounds
    simp only [beq_iff_eq] at hloop
    exact ⟨fun _ => ⟨by omega, by omega, hloop⟩, fun _ => rfl⟩

section Graph

variable {size : Nat} {edges : List Edge}

theorem edgeGraph_adj (hvalid : EdgesValid size edges) {a b : Nat} :
    (edgeGraph edges).Adj a b ↔ (a, b) ∈ edges ∨ (b, a) ∈ edges := by
  rw [edgeGraph, SimpleGraph.fromRel_adj]
  refine ⟨fun h => h.2, fun h => ⟨?_, h⟩⟩
  rcases h with h | h
  · exact (hvalid _ h).2.2
  · exact (hvalid _ h).2.2.symm

theorem lt_of_adj (hvalid : EdgesValid size edges) {a b : Nat} (h : (edgeGraph edges).Adj a b) :
    a < size ∧ b < size := by
  rcases (edgeGraph_adj hvalid).mp h with h | h
  · exact ⟨(hvalid _ h).1, (hvalid _ h).2.1⟩
  · exact ⟨(hvalid _ h).2.1, (hvalid _ h).1⟩

theorem mem_neighboursOf (hvalid : EdgesValid size edges) {q r : Nat} :
    r ∈ Tables.neighboursOf edges q ↔ (edgeGraph edges).Adj q r := by
  rw [Tables.neighboursOf, List.mem_mergeSort, List.mem_filterMap, edgeGraph_adj hvalid]
  constructor
  · rintro ⟨⟨a, b⟩, he, h⟩
    simp only [beq_iff_eq] at h
    split_ifs at h with ha hb
    · cases h; subst ha; exact .inl he
    · cases h; subst hb; exact .inr he
  · rintro (h | h)
    · exact ⟨(q, r), h, by simp⟩
    · refine ⟨(r, q), h, ?_⟩
      have hne : r ≠ q := (hvalid _ h).2.2
      simp [hne]

/-- A vertex on a walk that starts below the size is below the size. -/
theorem lt_of_walk (hvalid : EdgesValid size edges) {a b : Nat} (w : (edgeGraph edges).Walk a b)
    (ha : a < size) : ∀ v ∈ w.support, v < size := by
  induction w with
  | nil => simpa using ha
  | cons hadj w ih =>
    intro v hv
    rw [SimpleGraph.Walk.support_cons, List.mem_cons] at hv
    rcases hv with rfl | hv
    · exact ha
    · exact ih (lt_of_adj hvalid hadj).2 v hv

/-- Distances are below the size: a shortest path visits no vertex twice. -/
theorem edist_lt_size (hvalid : EdgesValid size edges) {a b k : Nat} (ha : a < size)
    (h : (edgeGraph edges).edist a b = k) : k < size := by
  have hreach : (edgeGraph edges).Reachable a b :=
    SimpleGraph.reachable_of_edist_ne_top (by rw [h]; exact ENat.natCast_ne_top k)
  obtain ⟨w, hpath, hlength⟩ := hreach.exists_path_of_dist
  have hk : w.length = k := by
    have := hreach.coe_dist_eq_edist
    rw [h, ← hlength] at this
    exact_mod_cast this
  have hsub : w.support ⊆ List.range size := fun v hv =>
    List.mem_range.mpr (lt_of_walk hvalid w ha v hv)
  have hle := (List.Nodup.subperm hpath.support_nodup hsub).length_le
  rw [SimpleGraph.Walk.length_support, List.length_range, hk] at hle
  exact hle

/-- The vertices of the next level are those next to a level that are in no
level so far. -/
theorem edist_eq_succ_iff {V : Type} {G : SimpleGraph V} {s b : V} {d : Nat} :
    G.edist s b = (d + 1 : Nat) ↔
      (∃ q, G.edist s q = d ∧ G.Adj q b) ∧ ∀ k ≤ d, G.edist s b ≠ (k : Nat) := by
  constructor
  · intro h
    refine ⟨?_, fun k hk hdist => ?_⟩
    · obtain ⟨w, hw⟩ := SimpleGraph.exists_walk_of_edist_eq_coe h
      cases hrev : w.reverse with
      | nil =>
        have := congrArg SimpleGraph.Walk.length hrev
        simp [hw] at this
      | cons hadj w' =>
        have hlength : w'.length = d := by
          have := congrArg SimpleGraph.Walk.length hrev
          simp only [SimpleGraph.Walk.length_reverse, SimpleGraph.Walk.length_cons] at this
          omega
        rename_i q
        refine ⟨q, le_antisymm ?_ ?_, hadj.symm⟩
        · rw [← hlength, ← SimpleGraph.Walk.length_reverse]
          exact SimpleGraph.edist_le w'.reverse
        · have htriangle := @SimpleGraph.edist_triangle V G s q b
          rw [h, SimpleGraph.edist_eq_one_iff_adj.mpr hadj.symm] at htriangle
          push_cast at htriangle
          exact (ENat.add_le_add_iff_right ENat.one_ne_top).mp htriangle
    · rw [h] at hdist
      have : d + 1 = k := by exact_mod_cast hdist
      omega
  · rintro ⟨⟨q, hq, hadj⟩, hfar⟩
    have hle : G.edist s b ≤ (d + 1 : Nat) := by
      have htriangle := @SimpleGraph.edist_triangle V G s q b
      rw [hq, SimpleGraph.edist_eq_one_iff_adj.mpr hadj] at htriangle
      exact_mod_cast htriangle
    obtain ⟨k, hk⟩ : ∃ k : Nat, G.edist s b = k :=
      ⟨_, (ENat.natCast_toNat (ne_top_of_le_ne_top (ENat.natCast_ne_top _) hle)).symm⟩
    have hkd : k ≤ d + 1 := by
      rw [hk] at hle
      exact_mod_cast hle
    have hnot : ¬ k ≤ d := fun hkd' => hfar k hkd' hk
    rw [hk, show k = d + 1 by omega]

/-- Every level below that of a vertex holds some vertex. -/
theorem exists_edist_eq {V : Type} {G : SimpleGraph V} {s b : V} {j k : Nat}
    (h : G.edist s b = k) (hj : j ≤ k) : ∃ v, G.edist s v = j := by
  induction k generalizing b with
  | zero =>
    rw [show j = 0 by omega]
    exact ⟨b, h⟩
  | succ k ih =>
    by_cases hjk : j = k + 1
    · rw [hjk]
      exact ⟨b, h⟩
    · obtain ⟨⟨q, hq, -⟩, -⟩ := edist_eq_succ_iff.mp h
      exact ih hq (by omega)

end Graph

/-! ## The search level by level -/

namespace Tables

/-- Giving a distance to the qubits of a list reaches those that have none. -/
theorem foldl_reach (d : Nat) {qs : List Nat} {row : Array (Option Nat)} (next : List Nat)
    (hqs : ∀ q ∈ qs, q < row.size) :
    (qs.foldl (reach d) (row, next)).1.size = row.size ∧
      (∀ b, (qs.foldl (reach d) (row, next)).1.getD b none =
        if row.getD b none = none ∧ b ∈ qs then some d else row.getD b none) ∧
      ∀ b, b ∈ (qs.foldl (reach d) (row, next)).2 ↔
        b ∈ next ∨ row.getD b none = none ∧ b ∈ qs := by
  induction qs generalizing row next with
  | nil => simp
  | cons q rest ih =>
    have hq : q < row.size := hqs q List.mem_cons_self
    have hreach : reach d (row, next) q =
        if row.getD q none = none then (row.setIfInBounds q (some d), q :: next)
        else (row, next) := by
      simp only [reach, beq_iff_eq]
    rw [List.foldl_cons, hreach]
    by_cases hrow : row.getD q none = none
    · obtain ⟨hsize, hget, hmem⟩ := @ih (row.setIfInBounds q (some d)) (q :: next)
        (by simpa using fun p hp => hqs p (List.mem_cons_of_mem _ hp))
      rw [if_pos hrow]
      refine ⟨by rw [hsize]; simp, fun b => ?_, fun b => ?_⟩
      · rw [hget, getD_setIfInBounds hq]
        by_cases hb : b = q
        · subst hb
          simp only [if_pos, hrow, List.mem_cons_self, and_self, reduceCtorEq, false_and,
            if_false]
        · simp only [hb, if_false, List.mem_cons, false_or]
      · rw [hmem, getD_setIfInBounds hq]
        by_cases hb : b = q
        · subst hb
          simp only [hrow, List.mem_cons_self, true_or, and_self, or_true]
        · simp only [hb, if_false, List.mem_cons, false_or]
    · obtain ⟨hsize, hget, hmem⟩ := ih next fun p hp => hqs p (List.mem_cons_of_mem _ hp)
      rw [if_neg hrow]
      refine ⟨hsize, fun b => ?_, fun b => ?_⟩
      · rw [hget]
        by_cases hb : b = q
        · subst hb
          simp only [hrow, false_and]
        · simp only [List.mem_cons, hb, false_or]
      · rw [hmem]
        by_cases hb : b = q
        · subst hb
          simp only [hrow, false_and]
        · simp only [List.mem_cons, hb, false_or]

/-- A row holds the distances from a qubit up to a number of levels. -/
structure RowUpTo (G : SimpleGraph ℕ) (size source levels : Nat) (row : Array (Option Nat)) :
    Prop where
  size_eq : row.size = size
  get : ∀ b k, row.getD b none = some k ↔ G.edist source b = k ∧ k ≤ levels

section Spread

variable {size source : Nat} {edges : List Edge}

/-- The neighbours table. -/
theorem getD_neighbours (size : Nat) (edges : List Edge) (q : Nat) :
    (ofEdges size edges).neighbours.getD q [] =
      if q < size then neighboursOf edges q else [] := by
  rw [ofEdges, Array.getD_eq_getD_getElem?]
  by_cases hq : q < size <;> simp [hq]

theorem mem_neighbours (hvalid : EdgesValid size edges) {q r : Nat} :
    r ∈ (ofEdges size edges).neighbours.getD q [] ↔ (edgeGraph edges).Adj q r := by
  rw [getD_neighbours]
  split_ifs with hq
  · exact mem_neighboursOf hvalid
  · refine ⟨fun h => absurd h List.not_mem_nil, fun h => ?_⟩
    exact absurd (lt_of_adj hvalid h).1 hq

/-- One round of the search extends a row by one level. -/
theorem round_row (hvalid : EdgesValid size edges) {d : Nat} {level : List Nat}
    {row : Array (Option Nat)} (hrow : RowUpTo (edgeGraph edges) size source d row)
    (hlevel : ∀ b, b ∈ level ↔ (edgeGraph edges).edist source b = d) :
    let found := level.foldl (fun found q =>
      ((ofEdges size edges).neighbours.getD q []).foldl (reach (d + 1)) found) (row, [])
    RowUpTo (edgeGraph edges) size source (d + 1) found.1 ∧
      ∀ b, b ∈ found.2 ↔ (edgeGraph edges).edist source b = (d + 1 : Nat) := by
  rw [← List.foldl_flatMap]
  have hmem (b : Nat) : b ∈ level.flatMap (fun q => (ofEdges size edges).neighbours.getD q []) ↔
      ∃ q, (edgeGraph edges).edist source q = d ∧ (edgeGraph edges).Adj q b := by
    simp only [List.mem_flatMap, hlevel, mem_neighbours hvalid]
  have hnone (b : Nat) : row.getD b none = none ↔
      ∀ k ≤ d, (edgeGraph edges).edist source b ≠ (k : Nat) := by
    constructor
    · intro h k hk hdist
      have := (hrow.get b k).mpr ⟨hdist, hk⟩
      rw [h] at this
      cases this
    · intro h
      cases hb : row.getD b none with
      | none => rfl
      | some k => exact absurd ((hrow.get b k).mp hb).1 (h k ((hrow.get b k).mp hb).2)
  obtain ⟨hsize, hget, hnext⟩ := @foldl_reach (d + 1)
    (level.flatMap fun q => (ofEdges size edges).neighbours.getD q []) row [] (by
      intro b hb
      obtain ⟨q, -, hadj⟩ := (hmem b).mp hb
      rw [hrow.size_eq]
      exact (lt_of_adj hvalid hadj).2)
  have hfresh (b : Nat) : (row.getD b none = none ∧
      b ∈ level.flatMap fun q => (ofEdges size edges).neighbours.getD q []) ↔
        (edgeGraph edges).edist source b = (d + 1 : Nat) := by
    rw [hnone, hmem, edist_eq_succ_iff, and_comm]
  refine ⟨⟨hsize.trans hrow.size_eq, fun b k => ?_⟩, fun b => ?_⟩
  · rw [hget]
    by_cases hb : (edgeGraph edges).edist source b = (d + 1 : Nat)
    · rw [if_pos ((hfresh b).mpr hb), hb]
      constructor
      · intro h
        cases h
        exact ⟨rfl, le_refl _⟩
      · rintro ⟨h, -⟩
        rw [show d + 1 = k by exact_mod_cast h]
    · rw [if_neg fun h => hb ((hfresh b).mp h), hrow.get]
      refine ⟨fun h => ⟨h.1, by omega⟩, fun h => ⟨h.1, ?_⟩⟩
      by_contra hk
      rw [show k = d + 1 by omega] at h
      exact hb h.1
  · rw [hnext, hfresh]
    simp

/-- The search ends with all distances. -/
theorem spread_row (hvalid : EdgesValid size edges) (hsource : source < size) {fuel d : Nat}
    {level : List Nat} {row : Array (Option Nat)} (hfuel : size ≤ fuel + d)
    (hrow : RowUpTo (edgeGraph edges) size source d row)
    (hlevel : ∀ b, b ∈ level ↔ (edgeGraph edges).edist source b = d) (b k : Nat) :
    (spread (ofEdges size edges).neighbours fuel d level row).getD b none = some k ↔
      (edgeGraph edges).edist source b = k := by
  induction fuel generalizing d level row with
  | zero =>
    rw [spread, hrow.get]
    refine ⟨fun h => h.1, fun h => ⟨h, ?_⟩⟩
    have := edist_lt_size hvalid hsource h
    omega
  | succ fuel ih =>
    obtain ⟨hrow', hnext⟩ := round_row hvalid hrow hlevel
    rw [spread]
    dsimp only at hrow' hnext ⊢
    split_ifs with hempty
    · rw [hrow'.get]
      refine ⟨fun h => h.1, fun h => ⟨h, ?_⟩⟩
      -- A farther vertex would need one in the next level, which is empty.
      by_contra hk
      obtain ⟨v, hv⟩ := exists_edist_eq h (show d + 1 ≤ k by omega)
      have hmem := (hnext v).mpr hv
      rw [List.isEmpty_iff.mp hempty] at hmem
      cases hmem
    · exact ih (by omega) hrow' hnext

theorem distancesFrom_eq_some_iff (hvalid : EdgesValid size edges) (hsource : source < size)
    {b k : Nat} :
    (distancesFrom size (ofEdges size edges).neighbours source).getD b none = some k ↔
      (edgeGraph edges).edist source b = k := by
  refine spread_row hvalid hsource (by omega) ⟨by simp, fun b k => ?_⟩ (fun b => ?_) b k
  · rw [getD_setIfInBounds (by simpa using hsource), getD_replicate]
    by_cases hb : b = source
    · subst hb
      simp only [if_pos, SimpleGraph.edist_self, Option.some.injEq]
      constructor
      · rintro rfl
        simp
      · rintro ⟨-, hk⟩
        omega
    · simp only [hb, if_false, reduceCtorEq, false_iff, not_and]
      intro hdist hk
      rw [show k = 0 by omega] at hdist
      exact hb (SimpleGraph.edist_eq_zero_iff.mp (by exact_mod_cast hdist)).symm
  · rw [List.mem_singleton]
    constructor
    · rintro rfl
      simp
    · intro h
      exact (SimpleGraph.edist_eq_zero_iff.mp (by exact_mod_cast h)).symm

/-- The table of distances. -/
theorem getD_distances_eq_some_iff (hvalid : EdgesValid size edges) {a b k : Nat} :
    ((ofEdges size edges).distances.getD a #[]).getD b none = some k ↔
      a < size ∧ (edgeGraph edges).edist a b = k := by
  have hrow : (ofEdges size edges).distances.getD a #[] =
      if a < size then distancesFrom size (ofEdges size edges).neighbours a else #[] := by
    rw [ofEdges, Array.getD_eq_getD_getElem?]
    by_cases ha : a < size <;> simp [ha]
  rw [hrow]
  split_ifs with ha
  · rw [distancesFrom_eq_some_iff hvalid ha]
    simp [ha]
  · simp [ha]

/-- The first hit in an ascending list is the smallest one. -/
theorem le_of_find?_eq_some {xs : List Nat} (hxs : xs.Pairwise (· ≤ ·)) {p : Nat → Bool} {x : Nat}
    (h : xs.find? p = some x) : ∀ y ∈ xs, p y = true → x ≤ y := by
  obtain ⟨-, before, after, rfl, hbefore⟩ := List.find?_eq_some_iff_append.mp h
  intro y hy hp
  rcases List.mem_append.mp hy with hy | hy
  · have hnot := hbefore y hy
    rw [hp] at hnot
    cases hnot
  · rcases List.mem_cons.mp hy with rfl | hy
    · exact Nat.le_refl _
    · exact (List.pairwise_cons.mp (List.pairwise_append.mp hxs).2.1).1 y hy

/-- The smallest qubit with a distance. -/
theorem firstReached_spec {row : Array (Option Nat)} {q : Nat} (hq : q < size)
    (hrow : (row.getD q none).isSome = true) :
    (row.getD (firstReached size row) none).isSome = true ∧ firstReached size row < size ∧
      ∀ r, (row.getD r none).isSome = true → r < size → firstReached size row ≤ r := by
  rw [firstReached]
  cases h : (List.range size).find? fun q => (row.getD q none).isSome with
  | none =>
    have := List.find?_eq_none.mp h q (List.mem_range.mpr hq)
    exact absurd hrow this
  | some c =>
    rw [Option.getD_some]
    have hleast := le_of_find?_eq_some (List.pairwise_lt_range.imp Nat.le_of_lt) h
    exact ⟨List.find?_some (p := fun q => (row.getD q none).isSome) h,
      List.mem_range.mp (List.mem_of_find?_eq_some h),
      fun r hr hrsize => hleast r (List.mem_range.mpr hrsize) hr⟩

/-- The entry of a qubit in the table of components is the smallest qubit
that is connected with it. -/
theorem getD_components_spec (hvalid : EdgesValid size edges) {q : Nat} (hq : q < size)
    (default : Nat) :
    (edgeGraph edges).Reachable q ((ofEdges size edges).components.getD q default) ∧
      (ofEdges size edges).components.getD q default < size ∧
      ∀ r, (edgeGraph edges).Reachable q r →
        (ofEdges size edges).components.getD q default ≤ r := by
  have hentry : (ofEdges size edges).components.getD q default =
      firstReached size (distancesFrom size (ofEdges size edges).neighbours q) := by
    simp [ofEdges, hq]
  have hsome (r : Nat) :
      ((distancesFrom size (ofEdges size edges).neighbours q).getD r none).isSome = true ↔
        (edgeGraph edges).Reachable q r := by
    rw [Option.isSome_iff_exists, ← SimpleGraph.edist_ne_top_iff_reachable]
    constructor
    · rintro ⟨k, hk⟩
      rw [(distancesFrom_eq_some_iff hvalid hq).mp hk]
      exact ENat.natCast_ne_top k
    · intro h
      exact ⟨_, (distancesFrom_eq_some_iff hvalid hq).mpr (ENat.natCast_toNat h).symm⟩
  obtain ⟨hreach, hlt, hmin⟩ :=
    firstReached_spec hq ((hsome q).mpr (SimpleGraph.Reachable.refl q))
  rw [hentry]
  refine ⟨(hsome _).mp hreach, hlt, fun r hr => hmin r ((hsome r).mpr hr) ?_⟩
  obtain ⟨w⟩ := hr
  exact lt_of_walk hvalid w hq r w.end_mem_support

/-- Two qubits have the same entry exactly when they are connected. -/
theorem getD_components_eq_iff (hvalid : EdgesValid size edges) {a b : Nat} (ha : a < size)
    (hb : b < size) (default : Nat) :
    (ofEdges size edges).components.getD a default =
        (ofEdges size edges).components.getD b default ↔
      (edgeGraph edges).Reachable a b := by
  obtain ⟨hreach, -, hmin⟩ := getD_components_spec hvalid ha default
  obtain ⟨hreach', -, hmin'⟩ := getD_components_spec hvalid hb default
  constructor
  · intro h
    rw [← h] at hreach'
    exact hreach.trans hreach'.symm
  · intro h
    exact le_antisymm (hmin _ (h.trans hreach')) (hmin' _ (h.symm.trans hreach))

end Spread

end Tables

/-! ## Coupling maps -/

namespace CouplingMap

/-- The graph of a coupling map. -/
def graph (m : CouplingMap) : SimpleGraph ℕ := edgeGraph m.edges

variable {m : CouplingMap} {a b : Nat}

theorem valid (m : CouplingMap) : EdgesValid m.size m.edges := fun e he =>
  Edge.error?_eq_none_iff.mp (m.edges_valid e he)

theorem graph_adj : m.graph.Adj a b ↔ (a, b) ∈ m.edges ∨ (b, a) ∈ m.edges :=
  edgeGraph_adj m.valid

theorem lt_size_of_adj (h : m.graph.Adj a b) : a < m.size ∧ b < m.size := lt_of_adj m.valid h

theorem lt_size_of_reachable (ha : a < m.size) (h : m.graph.Reachable a b) : b < m.size := by
  obtain ⟨w⟩ := h
  exact lt_of_walk m.valid w ha b w.end_mem_support

theorem mem_neighbours : b ∈ m.neighbours a ↔ m.graph.Adj a b := by
  rw [neighbours, m.tables_eq]
  exact Tables.mem_neighbours m.valid

/-- The table of distances holds the distances of the graph. -/
theorem distance?_eq_some_iff {k : Nat} :
    m.distance? a b = some k ↔ a < m.size ∧ m.graph.edist a b = k := by
  rw [distance?, m.tables_eq]
  exact Tables.getD_distances_eq_some_iff m.valid

/-- There is a distance exactly when there is a path. -/
theorem isSome_distance?_iff (ha : a < m.size) :
    (m.distance? a b).isSome = true ↔ m.graph.Reachable a b := by
  rw [Option.isSome_iff_exists, ← SimpleGraph.edist_ne_top_iff_reachable]
  constructor
  · rintro ⟨k, hk⟩
    rw [(distance?_eq_some_iff.mp hk).2]
    exact ENat.natCast_ne_top k
  · intro h
    exact ⟨_, distance?_eq_some_iff.mpr ⟨ha, (ENat.natCast_toNat h).symm⟩⟩

theorem adjacent_iff : m.adjacent a b = true ↔ m.graph.Adj a b := by
  rw [adjacent, beq_iff_eq, distance?_eq_some_iff, ← SimpleGraph.edist_eq_one_iff_adj]
  refine ⟨fun h => by exact_mod_cast h.2, fun h => ⟨?_, by exact_mod_cast h⟩⟩
  exact (lt_size_of_adj (SimpleGraph.edist_eq_one_iff_adj.mp h)).1

/-! ## Regions -/

/-- Qubits have the same component exactly when there is a path. -/
theorem component_eq_iff (ha : a < m.size) (hb : b < m.size) :
    m.component a = m.component b ↔ m.graph.Reachable a b := by
  rw [component, component, m.tables_eq]
  exact Tables.getD_components_eq_iff m.valid ha hb _

theorem connected_iff (ha : a < m.size) (hb : b < m.size) :
    m.connected a b = true ↔ m.graph.Reachable a b := by
  rw [connected, beq_iff_eq, component_eq_iff ha hb]

/-- A component is known by its smallest qubit. -/
theorem isLeast_component (ha : a < m.size) :
    IsLeast {b | m.graph.Reachable a b} (m.component a) := by
  have hspec := Tables.getD_components_spec m.valid ha m.size
  rw [← m.tables_eq] at hspec
  exact ⟨hspec.1, fun b hb => hspec.2.2 b hb⟩

/-- What a connected component is. -/
structure IsRegion (m : CouplingMap) (region : List Nat) : Prop where
  nodup : region.Nodup
  lt : ∀ p ∈ region, p < m.size
  closed : ∀ p ∈ region, ∀ q, m.graph.Reachable p q → q ∈ region
  connected : ∀ p ∈ region, ∀ q ∈ region, m.graph.Reachable p q

theorem isRegion {region : List Nat} (h : region ∈ m.components) : m.IsRegion region := by
  obtain ⟨first, -, rfl⟩ := List.mem_map.mp h
  have hmem {p : Nat} : p ∈ (List.range m.size).filter (m.component · == first) ↔
      p < m.size ∧ m.component p = first := by simp
  refine ⟨List.nodup_range.filter _, fun p hp => (hmem.mp hp).1, ?_, ?_⟩
  · intro p hp q hreach
    obtain ⟨hlt, hp⟩ := hmem.mp hp
    have hq := lt_size_of_reachable hlt hreach
    exact hmem.mpr ⟨hq, (component_eq_iff hlt hq).mpr hreach ▸ hp⟩
  · intro p hp q hq
    obtain ⟨hplt, hp⟩ := hmem.mp hp
    obtain ⟨hqlt, hq⟩ := hmem.mp hq
    exact (component_eq_iff hplt hqlt).mp (hp.trans hq.symm)

/-- No qubit is in two regions. -/
theorem components_disjoint (m : CouplingMap) : m.components.Pairwise List.Disjoint := by
  refine List.pairwise_map.mpr ((List.nodup_range.filter _).imp fun {r s} hne => ?_)
  intro q hr hs
  have hr : m.component q = r := by simpa using (List.mem_filter.mp hr).2
  have hs : m.component q = s := by simpa using (List.mem_filter.mp hs).2
  exact hne (hr.symm.trans hs)

theorem disjoint_getD_components (m : CouplingMap) {i j : Nat} (h : i ≠ j) :
    List.Disjoint (m.components.getD i []) (m.components.getD j []) := by
  have hpairs := List.pairwise_iff_getElem.mp m.components_disjoint
  by_cases hi : i < m.components.length
  · by_cases hj : j < m.components.length
    · rw [List.getD_eq_getElem _ _ hi, List.getD_eq_getElem _ _ hj]
      rcases Nat.lt_or_gt_of_ne h with hlt | hlt
      · exact hpairs i j hi hj hlt
      · exact (hpairs j i hj hi hlt).symm
    · rw [List.getD_eq_default _ _ (Nat.not_lt.mp hj)]
      exact List.disjoint_nil_right _
  · rw [List.getD_eq_default _ _ (Nat.not_lt.mp hi)]
    exact List.disjoint_nil_left _

theorem exists_region (ha : a < m.size) : ∃ region ∈ m.components, a ∈ region := by
  have hreach : m.graph.Reachable a (m.component a) := (isLeast_component ha).1
  have hlt := lt_size_of_reachable ha hreach
  have hroot : m.component (m.component a) = m.component a :=
    ((component_eq_iff ha hlt).mpr hreach).symm
  refine ⟨(List.range m.size).filter (m.component · == m.component a), ?_, by simpa using ha⟩
  refine List.mem_map.mpr ⟨m.component a, List.mem_filter.mpr ⟨?_, by simpa using hroot⟩, rfl⟩
  exact List.mem_range.mpr hlt

/-! ## Shortest paths -/

/-- A path on which every step goes to a coupled qubit that is one step closer
to the target. -/
inductive Descent (m : CouplingMap) (target : Nat) : Nat → List Nat → Prop where
  | arrive : Descent m target 0 [target]
  | step {k q r : Nat} {rest : List Nat} (hadj : m.graph.Adj q r)
      (hdist : m.graph.edist q target = (k + 1 : Nat)) (tail : Descent m target k (r :: rest)) :
      Descent m target (k + 1) (q :: r :: rest)

theorem neighbours_sorted (m : CouplingMap) (q : Nat) : (m.neighbours q).Pairwise (· ≤ ·) := by
  rw [neighbours, m.tables_eq, Tables.getD_neighbours]
  split_ifs
  · exact List.pairwise_mergeSort' _ _
  · exact .nil

/-- A qubit away from the target has a neighbour that is one step closer, and the
smallest of them is found. -/
theorem exists_closer {target k q : Nat} (h : m.distance? q target = some (k + 1)) :
    ∃ r, ((m.neighbours q).find? fun r => m.distance? r target == some k) = some r ∧
      m.graph.Adj q r ∧ m.distance? r target = some k ∧
      ∀ s, m.graph.Adj q s → m.distance? s target = some k → r ≤ s := by
  cases hfind : (m.neighbours q).find? fun r => m.distance? r target == some k with
  | some r =>
    refine ⟨r, rfl, mem_neighbours.mp (List.mem_of_find?_eq_some hfind), ?_, fun s hadj hs => ?_⟩
    · have := List.find?_some hfind
      simpa using this
    · exact Tables.le_of_find?_eq_some (m.neighbours_sorted q) hfind s (mem_neighbours.mpr hadj)
        (by simp [hs])
  | none =>
    -- The graph has a neighbour one step closer, and the search would have found it.
    exfalso
    have hdist := (distance?_eq_some_iff.mp h).2
    rw [SimpleGraph.edist_comm] at hdist
    obtain ⟨⟨r, hr, hadj⟩, -⟩ := edist_eq_succ_iff.mp hdist
    rw [SimpleGraph.edist_comm] at hr
    have hnot := List.find?_eq_none.mp hfind r (mem_neighbours.mpr hadj.symm)
    rw [distance?_eq_some_iff.mpr ⟨(lt_size_of_adj hadj).1, hr⟩] at hnot
    simp at hnot

/-- A walk as long as the distance descends to the target. -/
theorem walk_descent {target k q : Nat} (h : m.distance? q target = some k) :
    ∃ rest, m.walk target k q = q :: rest ∧ m.Descent target k (q :: rest) := by
  induction k generalizing q with
  | zero =>
    have hq : q = target := SimpleGraph.edist_eq_zero_iff.mp (by
      exact_mod_cast (distance?_eq_some_iff.mp h).2)
    rw [walk, hq]
    exact ⟨[], rfl, .arrive⟩
  | succ k ih =>
    obtain ⟨r, hfind, hadj, hr, -⟩ := exists_closer h
    obtain ⟨rest, hwalk, hdescent⟩ := ih hr
    rw [walk, hfind]
    exact ⟨r :: rest, by rw [← hwalk], .step hadj (distance?_eq_some_iff.mp h).2 hdescent⟩

/-- A path is found exactly when there is a distance, and it descends. -/
theorem shortestPath?_eq_some {path : List Nat} (h : m.shortestPath? a b = some path) :
    ∃ k, m.distance? a b = some k ∧ ∃ rest, path = a :: rest ∧ m.Descent b k path := by
  rw [shortestPath?, Option.map_eq_some_iff] at h
  obtain ⟨k, hk, rfl⟩ := h
  obtain ⟨rest, hwalk, hdescent⟩ := walk_descent hk
  exact ⟨k, hk, rest, hwalk, hwalk ▸ hdescent⟩

end CouplingMap

end QuantumCompiler
