import QuantumCompiler.Proofs.Device.Distance

/-!
# Paths over the edges of a coupling map

The tables of a coupling map are about the edges that were given, repeated and
reversed ones included.  This module states them in terms of paths: `EdgePath`
is a list of qubits each of which is joined with the next one by an edge in
either direction.

* Paths are the walks on the graph of the edges (`edgePath_support`,
  `EdgePath.exists_walk`), so distances are lengths of shortest paths
  (`edist_eq_iff_shortest`).
* Leaving repeated edges out changes no path (`edgeGraph_keepFirst`), and what is
  left are the edges that repeat none before them (`keepFirst_eq`).
* `CouplingMap.ofEdges_represents` collects what the tables hold.
-/

namespace QuantumCompiler

variable {size a b : Nat} {edges : List Edge} {path : List Nat}

/-! ## Paths and walks -/

/-- A path over edges from one qubit to another.  Every qubit is joined with the
next one by an edge in either direction. -/
structure EdgePath (edges : List Edge) (a b : Nat) (path : List Nat) : Prop where
  head : path.head? = some a
  last : path.getLast? = some b
  steps : path.IsChain fun p q => (p, q) ∈ edges ∨ (q, p) ∈ edges

/-- The qubits on a walk are a path. -/
theorem edgePath_support (hvalid : EdgesValid size edges) (w : (edgeGraph edges).Walk a b) :
    EdgePath edges a b w.support where
  head := by rw [List.head?_eq_some_head w.support_ne_nil, w.head_support]
  last := by rw [List.getLast?_eq_some_getLast w.support_ne_nil, w.getLast_support]
  steps := w.isChain_adj_support.imp fun _ _ h => (edgeGraph_adj hvalid).mp h

/-- A path is walked on the graph. -/
theorem EdgePath.exists_walk (hvalid : EdgesValid size edges) (h : EdgePath edges a b path) :
    ∃ w : (edgeGraph edges).Walk a b, w.support = path := by
  have hne : path ≠ [] := by
    rintro rfl
    cases h.head
  have hchain : path.IsChain (edgeGraph edges).Adj :=
    h.steps.imp fun _ _ hstep => (edgeGraph_adj hvalid).mpr hstep
  have hhead : path.head hne = a := by
    have := h.head
    rwa [List.head?_eq_some_head hne, Option.some.injEq] at this
  have hlast : path.getLast hne = b := by
    have := h.last
    rwa [List.getLast?_eq_some_getLast hne, Option.some.injEq] at this
  refine ⟨(SimpleGraph.Walk.ofSupport path hne hchain).copy hhead hlast, ?_⟩
  rw [SimpleGraph.Walk.support_copy, SimpleGraph.Walk.support_ofSupport]

/-- There is a path exactly between connected vertices. -/
theorem exists_edgePath_iff (hvalid : EdgesValid size edges) :
    (∃ path, EdgePath edges a b path) ↔ (edgeGraph edges).Reachable a b := by
  constructor
  · rintro ⟨path, hpath⟩
    obtain ⟨w, -⟩ := hpath.exists_walk hvalid
    exact ⟨w⟩
  · rintro ⟨w⟩
    exact ⟨_, edgePath_support hvalid w⟩

/-- A path has one qubit more than steps, and at least as many steps as the
distance of its ends. -/
theorem EdgePath.edist_lt_length (hvalid : EdgesValid size edges) (h : EdgePath edges a b path)
    {k : Nat} (hk : (edgeGraph edges).edist a b = k) : k < path.length := by
  obtain ⟨w, rfl⟩ := h.exists_walk hvalid
  have hle : (k : ℕ∞) ≤ w.length := hk ▸ SimpleGraph.edist_le w
  rw [SimpleGraph.Walk.length_support]
  exact Nat.lt_succ_of_le (by exact_mod_cast hle)

/-- The distance is the number of steps of a shortest path. -/
theorem edist_eq_iff_shortest (hvalid : EdgesValid size edges) {k : Nat} :
    (edgeGraph edges).edist a b = k ↔
      (∃ path, EdgePath edges a b path ∧ path.length = k + 1) ∧
        ∀ path, EdgePath edges a b path → k + 1 ≤ path.length := by
  constructor
  · intro hk
    obtain ⟨w, hw⟩ := SimpleGraph.exists_walk_of_edist_eq_coe hk
    exact ⟨⟨w.support, edgePath_support hvalid w, by rw [w.length_support, hw]⟩,
      fun path hpath => hpath.edist_lt_length hvalid hk⟩
  · rintro ⟨⟨path, hpath, hlength⟩, hleast⟩
    obtain ⟨w, rfl⟩ := hpath.exists_walk hvalid
    obtain ⟨w', hw'⟩ := SimpleGraph.Reachable.exists_walk_length_eq_edist ⟨w⟩
    have hle := hleast _ (edgePath_support hvalid w')
    have hge : (w'.length : ℕ∞) ≤ w.length := hw' ▸ SimpleGraph.edist_le w
    have hge' : w'.length ≤ w.length := by exact_mod_cast hge
    rw [SimpleGraph.Walk.length_support] at hlength hle
    rw [← hw', show w'.length = k by omega]

/-! ## Repeated edges -/

theorem Edge.same_iff {e f : Edge} : e.same f = true ↔ e = f ∨ e = (f.2, f.1) := by
  simp [Edge.same]

/-- The edges that are kept join the same qubits as all edges. -/
theorem mem_keepFirst_or :
    (a, b) ∈ Edge.keepFirst edges ∨ (b, a) ∈ Edge.keepFirst edges ↔
      (a, b) ∈ edges ∨ (b, a) ∈ edges := by
  refine ⟨Or.imp Edge.mem_of_mem_keepFirst Edge.mem_of_mem_keepFirst, fun h => ?_⟩
  induction edges with
  | nil => exact h
  | cons e rest ih =>
    by_cases he : e = (a, b) ∨ e = (b, a)
    · rw [Edge.keepFirst]
      rcases he with rfl | rfl
      · exact .inl List.mem_cons_self
      · exact .inr List.mem_cons_self
    · rw [not_or] at he
      have hrest : (a, b) ∈ rest ∨ (b, a) ∈ rest :=
        h.imp (fun h => List.mem_of_ne_of_mem (Ne.symm he.1) h)
          fun h => List.mem_of_ne_of_mem (Ne.symm he.2) h
      have hnew {f : Edge} (hf : f = (a, b) ∨ f = (b, a)) : (!e.same f) = true := by
        rw [Bool.not_eq_true', ← Bool.not_eq_true, Edge.same_iff]
        rcases hf with rfl | rfl
        · exact fun h => h.elim he.1 he.2
        · exact fun h => h.elim he.2 he.1
      rw [Edge.keepFirst]
      exact (ih hrest).imp
        (fun h => List.mem_cons_of_mem _ (List.mem_filter.mpr ⟨h, hnew (.inl rfl)⟩))
        fun h => List.mem_cons_of_mem _ (List.mem_filter.mpr ⟨h, hnew (.inr rfl)⟩)

theorem edgeGraph_keepFirst : edgeGraph (Edge.keepFirst edges) = edgeGraph edges := by
  ext a b
  rw [edgeGraph, edgeGraph, SimpleGraph.fromRel_adj, SimpleGraph.fromRel_adj, mem_keepFirst_or]

/-- Of edges behind others those are kept that repeat none of the others. -/
theorem keepFirst_filter (seen edges : List Edge) :
    (Edge.keepFirst edges).filter (fun e => seen.all fun f => !f.same e) =
      ((edges.zipIdx seen.length).filter fun x =>
        ((seen ++ edges).take x.2).all fun f => !f.same x.1).map Prod.fst := by
  induction edges generalizing seen with
  | nil => rfl
  | cons e rest ih =>
    -- For the edges behind `e` it is one of those already seen.
    have hrest := ih (seen ++ [e])
    rw [List.length_append, List.length_singleton, List.append_assoc,
      List.singleton_append] at hrest
    have htail : ((Edge.keepFirst rest).filter (!e.same ·)).filter
        (fun e' => seen.all fun f => !f.same e') =
          (Edge.keepFirst rest).filter fun e' => (seen ++ [e]).all fun f => !f.same e' := by
      rw [List.filter_filter]
      simp [List.all_append]
    have hfront : (seen ++ e :: rest).take seen.length = seen := List.take_left
    rw [Edge.keepFirst, List.zipIdx_cons, List.filter_cons, List.filter_cons, htail, hrest]
    simp only [hfront]
    split_ifs
    · rfl
    · rfl

/-- An edge is kept exactly if none before it joins the same qubits. -/
theorem keepFirst_eq (edges : List Edge) :
    Edge.keepFirst edges =
      (edges.zipIdx.filter fun x => (edges.take x.2).all fun f => !f.same x.1).map Prod.fst := by
  have h := keepFirst_filter [] edges
  simpa using h

/-! ## What the tables hold -/

namespace CouplingMap

variable {m : CouplingMap}

theorem edges_of_ofEdges (h : ofEdges size edges = .ok m) : m.edges = Edge.keepFirst edges := by
  unfold ofEdges at h
  split at h
  · cases h
  · cases h; rfl

/-- Edges that make a coupling map join two different qubits each. -/
theorem valid_of_ofEdges (h : ofEdges size edges = .ok m) : EdgesValid size edges := by
  unfold ofEdges at h
  split at h
  · cases h
  · next hnone =>
    exact fun e he => Edge.error?_eq_none_iff.mp (List.findSome?_eq_none_iff.mp hnone e he)

/-- Edges that join two different qubits each make a coupling map. -/
theorem exists_ofEdges (h : EdgesValid size edges) : ∃ m, ofEdges size edges = .ok m := by
  have hnone : edges.findSome? (Edge.error? size) = none :=
    List.findSome?_eq_none_iff.mpr fun e he => Edge.error?_eq_none_iff.mpr (h e he)
  unfold ofEdges
  split
  · next hsome =>
    rw [hnone] at hsome
    cases hsome
  · exact ⟨_, rfl⟩

theorem graph_of_ofEdges (h : ofEdges size edges = .ok m) : m.graph = edgeGraph edges := by
  rw [graph, edges_of_ofEdges h, edgeGraph_keepFirst]

/-- The components hold every qubit once. -/
theorem flatten_components_perm (m : CouplingMap) :
    m.components.flatten.Perm (List.range m.size) := by
  have hnodup : m.components.flatten.Nodup :=
    List.nodup_flatten.mpr ⟨fun _ hregion => (isRegion hregion).nodup, m.components_disjoint⟩
  refine (List.perm_ext_iff_of_nodup hnodup List.nodup_range).mpr fun q => ?_
  rw [List.mem_flatten, List.mem_range]
  constructor
  · rintro ⟨region, hregion, hq⟩
    exact (isRegion hregion).lt q hq
  · intro hq
    exact exists_region hq

theorem components_sorted {region : List Nat} (h : region ∈ m.components) :
    region.Pairwise (· < ·) := by
  obtain ⟨first, -, rfl⟩ := List.mem_map.mp h
  exact List.pairwise_lt_range.filter _

/-- Where every qubit is connected with the first one there is one component. -/
theorem components_eq_singleton (hpos : 0 < m.size) (h : ∀ q < m.size, m.graph.Reachable q 0) :
    m.components = [List.range m.size] := by
  have hfirst : ∀ q < m.size, m.component q = 0 := fun q hq =>
    Nat.le_zero.mp ((isLeast_component hq).2 (h q hq))
  have hroots : ((List.range m.size).filter fun q => m.component q == q) = [0] := by
    obtain ⟨n, hn⟩ := Nat.exists_eq_add_one.mpr hpos
    rw [hn, List.range_succ_eq_map, List.filter_cons_of_pos (by simp [hfirst 0 hpos]),
      List.filter_eq_nil_iff.mpr]
    intro q hq
    obtain ⟨k, hk, rfl⟩ := List.mem_map.mp hq
    have hlt : k + 1 < m.size := by
      rw [hn]
      exact Nat.succ_lt_succ (List.mem_range.mp hk)
    simp [hfirst (k + 1) hlt]
  have hall : (List.range m.size).filter (m.component · == 0) = List.range m.size :=
    List.filter_eq_self.mpr fun q hq => by simp [hfirst q (List.mem_range.mp hq)]
  rw [components, hroots, List.map_singleton, hall]

/-- A component starts with the qubit that it is known by. -/
theorem map_head?_components (m : CouplingMap) :
    m.components.map List.head? =
      ((List.range m.size).filter fun q => m.component q == q).map some := by
  rw [components, List.map_map]
  refine List.map_congr_left fun first hfirst => ?_
  obtain ⟨hlt, hroot⟩ := List.mem_filter.mp hfirst
  rw [Function.comp_apply, List.head?_filter, List.find?_range_eq_some]
  refine ⟨hroot, hlt, fun q hq => ?_⟩
  have hle := (isLeast_component (Nat.lt_trans hq (List.mem_range.mp hlt))).2
    (SimpleGraph.Reachable.refl q)
  have hne : m.component q ≠ first := by omega
  simp [hne]

/-- What the tables of a coupling map hold, said of the edges that were given. -/
structure Represents (m : CouplingMap) (n : Nat) (edges : List Edge) : Prop where
  /-- A distance is the number of steps of a shortest path. -/
  distance : ∀ a < n, ∀ b < n, ∀ k, m.distance? a b = some k ↔
    (∃ path, EdgePath edges a b path ∧ path.length = k + 1) ∧
      ∀ path, EdgePath edges a b path → k + 1 ≤ path.length
  /-- There is no distance exactly if there is no path. -/
  unreachable : ∀ a < n, ∀ b < n, m.distance? a b = none ↔ ¬ ∃ path, EdgePath edges a b path
  /-- Qubits are coupled exactly if there is an edge in either direction. -/
  adjacent : ∀ a < n, ∀ b < n, m.adjacent a b = true ↔ (a, b) ∈ edges ∨ (b, a) ∈ edges
  /-- Qubits are connected exactly if there is a path. -/
  connected : ∀ a < n, ∀ b < n, m.connected a b = true ↔ ∃ path, EdgePath edges a b path
  /-- A component is known by the smallest qubit that there is a path to. -/
  component : ∀ q < n, IsLeast {r | ∃ path, EdgePath edges q r path} (m.component q)
  /-- The components hold every qubit once. -/
  partition : m.components.flatten.Perm (List.range n)
  /-- A component is not empty, and holds what there are paths to from its qubits. -/
  region : ∀ group ∈ m.components, group ≠ [] ∧
    ∀ q ∈ group, ∀ r, r ∈ group ↔ ∃ path, EdgePath edges q r path
  /-- A component is in ascending order. -/
  ascending : ∀ group ∈ m.components, group.Pairwise (· < ·)
  /-- Components are ordered by their smallest qubits, which come first in them. -/
  ordered : (m.components.map List.head?).Pairwise (· < ·)
  /-- An edge is kept exactly if none before it joins the same qubits. -/
  firsts : m.edges =
    (edges.zipIdx.filter fun x => (edges.take x.2).all fun f => !f.same x.1).map Prod.fst

/-- The tables of a coupling map hold the distances and the connected components
of the edges that it was made of. -/
theorem ofEdges_represents (h : ofEdges size edges = .ok m) : m.Represents size edges := by
  have hvalid := valid_of_ofEdges h
  have hgraph := graph_of_ofEdges h
  have hpath (p q : Nat) : (∃ path, EdgePath edges p q path) ↔ m.graph.Reachable p q := by
    rw [hgraph]
    exact exists_edgePath_iff hvalid
  obtain rfl := size_of_ofEdges h
  refine
    { distance := fun a ha b _ k => ?_
      unreachable := fun a ha b _ => ?_
      adjacent := fun a _ b _ => ?_
      connected := fun a ha b hb => ?_
      component := fun q hq => ?_
      partition := m.flatten_components_perm
      region := fun group hgroup => ⟨?_, fun q hq r => ?_⟩
      ascending := fun group hgroup => components_sorted hgroup
      ordered := ?_
      firsts := (edges_of_ofEdges h).trans (keepFirst_eq edges) }
  · rw [distance?_eq_some_iff, hgraph, edist_eq_iff_shortest hvalid]
    exact and_iff_right ha
  · rw [hpath, ← isSome_distance?_iff ha, Bool.not_eq_true, Option.isSome_eq_false_iff,
      Option.isNone_iff_eq_none]
  · rw [adjacent_iff, hgraph, edgeGraph_adj hvalid]
  · rw [connected_iff ha hb, hpath]
  · simp only [hpath]
    exact isLeast_component hq
  · obtain ⟨first, hfirst, rfl⟩ := List.mem_map.mp hgroup
    obtain ⟨hlt, hroot⟩ := List.mem_filter.mp hfirst
    exact List.ne_nil_of_mem (List.mem_filter.mpr ⟨hlt, hroot⟩)
  · rw [hpath]
    exact ⟨(isRegion hgroup).connected q hq r, (isRegion hgroup).closed q hq r⟩
  · rw [map_head?_components, List.pairwise_map]
    exact (List.pairwise_lt_range.filter _).imp Option.some_lt_some.mpr

/-- Edges that are repeated, one of them reversed, and leave a qubit alone. -/
theorem ofEdges_repeated :
    ∃ m, ofEdges 6 [(1, 0), (1, 2), (0, 1), (5, 4), (1, 2)] = .ok m ∧
      m.Represents 6 [(1, 0), (1, 2), (0, 1), (5, 4), (1, 2)] :=
  ⟨_, rfl, ofEdges_represents rfl⟩

end CouplingMap

end QuantumCompiler
