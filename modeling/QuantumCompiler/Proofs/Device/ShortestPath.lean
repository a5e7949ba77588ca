import QuantumCompiler.Proofs.Device.Paths

/-!
# The smallest shortest path

A path between two qubits is walked step by step: while the target is not
reached, the walk goes to the smallest neighbour that is one step closer.
`Course` is this loop, with the qubits that it visits.  A course is finite, so
that there is one says that the loop ends; it does because a connected qubit
always has a neighbour that is one step closer (`course_walk`).

On a path as long as the distance, the second qubit is one step closer as well
(`distance?_of_edgePath`), hence among those that the walk takes the
smallest of.  By induction on the distance no such path is smaller than the walk
(`walk_le`).
-/

namespace QuantumCompiler

variable {edges : List Edge} {p q target : Nat} {rest : List Nat}

/-- The rest of a path is a path from the second qubit. -/
theorem EdgePath.tail (h : EdgePath edges p target (p :: q :: rest)) :
    EdgePath edges q target (q :: rest) :=
  ⟨rfl, by rw [← h.last, List.getLast?_cons_cons], h.steps.of_cons⟩

namespace CouplingMap

variable {m : CouplingMap} {a b k : Nat} {path : List Nat}

/-! ## The loop -/

/-- The smallest neighbour that is one step closer to a target. -/
def closer? (m : CouplingMap) (target q : Nat) : Option Nat :=
  (m.distance? q target).bind fun d =>
    (m.neighbours q).find? fun r => m.distance? r target == some (d - 1)

/-- The rounds of the walk to a target, with the qubits that it visits.  A round
stays where it is if no neighbour is closer. -/
inductive Course (m : CouplingMap) (target : Nat) : Nat → List Nat → Prop where
  | arrived : Course m target target [target]
  | round {q : Nat} {rest : List Nat} (away : q ≠ target)
      (further : Course m target ((m.closer? target q).getD q) rest) :
    Course m target q (q :: rest)

/-- The loop ends after as many rounds as the distance. -/
theorem course_walk (h : m.distance? q target = some k) :
    m.Course target q (m.walk target k q) := by
  induction k generalizing q with
  | zero =>
    obtain ⟨rest, hwalk, hdescent⟩ := walk_descent h
    cases hdescent
    rw [hwalk]
    exact .arrived
  | succ k ih =>
    obtain ⟨r, hfind, -, hr, -⟩ := exists_closer h
    have hcloser : m.closer? target q = some r := by
      rw [closer?, h, Option.bind_some, Nat.add_sub_cancel, hfind]
    have haway : q ≠ target := by
      rintro rfl
      have hself := (distance?_eq_some_iff.mp h).2
      rw [SimpleGraph.edist_self] at hself
      exact Nat.succ_ne_zero k (by exact_mod_cast hself.symm)
    rw [walk, hfind]
    exact .round haway (by rw [hcloser]; exact ih hr)

/-! ## What a descent visits -/

/-- No qubit of a descent is farther away than its first one. -/
theorem Descent.edist_le (h : m.Descent target k path) :
    ∀ p ∈ path, m.graph.edist p target ≤ k := by
  induction h with
  | arrive => simp
  | @step k q r rest _ hdist _ ih =>
    rw [List.forall_mem_cons]
    exact ⟨hdist.le, fun p hp => (ih p hp).trans (by exact_mod_cast Nat.le_succ k)⟩

theorem Descent.nodup (h : m.Descent target k path) : path.Nodup := by
  induction h with
  | arrive => exact List.nodup_singleton _
  | @step k q r rest _ hdist tail ih =>
    refine List.nodup_cons.mpr ⟨fun hmem => ?_, ih⟩
    have hle := tail.edist_le q hmem
    rw [hdist] at hle
    exact Nat.not_succ_le_self k (by exact_mod_cast hle)

theorem Descent.edgePath (h : m.Descent target k (q :: rest)) :
    EdgePath m.edges q target (q :: rest) ∧ (q :: rest).length = k + 1 := by
  induction k generalizing q rest with
  | zero =>
    cases h
    exact ⟨⟨rfl, rfl, .singleton _⟩, rfl⟩
  | succ k ih =>
    cases h with
    | @step _ _ r rest hadj _ tail =>
      obtain ⟨hpath, hlength⟩ := ih tail
      refine ⟨⟨rfl, ?_, hpath.steps.cons_cons (graph_adj.mp hadj)⟩,
        by rw [List.length_cons, hlength]⟩
      rw [List.getLast?_cons_cons]
      exact hpath.last

/-! ## Paths as long as the distance -/

/-- On a path as long as the distance the second qubit is one step closer. -/
theorem distance?_of_edgePath (h : m.distance? p target = some (k + 1))
    (hpath : EdgePath m.edges p target (p :: q :: rest)) (hlength : (q :: rest).length = k + 1) :
    m.graph.Adj p q ∧ m.distance? q target = some k := by
  have hadj : m.graph.Adj p q := graph_adj.mpr hpath.steps.rel
  have hreach : m.graph.Reachable q target := (exists_edgePath_iff m.valid).mp ⟨_, hpath.tail⟩
  obtain ⟨w, hw⟩ := hreach.exists_walk_length_eq_edist
  have hle : w.length < k + 1 := hlength ▸ hpath.tail.edist_lt_length m.valid hw.symm
  have hge : k + 1 ≤ w.length + 1 := by
    have hdist := (distance?_eq_some_iff.mp h).2
    have := SimpleGraph.edist_le (w.cons hadj)
    rw [hdist, SimpleGraph.Walk.length_cons] at this
    exact_mod_cast this
  refine ⟨hadj, distance?_eq_some_iff.mpr ⟨(lt_size_of_adj hadj).2, ?_⟩⟩
  rw [← hw, show w.length = k by omega]

/-- No path as long as the distance comes before the walk. -/
theorem walk_le (h : m.distance? q target = some k) {other : List Nat}
    (hother : EdgePath m.edges q target other) (hlength : other.length = k + 1) :
    m.walk target k q ≤ other := by
  induction k generalizing q other with
  | zero =>
    obtain ⟨p, rfl⟩ := List.length_eq_one_iff.mp hlength
    cases hother.head
    exact le_refl _
  | succ k ih =>
    obtain ⟨r, hfind, -, hr, hleast⟩ := exists_closer h
    rcases other with _ | ⟨p, _ | ⟨s, rest⟩⟩
    · cases hlength
    · cases hlength
    · cases hother.head
      obtain ⟨hadj, hs⟩ := distance?_of_edgePath h hother (Nat.succ.inj hlength)
      rw [walk, hfind]
      refine List.cons_le_cons q ?_
      -- Both paths go on one step closer, and the walk to the smallest qubit there.
      rcases Nat.lt_or_eq_of_le (hleast s hadj hs) with hlt | rfl
      · obtain ⟨rest', hwalk, -⟩ := walk_descent hr
        rw [hwalk]
        exact le_of_lt (List.Lex.rel hlt)
      · exact ih hr hother.tail (Nat.succ.inj hlength)

/-- Between qubits that are not connected there is no path.  Between connected
ones the walk ends, and it visits the qubits of the path that is returned: one more
than the distance, all different, each coupled with the next one.  No other path of
that length comes before it. -/
theorem shortestPath?_isLeast (m : CouplingMap) {a b : Nat} (ha : a < m.size) (hb : b < m.size) :
    (m.connected a b = false → m.shortestPath? a b = none) ∧
    (m.connected a b = true →
      ∃ k path, m.distance? a b = some k ∧ m.shortestPath? a b = some path ∧
      m.Course b a path ∧ path.Nodup ∧ (path.IsChain fun p q => m.adjacent p q = true) ∧
      IsLeast {other | EdgePath m.edges a b other ∧ other.length = k + 1} path) := by
  have hconnected : m.connected a b = true ↔ (m.distance? a b).isSome = true := by
    rw [connected_iff ha hb, isSome_distance?_iff ha]
  constructor
  · intro hnot
    have hnone : m.distance? a b = none := by
      rw [← Option.isNone_iff_eq_none, ← Option.isSome_eq_false_iff, ← Bool.not_eq_true,
        ← hconnected, hnot]
      exact Bool.false_ne_true
    rw [shortestPath?, hnone]
    rfl
  · intro hyes
    obtain ⟨k, hk⟩ := Option.isSome_iff_exists.mp (hconnected.mp hyes)
    obtain ⟨rest, hwalk, hdescent⟩ := walk_descent hk
    obtain ⟨hpath, hlength⟩ := hdescent.edgePath
    refine ⟨k, a :: rest, hk, by rw [shortestPath?, hk, Option.map_some, hwalk], ?_,
      hdescent.nodup, hpath.steps.imp fun p q hstep =>
        adjacent_iff.mpr (graph_adj.mpr hstep), ⟨hpath, hlength⟩, ?_⟩
    · exact hwalk ▸ course_walk hk
    · rintro other ⟨hother, hlength'⟩
      exact hwalk ▸ walk_le hk hother hlength'

/-- Four qubits in a ring, and one apart. -/
def ringAndOne : CouplingMap where
  size := 5
  edges := [(3, 1), (2, 0), (0, 1), (3, 2)]
  tables := Tables.ofEdges 5 [(3, 1), (2, 0), (0, 1), (3, 2)]
  edges_valid := by decide
  edges_distinct := by decide
  tables_eq := rfl

/-- There are two ways around half of the ring, and none to the qubit apart. -/
theorem shortestPath?_ringAndOne :
    (ringAndOne.connected 0 4 = false ∧ ringAndOne.shortestPath? 0 4 = none) ∧
      ringAndOne.connected 0 3 = true ∧ ringAndOne.shortestPath? 0 3 = some [0, 1, 3] ∧
      IsLeast {other | EdgePath ringAndOne.edges 0 3 other ∧ other.length = 3} [0, 1, 3] := by
  have hapart : ringAndOne.connected 0 4 = false := by cbv
  have hring : ringAndOne.connected 0 3 = true := by cbv
  have hdistance : ringAndOne.distance? 0 3 = some 2 := by cbv
  have hpath : ringAndOne.shortestPath? 0 3 = some [0, 1, 3] := by cbv
  refine ⟨⟨hapart, (shortestPath?_isLeast ringAndOne (by decide) (by decide)).1 hapart⟩, hring,
    hpath, ?_⟩
  obtain ⟨k, path, hk, hpath', -, -, -, hleast⟩ :=
    (shortestPath?_isLeast ringAndOne (by decide) (by decide)).2 hring
  rw [hdistance] at hk
  rw [hpath] at hpath'
  cases hk
  cases hpath'
  exact hleast

end CouplingMap

end QuantumCompiler
