import QuantumCompiler.Proofs.Layout.Checked

/-!
# Groups, regions and packing with every access checked

What precedes greedy placement: the partners of every qubit are collected from
the interactions, qubits that are connected by interactions are put into groups,
the physical qubits are split into regions, and groups are packed into regions.

* `graph_eq`: the interactions of a well-formed circuit name only its qubits.
* `labels_eq`: a search level by level reaches only qubits that exist, as
  long as edges name no others.  `groups_eq` and `regions_eq` follow.
* `pack_eq`: a region that is filled is one of the regions.
-/

namespace QuantumCompiler.Checked

variable {α : Type}

/-! ## Interactions -/

/-- Notes an interaction at both of its qubits. -/
def note (table : Array (List (Nat × Nat))) (e : Interaction) :
    Option (Array (List (Nat × Nat))) := do
  let table ← update table e.a (· ++ [(e.b, e.weight)])
  update table e.b (· ++ [(e.a, e.weight)])

/-- The interactions of a circuit. -/
def graph (c : Circuit α) : Option InteractionGraph := do
  let edges := (InteractionGraph.ofCircuit c).edges
  let partners ← edges.foldlM note (Array.replicate c.numQubits [])
  some { numQubits := c.numQubits, edges, partners }

/-! ## Connected qubits -/

/-- The numbers of a list that pass a test. -/
def sift (test : Nat → Option Bool) (xs : List Nat) : Option (List Nat) :=
  (readAll test xs).map fun found => (found.filter (·.2)).map (·.1)

/-- Gives a distance to a qubit that has none, and remembers the qubit. -/
def reach (d : Nat) (found : Array (Option Nat) × List Nat) (q : Nat) :
    Option (Array (Option Nat) × List Nat) := do
  let here ← found.1[q]?
  if here == none then (write found.1 q (some d)).map (·, q :: found.2) else some found

/-- Gives a distance to all neighbours of a qubit that have none. -/
def reachFrom (table : Array (List Nat)) (d : Nat) (found : Array (Option Nat) × List Nat)
    (q : Nat) :
    Option (Array (Option Nat) × List Nat) := do
  (← table[q]?).foldlM (reach d) found

/-- Gives the next distance to all neighbours of a level that have none, then
goes on from those. -/
def spread (table : Array (List Nat)) :
    Nat → Nat → List Nat → Array (Option Nat) → Option (Array (Option Nat))
  | 0, _, _, row => some row
  | fuel + 1, d, level, row => do
    let found ← level.foldlM (reachFrom table (d + 1)) (row, [])
    if found.2.isEmpty then some found.1 else spread table fuel (d + 1) found.2 found.1

/-- Distances from a qubit to all others. -/
def distancesFrom (size : Nat) (table : Array (List Nat)) (source : Nat) :
    Option (Array (Option Nat)) := do
  spread table size 0 [source] (← write (Array.replicate size none) source (some 0))

/-- The smallest qubit at a finite distance. -/
def firstReached (size : Nat) (row : Array (Option Nat)) : Option Nat :=
  (readAll (row[·]?) (List.range size)).map fun found =>
    ((found.find? (·.2.isSome)).map (·.1)).getD size

/-- The smallest qubit that is connected with each qubit. -/
def labels (size : Nat) (edges : List Edge) : Option (Array Nat) := do
  let table := ((List.range size).map (Tables.neighboursOf edges)).toArray
  let rows ← (List.range size).mapM (distancesFrom size table)
  (rows.mapM (firstReached size)).map List.toArray

/-- The qubits with each of a list of labels. -/
def classes (label : Array Nat) (size : Nat) (roots : List Nat) : Option (List (List Nat)) :=
  roots.mapM fun root => sift (fun q => label[q]?.map (· == root)) (List.range size)

/-- Whether a qubit with interactions has itself as its label. -/
def isRoot (g : InteractionGraph) (label : Array Nat) (q : Nat) : Option Bool := do
  let busy ← (partners g q).map (!·.isEmpty)
  let root ← label[q]?
  some (busy && root == q)

/-- The groups of qubits that are connected by interactions. -/
def groups (g : InteractionGraph) : Option (List (List Nat)) := do
  let label ← labels g.numQubits (g.edges.map Interaction.ends)
  let roots ← sift (isRoot g label) (List.range g.numQubits)
  let found ← classes label g.numQubits roots
  some (found.mergeSort fun s t => t.length ≤ s.length)

/-- The connected regions of a coupling map. -/
def regions (m : CouplingMap) : Option (List (List Nat)) := do
  let roots ← sift (fun q => m.tables.components[q]?.map (· == q)) (List.range m.size)
  classes m.tables.components m.size roots

/-! ## Packing -/

/-- The regions with enough room for a group, with their room. -/
def rooms (free : List Nat) (size : Nat) : Option (List (Nat × Nat)) :=
  (readAll (free[·]?) (List.range free.length)).map (·.filter (size ≤ ·.2))

/-- The room left after one group went into a region. -/
def fill (free : List Nat) (region size : Nat) : Option (List Nat) :=
  if region < free.length then some (Packing.fill free region size) else none

/-- A region for each group by best fit. -/
def bestFit : List Nat → List Nat → Option (Option (List Nat))
  | _, [] => some (some [])
  | free, size :: rest => do
    match firstMin? (·.2) (← rooms free size) with
    | none => some none
    | some x =>
      let more ← bestFit (← fill free x.1 size) rest
      some (more.map (x.1 :: ·))

/-- A region for each group, found by trying all ways. -/
def exhaustive : List Nat → List Nat → Option (Option (List Nat))
  | _, [] => some (some [])
  | free, size :: rest => do
    let fitting ← rooms free size
    (fitting.filter fun x => !(free.take x.1).contains x.2).findSomeM? fun x => do
      let more ← exhaustive (← fill free x.1 size) rest
      some (more.map (x.1 :: ·))

/-- A region for each group. -/
def pack (free sizes : List Nat) : Option (Option (List Nat)) := do
  match ← bestFit free sizes with
  | some targets => some (some targets)
  | none => exhaustive free sizes

/-! ## Interactions in range -/

/-- The table after an interaction is noted. -/
def noted (table : Array (List (Nat × Nat))) (e : Interaction) : Array (List (Nat × Nat)) :=
  (table.modify e.a (· ++ [(e.b, e.weight)])).modify e.b (· ++ [(e.a, e.weight)])

theorem getElem?_noted {table : Array (List (Nat × Nat))} {e : Interaction} (he : e.a ≠ e.b)
    (q : Nat) : (noted table e)[q]? = table[q]?.map (· ++ (e.other? q).toList) := by
  rw [noted, Array.getElem?_modify, Array.getElem?_modify, Interaction.other?]
  by_cases ha : e.a = q
  · have hb : e.b ≠ q := fun hb => he (ha.trans hb.symm)
    simp [ha, hb]
  · by_cases hb : e.b = q <;> simp [ha, hb]

theorem getElem?_foldl_noted {es : List Interaction} (hes : ∀ e ∈ es, e.a ≠ e.b)
    (table : Array (List (Nat × Nat))) (q : Nat) :
    (es.foldl noted table)[q]? = table[q]?.map (· ++ es.filterMap (·.other? q)) := by
  induction es generalizing table with
  | nil => simp
  | cons e rest ih =>
    obtain ⟨he, hrest⟩ := List.forall_mem_cons.mp hes
    rw [List.foldl_cons, ih hrest, getElem?_noted he, Option.map_map]
    congr 1
    funext entry
    cases h : e.other? q <;> simp [h]

theorem note_eq {table : Array (List (Nat × Nat))} {e : Interaction} (hab : e.a < e.b)
    (hb : e.b < table.size) :
    note table e = some (noted table e) ∧ (noted table e).size = table.size := by
  refine ⟨?_, by simp [noted]⟩
  rw [note, update_eq (Nat.lt_trans hab hb)]
  exact update_eq (by simpa using hb) _

theorem graph_eq {c : Circuit α} (hc : c.WellFormed) :
    graph c = some (InteractionGraph.ofCircuit c) := by
  have hlt := (InteractionGraph.valid_ofCircuit hc).lt
  have hnotes :
      (InteractionGraph.ofCircuit c).edges.foldlM note (Array.replicate c.numQubits []) =
      some ((InteractionGraph.ofCircuit c).edges.foldl noted
        (Array.replicate c.numQubits [])) := by
    refine (foldlM_eq (P := fun table : Array (List (Nat × Nat)) => table.size = c.numQubits)
      (fun table htable e he => ?_) (by simp)).1
    obtain ⟨hab, hb⟩ := hlt e he
    obtain ⟨hnote, hsize⟩ := note_eq hab (Nat.lt_of_lt_of_eq hb htable.symm)
    exact ⟨hnote, hsize.trans htable⟩
  rw [graph, hnotes]
  refine congrArg some ?_
  have hpartners :
      (InteractionGraph.ofCircuit c).edges.foldl noted (Array.replicate c.numQubits []) =
      (InteractionGraph.ofCircuit c).partners := by
    refine Array.ext_getElem? fun q => ?_
    rw [getElem?_foldl_noted fun e he => Nat.ne_of_lt (hlt e he).1]
    by_cases hq : q < c.numQubits <;>
      simp [InteractionGraph.ofCircuit, InteractionGraph.ofEdges, hq]
  rw [hpartners]
  rfl

/-! ## Connected qubits in range -/

theorem sift_eq {test : Nat → Option Bool} {value : Nat → Bool} {xs : List Nat}
    (h : ∀ x ∈ xs, test x = some (value x)) : sift test xs = some (xs.filter value) := by
  rw [sift, readAll_eq h, Option.map_some, List.filter_map, List.map_map]
  simp [Function.comp_def]

section Rows

variable {size : Nat}

/-- A row of distances with the qubits that are to be visited next. -/
structure Reaching (size : Nat) (found : Array (Option Nat) × List Nat) : Prop where
  row : found.1.size = size
  next : ∀ q ∈ found.2, q < size

theorem reach_eq (d : Nat) {found : Array (Option Nat) × List Nat} (hfound : Reaching size found)
    {q : Nat} (hq : q < size) :
    reach d found q = some (Tables.reach d found q) ∧ Reaching size (Tables.reach d found q) := by
  have hq' : q < found.1.size := hfound.row ▸ hq
  rw [reach, Tables.reach, getElem?_eq_some_getD hq' none, write_eq hq']
  by_cases hopen : (found.1.getD q none == none) = true
  · rw [if_pos hopen]
    exact ⟨if_pos hopen, by simpa using hfound.row, List.forall_mem_cons.mpr ⟨hq, hfound.next⟩⟩
  · rw [if_neg hopen]
    exact ⟨if_neg hopen, hfound⟩

variable {table : Array (List Nat)} (htable : table.size = size)
  (hlt : ∀ q < size, ∀ r ∈ table.getD q [], r < size)

include htable hlt

theorem reachFrom_eq (d : Nat) {found : Array (Option Nat) × List Nat}
    (hfound : Reaching size found) {q : Nat} (hq : q < size) :
    reachFrom table d found q = some ((table.getD q []).foldl (Tables.reach d) found) ∧
      Reaching size ((table.getD q []).foldl (Tables.reach d) found) := by
  rw [reachFrom, getElem?_eq_some_getD (htable ▸ hq) []]
  exact foldlM_eq (P := Reaching size) (fun _ hs r hr => reach_eq d hs (hlt q hq r hr)) hfound

theorem spread_eq {fuel d : Nat} {level : List Nat} {row : Array (Option Nat)}
    (hrow : row.size = size) (hlevel : ∀ q ∈ level, q < size) :
    spread table fuel d level row = some (Tables.spread table fuel d level row) := by
  induction fuel generalizing d level row with
  | zero => rfl
  | succ fuel ih =>
    obtain ⟨hround, hfound⟩ := foldlM_eq (f := reachFrom table (d + 1))
      (fun _ hs q hq => reachFrom_eq htable hlt (d + 1) hs (hlevel q hq))
      (show Reaching size (row, []) from ⟨hrow, by simp⟩)
    rw [spread, Tables.spread, hround]
    simp only [Option.bind_eq_bind, Option.bind_some, ih hfound.row hfound.next]
    split_ifs <;> rfl

theorem distancesFrom_eq {source : Nat} (hsource : source < size) :
    distancesFrom size table source = some (Tables.distancesFrom size table source) := by
  rw [distancesFrom, write_eq (by simpa using hsource)]
  exact spread_eq htable hlt (by simp) (by simpa using hsource)

end Rows

theorem firstReached_eq {size : Nat} {row : Array (Option Nat)} (hrow : row.size = size) :
    firstReached size row = some (Tables.firstReached size row) := by
  have hread : readAll (row[·]?) (List.range size) =
      some ((List.range size).map fun q => (q, row.getD q none)) :=
    readAll_eq fun q hq => getElem?_eq_some_getD (hrow ▸ List.mem_range.mp hq) none
  rw [firstReached, hread, Option.map_some, List.find?_map, Option.map_map, Tables.firstReached]
  simp [Function.comp_def]

theorem labels_eq {size : Nat} {edges : List Edge} (hvalid : EdgesValid size edges) :
    labels size edges = some (Tables.ofEdges size edges).components := by
  have hneighbours (q : Nat) (_ : q < size) (r : Nat)
      (hr : r ∈ (Tables.ofEdges size edges).neighbours.getD q []) : r < size :=
    (lt_of_adj hvalid ((Tables.mem_neighbours hvalid).mp hr)).2
  have hrows :
      (List.range size).mapM (distancesFrom size (Tables.ofEdges size edges).neighbours) =
      some ((List.range size).map
        (Tables.distancesFrom size (Tables.ofEdges size edges).neighbours)) :=
    mapM_eq fun q hq =>
      distancesFrom_eq (by simp [Tables.ofEdges]) hneighbours (List.mem_range.mp hq)
  have hfirst : ((List.range size).map
        (Tables.distancesFrom size (Tables.ofEdges size edges).neighbours)).mapM
          (firstReached size) =
      some (((List.range size).map
        (Tables.distancesFrom size (Tables.ofEdges size edges).neighbours)).map
          (Tables.firstReached size)) :=
    mapM_eq fun row hrow => by
      obtain ⟨q, -, rfl⟩ := List.mem_map.mp hrow
      exact firstReached_eq (by simp [Tables.distancesFrom, size_spread])
  rw [labels]
  change ((List.range size).mapM
    (distancesFrom size (Tables.ofEdges size edges).neighbours)).bind _ = _
  rw [hrows, Option.bind_some, hfirst]
  simp [Tables.ofEdges]

theorem classes_eq {label : Array Nat} {size : Nat} (hlabel : label.size = size)
    (roots : List Nat) (v : Nat) : classes label size roots =
      some (roots.map fun root => (List.range size).filter (label.getD · v == root)) :=
  mapM_eq fun root _ => sift_eq fun q hq => by
    rw [getElem?_eq_some_getD (hlabel ▸ List.mem_range.mp hq) v, Option.map_some]

theorem groups_eq {g : InteractionGraph} (hg : g.Valid) : groups g = some g.components := by
  have hsize : (Tables.ofEdges g.numQubits (g.edges.map Interaction.ends)).components.size =
      g.numQubits := by simp [Tables.ofEdges]
  have hroots :
      sift (isRoot g (Tables.ofEdges g.numQubits (g.edges.map Interaction.ends)).components)
      (List.range g.numQubits) = some g.roots :=
    sift_eq fun q hq => by
      have hq := List.mem_range.mp hq
      rw [isRoot, partners_eq hg hq,
        getElem?_eq_some_getD (Nat.lt_of_lt_of_eq hq hsize.symm) g.numQubits]
      rfl
  rw [groups, labels_eq hg.edges_valid]
  simp only [Option.bind_eq_bind, Option.bind_some, hroots, classes_eq hsize _ g.numQubits]
  rfl

theorem regions_eq (m : CouplingMap) : regions m = some m.components := by
  have hroots : sift (fun q => m.tables.components[q]?.map (· == q)) (List.range m.size) =
      some ((List.range m.size).filter fun q => m.component q == q) :=
    sift_eq fun q hq => by
      rw [component_eq (List.mem_range.mp hq)]
      rfl
  rw [regions, hroots]
  exact classes_eq (size_components m) _ m.size

/-! ## Packing in range -/

theorem firstMin?_map {value : Nat → Nat} (xs : List Nat) :
    firstMin? (·.2) (xs.map fun x => (x, value x)) = (firstMin? value xs).map
      fun x => (x, value x) := by
  induction xs with
  | nil => rfl
  | cons x rest ih =>
    rw [List.map_cons, firstMin?, firstMin?, ih]
    cases firstMin? value rest with
    | none => rfl
    | some y =>
      dsimp only [Option.map_some]
      split_ifs <;> rfl

theorem rooms_eq (free : List Nat) (size : Nat) :
    rooms free size = some ((Packing.fitting free size).map fun j => (j, free.getD j 0)) := by
  have hread : readAll (free[·]?) (List.range free.length) =
      some ((List.range free.length).map fun j => (j, free.getD j 0)) :=
    readAll_eq fun j hj => getElem?_list_eq (List.mem_range.mp hj) 0
  rw [rooms, hread, Option.map_some, List.filter_map, Packing.fitting]
  rfl

theorem fill_eq {free : List Nat} {j size : Nat} (hj : j ∈ Packing.fitting free size) :
    fill free j size = some (Packing.fill free j size) := if_pos (Packing.mem_fitting.mp hj).1

theorem bestFit_eq (free sizes : List Nat) :
    bestFit free sizes = some (Packing.bestFit free sizes) := by
  induction sizes generalizing free with
  | nil => rfl
  | cons size rest ih =>
    rw [bestFit, Packing.bestFit, rooms_eq]
    simp only [Option.bind_eq_bind, Option.bind_some, firstMin?_map]
    cases hj : firstMin? (fun j => free.getD j 0) (Packing.fitting free size) with
    | none => rfl
    | some j =>
      simp only [Option.map_some, fill_eq (mem_of_firstMin? hj), Option.bind_some, ih]

theorem findSomeM?_eq {β γ : Type} {f : β → Option (Option γ)} {g : β → Option γ} {xs : List β}
    (h : ∀ x ∈ xs, f x = some (g x)) : xs.findSomeM? f = some (xs.findSome? g) := by
  induction xs with
  | nil => rfl
  | cons x rest ih =>
    rw [List.findSomeM?, List.findSome?, h x List.mem_cons_self,
      ih fun y hy => h y (List.mem_cons_of_mem _ hy)]
    cases g x <;> rfl

theorem exhaustive_eq (free sizes : List Nat) :
    exhaustive free sizes = some (Packing.exhaustive free sizes) := by
  induction sizes generalizing free with
  | nil => rfl
  | cons size rest ih =>
    rw [exhaustive, Packing.exhaustive, rooms_eq]
    simp only [Option.bind_eq_bind, Option.bind_some, List.filter_map, Function.comp_def, ih]
    rw [findSomeM?_eq (g :=
      fun x => (Packing.exhaustive (Packing.fill free x.1 size) rest).map (x.1 :: ·)),
      List.findSome?_map]
    · rfl
    · intro x hx
      obtain ⟨j, hj, rfl⟩ := List.mem_map.mp hx
      rw [fill_eq (List.mem_filter.mp hj).1]
      rfl

theorem pack_eq (free sizes : List Nat) : pack free sizes = some (Packing.pack free sizes) := by
  rw [pack, Packing.pack, bestFit_eq, exhaustive_eq]
  cases Packing.bestFit free sizes <;> rfl

end QuantumCompiler.Checked
