import QuantumCompiler.Proofs.Access
import QuantumCompiler.Proofs.Layout.Choose

/-!
# No step leaves its tables

The steps that look for a placement read tables with a default beyond the end
and write only within bounds, so an index out of range would not be noticed.
`Checked` repeats greedy placement, local improvement and the placement of
qubits without interactions with every access checked.  Their result is `none`
if an index is out of range, if a choice has no candidate, or if a qubit that
should have a place has none.

`heuristic_eq` says that this never happens: the checked steps give what the
steps themselves give.  `InRange` is the invariant of a layout that is needed
for a single access; every place and every host that it names exists.
-/

namespace QuantumCompiler.Checked

variable {β : Type} (g : InteractionGraph) (m : CouplingMap)

/-! ## Accesses -/

/-- The physical qubit of a logical one. -/
def physical (l : Layout) (q : Nat) : Option (Option Nat) := l.l2p[q]?

/-- The logical qubit on a physical one. -/
def logical (l : Layout) (p : Nat) : Option (Option Nat) := l.p2l[p]?

/-- The partners of a logical qubit. -/
def partners (q : Nat) : Option (List (Nat × Nat)) := g.partners[q]?

/-- The neighbours of a physical qubit. -/
def neighbours (p : Nat) : Option (List Nat) := m.tables.neighbours[p]?

/-- The distance between two physical qubits. -/
def distance (p q : Nat) : Option (Option Nat) := m.tables.distances[p]?.bind (·[q]?)

/-- Puts a logical qubit on a physical one. -/
def place (l : Layout) (q p : Nat) : Option Layout :=
  if q < l.numLogical && p < l.numPhysical then some (l.place q p) else none

/-- Exchanges what two physical qubits host. -/
def exchange (l : Layout) (p q : Nat) : Option Layout := do
  let onP ← logical l p
  let onQ ← logical l q
  if onP.all (· < l.numLogical) && onQ.all (· < l.numLogical) then some (l.exchange p q) else none

/-- The entries for all numbers of a list. -/
def readAll (read : Nat → Option β) (xs : List Nat) : Option (List (Nat × β)) :=
  xs.mapM fun x => (read x).map (x, ·)

/-- The numbers of a list that have an empty entry. -/
def vacant (read : Nat → Option (Option Nat)) (xs : List Nat) : Option (List Nat) :=
  (readAll read xs).map fun found => (found.filter (·.2 == none)).map (·.1)

/-- The first number of a list with the greatest entry. -/
def greatest (read : Nat → Option Nat) (xs : List Nat) : Option Nat :=
  (readAll read xs).bind fun found => (firstMax? (·.2) found).map (·.1)

/-! ## Costs -/

/-- The cost of the interactions of one qubit with a list of partners. -/
def partnersCost (l : Layout) (p : Nat) : List (Nat × Nat) → Option (Option Nat)
  | [] => some (some 0)
  | x :: rest => do
    let more ← partnersCost l p rest
    match ← physical l x.1 with
    | none => some more
    | some q =>
      let d ← distance m p q
      some (d.bind fun d => more.map (x.2 * d + ·))

/-- The cost of the interactions of one qubit on a physical qubit. -/
def localCost (l : Layout) (q p : Nat) : Option (Option Nat) := do
  partnersCost m l p (← partners g q)

/-- The cost of a list of interactions. -/
def costOver (l : Layout) : List Interaction → Option (Option Nat)
  | [] => some (some 0)
  | e :: rest => do
    let more ← costOver l rest
    match ← physical l e.a, ← physical l e.b with
    | some p, some q =>
      let d ← distance m p q
      some (d.bind fun d => more.map (e.weight * d + ·))
    | _, _ => some none

/-- The weight of those of a list of partners that are placed. -/
def tieOver (l : Layout) : List (Nat × Nat) → Option Nat
  | [] => some 0
  | x :: rest => do
    let here ← physical l x.1
    let more ← tieOver l rest
    some ((if here.isSome then x.2 else 0) + more)

/-! ## Greedy placement -/

/-- Places the first qubit of a group. -/
def placeFirst (group region : List Nat) (l : Layout) : Option Layout := do
  let first ← greatest (fun q => (partners g q).map (sumOf (·.2))) group
  let free ← vacant (logical l) region
  let start ← greatest (fun p => (neighbours m p).map List.length) free
  place l first start

/-- Places the next qubit of a group. -/
def placeNext (group region : List Nat) (l : Layout) : Option Layout := do
  let unplaced ← vacant (physical l) group
  let next ← greatest (fun q => (partners g q).bind (tieOver l)) unplaced
  let free ← vacant (logical l) region
  let costs ← readAll (localCost g m l next) free
  let best ← firstMin? (·.2) (costs.filterMap fun x => x.2.map fun c => (x.1, c))
  place l next best.1

/-- Places a number of further qubits of a group. -/
def placeMore (group region : List Nat) : Nat → Layout → Option Layout
  | 0, l => some l
  | n + 1, l => (placeNext g m group region l).bind (placeMore group region n)

/-- Places a group in a region. -/
def placeGroup (group region : List Nat) (l : Layout) : Option Layout :=
  (placeFirst g m group region l).bind (placeMore g m group region (group.length - 1))

/-- Places groups in the regions with given numbers. -/
def placeGroups : List (List Nat) → List Nat → Layout → Option Layout
  | [], _, l => some l
  | group :: groups, targets, l => do
    let j ← targets.head?
    let region ← m.components[j]?
    let l ← placeGroup g m group region l
    placeGroups groups targets.tail l

/-! ## Local improvement -/

/-- Whether there is a qubit that interacts with any other. -/
def interacting : Option Nat → Option Bool
  | none => some false
  | some q => (partners g q).map (!·.isEmpty)

/-- The cost of the interactions of a logical qubit where it is. -/
def costOf (l : Layout) : Option Nat → Option (Option Nat)
  | none => some (some 0)
  | some q => do
    let p ← (← physical l q)
    localCost g m l q p

/-- The cost of the interactions of two logical qubits. -/
def pairCost (l : Layout) (a b : Option Nat) : Option (Option Nat) := do
  let x ← costOf g m l a
  let y ← costOf g m l b
  some (x.bind fun x => y.map (x + ·))

/-- Exchanges what two physical qubits host if that makes the cost smaller. -/
def tryExchange (s : Climb.State) (p q : Nat) : Option (Climb.State × Bool) := do
  let onP ← logical s.layout p
  let onQ ← logical s.layout q
  let busyP ← interacting g onP
  let busyQ ← interacting g onQ
  if !busyP && !busyQ then some (s, false)
  else
    let exchanged ← exchange s.layout p q
    match ← pairCost g m s.layout onP onQ, ← pairCost g m exchanged onP onQ with
    | some before, some after =>
      some (if after < before then (⟨exchanged, s.cost - (before - after)⟩, true) else (s, false))
    | _, _ => some (s, false)

/-- Tries to exchange every pair of a list. -/
def round (pairs : List (Nat × Nat)) (s : Climb.State) : Option (Climb.State × Bool) :=
  pairs.foldlM
    (fun acc x => (tryExchange g m acc.1 x.1 x.2).map fun made => (made.1, acc.2 || made.2))
      (s, false)

/-- Rounds until one changes nothing, at most a given number of them. -/
def rounds (pairs : List (Nat × Nat)) : Nat → Climb.State → Option Climb.State
  | 0, s => some s
  | n + 1, s => do
    let r ← round g m pairs s
    if r.2 then rounds pairs n r.1 else some r.1

/-- Improves a placement of known cost. -/
def climb (s : Climb.State) : Option Climb.State :=
  rounds g m (Climb.allPairs s.layout.numPhysical) Climb.maxRounds s

/-! ## Qubits without interactions, and all steps together -/

/-- Places the qubits of a list that have no place on the lowest free physical
qubits. -/
def placeIsolated : List Nat → Layout → Option Layout
  | [], l => some l
  | q :: rest, l => do
    let here ← physical l q
    if here.isSome then placeIsolated rest l
    else
      let free ← vacant (logical l) (List.range l.numPhysical)
      let p ← free.head?
      let l ← place l q p
      placeIsolated rest l

/-- A placement of all qubits with its cost, before the exact search. -/
def heuristic : Option (Except LayoutError (Array Nat × Nat)) :=
  match Packing.pack (m.components.map List.length) (g.components.map List.length) with
  | none => some (.error (.packing g.components))
  | some targets => do
    let l ← placeGroups g m g.components targets (Layout.empty g.numQubits m.size)
    let cost ← (← costOver m l g.edges)
    let improved ← climb g m ⟨l, cost⟩
    let full ← placeIsolated (List.range g.numQubits) improved.layout
    if full.isComplete then some (.ok (full.l2p.map (·.getD 0), improved.cost)) else none

/-! ## Accesses in range -/

/-- A layout of the qubits of a graph on a coupling map that names only qubits
that exist. -/
structure InRange (l : Layout) : Prop where
  logical : l.numLogical = g.numQubits
  physical : l.numPhysical = m.size
  places : ∀ q p, l.physical? q = some p → p < m.size
  hosts : ∀ p q, l.logical? p = some q → q < g.numQubits

variable {g m} {l : Layout} {p q : Nat}

theorem physical_eq (hl : InRange g m l) (hq : q < g.numQubits) :
    physical l q = some (l.physical? q) :=
  getElem?_eq_some_getD (Nat.lt_of_lt_of_eq hq hl.logical.symm) none

theorem logical_eq (hl : InRange g m l) (hp : p < m.size) : logical l p = some (l.logical? p) :=
  getElem?_eq_some_getD (Nat.lt_of_lt_of_eq hp hl.physical.symm) none

theorem partners_eq (hg : g.Valid) (hq : q < g.numQubits) :
    partners g q = some (g.partnersOf q) := by
  have hsize : g.partners.size = g.numQubits := by
    rw [hg.partners]
    simp [InteractionGraph.ofEdges]
  exact getElem?_eq_some_getD (hsize ▸ hq) []

theorem neighbours_eq (hp : p < m.size) : neighbours m p = some (m.neighbours p) := by
  have hsize : m.tables.neighbours.size = m.size := by
    rw [m.tables_eq]
    simp [Tables.ofEdges]
  exact getElem?_eq_some_getD (hsize ▸ hp) []

theorem size_foldl_reach (d : Nat) (qs : List Nat) (found : Array (Option Nat) × List Nat) :
    (qs.foldl (Tables.reach d) found).1.size = found.1.size := by
  refine List.foldlRecOn (motive := fun acc : Array (Option Nat) × List Nat =>
    acc.1.size = found.1.size) qs _ rfl fun acc hacc q _ => ?_
  rw [Tables.reach]
  split_ifs
  · rw [Array.size_setIfInBounds, hacc]
  · exact hacc

theorem size_spread (table : Array (List Nat)) (fuel d : Nat) (level : List Nat)
    (row : Array (Option Nat)) : (Tables.spread table fuel d level row).size = row.size := by
  induction fuel generalizing d level row with
  | zero => rfl
  | succ fuel ih =>
    have hround :
        (level.foldl (fun found q => (table.getD q []).foldl (Tables.reach (d + 1)) found)
        (row, [])).1.size = row.size := by
      rw [← List.foldl_flatMap]
      exact size_foldl_reach _ _ _
    rw [Tables.spread]
    dsimp only
    split_ifs
    · exact hround
    · exact (ih ..).trans hround

theorem distance_eq (hp : p < m.size) (hq : q < m.size) :
    distance m p q = some (m.distance? p q) := by
  have hsize : m.tables.distances.size = m.size := by
    rw [m.tables_eq]
    simp [Tables.ofEdges]
  have hrow : (m.tables.distances.getD p #[]).size = m.size := by
    rw [m.tables_eq]
    simp [Tables.ofEdges, Tables.distancesFrom, hp, size_spread]
  rw [distance, getElem?_eq_some_getD (hsize ▸ hp) #[], Option.bind_some]
  exact getElem?_eq_some_getD (hrow ▸ hq) none

theorem size_components (m : CouplingMap) : m.tables.components.size = m.size := by
  rw [m.tables_eq]
  simp [Tables.ofEdges]

theorem component_eq (hp : p < m.size) : m.tables.components[p]? = some (m.component p) :=
  getElem?_eq_some_getD (Nat.lt_of_lt_of_eq hp (size_components m).symm) m.size

theorem place_eq (hl : InRange g m l) (hq : q < g.numQubits) (hp : p < m.size) :
    place l q p = some (l.place q p) := by
  rw [place, hl.logical, hl.physical]
  simp [hq, hp]

theorem InRange.place (hl : InRange g m l) {l' : Layout} (h : place l q p = some l') :
    InRange g m l' := by
  rw [Checked.place] at h
  split_ifs at h with hbounds
  cases h
  simp only [Bool.and_eq_true, decide_eq_true_eq] at hbounds
  obtain ⟨hq, hp⟩ := hbounds
  refine ⟨by rw [Layout.numLogical_place, hl.logical],
    by rw [Layout.numPhysical_place, hl.physical], fun r x hx => ?_, fun x r hr => ?_⟩
  · rw [Layout.physical?_place hq] at hx
    split_ifs at hx
    · cases hx
      exact hl.physical ▸ hp
    · exact hl.places r x hx
  · rw [Layout.logical?_place hp] at hr
    split_ifs at hr
    · cases hr
      exact hl.logical ▸ hq
    · exact hl.hosts x r hr

/-! ## Lists of entries -/

theorem readAll_eq {read : Nat → Option β} {value : Nat → β} {xs : List Nat}
    (h : ∀ x ∈ xs, read x = some (value x)) :
    readAll read xs = some (xs.map fun x => (x, value x)) :=
  mapM_eq fun x hx => by rw [h x hx, Option.map_some]

theorem vacant_eq {read : Nat → Option (Option Nat)} {value : Nat → Option Nat} {xs : List Nat}
    (h : ∀ x ∈ xs, read x = some (value x)) :
    vacant read xs = some (xs.filter fun x => value x == none) := by
  rw [vacant, readAll_eq h, Option.map_some, List.filter_map, List.map_map]
  simp [Function.comp_def]

theorem firstMax?_map {value : Nat → Nat} (xs : List Nat) :
    firstMax? (·.2) (xs.map fun x => (x, value x)) = (firstMax? value xs).map
      fun x => (x, value x) := by
  induction xs with
  | nil => rfl
  | cons x rest ih =>
    rw [List.map_cons, firstMax?, firstMax?, ih]
    cases firstMax? value rest with
    | none => rfl
    | some y =>
      dsimp only [Option.map_some]
      split_ifs <;> rfl

theorem greatest_eq {read : Nat → Option Nat} {value : Nat → Nat} {xs : List Nat}
    (h : ∀ x ∈ xs, read x = some (value x)) : greatest read xs = firstMax? value xs := by
  rw [greatest, readAll_eq h, Option.bind_some, firstMax?_map, Option.map_map]
  simp [Function.comp_def]

/-! ## Costs in range -/

theorem partnersCost_eq (hl : InRange g m l) (hp : p < m.size) {xs : List (Nat × Nat)}
    (hxs : ∀ x ∈ xs, x.1 < g.numQubits) :
    partnersCost m l p xs = some (InteractionGraph.partnersCost m l.physical? p xs) := by
  induction xs with
  | nil => rfl
  | cons x rest ih =>
    rw [List.forall_mem_cons] at hxs
    rw [partnersCost, InteractionGraph.partnersCost, ih hxs.2, physical_eq hl hxs.1]
    cases hplace : l.physical? x.1 with
    | none => rfl
    | some q =>
      simp only [Option.bind_eq_bind, Option.bind_some, distance_eq hp (hl.places _ _ hplace)]
      cases m.distance? p q <;> cases InteractionGraph.partnersCost m l.physical? p rest <;> rfl

theorem localCost_eq (hg : g.Valid) (hl : InRange g m l) (hq : q < g.numQubits)
    (hp : p < m.size) : localCost g m l q p = some (g.localCost? m l.physical? q p) := by
  rw [localCost, partners_eq hg hq, Option.bind_eq_bind, Option.bind_some]
  exact partnersCost_eq hl hp fun x hx =>
    (hg.lt_of_adj ((hg.mem_partnersOf hq).mp ⟨x.2, hx⟩)).2

theorem costOver_eq (hl : InRange g m l) {es : List Interaction}
    (hes : ∀ e ∈ es, e.a < g.numQubits ∧ e.b < g.numQubits) :
    costOver m l es = some (InteractionGraph.costOver m l.physical? es) := by
  induction es with
  | nil => rfl
  | cons e rest ih =>
    rw [List.forall_mem_cons] at hes
    rw [costOver, InteractionGraph.costOver, ih hes.2, physical_eq hl hes.1.1,
      physical_eq hl hes.1.2]
    cases ha : l.physical? e.a with
    | none => rfl
    | some p =>
      cases hb : l.physical? e.b with
      | none => rfl
      | some q =>
        simp only [Option.bind_eq_bind, Option.bind_some,
          distance_eq (hl.places _ _ ha) (hl.places _ _ hb)]
        cases m.distance? p q <;> cases InteractionGraph.costOver m l.physical? rest <;> rfl

theorem tieOver_eq (hl : InRange g m l) {xs : List (Nat × Nat)}
    (hxs : ∀ x ∈ xs, x.1 < g.numQubits) :
    tieOver l xs = some (sumOf (fun x => if (l.physical? x.1).isSome then x.2 else 0) xs) := by
  induction xs with
  | nil => rfl
  | cons x rest ih =>
    rw [List.forall_mem_cons] at hxs
    rw [tieOver, physical_eq hl hxs.1, ih hxs.2, sumOf]
    rfl

/-! ## Greedy placement in range -/

section Group

variable {group region : List Nat} (hg : g.Valid) (hgroup : ∀ q ∈ group, q < g.numQubits)
  (hregion : ∀ p ∈ region, p < m.size)

include hregion in
theorem vacant_logical_eq (hl : InRange g m l) :
    vacant (logical l) region = some (Greedy.freeIn l region) :=
  vacant_eq fun p hp => logical_eq hl (hregion p hp)

include hg hgroup hregion in
theorem placeFirst_eq (hl : InRange g m l) :
    placeFirst g m group region l = Greedy.placeFirst g m group region l := by
  have hfirst :
      greatest (fun q => (partners g q).map (sumOf (·.2))) group = firstMax? g.degree group :=
    greatest_eq fun q hq => by rw [partners_eq hg (hgroup q hq)]; rfl
  have hstart : greatest (fun p => (neighbours m p).map List.length) (Greedy.freeIn l region) =
      firstMax? (fun p => (m.neighbours p).length) (Greedy.freeIn l region) :=
    greatest_eq fun p hp => by
      rw [neighbours_eq (hregion p (Greedy.mem_freeIn.mp hp).1)]
      rfl
  rw [placeFirst, Greedy.placeFirst, hfirst, vacant_logical_eq hregion hl]
  simp only [Option.bind_eq_bind, Option.bind_some, hstart]
  cases hq : firstMax? g.degree group with
  | none => rfl
  | some first =>
    cases hp : firstMax? (fun p => (m.neighbours p).length) (Greedy.freeIn l region) with
    | none => rfl
    | some start =>
      have hstart := (Greedy.mem_freeIn.mp (mem_of_firstMax? hp)).1
      exact place_eq hl (hgroup first (mem_of_firstMax? hq)) (hregion start hstart)

include hg hgroup hregion in
theorem placeNext_eq (hl : InRange g m l) :
    placeNext g m group region l = Greedy.placeNext g m group region l := by
  have hopen : vacant (physical l) group = some (group.filter fun q => l.physical? q == none) :=
    vacant_eq fun q hq => physical_eq hl (hgroup q hq)
  have hnext : greatest (fun q => (partners g q).bind (tieOver l))
      (group.filter fun q => l.physical? q == none) =
        firstMax? (Greedy.tie g l) (group.filter fun q => l.physical? q == none) :=
    greatest_eq fun q hq => by
      have hlt := hgroup q (List.mem_filter.mp hq).1
      rw [partners_eq hg hlt, Option.bind_some, tieOver_eq hl fun x hx =>
        (hg.lt_of_adj ((hg.mem_partnersOf hlt).mp ⟨x.2, hx⟩)).2]
      rfl
  rw [placeNext, Greedy.placeNext, hopen]
  simp only [Option.bind_eq_bind, Option.bind_some, hnext]
  cases hq : firstMax? (Greedy.tie g l) (group.filter fun q => l.physical? q == none) with
  | none => rfl
  | some next =>
    have hlt := hgroup next (List.mem_filter.mp (mem_of_firstMax? hq)).1
    have hcosts : readAll (localCost g m l next) (Greedy.freeIn l region) =
        some ((Greedy.freeIn l region).map fun p => (p, g.localCost? m l.physical? next p)) :=
      readAll_eq fun p hp => localCost_eq hg hl hlt (hregion p (Greedy.mem_freeIn.mp hp).1)
    rw [vacant_logical_eq hregion hl]
    simp only [Option.bind_some, hcosts, List.filterMap_map, Function.comp_def]
    generalize hvalues : (Greedy.freeIn l region).filterMap
      (fun p => (g.localCost? m l.physical? next p).map fun c => (p, c)) = values
    cases hbest : firstMin? (·.2) values with
    | none => rfl
    | some best =>
      have hmem := mem_of_firstMin? hbest
      rw [← hvalues, List.mem_filterMap] at hmem
      obtain ⟨p, hp, hpc⟩ := hmem
      obtain ⟨c, -, rfl⟩ := Option.map_eq_some_iff.mp hpc
      exact place_eq hl hlt (hregion p (Greedy.mem_freeIn.mp hp).1)

theorem InRange.placeFirst (hl : InRange g m l) {l' : Layout}
    (h : placeFirst g m group region l = some l') : InRange g m l' := by
  simp only [Checked.placeFirst, Option.bind_eq_bind, Option.bind_eq_some_iff] at h
  obtain ⟨first, -, free, -, start, -, h⟩ := h
  exact hl.place h

theorem InRange.placeNext (hl : InRange g m l) {l' : Layout}
    (h : placeNext g m group region l = some l') : InRange g m l' := by
  simp only [Checked.placeNext, Option.bind_eq_bind, Option.bind_eq_some_iff] at h
  obtain ⟨unplaced, -, next, -, free, -, costs, -, best, -, h⟩ := h
  exact hl.place h

theorem InRange.placeMore {n : Nat} (hl : InRange g m l) {l' : Layout}
    (h : placeMore g m group region n l = some l') : InRange g m l' := by
  induction n generalizing l with
  | zero =>
    cases h
    exact hl
  | succ n ih =>
    obtain ⟨l₁, hnext, h⟩ := Option.bind_eq_some_iff.mp h
    exact ih (hl.placeNext hnext) h

theorem InRange.placeGroup (hl : InRange g m l) {l' : Layout}
    (h : placeGroup g m group region l = some l') : InRange g m l' := by
  obtain ⟨l₁, hfirst, h⟩ := Option.bind_eq_some_iff.mp h
  exact (hl.placeFirst hfirst).placeMore h

include hg hgroup hregion in
theorem placeMore_eq {n : Nat} (hl : InRange g m l) :
    placeMore g m group region n l = Greedy.placeMore g m group region n l := by
  induction n generalizing l with
  | zero => rfl
  | succ n ih =>
    rw [placeMore, Greedy.placeMore, ← placeNext_eq hg hgroup hregion hl]
    cases hnext : placeNext g m group region l with
    | none => rfl
    | some l' => exact ih (hl.placeNext hnext)

include hg hgroup hregion in
theorem placeGroup_eq (hl : InRange g m l) :
    placeGroup g m group region l = Greedy.placeGroup g m group region l := by
  rw [placeGroup, Greedy.placeGroup, ← placeFirst_eq hg hgroup hregion hl]
  cases hfirst : placeFirst g m group region l with
  | none => rfl
  | some l' => exact placeMore_eq hg hgroup hregion (hl.placeFirst hfirst)

end Group

/-- The numbers of the regions exist if the groups fit into them. -/
theorem placeGroups_eq (hg : g.Valid) {free targets : List Nat} {groups : List (List Nat)}
    (hfits : Packing.Fits free (groups.map List.length) targets)
    (hlength : free.length = m.components.length)
    (hgroups : ∀ group ∈ groups, ∀ q ∈ group, q < g.numQubits) (hl : InRange g m l) :
    placeGroups g m groups targets l =
      Greedy.placeGroups g m (groups.zip (targets.map fun j => m.components.getD j [])) l := by
  induction groups generalizing free targets l with
  | nil => rfl
  | cons group rest ih =>
    cases hfits with
    | @cons _ _ targets _ j hj _ tail =>
      rw [List.forall_mem_cons] at hgroups
      have hj' : j < m.components.length := hlength ▸ hj
      have hregion := CouplingMap.isRegion (List.getElem_mem hj')
      rw [placeGroups, List.map_cons, List.zip_cons_cons, Greedy.placeGroups,
        List.getD_eq_getElem _ _ hj']
      simp only [List.head?_cons, List.tail_cons, List.getElem?_eq_getElem hj',
        Option.bind_eq_bind, Option.bind_some, ← placeGroup_eq hg hgroups.1 hregion.lt hl]
      cases hplaced : placeGroup g m group m.components[j] l with
      | none => rfl
      | some l' =>
        exact ih tail (by rw [Packing.length_fill, hlength]) hgroups.2 (hl.placeGroup hplaced)

/-! ## Local improvement in range -/

theorem inRange_of_consistent (hl : l.Consistent) (hlogical : l.numLogical = g.numQubits)
    (hphysical : l.numPhysical = m.size) : InRange g m l where
  logical := hlogical
  physical := hphysical
  places _ _ h := hphysical ▸ hl.physical_lt h
  hosts _ _ h := hlogical ▸ hl.logical_lt h

theorem exchange_of_lt (hhosts : ∀ p q, l.logical? p = some q → q < l.numLogical)
    (hp : p < l.numPhysical) (hq : q < l.numPhysical) :
    exchange l p q = some (l.exchange p q) := by
  have hhost (r : Nat) : (l.logical? r).all (· < l.numLogical) = true := by
    cases h : l.logical? r with
    | none => rfl
    | some k => simpa using hhosts r k h
  have hread {r : Nat} (hr : r < l.numPhysical) : logical l r = some (l.logical? r) :=
    getElem?_eq_some_getD hr none
  rw [exchange, hread hp, hread hq]
  simp only [Option.bind_eq_bind, Option.bind_some, hhost, Bool.and_self, if_true]

theorem exchange_eq (hl : InRange g m l) (hp : p < m.size) (hq : q < m.size) :
    exchange l p q = some (l.exchange p q) :=
  exchange_of_lt (hl.logical ▸ hl.hosts) (hl.physical ▸ hp) (hl.physical ▸ hq)

theorem interacting_eq (hg : g.Valid) {a : Option Nat} (ha : ∀ k, a = some k → k < g.numQubits) :
    interacting g a = some (a.any g.interacting) := by
  cases a with
  | none => rfl
  | some k =>
    rw [interacting, partners_eq hg (ha k rfl)]
    rfl

theorem costOf_eq (hg : g.Valid) (hl : InRange g m l) {a : Option Nat}
    (ha : ∀ k, a = some k → ∃ x, l.physical? k = some x) :
    costOf g m l a = some (Climb.costOf g m l a) := by
  cases a with
  | none => rfl
  | some k =>
    obtain ⟨x, hx⟩ := ha k rfl
    have hk : k < g.numQubits := hl.logical ▸ Layout.lt_numLogical hx
    rw [costOf, Climb.costOf, physical_eq hl hk, hx]
    exact localCost_eq hg hl hk (hl.places k x hx)

theorem pairCost_eq (hg : g.Valid) (hl : InRange g m l) {a b : Option Nat}
    (ha : ∀ k, a = some k → ∃ x, l.physical? k = some x)
    (hb : ∀ k, b = some k → ∃ x, l.physical? k = some x) :
    pairCost g m l a b = some (Climb.pairCost g m l a b) := by
  rw [pairCost, Climb.pairCost, costOf_eq hg hl ha, costOf_eq hg hl hb]
  cases Climb.costOf g m l a <;> cases Climb.costOf g m l b <;> rfl

variable {s : Climb.State}

theorem tryExchange_eq (hg : g.Valid) (hs : s.layout.Serves g m) (hp : p < m.size)
    (hq : q < m.size) : tryExchange g m s p q = some (Climb.tryExchange g m s p q) := by
  have hl := inRange_of_consistent hs.consistent hs.logical hs.physical
  have hl' : InRange g m (s.layout.exchange p q) :=
    inRange_of_consistent (hs.consistent.exchange (hs.physical ▸ hp) (hs.physical ▸ hq))
      (by rw [Layout.numLogical_exchange, hs.logical])
        (by rw [Layout.numPhysical_exchange, hs.physical])
  -- What a physical qubit hosts has a place, before the exchange and after it.
  have hhost (r : Nat) : ∀ k, s.layout.logical? r = some k → ∃ x, s.layout.physical? k = some x :=
    fun k hk => ⟨r, (hs.consistent k r).mpr hk⟩
  have hhost' (r : Nat) : ∀ k, s.layout.logical? r = some k →
      ∃ x, (s.layout.exchange p q).physical? k = some x := fun k hk => by
    rw [hs.consistent.physical?_exchange, (hs.consistent k r).mpr hk]
    exact ⟨_, rfl⟩
  rw [tryExchange, Climb.tryExchange, logical_eq hl hp, logical_eq hl hq]
  simp only [Option.bind_eq_bind, Option.bind_some, interacting_eq hg (hl.hosts p),
    interacting_eq hg (hl.hosts q), exchange_eq hl hp hq, pairCost_eq hg hl (hhost p) (hhost q),
    pairCost_eq hg hl' (hhost' p) (hhost' q)]
  split_ifs
  · rfl
  · cases Climb.pairCost g m s.layout (s.layout.logical? p) (s.layout.logical? q) <;>
      cases Climb.pairCost g m (s.layout.exchange p q) (s.layout.logical? p)
        (s.layout.logical? q) <;> rfl

section Rounds

variable {pairs : List (Nat × Nat)} (hg : g.Valid)
  (hpairs : ∀ x ∈ pairs, x.1 < m.size ∧ x.2 < m.size)

include hg hpairs

theorem round_eq (hs : s.layout.Serves g m) :
    round g m pairs s = some (Climb.round g m pairs s) := by
  rw [round, Climb.round]
  generalize false = improved
  induction pairs generalizing s improved with
  | nil => rfl
  | cons x rest ih =>
    obtain ⟨⟨hp, hq⟩, hrest⟩ := List.forall_mem_cons.mp hpairs
    rw [List.foldlM_cons, List.foldl_cons, tryExchange_eq hg hs hp hq]
    exact ih hrest (Climb.tryExchange_serves hg hs hp hq) _

theorem rounds_eq {n : Nat} (hs : s.layout.Serves g m) :
    rounds g m pairs n s = some (Climb.rounds g m pairs n s) := by
  induction n generalizing s with
  | zero => rfl
  | succ n ih =>
    rw [rounds, Climb.rounds, round_eq hg hpairs hs]
    simp only [Option.bind_eq_bind, Option.bind_some, ih (Climb.round_serves hg hpairs hs)]
    split_ifs <;> rfl

end Rounds

theorem climb_eq (hg : g.Valid) (hs : s.layout.Serves g m) :
    climb g m s = some (Climb.climb g m s) :=
  rounds_eq hg (hs.physical ▸ Climb.allPairs_lt) hs

/-! ## All steps in range -/

theorem placeIsolated_eq {qs : List Nat} (hqs : ∀ q ∈ qs, q < g.numQubits) (hl : InRange g m l) :
    placeIsolated qs l = Greedy.placeIsolated qs l := by
  induction qs generalizing l with
  | nil => rfl
  | cons q rest ih =>
    rw [List.forall_mem_cons] at hqs
    have hsites : ∀ p ∈ List.range l.numPhysical, p < m.size := fun p hp =>
      hl.physical ▸ List.mem_range.mp hp
    rw [placeIsolated, Greedy.placeIsolated, physical_eq hl hqs.1]
    simp only [Option.bind_eq_bind, Option.bind_some, ih hqs.2 hl, vacant_logical_eq hsites hl,
      Greedy.freeIn, List.head?_filter]
    split_ifs
    · rfl
    · cases hfind : (List.range l.numPhysical).find? fun p => l.logical? p == none with
      | none => rfl
      | some p =>
        have hplace := place_eq hl hqs.1 (hsites p (List.mem_of_find?_eq_some hfind))
        simp only [Option.bind_some, hplace]
        exact ih hqs.2 (hl.place hplace)

/-- The checked steps give what the steps themselves give. -/
theorem heuristic_eq (hg : g.Valid) (hle : g.numQubits ≤ m.size) :
    heuristic g m = some (Layout.heuristic g m) := by
  rw [heuristic]
  cases hpack : Packing.pack (m.components.map List.length) (g.components.map List.length) with
  | none => simp only [Layout.heuristic, Layout.greedy, hpack]
  | some targets =>
    have hfits := Packing.pack_fits hpack
    have hempty : InRange g m (Layout.empty g.numQubits m.size) :=
      inRange_of_consistent (Layout.empty_consistent _ _)
        (by simp [Layout.empty, Layout.numLogical])
        (by simp [Layout.empty, Layout.numPhysical])
    obtain ⟨l, cost, full, hl, hserves, hcost, hfull, hsettles, -, hheuristic⟩ :=
      Layout.heuristic_steps hg hle hfits
    have hgroups :
        placeGroups g m g.components targets (Layout.empty g.numQubits m.size) = some l := by
      rw [placeGroups_eq hg hfits (by simp) (fun group hgroup => (hg.isGroup hgroup).lt) hempty]
      simp only [Layout.greedy, hpack] at hl
      split at hl
      · next hplaced =>
        cases hl
        exact hplaced
      · cases hl
    have hcost' : costOver m l g.edges = some (some cost) := by
      have hlr := inRange_of_consistent hserves.consistent hserves.logical hserves.physical
      rw [costOver_eq hlr fun e he => ⟨Nat.lt_trans (hg.lt e he).1 (hg.lt e he).2,
        (hg.lt e he).2⟩]
      exact congrArg some hcost
    have hclimb : climb g m ⟨l, cost⟩ = some (Climb.climb g m ⟨l, cost⟩) := climb_eq hg hserves
    have hgood := @Climb.climb_serves g m ⟨l, cost⟩ hg hserves
    have hisolated : placeIsolated (List.range g.numQubits) (Climb.climb g m ⟨l, cost⟩).layout =
        some full := by
      rw [placeIsolated_eq (fun q => List.mem_range.mp)
        (inRange_of_consistent hgood.consistent hgood.logical hgood.physical), hfull]
    simp only [hgroups, hcost', hclimb, hisolated, Option.bind_eq_bind, Option.bind_some,
      hsettles.isComplete, if_true, hheuristic]

end QuantumCompiler.Checked

/-! ## The choice of a layout -/

namespace QuantumCompiler.Layout

variable {α β : Type}

/-- A layout gives the qubits of a circuit different places on a coupling map,
and qubits on which an operation other than a barrier acts are connected
there. -/
structure Places (c : Circuit α) (m : CouplingMap) (l : Layout) : Prop where
  logical : l.numLogical = c.numQubits
  physical : l.numPhysical = m.size
  complete : l.isComplete = true
  inRange : ∀ q p, l.physical? q = some p → p < m.size
  injective : ∀ a b p, l.physical? a = some p → l.physical? b = some p → a = b
  consistent : l.Consistent
  connected : ∀ op ∈ c.ops, op.isBarrier = false → ∀ a ∈ op.qubits, ∀ b ∈ op.qubits,
    ∃ p q, l.physical? a = some p ∧ l.physical? b = some q ∧ m.graph.Reachable p q

theorem Settles.places {c : Circuit α} (hc : c.WellFormed) {m : CouplingMap} {l : Layout}
    (h : l.Settles (InteractionGraph.ofCircuit c) m) : l.Places c m where
  logical := h.logical
  physical := h.physical
  complete := h.isComplete
  inRange _ _ hp := h.physical ▸ h.consistent.physical_lt hp
  injective _ _ _ ha hb := h.consistent.injective ha hb
  consistent := h.consistent
  connected op hop hbarrier a ha b hb := by
    by_cases hab : a = b
    · obtain ⟨p, hp⟩ := h.placed a ((hc op hop).qubits_lt a ha)
      exact ⟨p, p, hp, hab ▸ hp, .refl p⟩
    · obtain ⟨p, q, hp, hq, -, hreach⟩ := h.connects a b
        ((InteractionGraph.graph_ofCircuit_adj hc).mpr ⟨hab, op, hop, hbarrier, ha, hb⟩)
      exact ⟨p, q, hp, hq, hreach⟩

/-- The choice of a layout is sound and complete, whatever the budget.  A layout
is found exactly for placeable circuits, and then it places the circuit.
Otherwise the device is too small or the groups do not fit into its regions; no
step gets stuck, and none of them leaves its tables. -/
theorem choose_sound_complete {c : Circuit α} (hc : c.WellFormed) (d : Device β) (budget : Nat) :
    ((∃ l, choose budget c d = .ok l) ↔ c.Placeable d.coupling) ∧
      (∀ l, choose budget c d = .ok l → l.Places c d.coupling) ∧
      (∀ e, choose budget c d = .error e → e =
        if d.numQubits < c.numQubits then .width c.numQubits d.name d.numQubits
        else .packing (InteractionGraph.ofCircuit c).components) ∧
      (c.numQubits ≤ d.numQubits → Checked.heuristic (InteractionGraph.ofCircuit c) d.coupling =
        some (heuristic (InteractionGraph.ofCircuit c) d.coupling)) := by
  have hrange (hle : c.numQubits ≤ d.numQubits) :
      Checked.heuristic (InteractionGraph.ofCircuit c) d.coupling =
        some (heuristic (InteractionGraph.ofCircuit c) d.coupling) :=
    Checked.heuristic_eq (InteractionGraph.valid_ofCircuit hc) hle
  rcases choose_cases (d := d) hc budget with ⟨hplaceable, l, hl, hsettles⟩ | ⟨hplaceable, he⟩
  · rw [hl]
    refine ⟨iff_of_true ⟨l, rfl⟩ hplaceable, ?_, by simp, hrange⟩
    intro l' hl'
    cases hl'
    exact hsettles.places hc
  · rw [he]
    refine ⟨iff_of_false (by simp) hplaceable, by simp, ?_, hrange⟩
    intro e he'
    cases he'
    rfl

/-! ## Two pairs of coupled qubits -/

/-- Two regions of two qubits each. -/
def pairsMap : CouplingMap where
  size := 4
  edges := [(0, 1), (2, 3)]
  tables := Tables.ofEdges 4 [(0, 1), (2, 3)]
  edges_valid := by decide
  edges_distinct := by decide
  tables_eq := rfl

/-- A device with these regions. -/
def pairsDevice : Device Float := .uncalibrated "pairs" pairsMap ⟨[]⟩

/-- Two groups of interacting qubits, each of which needs a region of its own. -/
def crossedCircuit : Circuit Float := ⟨4, 0, [.ofGate .cx [] [0, 2], .ofGate .cx [] [1, 3]]⟩

theorem placeable_crossedCircuit : crossedCircuit.Placeable pairsMap := by
  have h01 : pairsMap.graph.Reachable 0 1 := (CouplingMap.graph_adj.mpr (by decide)).reachable
  have h23 : pairsMap.graph.Reachable 2 3 := (CouplingMap.graph_adj.mpr (by decide)).reachable
  refine ⟨fun q => [0, 2, 1, 3].getD q 0, by decide, by decide, ?_⟩
  simp [crossedCircuit, Operation.ofGate, h01, h01.symm, h23, h23.symm]

/-- Whatever the budget, they are found places in the two regions. -/
theorem choose_crossedCircuit :
    crossedCircuit.WellFormed ∧ ∀ budget, ∃ l, choose budget crossedCircuit pairsDevice = .ok l ∧
      l.Places crossedCircuit pairsMap ∧
      Checked.heuristic (InteractionGraph.ofCircuit crossedCircuit) pairsMap =
        some (heuristic (InteractionGraph.ofCircuit crossedCircuit) pairsMap) := by
  have hc : crossedCircuit.WellFormed := by
    unfold Circuit.WellFormed crossedCircuit
    decide
  refine ⟨hc, fun budget => ?_⟩
  obtain ⟨hiff, hplaces, -, hrange⟩ := choose_sound_complete hc pairsDevice budget
  obtain ⟨l, hl⟩ := hiff.mpr placeable_crossedCircuit
  exact ⟨l, hl, hplaces l hl, hrange (by decide)⟩

end QuantumCompiler.Layout
