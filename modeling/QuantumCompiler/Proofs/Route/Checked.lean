import QuantumCompiler.Proofs.Circuit.Checked
import QuantumCompiler.Proofs.Device.Zones
import QuantumCompiler.Proofs.Layout.Checked
import QuantumCompiler.Proofs.Route.Success

/-!
# Routing with every access checked

Routing looks up the places of qubits, follows shortest paths, exchanges what
physical qubits host, and asks for the zones of qubits.  The checked steps give
no result if a qubit does not exist or has no place, if no neighbour is closer
to the target, if a layout refuses an exchange, if the zones of a device hold no
qubits, or if the routed circuit refuses an operation.

* `shortestPath_eq`: between connected qubits a path is always completed, and
  different ends leave room for a last but one qubit (`secondLast_eq`).
* `zoneOf_eq`: a device with qubits has no empty zones.
* `block_eq` is one operation, `blocks_eq` a list of them, and `route_eq` a
  circuit.
-/

namespace QuantumCompiler.Checked

open Route (Block Ready)

variable {α β : Type}

/-! ## Places, paths and zones -/

/-- The physical qubit of a logical one that has a place. -/
def placeOf (l : Layout) (q : Nat) : Option Nat := (physical l q).join

/-- Whether two physical qubits are connected. -/
def connected (m : CouplingMap) (p q : Nat) : Option Bool := do
  let a ← m.tables.components[p]?
  let b ← m.tables.components[q]?
  some (a == b)

/-- A walk of a given number of steps to a target. -/
def walk (m : CouplingMap) (target : Nat) : Nat → Nat → Option (List Nat)
  | 0, p => if p = target then some [p] else none
  | steps + 1, p => do
    let around ← neighbours m p
    let found ← readAll (fun r => distance m r target) around
    let next ← found.find? (·.2 == some steps)
    (walk m target steps next.1).map (p :: ·)

/-- A shortest path between two connected qubits. -/
def shortestPath (m : CouplingMap) (p q : Nat) : Option (List Nat) := do
  let steps ← (distance m p q).join
  walk m q steps p

/-- The last but one qubit of a path. -/
def secondLast (path : List Nat) : Option Nat :=
  if 2 ≤ path.length then path[path.length - 2]? else none

/-- Exchanges what two physical qubits host in a layout that can be changed. -/
def swap (l : Layout) (p q : Nat) : Option Layout := if l.frozen then none else exchange l p q

/-- The zone in which a qubit is at rest, if neither division is by zero. -/
def zoneOf (d : Device β) (q : Nat) : Option Nat :=
  if d.zones = 0 ∨ d.numQubits / d.zones = 0 then none else some (d.zoneOf q)

/-- The move that an operation on physical qubits needs. -/
def excursion (d : Device β) (op : Operation α) : Option (Option Route.Excursion) :=
  if 1 < d.zones && !op.isBarrier && op.qubits.length == 2 then do
    let p ← op.qubits[0]?
    let q ← op.qubits[1]?
    let zoneP ← zoneOf d p
    let zoneQ ← zoneOf d q
    some (if zoneP != zoneQ then some ⟨q, zoneQ, zoneP⟩ else none)
  else some none

/-! ## Routing -/

section Routing

variable [NatCast α]

/-- The block of an operation on physical qubits, whose operations must be
accepted. -/
def finish (d : Device β) (m : Nat) (swaps : List (Nat × Nat)) (op : Operation α) (l : Layout) :
    Option (Except RouteCause (Block α × Layout)) := do
  let away ← excursion d op
  let _ ← (Block.mk swaps op away).ops.mapM (accept d.numQubits m)
  some (.ok (⟨swaps, op, away⟩, l))

/-- What an operation with given places becomes under a layout. -/
def block (d : Device β) (m : Nat) (l : Layout) (places : List Nat) (op : Operation α) :
    Option (Except RouteCause (Block α × Layout)) :=
  if op.isBarrier || places.length ≤ 1 then finish d m [] (op.withQubits places) l
  else if 2 < places.length then some (.error (.tooWide op.kind.name places.length))
  else do
    let p ← places[0]?
    let q ← places[1]?
    if ← connected d.coupling p q then
      let path ← shortestPath d.coupling p q
      let stop ← secondLast path
      let l ← (Route.swapsAlong path).foldlM (fun l s => swap l s.1 s.2) l
      finish d m (Route.swapsAlong path) (op.withQubits [stop, q]) l
    else some (.error .disconnected)

/-- What the operations of a list become. -/
def blocks (d : Device β) (m : Nat) :
    Nat → Layout → List (Operation α) → Option (Except RouteError (List (Block α) × Layout))
  | _, l, [] => some (.ok ([], l))
  | i, l, op :: rest => do
    let places ← op.qubits.mapM (placeOf l)
    match ← block d m l places op with
    | .error cause => some (.error (.operation i places cause))
    | .ok made =>
      (blocks d m (i + 1) made.2 rest).map fun more => more.map fun bs => (made.1 :: bs.1, bs.2)

/-- Routes a circuit on a device from an initial layout. -/
def route (c : Circuit α) (d : Device β) (initial : Layout) :
    Option (Except RouteError (Route.Result α)) :=
  match Route.layoutCause? c d initial with
  | some cause => some (.error (.layout cause))
  | none => (blocks d c.numClbits 0 initial.clone c.ops).map fun out => out.map fun bs =>
    ⟨⟨d.numQubits, c.numClbits, bs.1.flatMap Block.ops⟩, bs.2, Route.swapCount bs.1,
      Route.shuttleCount bs.1⟩

end Routing

/-! ## Paths in range -/

section Paths

variable {m : CouplingMap} {p q : Nat}

theorem connected_eq (hp : p < m.size) (hq : q < m.size) :
    connected m p q = some (m.connected p q) := by
  rw [connected, component_eq hp, component_eq hq]
  rfl

theorem walk_eq {target k : Nat} (htarget : target < m.size) (h : m.distance? p target = some k) :
    walk m target k p = some (m.walk target k p) := by
  induction k generalizing p with
  | zero =>
    obtain ⟨rest, hwalk, hdescent⟩ := CouplingMap.walk_descent h
    cases hdescent
    rw [hwalk, walk, if_pos rfl]
  | succ k ih =>
    have hp := (CouplingMap.distance?_eq_some_iff.mp h).1
    have hread : readAll (fun r => distance m r target) (m.neighbours p) =
        some ((m.neighbours p).map fun r => (r, m.distance? r target)) :=
      readAll_eq fun r hr =>
        distance_eq (CouplingMap.lt_size_of_adj (CouplingMap.mem_neighbours.mp hr)).2 htarget
    rw [walk, neighbours_eq hp]
    simp only [Option.bind_eq_bind, Option.bind_some, hread, List.find?_map, Function.comp_def]
    obtain ⟨rest, hwalk, hdescent⟩ := CouplingMap.walk_descent h
    rw [CouplingMap.walk] at hwalk ⊢
    cases hfind : (m.neighbours p).find? fun r => m.distance? r target == some k with
    | none =>
      -- A walk that stopped here would have no step left to take.
      rw [hfind] at hwalk
      cases hwalk
      cases hdescent
    | some r =>
      have hr : m.distance? r target = some k := by
        have := List.find?_some hfind
        simpa using this
      simp only [Option.map_some, Option.bind_some, ih hr]

theorem shortestPath_eq (hp : p < m.size) (hq : q < m.size) {path : List Nat}
    (h : m.shortestPath? p q = some path) : shortestPath m p q = some path := by
  rw [CouplingMap.shortestPath?, Option.map_eq_some_iff] at h
  obtain ⟨steps, hsteps, rfl⟩ := h
  rw [shortestPath, distance_eq hp hq, hsteps]
  exact walk_eq hq hsteps

/-- A path is found exactly between connected qubits. -/
theorem connected_iff (hp : p < m.size) (hq : q < m.size) :
    m.connected p q = true ↔ (m.shortestPath? p q).isSome = true := by
  rw [CouplingMap.connected_iff hp hq, CouplingMap.shortestPath?, Option.isSome_map,
    CouplingMap.isSome_distance?_iff hp]

/-- The last but one qubit is where the last swap ends. -/
theorem secondLast_cons (p q : Nat) (rest : List Nat) :
    secondLast (p :: q :: rest) =
      some (((Route.swapsAlong (p :: q :: rest)).getLast?.map (·.2)).getD p) := by
  rw [secondLast, if_pos (by simp)]
  induction rest generalizing p q with
  | nil => rfl
  | cons r rest ih =>
    rw [Route.swapsAlong, Route.getLast?_cons_getD, ← ih q r]
    rfl

/-- A path between different qubits has a last but one qubit. -/
theorem secondLast_eq (hne : p ≠ q) {path : List Nat} (h : m.shortestPath? p q = some path) :
    secondLast path = some (((Route.swapsAlong path).getLast?.map (·.2)).getD p) := by
  obtain ⟨k, -, rest, rfl, hdescent⟩ := CouplingMap.shortestPath?_eq_some h
  cases hdescent with
  | arrive => exact absurd rfl hne
  | step => exact secondLast_cons _ _ _

end Paths

/-! ## Zones in range -/

/-- A device with qubits has no more zones than qubits. -/
theorem zoneOf_eq {d : Device β} (h : 0 < d.numQubits) (q : Nat) :
    zoneOf d q = some (d.zoneOf q) := by
  have hpos := Device.zoneSize_pos h
  have hzones := d.zones_pos
  rw [zoneOf, if_neg (by omega)]

theorem excursion_eq (d : Device β) (op : Operation α) :
    excursion d op = some (Route.excursion? d op) := by
  rw [excursion, Route.excursion?]
  by_cases hzones : 1 < d.zones
  · -- There are at least as many qubits as zones.
    have hqubits : 0 < d.numQubits := by
      have := d.zones_le
      rw [Device.numQubits]
      omega
    cases hbarrier : op.isBarrier with
    | true => simp
    | false =>
      rcases hops : op.qubits with _ | ⟨p, _ | ⟨q, _ | ⟨r, rest⟩⟩⟩
      · simp
      · simp
      · simp [hzones, zoneOf_eq hqubits]
      · simp
  · rw [if_neg (by simp [hzones])]
    split
    · rw [if_neg (by simp [hzones])]
    · rfl

/-! ## Blocks in range -/

section Blocks

variable {d : Device β} {n m : Nat} {l : Layout}

theorem mapM_placeOf_eq (hl : Ready d n l) {op : Operation α} (hop : ∀ q ∈ op.qubits, q < n) :
    op.qubits.mapM (placeOf l) = some (Route.physicalQubits l op) :=
  mapM_eq fun q hq => by
    obtain ⟨p, hp⟩ := hl.placed q (hop q hq)
    rw [placeOf, physical, getElem?_eq_some_getD (Layout.lt_numLogical hp) none, Option.join_some]
    change l.physical? q = _
    rw [hp]
    rfl

theorem foldlM_swap_eq (hl : Ready d n l) {swaps : List (Nat × Nat)}
    (hcoupled : ∀ s ∈ swaps, d.coupling.graph.Adj s.1 s.2) :
    swaps.foldlM (fun l s => swap l s.1 s.2) l = some (Route.applySwaps l swaps) := by
  refine (foldlM_eq (P := Ready d n) (fun l hl s hs => ?_) hl).1
  have hadj := hcoupled s hs
  obtain ⟨hp, hq⟩ := CouplingMap.lt_size_of_adj hadj
  have hone : ∀ s' ∈ [s], d.coupling.graph.Adj s'.1 s'.2 := by simpa using hadj
  refine ⟨?_, hl.applySwaps hone⟩
  rw [swap, hl.frozen, if_neg (by simp)]
  exact exchange_of_lt (fun _ _ => hl.consistent.logical_lt) (hl.physical ▸ hp) (hl.physical ▸ hq)

variable [NatCast α] {op : Operation α}

theorem finish_eq {swaps : List (Nat × Nat)}
    (hcoupled : ∀ s ∈ swaps, d.coupling.graph.Adj s.1 s.2) (hop : op.WellFormed d.numQubits m)
    (l : Layout) :
    finish d m swaps op l = some (.ok (⟨swaps, op, Route.excursion? d op⟩, l)) := by
  obtain ⟨before, after, hwrapped, hops, -⟩ := Route.block_ops d swaps op
  rw [finish, excursion_eq]
  simp only [Option.bind_eq_bind, Option.bind_some,
    mapM_accept_eq (hops ▸ hwrapped.wellFormed_block hcoupled hop)]

theorem finish_of_swapsFor (hop : op.WellFormed n m) (hl : Ready d n l) {swaps : List (Nat × Nat)}
    (h : Route.swapsFor d (op.withQubits (Route.physicalQubits l op)) = .ok swaps) :
    finish d m swaps (op.withQubits (Route.approach swaps (Route.physicalQubits l op)))
      (Route.applySwaps l swaps) = some (Route.block d l op) := by
  obtain ⟨-, hcoupled, hplaces, -⟩ := Route.swapsFor_spec hop hl h
  have hplaced : Route.Placed (Route.applySwaps l swaps) op
      (op.withQubits (Route.approach swaps (Route.physicalQubits l op))) := ⟨rfl, hplaces⟩
  rw [finish_eq hcoupled (hplaced.wellFormed hop (hl.applySwaps hcoupled)), Route.block]
  simp only [h]

/-- An operation on two qubits is routed along a path if there is one. -/
theorem block_pair (hop : op.WellFormed n m) (hl : Ready d n l) (hbarrier : op.isBarrier = false)
    {p q : Nat} (hpair : Route.physicalQubits l op = [p, q]) :
    block d m l [p, q] op = some (Route.block d l op) := by
  obtain ⟨a, b, -, ha, hb, hne⟩ := Route.exists_pair hop hl hpair
  have hp : p < d.coupling.size := Nat.lt_of_lt_of_eq (hl.consistent.physical_lt ha) hl.physical
  have hq : q < d.coupling.size := Nat.lt_of_lt_of_eq (hl.consistent.physical_lt hb) hl.physical
  have hgate : ¬ (op.withQubits [p, q]).isBarrier = true := Bool.eq_false_iff.mp hbarrier
  rw [block, hbarrier, if_neg (by simp), if_neg (by simp)]
  simp only [List.getElem?_cons_zero, List.getElem?_cons_succ, Option.bind_eq_bind,
    Option.bind_some, connected_eq hp hq]
  cases hpath : d.coupling.shortestPath? p q with
  | none =>
    have hswaps : Route.swapsFor d (op.withQubits (Route.physicalQubits l op)) =
        .error .disconnected := by
      rw [hpair, Route.swapsFor, if_neg hgate]
      simp only [Operation.withQubits, hpath]
    have hconnected : ¬ d.coupling.connected p q = true := by
      rw [connected_iff hp hq, hpath]
      simp
    rw [if_neg hconnected, Route.block]
    simp only [hswaps]
  | some path =>
    have hswaps : Route.swapsFor d (op.withQubits (Route.physicalQubits l op)) =
        .ok (Route.swapsAlong path) := by
      rw [hpair, Route.swapsFor, if_neg hgate]
      simp only [Operation.withQubits, hpath]
    have hconnected : d.coupling.connected p q = true := by
      rw [connected_iff hp hq, hpath]
      rfl
    obtain ⟨-, hcoupled, -⟩ := Route.swapsFor_spec hop hl hswaps
    rw [if_pos hconnected]
    simp only [shortestPath_eq hp hq hpath, secondLast_eq hne hpath, foldlM_swap_eq hl hcoupled,
      Option.bind_some]
    rw [← finish_of_swapsFor hop hl hswaps, hpair, Route.approach]

theorem block_eq (hop : op.WellFormed n m) (hl : Ready d n l) :
    block d m l (Route.physicalQubits l op) op = some (Route.block d l op) := by
  by_cases hstays : op.isBarrier = true ∨ (Route.physicalQubits l op).length ≤ 1
  · have hswaps : Route.swapsFor d (op.withQubits (Route.physicalQubits l op)) = .ok [] := by
      rw [Route.swapsFor]
      split_ifs with hbarrier
      · rfl
      · have hshort := hstays.resolve_left hbarrier
        rcases hqs : Route.physicalQubits l op with _ | ⟨p, _ | ⟨q, rest⟩⟩
        · rfl
        · rfl
        · simp [hqs] at hshort
    have happroach :
        Route.approach [] (Route.physicalQubits l op) = Route.physicalQubits l op := by
      cases Route.physicalQubits l op <;> rfl
    rw [block, if_pos (by simpa using hstays), ← finish_of_swapsFor hop hl hswaps, happroach]
    rfl
  · obtain ⟨hbarrier, hlength⟩ := not_or.mp hstays
    rcases hqs : Route.physicalQubits l op with _ | ⟨p, _ | ⟨q, _ | ⟨r, rest⟩⟩⟩
    · simp [hqs] at hlength
    · simp [hqs] at hlength
    · exact block_pair hop hl (Bool.eq_false_iff.mpr hbarrier) hqs
    · have hswaps : Route.swapsFor d (op.withQubits (Route.physicalQubits l op)) =
          .error (.tooWide op.kind.name (p :: q :: r :: rest).length) := by
        have hgate : ¬ (op.withQubits (p :: q :: r :: rest)).isBarrier = true := hbarrier
        rw [hqs, Route.swapsFor, if_neg hgate]
        rfl
      rw [block, if_neg (by simpa using hbarrier), if_pos (by simp), Route.block]
      simp only [hswaps]

theorem blocks_eq {ops : List (Operation α)} (hops : ∀ op ∈ ops, op.WellFormed n m)
    (hl : Ready d n l) (i : Nat) : blocks d m i l ops = some (Route.blocks d i l ops) := by
  induction ops generalizing l i with
  | nil => rfl
  | cons op rest ih =>
    obtain ⟨hop, hrest⟩ := List.forall_mem_cons.mp hops
    rw [blocks, Route.blocks, mapM_placeOf_eq hl hop.qubits_lt]
    simp only [Option.bind_eq_bind, Option.bind_some, block_eq hop hl]
    cases hblock : Route.block d l op with
    | error cause => rfl
    | ok made =>
      obtain ⟨-, -, -, -, -, -, -, -, -, -, hready⟩ := Route.block_simulates hop hl hblock
      simp only [ih hrest hready, Option.map_some]
      cases Route.blocks d (i + 1) made.2 rest <;> rfl

/-- No step of routing leaves its tables, and the routed circuit accepts all
operations. -/
theorem route_eq {c : Circuit α} (hc : c.WellFormed) (hl : l.Consistent) :
    route c d l = some (Route.route c d l) := by
  rw [route, Route.route]
  cases hcause : Route.layoutCause? c d l with
  | some cause => rfl
  | none =>
    have hready := Route.clone_ready hl hcause
    simp only [blocks_eq hc hready, Option.map_some]
    cases hblocks : Route.blocks d 0 l.clone c.ops with
    | error e => rfl
    | ok made =>
      obtain ⟨hsim, -⟩ := Route.blocks_simulates hc hready hblocks
      have hcircuit := Circuit.ofOperations_eq_ok_iff.mpr ⟨hsim.wellFormed hc hready, rfl⟩
      simp only [hcircuit]
      rfl

end Blocks

end QuantumCompiler.Checked
