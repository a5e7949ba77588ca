import QuantumCompiler.Proofs.Layout.Checked.Groups

/-!
# The choice of a layout with every access checked

The identity is tried first, then come packing, greedy placement and local
improvement, and the exact search at the end.  `choose_eq` says that none of
these steps leaves its tables, for every well-formed circuit, every device and
every budget.

The search keeps the places of the qubits in a layout, so that it can look up
whether a physical qubit is taken.  `Mirrors` ties such a layout to the list of
places of a branch.
-/

namespace QuantumCompiler.Checked

variable {α β : Type}

/-! ## The identity -/

/-- Every logical qubit on the physical qubit of the same number. -/
def identity (logical physical : Nat) : Option Layout :=
  if physical < logical then none
  else (List.range logical).foldlM (fun l q => place l q q) (Layout.empty logical physical)

/-! ## The exact search -/

/-- Counts an interaction as open until its last qubit is placed. -/
def addOpen (rest : Array Nat) (e : Interaction) : Option (Array Nat) :=
  (List.range (max e.a e.b + 1)).foldlM (fun rest k => update rest k (· + e.weight)) rest

/-- The weight of the interactions that are still open when a number of qubits
is placed. -/
def openWeights (g : InteractionGraph) : Option (Array Nat) :=
  g.edges.foldlM addOpen (Array.replicate (g.numQubits + 1) 0)

/-- Compares a placement that agreed with the incumbent so far after one more
qubit. -/
def refine (s : Search.Incumbent) (lex : Ordering) (logical physical : Nat) : Option Ordering :=
  if lex == .eq then s.best[logical]?.map (compare physical) else some lex

/-- Visits the placements of a number of further qubits, from a given one on. -/
def visit (p : Search.Problem) :
    Nat → Nat → Layout → Nat → Ordering → Search.Incumbent → Option Search.Incumbent
  | 0, _, l, cost, lex, s =>
    if p.budget ≤ s.nodes then some s
    else if l.isComplete then
      some (Search.conclude { s with nodes := s.nodes + 1 } (l.l2p.map (·.getD 0)) cost lex)
    else none
  | more + 1, q, l, cost, lex, s =>
    if p.budget ≤ s.nodes then some s
    else
      p.sites.foldlM
        (fun s x => do
          let host ← logical l x
          if host.isSome then some s
          else
            match ← localCost p.graph p.coupling l q x with
            | none => some s
            | some c =>
              let lex ← refine s lex q x
              let rest ← p.rest[q + 1]?
              if Search.hopeless s (cost + c + rest) lex then some s
              else
                let l ← place l q x
                visit p more (q + 1) l (cost + c) lex s)
        { s with nodes := s.nodes + 1 }

/-- The best placement found from a known one of known cost. -/
def search (g : InteractionGraph) (m : CouplingMap) (budget : Nat) (known : Array Nat)
    (cost : Nat) :
    Option Search.Incumbent := do
  let rest ← openWeights g
  visit { Search.Problem.of g m budget with rest } known.size 0
    (Layout.empty known.size m.size) 0 .eq
    ⟨known, cost, 0, false⟩

/-! ## All steps together -/

/-- A placement of all qubits with its cost, from groups and the regions found
for them. -/
def heuristicFrom (g : InteractionGraph) (m : CouplingMap) (groups : List (List Nat)) :
    Option (List Nat) → Option (Except LayoutError (Array Nat × Nat))
  | none => some (.error (.packing groups))
  | some targets => do
    let l ← placeGroups g m groups targets (Layout.empty g.numQubits m.size)
    let cost ← (← costOver m l g.edges)
    let improved ← climb g m ⟨l, cost⟩
    let full ← placeIsolated (List.range g.numQubits) improved.layout
    if full.isComplete then some (.ok (full.l2p.map (·.getD 0), improved.cost)) else none

/-- The layout of a graph of interactions on a coupling map. -/
def ofGraph (g : InteractionGraph) (m : CouplingMap) (budget : Nat) :
    Option (Except LayoutError Layout) := do
  let start ← identity g.numQubits m.size
  let cost ← costOver m start g.edges
  if cost == some g.total then some (.ok start)
  else
    let groups ← groups g
    let regions ← regions m
    let targets ← pack (regions.map List.length) (groups.map List.length)
    match ← heuristicFrom g m groups targets with
    | .error e => some (.error e)
    | .ok known =>
      let found ← search g m budget known.1 known.2
      match Layout.ofPhysicals found.best.toList m.size with
      | .ok l => some (.ok l)
      | .error f => some (.error (.fault f))

/-- A layout of a circuit on a device. -/
def choose (budget : Nat) (c : Circuit α) (d : Device β) : Option (Except LayoutError Layout) :=
  if d.numQubits < c.numQubits then some (.error (.width c.numQubits d.name d.numQubits))
  else do ofGraph (← graph c) d.coupling budget

/-! ## The identity in range -/

theorem identity_eq {logical physical : Nat} (hle : logical ≤ physical) :
    identity logical physical = some (Layout.identity logical physical) := by
  rw [identity, if_neg (Nat.not_lt.mpr hle)]
  refine (foldlM_eq (P := fun l : Layout => l.numLogical = logical ∧ l.numPhysical = physical)
    (fun l hl q hq => ?_) (by simp [Layout.empty, Layout.numLogical, Layout.numPhysical])).1
  have hlt := List.mem_range.mp hq
  have hlt' := Nat.lt_of_lt_of_le hlt hle
  exact ⟨by simp [place, hl.1, hl.2, hlt, hlt'], by simpa using hl⟩

/-! ## Open weights in range -/

theorem getElem?_foldl_modify (w k : Nat) (rest : Array Nat) (i : Nat) :
    ((List.range k).foldl (fun rest i => rest.modify i (· + w)) rest)[i]? =
      rest[i]?.map (· + if i < k then w else 0) := by
  induction k with
  | zero => simp
  | succ k ih =>
    rw [List.range_succ, List.foldl_append, List.foldl_cons, List.foldl_nil,
      Array.getElem?_modify, ih]
    rcases Nat.lt_trichotomy i k with hik | rfl | hik
    · simp [Nat.ne_of_gt hik, hik, Nat.lt_succ_of_lt hik]
    · simp
    · simp [Nat.ne_of_lt hik, Nat.not_lt.mpr (Nat.le_of_lt hik), Nat.not_lt.mpr hik]

/-- The table after an interaction is counted. -/
def opened (rest : Array Nat) (e : Interaction) : Array Nat :=
  (List.range (max e.a e.b + 1)).foldl (fun rest k => rest.modify k (· + e.weight)) rest

theorem addOpen_eq {n : Nat} {rest : Array Nat} (hrest : rest.size = n + 1) {e : Interaction}
    (he : e.a < e.b ∧ e.b < n) :
    addOpen rest e = some (opened rest e) ∧ (opened rest e).size = n + 1 := by
  refine foldlM_eq (P := fun rest : Array Nat => rest.size = n + 1)
    (fun rest hrest k hk => ?_) hrest
  rw [List.mem_range] at hk
  exact ⟨update_eq (by omega) _, by simpa using hrest⟩

theorem getElem?_foldl_opened (es : List Interaction) (rest : Array Nat) (i : Nat) :
    (es.foldl opened rest)[i]? =
      rest[i]?.map (· + sumOf (·.weight) (es.filter fun e => i ≤ max e.a e.b)) := by
  induction es generalizing rest with
  | nil => simp [sumOf]
  | cons e others ih =>
    rw [List.foldl_cons, ih, opened, getElem?_foldl_modify, Option.map_map, List.filter_cons]
    congr 1
    funext entry
    by_cases hi : i ≤ max e.a e.b
    · simp [hi, Nat.lt_succ_of_le hi, sumOf, Nat.add_assoc]
    · simp [hi, Nat.not_lt.mpr (Nat.succ_le_of_lt (Nat.not_le.mp hi))]

theorem openWeights_eq {g : InteractionGraph} (hg : g.Valid) (m : CouplingMap) (budget : Nat) :
    openWeights g = some (Search.Problem.of g m budget).rest := by
  have hfold :=
    foldlM_eq (P := fun rest : Array Nat => rest.size = g.numQubits + 1) (f := addOpen)
    (g := opened) (fun rest hrest e he => addOpen_eq hrest (hg.lt e he))
    (show (Array.replicate (g.numQubits + 1) 0).size = g.numQubits + 1 by simp)
  rw [openWeights, hfold.1]
  refine congrArg some (Array.ext_getElem? fun i => ?_)
  rw [getElem?_foldl_opened]
  by_cases hi : i < g.numQubits + 1 <;> simp [Search.Problem.of, Search.openWeight, hi]

/-! ## The exact search in range -/

section Search

variable {g : InteractionGraph} {m : CouplingMap} {placed : Array Nat} {l : Layout}

/-- A layout that holds the places of the first qubits and no others. -/
structure Mirrors (g : InteractionGraph) (m : CouplingMap) (placed : Array Nat) (l : Layout) :
    Prop where
  inRange : InRange g m l
  places : ∀ q, l.physical? q = placed[q]?
  hosts : ∀ p, (l.logical? p).isSome = placed.contains p

theorem mirrors_empty : Mirrors g m #[] (Layout.empty g.numQubits m.size) where
  inRange :=
    inRange_of_consistent (Layout.empty_consistent _ _)
      (by simp [Layout.empty, Layout.numLogical])
    (by simp [Layout.empty, Layout.numPhysical])
  places q := by simp
  hosts p := by simp

theorem Mirrors.push (hl : Mirrors g m placed l) (hlt : placed.size < g.numQubits) {p : Nat}
    (hp : p < m.size) : Mirrors g m (placed.push p) (l.place placed.size p) where
  inRange := hl.inRange.place (place_eq hl.inRange hlt hp)
  places q := by
    rw [Layout.physical?_place (hl.inRange.logical ▸ hlt), hl.places, Array.getElem?_push]
  hosts x := by
    rw [Layout.logical?_place (hl.inRange.physical ▸ hp)]
    by_cases hx : x = p
    · simp [hx]
    · simp [hx, hl.hosts]

/-- The layout of all qubits holds their places. -/
theorem Mirrors.full (hl : Mirrors g m placed l) (hsize : placed.size = g.numQubits) :
    l.isComplete = true ∧ l.l2p.map (·.getD 0) = placed := by
  have hsize' : l.l2p.size = placed.size := hl.inRange.logical.trans hsize.symm
  have hentry (q : Nat) (hq : q < l.l2p.size) (hq' : q < placed.size) :
      l.l2p[q] = some placed[q] := by
    have hplace := hl.places q
    rwa [Layout.physical?, ← Array.getElem_eq_getD (h := hq) none,
      Array.getElem?_eq_getElem hq'] at hplace
  refine ⟨Array.all_eq_true.mpr fun q hq => by rw [hentry q hq (hsize' ▸ hq)]; rfl, ?_⟩
  refine Array.ext (by rw [Array.size_map, hsize']) fun q hq hq' => ?_
  rw [Array.getElem_map, hentry q (hsize' ▸ hq') hq', Option.getD_some]

theorem refine_eq {s : Search.Incumbent} {q : Nat} (hq : q < s.best.size) (lex : Ordering)
    (x : Nat) : refine s lex q x = some (Search.refine s lex q x) := by
  rw [refine, Search.refine, getElem?_eq_some_getD hq 0, Option.map_some]
  split_ifs <;> rfl

theorem size_best_conclude {n : Nat} {s : Search.Incumbent} {cost : Nat} {lex : Ordering}
    (hs : s.best.size = n) (hplaced : placed.size = n) :
    (Search.conclude s placed cost lex).best.size = n := by
  rw [Search.conclude]
  split_ifs
  · exact hplaced
  · exact hs

theorem visit_eq (hg : g.Valid) {budget more cost : Nat} {lex : Ordering} {s : Search.Incumbent}
    (hl : Mirrors g m placed l) (hmore : placed.size + more = g.numQubits)
    (hs : s.best.size = g.numQubits) :
    visit (Search.Problem.of g m budget) more placed.size l cost lex s =
        some (Search.visit (Search.Problem.of g m budget) more placed cost lex s) ∧
      (Search.visit (Search.Problem.of g m budget) more placed cost lex s).best.size =
      g.numQubits := by
  induction more generalizing placed l cost lex s with
  | zero =>
    obtain ⟨hcomplete, hplaces⟩ := hl.full hmore
    rw [visit, Search.visit, hplaces, if_pos hcomplete]
    split_ifs
    · exact ⟨rfl, hs⟩
    · exact ⟨rfl, size_best_conclude hs hmore⟩
  | succ more ih =>
    rw [visit, Search.visit]
    by_cases hbudget : (Search.Problem.of g m budget).budget ≤ s.nodes
    · rw [if_pos hbudget, if_pos hbudget]
      exact ⟨rfl, hs⟩
    · rw [if_neg hbudget, if_neg hbudget]
      -- The incumbent keeps a place for every qubit from site to site.
      refine foldlM_eq (P := fun s : Search.Incumbent => s.best.size = g.numQubits)
        (fun s hs x hx => ?_) hs
      have hx : x < m.size := List.mem_range.mp hx
      have hlt : placed.size < g.numQubits := by omega
      have hrest : (Search.Problem.of g m budget).rest[placed.size + 1]? =
          some ((Search.Problem.of g m budget).rest.getD (placed.size + 1) 0) :=
        getElem?_eq_some_getD (by simpa [Search.Problem.of] using hlt) 0
      have hlocal : localCost (Search.Problem.of g m budget).graph
          (Search.Problem.of g m budget).coupling l placed.size x =
            some ((Search.Problem.of g m budget).graph.localCost?
              (Search.Problem.of g m budget).coupling
              (fun k => placed[k]?) placed.size x) := by
        rw [← funext hl.places]
        exact localCost_eq hg hl.inRange hlt hx
      simp only [logical_eq hl.inRange hx, Option.bind_eq_bind, Option.bind_some, hl.hosts,
        hlocal, refine_eq (hs ▸ hlt), hrest, place_eq hl.inRange hlt hx]
      split_ifs with htaken
      · exact ⟨rfl, hs⟩
      · cases (Search.Problem.of g m budget).graph.localCost?
          (Search.Problem.of g m budget).coupling
          (fun k => placed[k]?) placed.size x with
        | none => exact ⟨rfl, hs⟩
        | some c =>
          dsimp only
          split_ifs with hhopeless
          · exact ⟨rfl, hs⟩
          · rw [← Array.size_push x]
            exact ih (hl.push hlt hx) (by rw [Array.size_push]; omega) hs

theorem search_eq (hg : g.Valid) {known : Array Nat} (hknown : known.size = g.numQubits)
    (budget cost : Nat) :
    search g m budget known cost = some (Search.search g m budget known cost) := by
  rw [search, openWeights_eq hg m budget, Search.search, hknown]
  exact (visit_eq hg mirrors_empty (by simp) hknown).1

end Search

/-! ## All steps in range -/

theorem heuristicFrom_components (g : InteractionGraph) (m : CouplingMap) :
    heuristicFrom g m g.components
      (Packing.pack (m.components.map List.length) (g.components.map List.length)) =
      heuristic g m := by
  rw [heuristic]
  cases Packing.pack (m.components.map List.length) (g.components.map List.length) <;> rfl

/-- Places for all qubits come out of the steps before the search. -/
theorem size_of_heuristic {g : InteractionGraph} {m : CouplingMap} (hg : g.Valid)
    (hle : g.numQubits ≤ m.size) {known : Array Nat × Nat}
    (h : Layout.heuristic g m = .ok known) : known.1.size = g.numQubits := by
  cases hpack : Packing.pack (m.components.map List.length) (g.components.map List.length) with
  | none => simp only [Layout.heuristic, Layout.greedy, hpack, reduceCtorEq] at h
  | some targets =>
    obtain ⟨l, cost, full, -, -, -, -, hsettles, -, hheuristic⟩ :=
      Layout.heuristic_steps hg hle (Packing.pack_fits hpack)
    rw [hheuristic] at h
    cases h
    rw [Array.size_map]
    exact hsettles.logical

theorem ofGraph_eq {g : InteractionGraph} {m : CouplingMap} (hg : g.Valid)
    (hle : g.numQubits ≤ m.size) (budget : Nat) :
    ofGraph g m budget = some (Layout.ofGraph g m budget) := by
  obtain ⟨hcons, hlogical, hphysical, -⟩ := Layout.identity_spec hle
  have hcost : costOver m (Layout.identity g.numQubits m.size) g.edges =
      some (g.cost? m (Layout.identity g.numQubits m.size).physical?) :=
    costOver_eq (inRange_of_consistent hcons hlogical hphysical) fun e he =>
      ⟨Nat.lt_trans (hg.lt e he).1 (hg.lt e he).2, (hg.lt e he).2⟩
  rw [ofGraph, Layout.ofGraph, identity_eq hle]
  simp only [Option.bind_eq_bind, Option.bind_some, hcost, groups_eq hg, regions_eq, pack_eq,
    heuristicFrom_components, heuristic_eq hg hle]
  split_ifs
  · rfl
  · cases hknown : Layout.heuristic g m with
    | error e => rfl
    | ok known =>
      simp only [search_eq hg (size_of_heuristic hg hle hknown), Option.bind_some]
      cases Layout.ofPhysicals (Search.search g m budget known.1 known.2).best.toList m.size <;>
        rfl

/-- No step of the choice of a layout leaves its tables. -/
theorem choose_eq {c : Circuit α} (hc : c.WellFormed) (d : Device β) (budget : Nat) :
    choose budget c d = some (Layout.choose budget c d) := by
  rw [choose, Layout.choose, graph_eq hc]
  split_ifs with hwidth
  · rfl
  · exact ofGraph_eq (InteractionGraph.valid_ofCircuit hc) (Nat.not_lt.mp hwidth) budget

end QuantumCompiler.Checked
