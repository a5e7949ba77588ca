import Mathlib.Data.List.Lex
import QuantumCompiler.Proofs.Layout.Cost

/-!
# The exact search is exact

A search that is not cut by its budget ends with the least of all placements of
least cost, where placements are compared as lists of places.

* A branch is left only if none of its placements is better than the incumbent:
  what is still open costs at least its weight, as different places are at least
  one step apart (`bound_le_costOf`).
* Placements come up in ascending order.  `Compares` keeps how a branch compares
  with the incumbent as long as it is the one that was known at the start, and
  afterwards the incumbent comes before everything that is still ahead.
* `Passes` is what a part of the search achieves: the incumbent is then as good
  as every placement that this part passes.  `branch_passes` is one place for
  the next qubit, `foldl_passes` all of them, and `explore_passes` the induction
  over the qubits.

`explore` is the search without a budget, and `visit_eq_explore` says when the
budget makes no difference.
-/

namespace QuantumCompiler

/-- Different places for a number of qubits, in the order of the qubits. -/
structure Assignment (n : Nat) (m : CouplingMap) (w : List Nat) : Prop where
  length : w.length = n
  nodup : w.Nodup
  lt : ∀ p ∈ w, p < m.size

/-- Interacting qubits have different places. -/
theorem Assignment.getD_ne {g : InteractionGraph} {m : CouplingMap} {w : List Nat} (hg : g.Valid)
    (hw : Assignment g.numQubits m w) {e : Interaction} (he : e ∈ g.edges) :
    w.getD e.a 0 ≠ w.getD e.b 0 := by
  intro heq
  obtain ⟨hab, hb⟩ := hg.lt e he
  rw [← hw.length] at hb
  rw [List.getD_eq_getElem _ _ hb, List.getD_eq_getElem _ _ (Nat.lt_trans hab hb)] at heq
  exact Nat.ne_of_lt hab ((hw.nodup.getElem_inj_iff).mp heq)

namespace InteractionGraph

variable {g : InteractionGraph} {m : CouplingMap} {f : Nat → Nat}

/-! ## The cost of a branch -/

/-- The cost of the interactions among the first qubits. -/
noncomputable def costBelow (g : InteractionGraph) (m : CouplingMap) (k : Nat)
    (f : Nat → Nat) : ℕ∞ :=
  (g.edges.map fun e => if e.b < k then edgeCost m f e else 0).sum

theorem costBelow_zero : g.costBelow m 0 f = 0 := by
  simp [costBelow]

theorem Valid.costBelow_numQubits (hg : g.Valid) :
    g.costBelow m g.numQubits f = g.costAt m f := by
  rw [costBelow, costAt]
  congr 1
  refine List.map_congr_left fun e he => ?_
  rw [if_pos (hg.lt e he).2]

theorem Valid.costBelow_congr (hg : g.Valid) {k : Nat} {f' : Nat → Nat}
    (h : ∀ q < k, f q = f' q) : g.costBelow m k f = g.costBelow m k f' := by
  rw [costBelow, costBelow]
  congr 1
  refine List.map_congr_left fun e he => ?_
  by_cases hb : e.b < k
  · rw [if_pos hb, if_pos hb, edgeCost, edgeCost, h e.b hb,
      h e.a (Nat.lt_trans (hg.lt e he).1 hb)]
  · rw [if_neg hb, if_neg hb]

/-- The next qubit adds its interactions with the qubits before it. -/
theorem Valid.costBelow_succ (hg : g.Valid) {k : Nat} {place : Nat → Option Nat}
    (hplace : ∀ q, place q = if q < k then some (f q) else none) :
    g.costBelow m (k + 1) f = g.costBelow m k f + (g.edges.map (share m place k (f k))).sum := by
  rw [costBelow, costBelow, ← List.sum_map_add]
  congr 1
  refine List.map_congr_left fun e he => ?_
  have hab := (hg.lt e he).1
  rw [share, Interaction.other?]
  rcases Nat.lt_trichotomy e.b k with hb | rfl | hb
  · have ha : e.a ≠ k := by omega
    simp [hb, hb.ne, ha, Nat.lt_succ_of_lt hb]
  · simp [hplace, hab, hab.ne, edgeCost, SimpleGraph.edist_comm]
  · have hb' : ¬ e.b < k + 1 := by omega
    have hb'' : ¬ e.b < k := by omega
    by_cases ha : e.a = k
    · simp [hplace, ha, hb', hb'']
    · simp [ha, hb.ne', hb', hb'']

theorem Valid.cast_openWeight (hg : g.Valid) (k : Nat) :
    ((Search.openWeight g k : Nat) : ℕ∞) =
      (g.edges.map fun e => if e.b < k then 0 else (e.weight : ℕ∞)).sum := by
  have hlast (e : Interaction) (he : e ∈ g.edges) : max e.a e.b = e.b :=
    Nat.max_eq_right (Nat.le_of_lt (hg.lt e he).1)
  rw [Search.openWeight, cast_sumOf]
  generalize g.edges = es at hlast
  induction es with
  | nil => rfl
  | cons e rest ih =>
    rw [List.forall_mem_cons] at hlast
    rw [List.filter_cons, hlast.1, List.map_cons, List.sum_cons, ← ih hlast.2]
    by_cases hb : e.b < k
    · simp [hb, Nat.not_le.mpr hb]
    · simp [hb, Nat.not_lt.mp hb]

/-- What is open costs at least its weight if no two interacting qubits share a
place. -/
theorem Valid.costBelow_add_le (hg : g.Valid) (hf : ∀ e ∈ g.edges, f e.a ≠ f e.b) (k : Nat) :
    g.costBelow m k f + Search.openWeight g k ≤ g.costAt m f := by
  rw [hg.cast_openWeight, costBelow, ← List.sum_map_add, costAt]
  refine List.sum_le_sum fun e he => ?_
  by_cases hb : e.b < k
  · rw [if_pos hb, if_pos hb, add_zero]
  · rw [if_neg hb, if_neg hb, zero_add, edgeCost]
    have hpos : 1 ≤ m.graph.edist (f e.a) (f e.b) :=
      Order.one_le_iff_pos.mpr (SimpleGraph.edist_pos_of_ne (hf e he))
    calc (e.weight : ℕ∞) = e.weight * 1 := (mul_one _).symm
      _ ≤ e.weight * m.graph.edist (f e.a) (f e.b) := by gcongr

end InteractionGraph

namespace Search

variable {g : InteractionGraph} {m : CouplingMap} {known : List Nat} {s s' : Incumbent}

/-- Places for the first qubits, with the cost of the interactions among them. -/
structure Begins (g : InteractionGraph) (m : CouplingMap) (placed : Array Nat) (cost : Nat) :
    Prop extends
    Partial g m placed where
  cost : g.costBelow m placed.size (fun q => placed.toList.getD q 0) = cost

theorem begins_empty : Begins g m #[] 0 where
  toPartial := partial_empty
  cost := InteractionGraph.costBelow_zero

section Branch

variable {placed : Array Nat} {cost q : Nat}

theorem getD_push_of_lt {k : Nat} (hk : k < placed.size) :
    (placed.push q).toList.getD k 0 = placed.toList.getD k 0 := by
  rw [Array.toList_push, List.getD_append _ _ _ _ (by simpa using hk)]

theorem getD_push_size : (placed.push q).toList.getD placed.size 0 = q := by
  rw [Array.toList_push, List.getD_append_right _ _ _ _ (by simp)]
  simp

/-- The cost of a branch after one more place. -/
theorem Begins.costBelow_push (hg : g.Weighted) (h : Begins g m placed cost)
    (hlt : placed.size < g.numQubits) (hq : q < m.size) :
    g.costBelow m (placed.size + 1) (fun k => (placed.push q).toList.getD k 0) =
      cost + extended (g.localCost? m (fun k => placed[k]?) placed.size q) := by
  have hplace (k : Nat) : placed[k]? =
      if k < placed.size then some ((placed.push q).toList.getD k 0) else none := by
    by_cases hk : k < placed.size
    · rw [if_pos hk, getD_push_of_lt hk]
      simp [hk]
    · rw [if_neg hk, Array.getElem?_eq_none (by omega)]
  rw [hg.costBelow_succ hplace, getD_push_size, ← hg.extended_localCost? hlt hq, ← h.cost]
  congr 1
  exact hg.costBelow_congr fun k hk => getD_push_of_lt hk

theorem Begins.push (hg : g.Weighted) (h : Begins g m placed cost)
    (hlt : placed.size < g.numQubits) (hq : q < m.size) (hfree : placed.contains q = false)
    {c : Nat} (hc : g.localCost? m (fun k => placed[k]?) placed.size q = some c) :
    Begins g m (placed.push q) (cost + c) where
  toPartial := h.toPartial.push hg.toValid hlt hq hfree (Option.isSome_of_eq_some hc)
  cost := by
    rw [Array.size_push, h.costBelow_push hg hlt hq, hc]
    exact (Nat.cast_add cost c).symm

/-- At the end of a branch all qubits have a place. -/
theorem Begins.assignment (h : Begins g m placed cost) (hsize : placed.size = g.numQubits) :
    Assignment g.numQubits m placed.toList :=
  ⟨hsize, h.nodup, h.lt⟩

theorem Begins.costOf_eq (hg : g.Weighted) (h : Begins g m placed cost)
    (hsize : placed.size = g.numQubits) : g.costOf m placed.toList = cost := by
  rw [← h.cost, hsize, hg.costBelow_numQubits]
  rfl

/-- No placement in a branch costs less than the bound of the branch. -/
theorem Begins.bound_le_costOf (hg : g.Weighted) (h : Begins g m placed cost)
    (hlt : placed.size < g.numQubits) (hq : q < m.size) {w : List Nat}
    (hw : Assignment g.numQubits m w) (hbranch : placed.toList ++ [q] <+: w) :
    cost + extended (g.localCost? m (fun k => placed[k]?) placed.size q) +
      openWeight g (placed.size + 1) ≤ g.costOf m w := by
  obtain ⟨rest, rfl⟩ := hbranch
  refine le_trans ?_
    (hg.costBelow_add_le (fun e he => hw.getD_ne hg.toValid he) (placed.size + 1))
  rw [← h.costBelow_push hg hlt hq]
  refine add_le_add_left (le_of_eq (hg.costBelow_congr fun k hk => ?_)) _
  rw [Array.toList_push]
  exact (List.getD_append (placed.toList ++ [q]) rest 0 k (by simp; omega)).symm

end Branch

/-! ## The order of placements -/

/-- Of two branches at the same qubit the one with the smaller place comes
first. -/
theorem lt_of_branch {u w w' : List Nat} {q q' : Nat} (hq : q < q') (h : u ++ [q] <+: w)
    (h' : u ++ [q'] <+: w') : w < w' := by
  obtain ⟨t, rfl⟩ := h
  obtain ⟨t', rfl⟩ := h'
  rw [List.append_assoc, List.append_assoc]
  exact List.append_left_lt (List.cons_lt_cons_iff.mpr (.inl hq))

/-- How the placements of a branch compare with a given one. -/
structure Compares (lex : Ordering) (u v : List Nat) : Prop where
  below : lex = .lt → ∀ w, u <+: w → w < v
  along : lex = .eq → u <+: v
  above : lex = .gt → ∀ w, u <+: w → v < w

theorem Compares.append {lex : Ordering} {u v : List Nat} {q : Nat} (h : Compares lex u v)
    (hlex : lex ≠ .eq) : Compares lex (u ++ [q]) v := by
  have hsub {w : List Nat} (hw : u ++ [q] <+: w) : u <+: w := (List.prefix_append u [q]).trans hw
  exact ⟨fun hl w hw => h.below hl w (hsub hw), fun he => absurd he hlex,
    fun hg w hw => h.above hg w (hsub hw)⟩

/-- The next place decides, unless it is that of the incumbent. -/
theorem Compares.refine {lex : Ordering} {u : List Nat} {q : Nat}
    (h : Compares lex u s.best.toList) (hlt : u.length < s.best.size) :
    Compares (refine s lex u.length q) (u ++ [q]) s.best.toList := by
  cases lex with
  | lt => exact h.append (by decide)
  | gt => exact h.append (by decide)
  | eq =>
    obtain ⟨rest, hrest⟩ := h.along rfl
    have hbest : u ++ [s.best.getD u.length 0] <+: s.best.toList := by
      cases rest with
      | nil =>
        rw [List.append_nil] at hrest
        rw [hrest, Array.length_toList] at hlt
        omega
      | cons p rest =>
        have hp : s.best.getD u.length 0 = p := by
          rw [Array.getD_eq_getD_getElem?, ← Array.getElem?_toList, ← hrest]
          simp
        rw [hp]
        exact ⟨rest, by rw [← hrest, List.append_assoc, List.singleton_append]⟩
    show Compares (compare q (s.best.getD u.length 0)) (u ++ [q]) s.best.toList
    refine ⟨fun hcmp w hw => ?_, fun hcmp => ?_, fun hcmp w hw => ?_⟩
    · exact lt_of_branch (Nat.compare_eq_lt.mp hcmp) hw hbest
    · rw [Nat.compare_eq_eq.mp hcmp]
      exact hbest
    · exact lt_of_branch (Nat.compare_eq_gt.mp hcmp) hbest hw

/-! ## The search without a budget -/

/-- What one more place costs, if the branch is worth a visit. -/
def entered? (g : InteractionGraph) (m : CouplingMap) (placed : Array Nat) (cost : Nat)
    (lex : Ordering) (s : Incumbent) (q : Nat) : Option Nat :=
  if placed.contains q then none
  else (g.localCost? m (fun k => placed[k]?) placed.size q).filter fun c =>
    !hopeless s (cost + c + openWeight g (placed.size + 1)) (refine s lex placed.size q)

/-- One place for the next qubit, with a search for the qubits after it. -/
def branch (g : InteractionGraph) (m : CouplingMap)
    (descend : Array Nat → Nat → Ordering → Incumbent → Incumbent) (placed : Array Nat)
    (cost : Nat) (lex : Ordering) (s : Incumbent) (q : Nat) : Incumbent :=
  (entered? g m placed cost lex s q).elim s fun c =>
    descend (placed.push q) (cost + c) (refine s lex placed.size q) s

/-- The search for a number of further qubits, however many nodes it takes. -/
def explore (g : InteractionGraph) (m : CouplingMap) :
    Nat → Array Nat → Nat → Ordering → Incumbent → Incumbent
  | 0, placed, cost, lex, s => conclude { s with nodes := s.nodes + 1 } placed cost lex
  | more + 1, placed, cost, lex, s =>
    (List.range m.size).foldl (branch g m (explore g m more) placed cost lex)
      { s with nodes := s.nodes + 1 }

section Budget

variable {placed : Array Nat} {cost budget more : Nat} {lex : Ordering}

theorem visit_zero : visit (Problem.of g m budget) 0 placed cost lex s =
    if budget ≤ s.nodes then s else conclude { s with nodes := s.nodes + 1 } placed cost lex := by
  rw [visit]
  rfl

theorem visit_succ (hlt : placed.size < g.numQubits) :
    visit (Problem.of g m budget) (more + 1) placed cost lex s =
      if budget ≤ s.nodes then s
      else (List.range m.size).foldl
        (branch g m (visit (Problem.of g m budget) more) placed cost lex)
        { s with nodes := s.nodes + 1 } := by
  have hrest : (Problem.of g m budget).rest.getD (placed.size + 1) 0 =
      openWeight g (placed.size + 1) := by
    simp [Problem.of, hlt]
  rw [visit, hrest]
  congr 1
  refine congrArg (fun f => List.foldl f _ _) (funext fun s => funext fun q => ?_)
  rw [branch, entered?]
  dsimp only [Problem.of]
  cases placed.contains q with
  | true => rfl
  | false =>
    cases g.localCost? m (fun k => placed[k]?) placed.size q with
    | none => rfl
    | some c =>
      cases hleft : hopeless s (cost + c + openWeight g (placed.size + 1))
        (refine s lex placed.size q) <;> simp [Option.filter, hleft]

theorem nodes_conclude : (conclude s placed cost lex).nodes = s.nodes := by
  rw [conclude]
  split_ifs <;> rfl

/-- Nodes are only added. -/
theorem nodes_le_foldl {descend : Array Nat → Nat → Ordering → Incumbent → Incumbent}
    (hdescend : ∀ placed cost lex s, s.nodes ≤ (descend placed cost lex s).nodes)
    (qs : List Nat) : s.nodes ≤ (qs.foldl (branch g m descend placed cost lex) s).nodes := by
  refine List.foldlRecOn (motive := fun s' : Incumbent => s.nodes ≤ s'.nodes) _ _
    (Nat.le_refl _) ?_
  intro s' hs' q _
  rw [branch]
  cases entered? g m placed cost lex s' q with
  | none => exact hs'
  | some c => exact Nat.le_trans hs' (hdescend _ _ _ _)

theorem nodes_lt_explore : s.nodes < (explore g m more placed cost lex s).nodes := by
  induction more generalizing placed cost lex s with
  | zero =>
    rw [explore, nodes_conclude]
    exact Nat.lt_succ_self _
  | succ more ih =>
    rw [explore]
    exact @nodes_le_foldl g m { s with nodes := s.nodes + 1 } placed cost lex _
      (fun _ _ _ _ => Nat.le_of_lt ih) _

/-- Two searches that agree within the budget agree over all places if the
second one is within the budget at the end. -/
theorem foldl_branch_congr {descend descend' : Array Nat → Nat → Ordering → Incumbent → Incumbent}
    (hadd : ∀ placed cost lex s, s.nodes ≤ (descend' placed cost lex s).nodes)
    (hagree : ∀ q cost lex s, (descend' (placed.push q) cost lex s).nodes ≤ budget →
      descend (placed.push q) cost lex s = descend' (placed.push q) cost lex s) {qs : List Nat}
    (h : (qs.foldl (branch g m descend' placed cost lex) s).nodes ≤ budget) :
    qs.foldl (branch g m descend placed cost lex) s =
      qs.foldl (branch g m descend' placed cost lex) s := by
  induction qs generalizing s with
  | nil => rfl
  | cons q rest ih =>
    rw [List.foldl_cons] at h
    have hbranch := Nat.le_trans (nodes_le_foldl hadd rest) h
    have heq :
        branch g m descend placed cost lex s q = branch g m descend' placed cost lex s q := by
      rw [branch] at hbranch
      rw [branch, branch]
      cases hentered : entered? g m placed cost lex s q with
      | none => rfl
      | some c =>
        rw [hentered] at hbranch
        exact hagree q _ _ s hbranch
    rw [List.foldl_cons, List.foldl_cons, heq]
    exact ih h

/-- A budget that is not exceeded makes no difference. -/
theorem visit_eq_explore (hmore : placed.size + more = g.numQubits)
    (h : (explore g m more placed cost lex s).nodes ≤ budget) :
    visit (Problem.of g m budget) more placed cost lex s =
      explore g m more placed cost lex s := by
  induction more generalizing placed cost lex s with
  | zero =>
    have hcut := Nat.lt_of_lt_of_le nodes_lt_explore h
    rw [visit_zero, if_neg (Nat.not_le.mpr hcut), explore]
  | succ more ih =>
    have hcut := Nat.lt_of_lt_of_le nodes_lt_explore h
    rw [visit_succ (by omega), if_neg (Nat.not_le.mpr hcut), explore]
    refine foldl_branch_congr (fun _ _ _ _ => Nat.le_of_lt nodes_lt_explore) ?_ h
    exact fun q cost lex s hq => ih (by rw [Array.size_push]; omega) hq

/-- A search stays within its budget. -/
theorem nodes_visit_le (hmore : placed.size + more = g.numQubits) (h : s.nodes ≤ budget) :
    (visit (Problem.of g m budget) more placed cost lex s).nodes ≤ budget := by
  induction more generalizing placed cost lex s with
  | zero =>
    rw [visit_zero]
    split_ifs with hcut
    · exact h
    · rw [nodes_conclude]
      show s.nodes + 1 ≤ budget
      omega
  | succ more ih =>
    rw [visit_succ (by omega)]
    split_ifs with hcut
    · exact h
    · refine List.foldlRecOn (motive := fun s : Incumbent => s.nodes ≤ budget) _ _
        (show s.nodes + 1 ≤ budget by omega) ?_
      intro s hs q _
      rw [branch]
      cases entered? g m placed cost lex s q with
      | none => exact hs
      | some c => exact ih (by rw [Array.size_push]; omega) hs

end Budget

/-- The budget does not cut a search: with any larger one it visits no more
nodes. -/
def Uncut (g : InteractionGraph) (m : CouplingMap) (budget : Nat) (known : Array Nat)
    (cost : Nat) : Prop :=
  ∀ more, (search g m (budget + more) known cost).nodes = (search g m budget known cost).nodes

theorem uncut_iff {known : Array Nat} {budget cost : Nat} (hknown : known.size = g.numQubits) :
    Uncut g m budget known cost ↔
      (explore g m known.size #[] 0 .eq ⟨known, cost, 0, false⟩).nodes ≤ budget := by
  have hsize : (#[] : Array Nat).size + known.size = g.numQubits := by
    rw [hknown]
    exact Nat.zero_add _
  constructor
  · intro h
    have hall := h (explore g m known.size #[] 0 .eq ⟨known, cost, 0, false⟩).nodes
    rw [search, search, visit_eq_explore hsize (Nat.le_add_left _ _)] at hall
    rw [hall]
    exact nodes_visit_le hsize (Nat.zero_le _)
  · intro h more
    rw [search, search, visit_eq_explore hsize h,
      visit_eq_explore hsize (Nat.le_trans h (Nat.le_add_right _ _))]

/-! ## What a part of the search achieves -/

/-- The incumbent costs less than a placement, or the same and comes no later. -/
def AsGood (g : InteractionGraph) (m : CouplingMap) (s : Incumbent) (w : List Nat) : Prop :=
  (s.cost : ℕ∞) < g.costOf m w ∨ (s.cost : ℕ∞) = g.costOf m w ∧ s.best.toList ≤ w

theorem asGood_of_le {w : List Nat} (hcost : (s.cost : ℕ∞) ≤ g.costOf m w)
    (hle : s.best.toList ≤ w) : AsGood g m s w :=
  (lt_or_eq_of_le hcost).imp_right fun heq => ⟨heq, hle⟩

theorem AsGood.cost_le {w : List Nat} (h : AsGood g m s w) : (s.cost : ℕ∞) ≤ g.costOf m w :=
  h.elim le_of_lt fun heq => le_of_eq heq.1

/-- The incumbent is a placement of known cost, and the one known at the start
until a better one is found. -/
structure Tracks (g : InteractionGraph) (m : CouplingMap) (known : List Nat) (s : Incumbent) :
    Prop where
  assignment : Assignment g.numQubits m s.best.toList
  cost : g.costOf m s.best.toList = s.cost
  start : s.improved = false → s.best.toList = known

/-- The next place is compared with that of the placement known at the start. -/
theorem Tracks.compares_refine (hs : Tracks g m known s) (hold : s.improved = false)
    {lex : Ordering} {placed : Array Nat} {q : Nat} (h : Compares lex placed.toList known)
    (hlt : placed.size < g.numQubits) :
    Compares (Search.refine s lex placed.size q) (placed.toList ++ [q]) known := by
  rw [← hs.start hold] at h ⊢
  refine h.refine ?_
  have hlength := hs.assignment.length
  rw [Array.length_toList] at hlength ⊢
  omega

/-- A part of the search passes some placements: afterwards the incumbent is as
good as any of them, and if it is a new one it is among them. -/
structure Passes (g : InteractionGraph) (m : CouplingMap) (known : List Nat) (S : List Nat → Prop)
    (s s' : Incumbent) : Prop where
  tracks : Tracks g m known s'
  good : ∀ w, Assignment g.numQubits m w → S w ∨ AsGood g m s w → AsGood g m s' w
  found : s'.improved = true → s.improved = true ∧ s'.best = s.best ∨ S s'.best.toList
  fresh : s'.improved = false → s.improved = false

theorem Passes.of_good {S : List Nat → Prop} (hs : Tracks g m known s)
    (h : ∀ w, Assignment g.numQubits m w → S w → AsGood g m s w) : Passes g m known S s s where
  tracks := hs
  good w hw hor := hor.elim (h w hw) id
  found h := .inl ⟨h, rfl⟩
  fresh h := h

theorem Passes.trans {S T : List Nat → Prop} {s'' : Incumbent} (h : Passes g m known S s s')
    (h' : Passes g m known T s' s'') : Passes g m known (fun w => S w ∨ T w) s s'' where
  tracks := h'.tracks
  good w hw hor := by
    rcases hor with (hS | hT) | hgood
    · exact h'.good w hw (.inr (h.good w hw (.inl hS)))
    · exact h'.good w hw (.inl hT)
    · exact h'.good w hw (.inr (h.good w hw (.inr hgood)))
  found hnew := by
    rcases h'.found hnew with ⟨himproved, hbest⟩ | hT
    · rw [hbest]
      rcases h.found himproved with hold | hS
      · exact .inl hold
      · exact .inr (.inl hS)
    · exact .inr (.inr hT)
  fresh hold := h.fresh (h'.fresh hold)

theorem Passes.congr {S T : List Nat → Prop} (h : Passes g m known S s s')
    (hST : ∀ w, Assignment g.numQubits m w → (S w ↔ T w)) : Passes g m known T s s' where
  tracks := h.tracks
  good w hw hor := h.good w hw (hor.imp_left (hST w hw).mpr)
  found hnew := (h.found hnew).imp_right (hST _ h.tracks.assignment).mp
  fresh := h.fresh

/-- What is known about the incumbent at the beginning of a branch: how the
branch compares with it if it was known at the start, and that it comes before
the branch if it was found. -/
structure Ahead (known u : List Nat) (lex : Ordering) (s : Incumbent) : Prop where
  compares : s.improved = false → Compares lex u known
  late : s.improved = true → ∀ w, u <+: w → s.best.toList < w

theorem Ahead.lt_of_gt {u w : List Nat} {lex : Ordering} (h : Ahead known u lex s)
    (hs : Tracks g m known s) (hlex : s.improved = true ∨ lex = .gt) (hw : u <+: w) :
    s.best.toList < w := by
  cases himproved : s.improved with
  | true => exact h.late himproved w hw
  | false =>
    rw [himproved] at hlex
    rw [hs.start himproved]
    exact (h.compares himproved).above (hlex.resolve_left (by simp)) w hw

section Steps

variable {placed : Array Nat} {cost q more : Nat} {lex : Ordering}

theorem hopeless_eq_true_iff {bound : Nat} : hopeless s bound lex = true ↔
    s.cost < bound ∨ bound = s.cost ∧ (s.improved = true ∨ lex = .gt) := by
  simp [hopeless]

/-- A branch that is left holds nothing better than the incumbent. -/
theorem asGood_of_entered? (hg : g.Weighted) (hbegins : Begins g m placed cost)
    (hlt : placed.size < g.numQubits) (hq : q < m.size) (hs : Tracks g m known s)
    (hahead : Ahead known (placed.toList ++ [q]) (refine s lex placed.size q) s)
    (h : entered? g m placed cost lex s q = none) {w : List Nat} (hw : Assignment g.numQubits m w)
    (hbranch : placed.toList ++ [q] <+: w) : AsGood g m s w := by
  have hbound := hbegins.bound_le_costOf hg hlt hq hw hbranch
  rw [entered?] at h
  split_ifs at h with htaken
  · -- The place is taken.
    have hnodup := hw.nodup.sublist hbranch.sublist
    rw [List.nodup_append'] at hnodup
    have hmem : q ∈ placed.toList := Array.mem_toList_iff.mpr (Array.contains_iff_mem.mp htaken)
    exact absurd (List.mem_singleton_self q) (hnodup.2.2 hmem)
  · cases hc : g.localCost? m (fun k => placed[k]?) placed.size q with
    | none =>
      rw [hc, extended_none, add_top, top_add, top_le_iff] at hbound
      rw [AsGood, hbound]
      exact .inl (ENat.natCast_lt_top _)
    | some c =>
      rw [hc, extended_some] at hbound
      rw [hc, Option.filter_some] at h
      have hleft : hopeless s (cost + c + openWeight g (placed.size + 1))
          (refine s lex placed.size q) = true := by simpa using h
      rw [hopeless_eq_true_iff] at hleft
      have hbound' : ((cost + c + openWeight g (placed.size + 1) : Nat) : ℕ∞) ≤ g.costOf m w := by
        exact_mod_cast hbound
      rcases hleft with hless | ⟨heq, hlex⟩
      · exact .inl (lt_of_lt_of_le (by exact_mod_cast hless) hbound')
      · exact asGood_of_le (heq ▸ hbound') (le_of_lt (hahead.lt_of_gt hs hlex hbranch))

theorem entered?_eq_some {c : Nat} (h : entered? g m placed cost lex s q = some c) :
    placed.contains q = false ∧ g.localCost? m (fun k => placed[k]?) placed.size q = some c := by
  rw [entered?] at h
  split_ifs at h with htaken
  exact ⟨Bool.eq_false_iff.mpr htaken, (Option.filter_eq_some_iff.mp h).1⟩

/-- A complete placement is taken if it is better than the incumbent. -/
theorem conclude_passes (hg : g.Weighted) (hbegins : Begins g m placed cost)
    (hsize : placed.size = g.numQubits) (hs : Tracks g m known s)
    (hahead : Ahead known placed.toList lex s) :
    Passes g m known (placed.toList <+: ·) s (conclude s placed cost lex) := by
  have hplaced := hbegins.assignment hsize
  have hcost := hbegins.costOf_eq hg hsize
  have hwhole {w : List Nat} (hw : Assignment g.numQubits m w) (h : placed.toList <+: w) :
      placed.toList = w := h.eq_of_length (hplaced.length.trans hw.length.symm)
  rw [conclude]
  split_ifs with hbetter
  · simp only [Bool.or_eq_true, Bool.and_eq_true, decide_eq_true_eq, beq_iff_eq,
      Bool.not_eq_true'] at hbetter
    refine ⟨⟨hplaced, hcost, by simp⟩, ?_, fun _ => .inr List.prefix_rfl, by simp⟩
    rintro w hw (hbranch | hold)
    · rw [← hwhole hw hbranch]
      exact .inr ⟨hcost.symm, le_rfl⟩
    · rcases hbetter with hless | ⟨⟨heq, hlex⟩, himproved⟩
      · exact .inl (lt_of_lt_of_le (by exact_mod_cast hless) hold.cost_le)
      · -- Of the same cost, and smaller than the placement known at the start.
        have hsmaller : placed.toList < s.best.toList := by
          rw [hs.start himproved]
          exact (hahead.compares himproved).below hlex _ List.prefix_rfl
        rw [AsGood, heq]
        exact hold.imp_right fun h => ⟨h.1, le_trans (le_of_lt hsmaller) h.2⟩
  · simp only [Bool.or_eq_true, Bool.and_eq_true, decide_eq_true_eq, beq_iff_eq,
      Bool.not_eq_true', not_or, not_and, Nat.not_lt] at hbetter
    refine Passes.of_good hs fun w hw hbranch => ?_
    rw [← hwhole hw hbranch]
    rcases Nat.lt_or_eq_of_le hbetter.1 with hless | heq
    · rw [AsGood, hcost]
      exact .inl (by exact_mod_cast hless)
    · refine asGood_of_le (by rw [hcost, heq]) ?_
      by_cases hlex : s.improved = true ∨ lex = .gt
      · exact le_of_lt (hahead.lt_of_gt hs hlex List.prefix_rfl)
      · -- Neither smaller nor greater than the placement known at the start.
        rw [not_or, Bool.not_eq_true] at hlex
        have hsame : lex = .eq := by
          cases lex with
          | lt => exact absurd hlex.1 (hbetter.2 ⟨heq.symm, rfl⟩)
          | eq => rfl
          | gt => exact absurd rfl hlex.2
        have hknown := (hahead.compares hlex.1).along hsame
        rw [← hs.start hlex.1] at hknown
        exact le_of_eq (hwhole hs.assignment hknown).symm

/-- A search for a number of further qubits passes every branch that it is
given. -/
def PassesBranches (g : InteractionGraph) (m : CouplingMap) (known : List Nat) (more : Nat)
    (descend : Array Nat → Nat → Ordering → Incumbent → Incumbent) : Prop :=
  ∀ placed cost lex s, placed.size + more = g.numQubits → Begins g m placed cost →
    Tracks g m known s → Ahead known placed.toList lex s →
    Passes g m known (placed.toList <+: ·) s (descend placed cost lex s)

/-- One place for the next qubit. -/
theorem branch_passes (hg : g.Weighted)
    {descend : Array Nat → Nat → Ordering → Incumbent → Incumbent}
    (hdescend : PassesBranches g m known more descend) (hbegins : Begins g m placed cost)
    (hmore : placed.size + (more + 1) = g.numQubits) (hq : q < m.size) (hs : Tracks g m known s)
    (hahead : Ahead known (placed.toList ++ [q]) (refine s lex placed.size q) s) :
    Passes g m known (placed.toList ++ [q] <+: ·) s (branch g m descend placed cost lex s q) := by
  rw [branch]
  cases hentered : entered? g m placed cost lex s q with
  | none =>
    exact Passes.of_good hs fun w hw hbranch =>
      asGood_of_entered? hg hbegins (by omega) hq hs hahead hentered hw hbranch
  | some c =>
    obtain ⟨hfree, hc⟩ := entered?_eq_some hentered
    rw [← Array.toList_push] at hahead ⊢
    exact hdescend _ _ _ _ (by rw [Array.size_push]; omega)
      (hbegins.push hg (by omega) hq hfree hc) hs hahead

/-- All places for the next qubit, in ascending order. -/
theorem foldl_passes (hg : g.Weighted)
    {descend : Array Nat → Nat → Ordering → Incumbent → Incumbent}
    (hdescend : PassesBranches g m known more descend) (hbegins : Begins g m placed cost)
    (hmore : placed.size + (more + 1) = g.numQubits) {qs : List Nat}
    (hqs : ∀ q ∈ qs, q < m.size) (hsorted : qs.Pairwise (· < ·)) (hs : Tracks g m known s)
    (hcompares : s.improved = false → Compares lex placed.toList known)
    (hlate : s.improved = true → ∀ q ∈ qs, ∀ w, placed.toList ++ [q] <+: w →
      s.best.toList < w) :
    Passes g m known (fun w => ∃ q ∈ qs, placed.toList ++ [q] <+: w) s
      (qs.foldl (branch g m descend placed cost lex) s) := by
  induction qs generalizing s with
  | nil => exact Passes.of_good hs (by simp)
  | cons q rest ih =>
    rw [List.forall_mem_cons] at hqs
    rw [List.pairwise_cons] at hsorted
    have hahead : Ahead known (placed.toList ++ [q]) (refine s lex placed.size q) s := by
      refine ⟨fun hold => ?_, fun hnew => hlate hnew q List.mem_cons_self⟩
      exact hs.compares_refine hold (hcompares hold) (by omega)
    have hfirst := branch_passes hg hdescend hbegins hmore hqs.1 hs hahead
    have hrest := ih hqs.2 hsorted.2 hfirst.tracks (fun hold => hcompares (hfirst.fresh hold)) ?_
    · refine (hfirst.trans hrest).congr fun w _ => ?_
      simp
    · -- A placement found at this place comes before those at later places.
      intro hnew q' hq' w hw
      rcases hfirst.found hnew with ⟨hold, hbest⟩ | hbranch
      · rw [hbest]
        exact hlate hold q' (List.mem_cons_of_mem q hq') w hw
      · exact lt_of_branch (hsorted.1 q' hq') hbranch hw

/-- The search for the rest of the qubits passes all placements of a branch. -/
theorem explore_passes (hg : g.Weighted) (more : Nat) :
    PassesBranches g m known more (explore g m more) := by
  induction more with
  | zero =>
    intro placed cost lex s hmore hbegins hs hahead
    have h :=
      @conclude_passes g m known { s with nodes := s.nodes + 1 } placed cost lex hg hbegins
      hmore ⟨hs.assignment, hs.cost, hs.start⟩ ⟨hahead.compares, hahead.late⟩
    exact ⟨h.tracks, h.good, h.found, h.fresh⟩
  | succ more ih =>
    intro placed cost lex s hmore hbegins hs hahead
    have h := @foldl_passes g m known { s with nodes := s.nodes + 1 } placed cost more lex hg _ ih
      hbegins hmore _ (fun q => List.mem_range.mp) List.pairwise_lt_range
      ⟨hs.assignment, hs.cost, hs.start⟩ hahead.compares
      (fun hnew q _ w hw => hahead.late hnew w ((List.prefix_append _ [q]).trans hw))
    -- A placement of the branch has a place for the next qubit.
    refine Passes.congr ⟨h.tracks, h.good, h.found, h.fresh⟩ fun w hw => ⟨?_, ?_⟩
    · rintro ⟨q, -, hq⟩
      exact (List.prefix_append _ [q]).trans hq
    · rintro ⟨rest, rfl⟩
      cases rest with
      | nil =>
        have hlength := hw.length
        rw [List.append_nil, Array.length_toList] at hlength
        omega
      | cons q rest =>
        refine ⟨q, List.mem_range.mpr (hw.lt q (by simp)), rest, ?_⟩
        rw [List.append_assoc, List.singleton_append]

end Steps

/-- A search that is not cut ends with a placement of its cost that is as good
as any other. -/
theorem search_asGood (hg : g.Weighted) {known : Array Nat} {budget cost : Nat}
    (hknown : Assignment g.numQubits m known.toList) (hcost : g.costOf m known.toList = cost)
    (h : Uncut g m budget known cost) :
    Tracks g m known.toList (search g m budget known cost) ∧
      ∀ w, Assignment g.numQubits m w → AsGood g m (search g m budget known cost) w := by
  have hsize : (#[] : Array Nat).size + known.size = g.numQubits := by
    rw [← hknown.length]
    exact Nat.zero_add _
  have hpasses :=
    explore_passes hg known.size #[] 0 .eq ⟨known, cost, 0, false⟩ hsize begins_empty
    ⟨hknown, hcost, fun _ => rfl⟩
    ⟨fun _ => ⟨by simp, fun _ => List.nil_prefix, by simp⟩, by simp⟩
  rw [search, visit_eq_explore hsize ((uncut_iff hknown.length).mp h)]
  exact ⟨hpasses.tracks, fun w hw => hpasses.good w hw (.inl List.nil_prefix)⟩

end Search

end QuantumCompiler
