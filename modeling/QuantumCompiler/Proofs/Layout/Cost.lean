import Mathlib.Algebra.BigOperators.Ring.Finset
import Mathlib.Algebra.Order.BigOperators.Group.List
import Mathlib.Data.ENat.Basic
import QuantumCompiler.Proofs.Layout.Choose

/-!
# Costs as sums

The cost of a placement is a sum over all interactions, of weight times
distance, and infinite if an interacting pair is not connected.  `costAt` is
this sum for places given by a function; `cost?` is its value where it is
finite (`extended_costOver`), and `costAt_ofCircuit` says what it is for a
circuit: the weight of a pair is the number of operations on both qubits.

The cost on the way is calculated from single qubits.  `extended_localCost?`
writes the cost of one qubit as a sum over the same interactions, so that costs
can be compared interaction by interaction.  An exchange changes the cost by as
much as it changes that of the two qubits it moves (`exchange_cost`), hence the
cost that local improvement keeps up to date is exact (`climb_exact`).
-/

namespace QuantumCompiler

/-- A cost, infinite if there is none. -/
def extended (cost : Option Nat) : ℕ∞ := cost.elim ⊤ fun k => (k : ℕ∞)

@[simp] theorem extended_none : extended none = ⊤ := rfl

@[simp] theorem extended_some (k : Nat) : extended (some k) = k := rfl

theorem CouplingMap.extended_distance? {m : CouplingMap} {p q : Nat} (hp : p < m.size) :
    extended (m.distance? p q) = m.graph.edist p q := by
  cases hd : m.distance? p q with
  | some k => exact (CouplingMap.distance?_eq_some_iff.mp hd).2.symm
  | none =>
    refine (SimpleGraph.edist_eq_top_of_not_reachable fun hreach => ?_).symm
    have := (CouplingMap.isSome_distance?_iff hp).mpr hreach
    rw [hd] at this
    cases this

theorem cast_mul_top {w : Nat} (hw : 0 < w) : (w : ℕ∞) * ⊤ = ⊤ :=
  ENat.mul_top (by exact_mod_cast hw.ne')

theorem cast_sumOf {β R : Type} [Semiring R] (f : β → Nat) (xs : List β) :
    ((sumOf f xs : Nat) : R) = (xs.map fun x => (f x : R)).sum := by
  induction xs with
  | nil => exact Nat.cast_zero
  | cons x rest ih => rw [sumOf, Nat.cast_add, ih, List.map_cons, List.sum_cons]

theorem sum_map_filterMap {β γ : Type} (f : β → Option γ) (φ : γ → ℕ∞) (xs : List β) :
    ((xs.filterMap f).map φ).sum = (xs.map fun x => (f x).elim 0 φ).sum := by
  induction xs with
  | nil => rfl
  | cons x rest ih =>
    rw [List.filterMap_cons, List.map_cons, List.sum_cons, ← ih]
    cases f x with
    | none => simp
    | some y => simp

namespace InteractionGraph

variable {g : InteractionGraph} {m : CouplingMap} {place : Nat → Option Nat} {f : Nat → Nat}

/-- A valid graph all of whose interactions count. -/
structure Weighted (g : InteractionGraph) : Prop extends Valid g where
  pos : ∀ e ∈ g.edges, 0 < e.weight

/-- The cost of one interaction. -/
noncomputable def edgeCost (m : CouplingMap) (f : Nat → Nat) (e : Interaction) : ℕ∞ :=
  e.weight * m.graph.edist (f e.a) (f e.b)

/-- The cost of all interactions. -/
noncomputable def costAt (g : InteractionGraph) (m : CouplingMap) (f : Nat → Nat) : ℕ∞ :=
  (g.edges.map (edgeCost m f)).sum

theorem costAt_congr {f' : Nat → Nat} (h : ∀ e ∈ g.edges, f e.a = f' e.a ∧ f e.b = f' e.b) :
    g.costAt m f = g.costAt m f' := by
  rw [costAt, costAt]
  congr 1
  refine List.map_congr_left fun e he => ?_
  rw [edgeCost, edgeCost, (h e he).1, (h e he).2]

theorem extended_costOver {es : List Interaction} (hpos : ∀ e ∈ es, 0 < e.weight)
    (hplace : ∀ e ∈ es, place e.a = some (f e.a) ∧ place e.b = some (f e.b) ∧ f e.a < m.size) :
    extended (costOver m place es) = (es.map (edgeCost m f)).sum := by
  induction es with
  | nil => rfl
  | cons e rest ih =>
    rw [List.forall_mem_cons] at hpos hplace
    obtain ⟨⟨ha, hb, hlt⟩, hrest⟩ := hplace
    rw [List.map_cons, List.sum_cons, ← ih hpos.2 hrest, costOver, ha, hb, edgeCost,
      ← CouplingMap.extended_distance? hlt]
    dsimp only
    cases m.distance? (f e.a) (f e.b) <;> cases costOver m place rest <;>
      simp [cast_mul_top hpos.1]

/-- What an interaction adds to the cost of a qubit on a physical qubit, if the
other qubit has a place. -/
noncomputable def share (m : CouplingMap) (place : Nat → Option Nat) (q p : Nat)
    (e : Interaction) : ℕ∞ :=
  (e.other? q).elim 0 fun x => (place x.1).elim 0 fun r => x.2 * m.graph.edist p r

theorem extended_partnersCost {p : Nat} (hp : p < m.size) {xs : List (Nat × Nat)}
    (hpos : ∀ x ∈ xs, 0 < x.2) :
    extended (partnersCost m place p xs) =
      (xs.map fun x => (place x.1).elim 0 fun r => x.2 * m.graph.edist p r).sum := by
  induction xs with
  | nil => rfl
  | cons x rest ih =>
    rw [List.forall_mem_cons] at hpos
    rw [List.map_cons, List.sum_cons, ← ih hpos.2, partnersCost]
    cases place x.1 with
    | none => simp
    | some r =>
      dsimp only [Option.elim_some]
      rw [← CouplingMap.extended_distance? hp]
      cases m.distance? p r <;> cases partnersCost m place p rest <;> simp [cast_mul_top hpos.1]

theorem Weighted.extended_localCost? (hg : g.Weighted) {q p : Nat} (hq : q < g.numQubits)
    (hp : p < m.size) :
    extended (g.localCost? m place q p) = (g.edges.map (share m place q p)).sum := by
  rw [localCost?, hg.partnersOf_eq hq, extended_partnersCost hp, sum_map_filterMap]
  · rfl
  · intro x hx
    obtain ⟨e, he, hother⟩ := List.mem_filterMap.mp hx
    rw [Interaction.other?] at hother
    split_ifs at hother <;> cases hother <;> exact hg.pos e he

end InteractionGraph

/-! ## The costs of a circuit -/

/-- The number of operations other than barriers that act on both of two
qubits. -/
def Circuit.weight {α : Type} (c : Circuit α) (a b : Nat) : Nat :=
  c.ops.countP fun op => !op.isBarrier && op.qubits.contains a && op.qubits.contains b

/-- The pairs of qubits of a circuit, the smaller one first. -/
def Circuit.qubitPairs {α : Type} (c : Circuit α) : Finset (ℕ × ℕ) :=
  (Finset.range c.numQubits ×ˢ Finset.range c.numQubits).filter fun x => x.1 < x.2

namespace Interaction

theorem nodup_pairs {qs : List Nat} (h : qs.Nodup) : (pairs qs).Nodup := by
  induction qs with
  | nil => exact List.nodup_nil
  | cons q rest ih =>
    obtain ⟨hq, hrest⟩ := List.nodup_cons.mp h
    rw [pairs]
    refine List.nodup_append'.mpr ⟨List.Nodup.map_on (fun r hr s hs heq => ?_) hrest,
      ih hrest, ?_⟩
    · have hrq : r ≠ q := fun h => hq (h ▸ hr)
      have hsq : s ≠ q := fun h => hq (h ▸ hs)
      rw [Prod.mk.injEq] at heq
      omega
    · -- The first qubit is in all pairs of the one list and in none of the other.
      intro x hx hx'
      obtain ⟨r, -, rfl⟩ := List.mem_map.mp hx
      obtain ⟨-, hmin, hmax⟩ := (mem_pairs hrest).mp hx'
      rcases Nat.le_total q r with hle | hle
      · rw [Nat.min_eq_left hle] at hmin
        exact hq hmin
      · rw [Nat.max_eq_left hle] at hmax
        exact hq hmax

variable {R : Type} [Semiring R]

theorem sum_count (φ : ℕ × ℕ → R) (p : Nat × Nat) (edges : List Interaction) :
    ((count p edges).map fun e => (e.weight : R) * φ e.ends).sum =
      φ p + (edges.map fun e => (e.weight : R) * φ e.ends).sum := by
  induction edges with
  | nil => simp [count, ends]
  | cons e rest ih =>
    rw [count]
    split_ifs with hlt heq
    · simp [ends]
    · simp only [Bool.and_eq_true, beq_iff_eq] at heq
      have hp : p = e.ends := Prod.ext heq.1 heq.2
      simp only [List.map_cons, List.sum_cons, hp, ends, Nat.cast_add, Nat.cast_one, add_mul,
        one_mul]
      rw [add_comm (_ * _) (φ _), add_assoc]
    · rw [List.map_cons, List.sum_cons, ih, List.map_cons, List.sum_cons, add_left_comm]

/-- Summing over counted pairs is summing over all pairs. -/
theorem sum_tally (φ : ℕ × ℕ → R) (ps : List (Nat × Nat)) :
    ((tally ps).map fun e => (e.weight : R) * φ e.ends).sum = (ps.map φ).sum := by
  induction ps with
  | nil => rfl
  | cons p rest ih =>
    have hstep : tally (p :: rest) = count p (tally rest) := rfl
    rw [hstep, sum_count, ih, List.map_cons, List.sum_cons]

theorem pos_count {p : Nat × Nat} {edges : List Interaction} (h : ∀ e ∈ edges, 0 < e.weight) :
    ∀ e ∈ count p edges, 0 < e.weight := by
  induction edges with
  | nil => simp [count]
  | cons e rest ih =>
    rw [List.forall_mem_cons] at h
    rw [count]
    split_ifs
    · simpa using h
    · simpa using h.2
    · simpa using ⟨h.1, ih h.2⟩

theorem pos_tally (ps : List (Nat × Nat)) : ∀ e ∈ tally ps, 0 < e.weight := by
  induction ps with
  | nil => simp [tally]
  | cons p rest ih => exact pos_count ih

end Interaction

namespace InteractionGraph

variable {α : Type} {c : Circuit α}

theorem weighted_ofCircuit (hc : c.WellFormed) : (ofCircuit c).Weighted where
  toValid := valid_ofCircuit hc
  pos := Interaction.pos_tally _

theorem count_pairs [BEq (ℕ × ℕ)] [LawfulBEq (ℕ × ℕ)] (hc : c.WellFormed) {x : ℕ × ℕ}
    (hx : x.1 < x.2) :
    (c.ops.flatMap fun op => if op.isBarrier then [] else Interaction.pairs op.qubits).count x =
      c.weight x.1 x.2 := by
  obtain ⟨a, b⟩ := x
  have hop (op : Operation α) (hmem : op ∈ c.ops) :
      (if op.isBarrier then [] else Interaction.pairs op.qubits).count (a, b) =
        if (!op.isBarrier && op.qubits.contains a && op.qubits.contains b) = true then 1
        else 0 := by
    cases op.isBarrier with
    | true => rfl
    | false =>
      have hnodup := (hc op hmem).nodup
      simp [(Interaction.nodup_pairs hnodup).count, Interaction.mem_pairs hnodup,
        show a < b from hx]
  rw [Circuit.weight]
  generalize c.ops = ops at hop
  induction ops with
  | nil => rfl
  | cons op rest ih =>
    rw [List.flatMap_cons, List.count_append, List.countP_cons, hop op List.mem_cons_self,
      ih fun o ho => hop o (List.mem_cons_of_mem _ ho), Nat.add_comm]

theorem ends_mem_qubitPairs (hc : c.WellFormed) {e : Interaction} (he : e ∈ (ofCircuit c).edges) :
    e.ends ∈ c.qubitPairs := by
  obtain ⟨hab, hb⟩ := (valid_ofCircuit hc).lt e he
  have hb : e.b < c.numQubits := hb
  simp only [Circuit.qubitPairs, Finset.mem_filter, Finset.mem_product, Finset.mem_range]
  exact ⟨⟨Nat.lt_trans hab hb, hb⟩, hab⟩

/-- Summing over the interactions of a circuit is summing over its pairs of qubits, each
with the number of operations on both. -/
theorem sum_edges_ofCircuit {R : Type} [Semiring R] (hc : c.WellFormed) (φ : ℕ × ℕ → R) :
    ((ofCircuit c).edges.map fun e => (e.weight : R) * φ e.ends).sum =
      ∑ x ∈ c.qubitPairs, (c.weight x.1 x.2 : R) * φ x := by
  obtain ⟨ps, hps⟩ : ∃ ps, ps = c.ops.flatMap fun op =>
    if op.isBarrier then [] else Interaction.pairs op.qubits := ⟨_, rfl⟩
  have hedges : (ofCircuit c).edges = Interaction.tally ps := by
    rw [hps]
    rfl
  have hmem {x : ℕ × ℕ} (hx : x ∈ ps) : x ∈ c.qubitPairs := by
    rw [← Interaction.mem_tally, ← hedges] at hx
    obtain ⟨e, he, rfl⟩ := List.mem_map.mp hx
    exact ends_mem_qubitPairs hc he
  rw [hedges, Interaction.sum_tally, Finset.sum_list_map_count]
  refine (Finset.sum_subset (fun x hx => hmem (List.mem_toFinset.mp hx)) fun x _ hx => ?_).trans
    (Finset.sum_congr rfl fun x hx => ?_)
  · -- Pairs on which no operation acts add nothing.
    rw [List.mem_toFinset] at hx
    rw [@List.count_eq_zero_of_not_mem _ instBEqOfDecidableEq _ x ps hx, zero_nsmul]
  · rw [nsmul_eq_mul, hps,
      @count_pairs _ _ instBEqOfDecidableEq _ hc x (Finset.mem_filter.mp hx).2]

/-- The cost of a circuit is the sum over its pairs of qubits of the number of
operations on both times their distance. -/
theorem costAt_ofCircuit (hc : c.WellFormed) (m : CouplingMap) (f : Nat → Nat) :
    (ofCircuit c).costAt m f =
      ∑ x ∈ c.qubitPairs, (c.weight x.1 x.2 : ℕ∞) * m.graph.edist (f x.1) (f x.2) :=
  sum_edges_ofCircuit hc fun x => m.graph.edist (f x.1) (f x.2)

end InteractionGraph

/-! ## Exchanges -/

open InteractionGraph

variable {g : InteractionGraph} {m : CouplingMap} {l : Layout}

/-- The place of a qubit, where it has one. -/
def Layout.position (l : Layout) (q : Nat) : Nat := (l.physical? q).getD 0

theorem Layout.position_eq {q p : Nat} (h : l.physical? q = some p) : l.position q = p := by
  rw [position, h, Option.getD_some]

/-- Interacting qubits have places. -/
theorem Layout.Serves.placed (hg : g.Valid) (hl : l.Serves g m) {e : Interaction}
    (he : e ∈ g.edges) :
    l.physical? e.a = some (l.position e.a) ∧ l.physical? e.b = some (l.position e.b) ∧
      l.position e.a < m.size := by
  obtain ⟨p, q, ha, hb, hlt, -⟩ := hl.connects e.a e.b (hg.adj_iff.mpr ⟨e, he, .inl ⟨rfl, rfl⟩⟩)
  rw [position_eq ha, position_eq hb]
  exact ⟨ha, hb, hlt⟩

theorem Layout.Serves.extended_cost? (hg : g.Weighted) (hl : l.Serves g m) :
    extended (g.cost? m l.physical?) = g.costAt m l.position :=
  extended_costOver hg.pos fun _ he => hl.placed hg.toValid he

namespace Climb

variable {p q : Nat}

/-- What an interaction adds to the cost of the qubit on a physical qubit. -/
noncomputable def hosted (m : CouplingMap) (l : Layout) (p : Nat) (e : Interaction) : ℕ∞ :=
  if l.position e.a = p ∨ l.position e.b = p then edgeCost m l.position e else 0

theorem extended_costOf (hg : g.Weighted) (hl : l.Serves g m) (hp : p < m.size) :
    extended (costOf g m l (l.logical? p)) = (g.edges.map (hosted m l p)).sum := by
  have hat {e : Interaction} (he : e ∈ g.edges) :
      (l.position e.a = p ↔ l.logical? p = some e.a) ∧
      (l.position e.b = p ↔ l.logical? p = some e.b) := by
    obtain ⟨ha, hb, -⟩ := hl.placed hg.toValid he
    rw [← hl.consistent, ← hl.consistent, ha, hb, Option.some.injEq, Option.some.injEq]
    exact ⟨Iff.rfl, Iff.rfl⟩
  cases hhost : l.logical? p with
  | none =>
    have hzero : g.edges.map (hosted m l p) = g.edges.map fun _ => 0 := by
      refine List.map_congr_left fun e he => ?_
      simp [hosted, hat he, hhost]
    rw [hzero, List.sum_map_zero]
    rfl
  | some k =>
    have hk := (hl.consistent k p).mpr hhost
    have hlt : k < g.numQubits := hl.logical ▸ Layout.lt_numLogical hk
    rw [costOf, hk]
    dsimp only
    rw [hg.extended_localCost? hlt hp]
    congr 1
    refine List.map_congr_left fun e he => ?_
    obtain ⟨ha, hb, -⟩ := hl.placed hg.toValid he
    simp only [share, hosted, (hat he).1, (hat he).2, hhost, Option.some.injEq,
      Interaction.other?, edgeCost]
    by_cases hka : k = e.a
    · subst hka
      simp [hb, Layout.position_eq hk]
    · by_cases hkb : k = e.b
      · subst hkb
        simp [ha, Layout.position_eq hk, Ne.symm hka, SimpleGraph.edist_comm]
      · simp [hka, hkb, Ne.symm hka, Ne.symm hkb]

/-- Exchanging two vertices keeps the distance of a pair that has none of them
or both. -/
theorem edist_swap {G : SimpleGraph ℕ} {x y : Nat} (h : x = p ∨ y = p ↔ x = q ∨ y = q) :
    G.edist (Equiv.swap p q x) (Equiv.swap p q y) = G.edist x y := by
  by_cases hp : x = p ∨ y = p
  · rcases hp with rfl | rfl
    · rcases h.mp (.inl rfl) with rfl | rfl
      · simp
      · simp [SimpleGraph.edist_comm]
    · rcases h.mp (.inr rfl) with rfl | rfl
      · simp [SimpleGraph.edist_comm]
      · simp
  · have hq : ¬ (x = q ∨ y = q) := fun hq => hp (h.mpr hq)
    rw [not_or] at hp hq
    rw [Equiv.swap_apply_of_ne_of_ne hp.1 hq.1, Equiv.swap_apply_of_ne_of_ne hp.2 hq.2]

/-- An exchange changes the cost of all interactions by as much as it changes
the costs of the two qubits it moves. -/
theorem exchange_cost (hg : g.Valid) (hl : l.Serves g m) (p q : Nat) :
    g.costAt m (l.exchange p q).position +
        ((g.edges.map (hosted m l p)).sum + (g.edges.map (hosted m l q)).sum) =
      g.costAt m l.position + ((g.edges.map (hosted m (l.exchange p q) q)).sum +
        (g.edges.map (hosted m (l.exchange p q) p)).sum) := by
  simp only [costAt, ← List.sum_map_add]
  congr 1
  refine List.map_congr_left fun e he => ?_
  obtain ⟨ha, hb, -⟩ := hl.placed hg he
  have hmoved {k : Nat} (hk : l.physical? k = some (l.position k)) :
      (l.exchange p q).position k = Equiv.swap p q (l.position k) := by
    refine Layout.position_eq ?_
    rw [hl.consistent.physical?_exchange, hk]
    rfl
  have hat (x : Nat) : (Equiv.swap p q x = q ↔ x = p) ∧ (Equiv.swap p q x = p ↔ x = q) := by
    rw [Equiv.swap_apply_eq_iff, Equiv.swap_apply_eq_iff, Equiv.swap_apply_right,
      Equiv.swap_apply_left]
    exact ⟨Iff.rfl, Iff.rfl⟩
  simp only [hosted, edgeCost, hmoved ha, hmoved hb, hat]
  by_cases hpq : l.position e.a = p ∨ l.position e.b = p ↔ l.position e.a = q ∨ l.position e.b = q
  · -- An interaction with neither of the two, or between them, keeps its cost.
    rw [edist_swap hpq]
  · by_cases hp : l.position e.a = p ∨ l.position e.b = p
    · have hq : ¬ (l.position e.a = q ∨ l.position e.b = q) := fun hq => hpq (iff_of_true hp hq)
      rw [if_pos hp, if_pos hp, if_neg hq, if_neg hq, add_zero, add_zero, add_comm]
    · have hq : l.position e.a = q ∨ l.position e.b = q := by
        by_contra hq
        exact hpq (iff_of_false hp hq)
      rw [if_neg hp, if_neg hp, if_pos hq, if_pos hq, zero_add, zero_add, add_comm]

theorem extended_pairCost {a b : Option Nat} :
    extended (pairCost g m l a b) = extended (costOf g m l a) + extended (costOf g m l b) := by
  rw [pairCost]
  cases costOf g m l a <;> cases costOf g m l b <;> simp

/-- The cost that is kept up to date is the cost of the placement. -/
def State.Exact (g : InteractionGraph) (m : CouplingMap) (s : State) : Prop :=
  g.cost? m s.layout.physical? = some s.cost

variable {s : State}

theorem tryExchange_exact (hg : g.Weighted) (hs : s.layout.Serves g m) (hexact : s.Exact g m)
    (hp : p < m.size) (hq : q < m.size) : (tryExchange g m s p q).1.Exact g m := by
  rcases tryExchange_cases g m s p q with hstay | ⟨before, after, hbefore, hafter, hbetter, hmade⟩
  · rwa [hstay]
  · rw [hmade]
    have hs' := exchange_serves hg.toValid hs hp hq hafter
    have hhost (r : Nat) : (s.layout.exchange p q).logical? r =
        s.layout.logical? (Equiv.swap p q r) :=
      Layout.logical?_exchange (hs.physical ▸ hp) (hs.physical ▸ hq) r
    have hbefore' : (before : ℕ∞) = (g.edges.map (hosted m s.layout p)).sum +
        (g.edges.map (hosted m s.layout q)).sum := by
      rw [← extended_some, ← hbefore, extended_pairCost, extended_costOf hg hs hp,
        extended_costOf hg hs hq]
    have hafter' : (after : ℕ∞) = (g.edges.map (hosted m (s.layout.exchange p q) q)).sum +
        (g.edges.map (hosted m (s.layout.exchange p q) p)).sum := by
      rw [← extended_some, ← hafter, extended_pairCost, ← extended_costOf hg hs' hp,
        ← extended_costOf hg hs' hq, hhost, hhost, Equiv.swap_apply_right, Equiv.swap_apply_left]
    obtain ⟨cost, hcost⟩ :=
      Option.isSome_iff_exists.mp (hg.toValid.isSome_cost?_iff.mpr hs'.connects)
    have hsum : cost + before = s.cost + after := by
      have := exchange_cost hg.toValid hs p q
      rw [← hs'.extended_cost? hg, ← hs.extended_cost? hg, hcost,
        show g.cost? m s.layout.physical? = some s.cost from hexact, extended_some,
        extended_some, ← hbefore', ← hafter'] at this
      exact_mod_cast this
    show g.cost? m (s.layout.exchange p q).physical? = some (s.cost - (before - after))
    rw [hcost, Option.some.injEq]
    omega

/-- All rounds together keep the cost exact. -/
theorem climb_exact (hg : g.Weighted) (hs : s.layout.Serves g m) (hexact : s.Exact g m) :
    (climb g m s).Exact g m := by
  refine (climb_keeps (P := fun t => t.layout.Serves g m ∧ t.Exact g m) ?_ ⟨hs, hexact⟩).2
  intro p hp q hq t ht
  rw [hs.physical] at hp hq
  exact ⟨tryExchange_serves hg.toValid ht.1 hp hq, tryExchange_exact hg ht.1 ht.2 hp hq⟩

end Climb

/-! ## The cost before the search -/

/-- The cost of places that are given in order. -/
noncomputable def InteractionGraph.costOf (g : InteractionGraph) (m : CouplingMap)
    (w : List Nat) : ℕ∞ :=
  g.costAt m fun q => w.getD q 0

namespace Layout

/-- Groups that fit lead to places for all qubits, of known cost. -/
theorem heuristic_exact (hg : g.Weighted) (hle : g.numQubits ≤ m.size) {targets : List Nat}
    (hfits : Packing.Fits (m.components.map List.length) (g.components.map List.length) targets) :
    ∃ known cost, heuristic g m = .ok (known, cost) ∧ Search.Full g m known ∧
      g.costOf m known.toList = cost := by
  obtain ⟨l, cost, full, -, hserves, hcost, -, hfull, hkeep, hheuristic⟩ :=
    heuristic_steps hg.toValid hle hfits
  have hgood := @Climb.climb_serves g m ⟨l, cost⟩ hg.toValid hserves
  have hexact := @Climb.climb_exact g m ⟨l, cost⟩ hg hserves hcost
  refine ⟨_, _, hheuristic, full_of_settles hg.toValid hfull, ?_⟩
  generalize Climb.climb g m ⟨l, cost⟩ = improved at hgood hexact hkeep
  have hposition (q : Nat) : (full.l2p.map (·.getD 0)).toList.getD q 0 = full.position q := by
    rw [position, physical?, Array.getD_eq_getD_getElem?, List.getD_eq_getElem?_getD,
      Array.getElem?_toList, Array.getElem?_map]
    cases full.l2p[q]? <;> rfl
  calc g.costOf m (full.l2p.map (·.getD 0)).toList
      = g.costAt m full.position := by simp only [costOf, hposition]
    _ = g.costAt m improved.layout.position := by
        refine costAt_congr fun e he => ?_
        obtain ⟨ha, hb, -⟩ := hgood.placed hg.toValid he
        exact ⟨position_eq (hkeep _ _ ha), position_eq (hkeep _ _ hb)⟩
    _ = improved.cost := by
        rw [← hgood.extended_cost? hg,
          show g.cost? m improved.layout.physical? = some improved.cost from hexact,
          extended_some]

end Layout

end QuantumCompiler
