import QuantumCompiler.Layout.Interaction
import QuantumCompiler.Proofs.Device.Distance
import QuantumCompiler.Proofs.WellFormed

/-!
# The graph of interactions

Two qubits are adjacent in `InteractionGraph.graph` exactly when some operation
other than a barrier acts on both (`graph_ofCircuit_adj`).  `cost?` and
`localCost?` have a value exactly when the qubits in question are placed within
reach of each other, whatever the weights are.

`components` splits the interacting qubits into groups.  A group is closed
under interaction, and any two of its qubits are connected by interactions.
-/

namespace QuantumCompiler

namespace Interaction

/-- The two qubits of an interaction. -/
def ends (e : Interaction) : Edge := (e.a, e.b)

/-! ## Counting pairs -/

theorem mem_pairs {qs : List Nat} (hqs : qs.Nodup) {a b : Nat} :
    (a, b) ∈ pairs qs ↔ a < b ∧ a ∈ qs ∧ b ∈ qs := by
  induction qs with
  | nil => simp [pairs]
  | cons q rest ih =>
    obtain ⟨hq, hrest⟩ := List.nodup_cons.mp hqs
    have hfirst : (∃ r ∈ rest, (min q r, max q r) = (a, b)) ↔
        a < b ∧ (a = q ∧ b ∈ rest ∨ b = q ∧ a ∈ rest) := by
      constructor
      · intro ⟨r, hr, h⟩
        have hne : q ≠ r := fun h => hq (h ▸ hr)
        simp only [Prod.mk.injEq] at h
        rcases Nat.lt_or_ge q r with hlt | hge
        · obtain rfl : q = a := by omega
          obtain rfl : r = b := by omega
          exact ⟨hlt, .inl ⟨rfl, hr⟩⟩
        · obtain rfl : r = a := by omega
          obtain rfl : q = b := by omega
          exact ⟨by omega, .inr ⟨rfl, hr⟩⟩
      · intro ⟨hlt, h⟩
        rcases h with ⟨rfl, hb⟩ | ⟨rfl, ha⟩
        · exact ⟨b, hb, by rw [Nat.min_eq_left (by omega), Nat.max_eq_right (by omega)]⟩
        · exact ⟨a, ha, by rw [Nat.min_eq_right (by omega), Nat.max_eq_left (by omega)]⟩
    rw [pairs, List.mem_append, List.mem_map, hfirst, ih hrest, List.mem_cons, List.mem_cons]
    constructor
    · intro h
      rcases h with ⟨hlt, ⟨rfl, hb⟩ | ⟨rfl, ha⟩⟩ | ⟨hlt, ha, hb⟩
      · exact ⟨hlt, .inl rfl, .inr hb⟩
      · exact ⟨hlt, .inr ha, .inl rfl⟩
      · exact ⟨hlt, .inr ha, .inr hb⟩
    · intro ⟨hlt, ha, hb⟩
      rcases ha with rfl | ha <;> rcases hb with rfl | hb
      · omega
      · exact .inl ⟨hlt, .inl ⟨rfl, hb⟩⟩
      · exact .inl ⟨hlt, .inr ⟨rfl, ha⟩⟩
      · exact .inr ⟨hlt, ha, hb⟩

theorem mem_count {p x : Nat × Nat} {edges : List Interaction} :
    x ∈ (count p edges).map ends ↔ x = p ∨ x ∈ edges.map ends := by
  induction edges with
  | nil => simp [count, ends]
  | cons e rest ih =>
    rw [count]
    split_ifs with hlt heq
    · simp [ends]
    · simp only [Bool.and_eq_true, beq_iff_eq] at heq
      have hp : p = ends e := Prod.ext heq.1 heq.2
      have hsame : ends { e with weight := e.weight + 1 } = ends e := rfl
      rw [List.map_cons, List.map_cons, hsame, List.mem_cons, hp]
      tauto
    · rw [List.map_cons, List.map_cons, List.mem_cons, ih, List.mem_cons]
      tauto

/-- Counting keeps each pair and adds none. -/
theorem mem_tally {ps : List (Nat × Nat)} {x : Nat × Nat} :
    x ∈ (tally ps).map ends ↔ x ∈ ps := by
  induction ps with
  | nil => simp [tally]
  | cons p rest ih =>
    have hstep : tally (p :: rest) = count p (tally rest) := rfl
    rw [hstep, mem_count, ih, List.mem_cons]

end Interaction

namespace InteractionGraph

/-- The interacting pairs are in ascending order and below the number of
qubits, and the table of partners is that of the pairs. -/
structure Valid (g : InteractionGraph) : Prop where
  lt : ∀ e ∈ g.edges, e.a < e.b ∧ e.b < g.numQubits
  partners : g = ofEdges g.numQubits g.edges

/-- The graph of the interacting pairs. -/
def graph (g : InteractionGraph) : SimpleGraph ℕ := edgeGraph (g.edges.map Interaction.ends)

variable {g : InteractionGraph} {m : CouplingMap}

theorem Valid.edges_valid (hg : g.Valid) :
    EdgesValid g.numQubits (g.edges.map Interaction.ends) := by
  intro x hx
  obtain ⟨e, he, rfl⟩ := List.mem_map.mp hx
  obtain ⟨hab, hb⟩ := hg.lt e he
  exact ⟨Nat.lt_trans hab hb, hb, Nat.ne_of_lt hab⟩

theorem Valid.adj_iff (hg : g.Valid) {a b : Nat} :
    g.graph.Adj a b ↔ ∃ e ∈ g.edges, e.a = a ∧ e.b = b ∨ e.a = b ∧ e.b = a := by
  rw [graph, edgeGraph_adj hg.edges_valid, List.mem_map, List.mem_map]
  constructor
  · intro h
    rcases h with ⟨e, he, h⟩ | ⟨e, he, h⟩
    · exact ⟨e, he, .inl (Prod.mk.injEq .. ▸ h)⟩
    · exact ⟨e, he, .inr (Prod.mk.injEq .. ▸ h)⟩
  · intro ⟨e, he, h⟩
    rcases h with ⟨rfl, rfl⟩ | ⟨rfl, rfl⟩
    · exact .inl ⟨e, he, rfl⟩
    · exact .inr ⟨e, he, rfl⟩

theorem Valid.lt_of_adj (hg : g.Valid) {a b : Nat} (h : g.graph.Adj a b) :
    a < g.numQubits ∧ b < g.numQubits := QuantumCompiler.lt_of_adj hg.edges_valid h

theorem mem_ends_ofCircuit {α : Type} {c : Circuit α} (hc : c.WellFormed) {a b : Nat} :
    (a, b) ∈ (ofCircuit c).edges.map Interaction.ends ↔
      a < b ∧ ∃ op ∈ c.ops, op.isBarrier = false ∧ a ∈ op.qubits ∧ b ∈ op.qubits := by
  rw [ofCircuit, ofEdges, Interaction.mem_tally, List.mem_flatMap]
  constructor
  · intro ⟨op, hop, h⟩
    split_ifs at h with hbarrier
    · simp at h
    · obtain ⟨hlt, ha, hb⟩ := (Interaction.mem_pairs (hc op hop).nodup).mp h
      exact ⟨hlt, op, hop, by simpa using hbarrier, ha, hb⟩
  · intro ⟨hlt, op, hop, hbarrier, ha, hb⟩
    refine ⟨op, hop, ?_⟩
    rw [hbarrier]
    exact (Interaction.mem_pairs (hc op hop).nodup).mpr ⟨hlt, ha, hb⟩

theorem valid_ofCircuit {α : Type} {c : Circuit α} (hc : c.WellFormed) : (ofCircuit c).Valid where
  lt e he := by
    have hmem : (e.a, e.b) ∈ (ofCircuit c).edges.map Interaction.ends :=
      List.mem_map_of_mem he
    obtain ⟨hlt, op, hop, -, -, hb⟩ := (mem_ends_ofCircuit hc).mp hmem
    exact ⟨hlt, (hc op hop).qubits_lt _ hb⟩
  partners := rfl

/-- Qubits are adjacent exactly when some operation other than a barrier acts
on both. -/
theorem graph_ofCircuit_adj {α : Type} {c : Circuit α} (hc : c.WellFormed) {a b : Nat} :
    (ofCircuit c).graph.Adj a b ↔
      a ≠ b ∧ ∃ op ∈ c.ops, op.isBarrier = false ∧ a ∈ op.qubits ∧ b ∈ op.qubits := by
  rw [graph, edgeGraph_adj (valid_ofCircuit hc).edges_valid, mem_ends_ofCircuit hc,
    mem_ends_ofCircuit hc]
  constructor
  · intro h
    rcases h with ⟨hlt, op, hop, hbarrier, ha, hb⟩ | ⟨hlt, op, hop, hbarrier, hb, ha⟩
    · exact ⟨by omega, op, hop, hbarrier, ha, hb⟩
    · exact ⟨by omega, op, hop, hbarrier, ha, hb⟩
  · intro ⟨hne, op, hop, hbarrier, ha, hb⟩
    rcases Nat.lt_or_gt_of_ne hne with hlt | hlt
    · exact .inl ⟨hlt, op, hop, hbarrier, ha, hb⟩
    · exact .inr ⟨hlt, op, hop, hbarrier, hb, ha⟩

/-! ## Partners -/

theorem Valid.partnersOf_eq (hg : g.Valid) {q : Nat} (hq : q < g.numQubits) :
    g.partnersOf q = g.edges.filterMap (·.other? q) := by
  rw [partnersOf, hg.partners]
  simp [ofEdges, hq]

theorem Valid.mem_partnersOf (hg : g.Valid) {q r : Nat} (hq : q < g.numQubits) :
    (∃ w, (r, w) ∈ g.partnersOf q) ↔ g.graph.Adj q r := by
  rw [hg.partnersOf_eq hq, hg.adj_iff]
  simp only [List.mem_filterMap, Interaction.other?]
  constructor
  · intro ⟨w, e, he, h⟩
    split_ifs at h with ha hb
    · simp only [beq_iff_eq] at ha
      cases h
      exact ⟨e, he, .inl ⟨ha, rfl⟩⟩
    · simp only [beq_iff_eq] at hb
      cases h
      exact ⟨e, he, .inr ⟨rfl, hb⟩⟩
  · intro ⟨e, he, h⟩
    have hne : e.a ≠ e.b := Nat.ne_of_lt (hg.lt e he).1
    rcases h with ⟨rfl, rfl⟩ | ⟨rfl, rfl⟩
    · exact ⟨e.weight, e, he, by simp⟩
    · exact ⟨e.weight, e, he, by simp [hne]⟩

theorem Valid.interacting_iff (hg : g.Valid) {q : Nat} (hq : q < g.numQubits) :
    g.interacting q = true ↔ ∃ r, g.graph.Adj q r := by
  have hnonempty : g.interacting q = true ↔ ∃ x, x ∈ g.partnersOf q := by
    rw [interacting, Bool.not_eq_true', List.isEmpty_eq_false_iff_exists_mem]
  rw [hnonempty]
  constructor
  · intro ⟨x, hx⟩
    exact ⟨x.1, (hg.mem_partnersOf hq).mp ⟨x.2, hx⟩⟩
  · intro ⟨r, hr⟩
    obtain ⟨w, hw⟩ := (hg.mem_partnersOf hq).mpr hr
    exact ⟨_, hw⟩

/-! ## Costs -/

theorem isSome_partnersCost_iff {place : Nat → Option Nat} {p : Nat}
    {partners : List (Nat × Nat)} :
    (partnersCost m place p partners).isSome = true ↔
      ∀ x ∈ partners, ∀ q, place x.1 = some q → (m.distance? p q).isSome = true := by
  induction partners with
  | nil => simp [partnersCost]
  | cons x rest ih =>
    rw [List.forall_mem_cons, ← ih, partnersCost]
    cases hplace : place x.1 with
    | none => simp
    | some q => cases hdist : m.distance? p q <;> cases partnersCost m place p rest <;>
        simp [hdist]

/-- A qubit has a cost on a physical qubit exactly when its partners are within
reach there. -/
theorem Valid.isSome_localCost?_iff (hg : g.Valid) {place : Nat → Option Nat} {q p : Nat}
    (hq : q < g.numQubits) (hp : p < m.size) :
    (g.localCost? m place q p).isSome = true ↔
      ∀ r p', g.graph.Adj q r → place r = some p' → m.graph.Reachable p p' := by
  rw [localCost?, isSome_partnersCost_iff]
  constructor
  · intro h r p' hadj hplace
    obtain ⟨w, hw⟩ := (hg.mem_partnersOf hq).mpr hadj
    exact (CouplingMap.isSome_distance?_iff hp).mp (h _ hw p' hplace)
  · intro h x hx p' hplace
    have hadj := (hg.mem_partnersOf hq).mp ⟨x.2, hx⟩
    exact (CouplingMap.isSome_distance?_iff hp).mpr (h x.1 p' hadj hplace)

/-- Any two interacting qubits have places within reach of each other. -/
def Connects (g : InteractionGraph) (m : CouplingMap) (place : Nat → Option Nat) : Prop :=
  ∀ a b, g.graph.Adj a b → ∃ p q, place a = some p ∧ place b = some q ∧ p < m.size ∧
    m.graph.Reachable p q

theorem isSome_costOver_iff {place : Nat → Option Nat} {edges : List Interaction} :
    (costOver m place edges).isSome = true ↔
      ∀ e ∈ edges, ∃ p q, place e.a = some p ∧ place e.b = some q ∧
        (m.distance? p q).isSome = true := by
  induction edges with
  | nil => simp [costOver]
  | cons e rest ih =>
    rw [List.forall_mem_cons, ← ih, costOver]
    cases place e.a with
    | none => simp
    | some p =>
      cases place e.b with
      | none => simp
      | some q => cases hdist : m.distance? p q <;> cases costOver m place rest <;> simp [hdist]

/-- A placement has a cost exactly when it connects all interacting qubits. -/
theorem Valid.isSome_cost?_iff (hg : g.Valid) {place : Nat → Option Nat} :
    (g.cost? m place).isSome = true ↔ g.Connects m place := by
  rw [cost?, isSome_costOver_iff]
  constructor
  · intro h a b hadj
    obtain ⟨e, he, hends⟩ := hg.adj_iff.mp hadj
    obtain ⟨p, q, hp, hq, hdist⟩ := h e he
    obtain ⟨k, hk⟩ := Option.isSome_iff_exists.mp hdist
    have hp' : p < m.size := (CouplingMap.distance?_eq_some_iff.mp hk).1
    have hreach := (CouplingMap.isSome_distance?_iff hp').mp hdist
    rcases hends with ⟨rfl, rfl⟩ | ⟨rfl, rfl⟩
    · exact ⟨p, q, hp, hq, hp', hreach⟩
    · exact ⟨q, p, hq, hp, CouplingMap.lt_size_of_reachable hp' hreach, hreach.symm⟩
  · intro h e he
    obtain ⟨p, q, hp, hq, hp', hreach⟩ := h e.a e.b (hg.adj_iff.mpr ⟨e, he, .inl ⟨rfl, rfl⟩⟩)
    exact ⟨p, q, hp, hq, (CouplingMap.isSome_distance?_iff hp').mpr hreach⟩

/-! ## Groups -/

/-- The smallest qubit that is connected with a given one by interactions. -/
def label (g : InteractionGraph) (q : Nat) : Nat :=
  (Tables.ofEdges g.numQubits (g.edges.map Interaction.ends)).components.getD q g.numQubits

theorem Valid.label_eq_iff (hg : g.Valid) {a b : Nat} (ha : a < g.numQubits)
    (hb : b < g.numQubits) : g.label a = g.label b ↔ g.graph.Reachable a b :=
  Tables.getD_components_eq_iff hg.edges_valid ha hb g.numQubits

/-- The label of a qubit is connected with it and not greater. -/
theorem Valid.label_spec (hg : g.Valid) {q : Nat} (hq : q < g.numQubits) :
    g.graph.Reachable q (g.label q) ∧ g.label q < g.numQubits ∧ g.label q ≤ q :=
  have h := Tables.getD_components_spec hg.edges_valid hq g.numQubits
  ⟨h.1, h.2.1, h.2.2 q (SimpleGraph.Reachable.refl q)⟩

theorem Valid.lt_of_reachable (hg : g.Valid) {a b : Nat} (ha : a < g.numQubits)
    (h : g.graph.Reachable a b) : b < g.numQubits := by
  obtain ⟨w⟩ := h
  exact lt_of_walk hg.edges_valid w ha b w.end_mem_support

/-- The smallest qubits of the groups, in ascending order. -/
def roots (g : InteractionGraph) : List Nat :=
  (List.range g.numQubits).filter fun q => g.interacting q && g.label q == q

/-- The qubits with a given label. -/
def labelled (g : InteractionGraph) (root : Nat) : List Nat :=
  (List.range g.numQubits).filter (g.label · == root)

theorem components_eq (g : InteractionGraph) :
    g.components = (g.roots.map g.labelled).mergeSort fun s t => t.length ≤ s.length := rfl

theorem mem_roots {q : Nat} :
    q ∈ g.roots ↔ q < g.numQubits ∧ g.interacting q = true ∧ g.label q = q := by
  simp [roots]

theorem mem_labelled {root q : Nat} :
    q ∈ g.labelled root ↔ q < g.numQubits ∧ g.label q = root := by
  simp [labelled]

/-- The qubits with the label of a smallest qubit are those connected with it. -/
theorem Valid.mem_labelled_iff (hg : g.Valid) {root q : Nat} (hroot : root ∈ g.roots) :
    q ∈ g.labelled root ↔ g.graph.Reachable root q := by
  obtain ⟨hlt, -, hlabel⟩ := mem_roots.mp hroot
  rw [mem_labelled]
  constructor
  · intro ⟨hq, h⟩
    exact (hg.label_eq_iff hlt hq).mp (hlabel.trans h.symm)
  · intro h
    have hq := hg.lt_of_reachable hlt h
    exact ⟨hq, ((hg.label_eq_iff hlt hq).mpr h).symm.trans hlabel⟩

theorem mem_components {group : List Nat} :
    group ∈ g.components ↔ ∃ root ∈ g.roots, g.labelled root = group := by
  rw [components_eq, List.mem_mergeSort, List.mem_map]

/-- What a group of interacting qubits is. -/
structure IsGroup (g : InteractionGraph) (group : List Nat) : Prop where
  nodup : group.Nodup
  nonempty : group ≠ []
  lt : ∀ q ∈ group, q < g.numQubits
  closed : ∀ a ∈ group, ∀ b, g.graph.Adj a b → b ∈ group
  connected : ∀ a ∈ group, ∀ b ∈ group, g.graph.Reachable a b

theorem Valid.isGroup (hg : g.Valid) {group : List Nat} (h : group ∈ g.components) :
    g.IsGroup group := by
  obtain ⟨root, hroot, rfl⟩ := mem_components.mp h
  refine ⟨List.nodup_range.filter _, ?_, ?_, ?_, ?_⟩
  · exact List.ne_nil_of_mem ((hg.mem_labelled_iff hroot).mpr (SimpleGraph.Reachable.refl root))
  · intro q hq
    exact (mem_labelled.mp hq).1
  · intro a ha b hadj
    rw [hg.mem_labelled_iff hroot] at ha ⊢
    exact ha.trans hadj.reachable
  · intro a ha b hb
    rw [hg.mem_labelled_iff hroot] at ha hb
    exact ha.symm.trans hb

/-- No qubit is in two groups. -/
theorem components_disjoint (g : InteractionGraph) : g.components.Pairwise List.Disjoint := by
  have hroots : g.roots.Nodup := List.nodup_range.filter _
  refine (List.mergeSort_perm (g.roots.map g.labelled) _).symm.pairwise
    (List.pairwise_map.mpr (hroots.imp fun {r s} hne => ?_)) fun h => h.symm
  intro q hr hs
  exact hne ((mem_labelled.mp hr).2.symm.trans (mem_labelled.mp hs).2)

/-- What is connected with an interacting qubit interacts: it is that qubit, or a walk
from it has a first step. -/
theorem exists_adj_of_reachable {G : SimpleGraph ℕ} {a b q : Nat} (hadj : G.Adj a b)
    (h : G.Reachable q a) : ∃ r, G.Adj q r := by
  obtain ⟨w⟩ := h
  cases w with
  | nil => exact ⟨b, hadj⟩
  | cons hstep _ => exact ⟨_, hstep⟩

/-- Every interacting qubit is in a group. -/
theorem Valid.exists_group (hg : g.Valid) {a b : Nat} (h : g.graph.Adj a b) :
    ∃ group ∈ g.components, a ∈ group ∧ b ∈ group := by
  have ha := (hg.lt_of_adj h).1
  obtain ⟨hreach, hlt, -⟩ := hg.label_spec ha
  have hroot : g.label a ∈ g.roots :=
    mem_roots.mpr ⟨hlt, (hg.interacting_iff hlt).mpr (exists_adj_of_reachable h hreach.symm),
      ((hg.label_eq_iff ha hlt).mpr hreach).symm⟩
  refine ⟨g.labelled (g.label a), mem_components.mpr ⟨_, hroot, rfl⟩, ?_, ?_⟩
  · exact mem_labelled.mpr ⟨ha, rfl⟩
  · exact (hg.mem_labelled_iff hroot).mpr (hreach.symm.trans h.reachable)

end InteractionGraph

end QuantumCompiler
