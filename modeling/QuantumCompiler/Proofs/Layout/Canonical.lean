import Mathlib.Data.List.Sort
import Mathlib.Data.Prod.Lex
import QuantumCompiler.Proofs.Layout.Cost

/-!
# The canonical form of interactions

The graph of interactions of a circuit depends on nothing but the number of its
qubits and, for each two of them, the number of operations on both
(`Circuit.weight`).  `InteractionGraph.Canonical` says what the graph is in these
terms.  Its lists are fixed by their elements and by a strict order, in which no
two elements stand equal, so there is one such list each:

* pairs of qubits in lexicographic order (`pairwise_tally`), each with its weight
  (`mem_edges_ofCircuit`);
* groups of qubits, the largest first (`pairwise_components`), which are the
  connected components of the interacting qubits (`mem_components_ofCircuit`).
  The smallest qubits decide between groups of the same size because sorting by
  size is stable (`filter_mergeSort`).

Hence circuits with equal weights have the same graph (`ofCircuit_eq`), and a
layout is chosen by the graph.  Weights do not change when operations or their
operands change places (`Circuit.Reordered.weight_eq`).
-/

namespace QuantumCompiler

/-! ## Pairs in order -/

namespace Interaction

/-- The pair of the first interaction comes before that of the second in
lexicographic order. -/
def Precedes (d e : Interaction) : Prop := toLex d.ends < toLex e.ends

instance : Std.Irrefl Precedes := ⟨fun _ => lt_irrefl _⟩

instance : Std.Antisymm Precedes := ⟨fun _ _ h h' => absurd h (lt_asymm h')⟩

theorem pairwise_count (p : Nat × Nat) {edges : List Interaction} (h : edges.Pairwise Precedes) :
    (count p edges).Pairwise Precedes := by
  induction edges with
  | nil => simp [count]
  | cons e rest ih =>
    obtain ⟨he, hrest⟩ := List.pairwise_cons.mp h
    have hbefore : (p.1 < e.a || (p.1 == e.a && p.2 < e.b)) = true ↔ toLex p < toLex e.ends := by
      simp [Prod.Lex.toLex_lt_toLex, ends]
    have hsame : (p.1 == e.a && p.2 == e.b) = true ↔ p = e.ends := by
      simp [Prod.ext_iff, ends]
    rw [count]
    simp only [hbefore, hsame]
    split_ifs with hlt heq
    · refine List.pairwise_cons.mpr ⟨List.forall_mem_cons.mpr ⟨hlt, fun d hd => ?_⟩, h⟩
      exact lt_trans hlt (he d hd)
    · exact List.pairwise_cons.mpr ⟨he, hrest⟩
    · refine List.pairwise_cons.mpr ⟨fun d hd => ?_, ih hrest⟩
      -- The pair counted in the rest is neither before nor equal to the first one.
      rcases mem_count.mp (List.mem_map_of_mem hd) with hd | hd
      · rw [Precedes, hd]
        exact lt_of_le_of_ne (not_lt.mp hlt) fun h => heq (toLex.injective h).symm
      · obtain ⟨d', hd', hends⟩ := List.mem_map.mp hd
        rw [Precedes, ← hends]
        exact he d' hd'

/-- Counting puts the pairs in order. -/
theorem pairwise_tally (ps : List (Nat × Nat)) : (tally ps).Pairwise Precedes := by
  induction ps with
  | nil => exact List.Pairwise.nil
  | cons p rest ih => exact pairwise_count p ih

/-- In a list in which no pair occurs twice, the weights of a pair sum up to its one
weight. -/
theorem sum_weight_of_mem {edges : List Interaction} (h : edges.Pairwise Precedes)
    {e : Interaction} (he : e ∈ edges) :
    (edges.map fun d => d.weight * if d.ends = e.ends then 1 else 0).sum = e.weight := by
  induction edges with
  | nil => cases he
  | cons d rest ih =>
    obtain ⟨hd, hrest⟩ := List.pairwise_cons.mp h
    rw [List.map_cons, List.sum_cons]
    rcases List.mem_cons.mp he with rfl | he
    · have hzero : (rest.map fun d => d.weight * if d.ends = e.ends then 1 else 0).sum = 0 := by
        refine List.sum_eq_zero fun x hx => ?_
        obtain ⟨f, hf, rfl⟩ := List.mem_map.mp hx
        rw [if_neg fun hends => (hd f hf).ne (by rw [hends]), Nat.mul_zero]
      rw [hzero, if_pos rfl, Nat.mul_one, Nat.add_zero]
    · rw [ih hrest he, if_neg fun hends => (hd e he).ne (by rw [hends]), Nat.mul_zero,
        Nat.zero_add]

end Interaction

/-! ## Weights -/

namespace Circuit

variable {α : Type} {c : Circuit α} {a b : Nat}

theorem weight_pos_iff : 0 < c.weight a b ↔
    ∃ op ∈ c.ops, op.isBarrier = false ∧ a ∈ op.qubits ∧ b ∈ op.qubits := by
  simp [weight, List.countP_pos_iff, and_assoc]

theorem weight_comm (c : Circuit α) (a b : Nat) : c.weight a b = c.weight b a := by
  rw [weight, weight]
  congr 1
  funext op
  rw [Bool.and_assoc, Bool.and_assoc, Bool.and_comm (op.qubits.contains a)]

/-- An interaction that counts the operations on its pair is determined by the pair. -/
theorem interaction_eq {d e : Interaction} (hd : d.weight = c.weight d.a d.b)
    (he : e.weight = c.weight e.a e.b) (hends : d.ends = e.ends) : d = e := by
  obtain ⟨ha, hb⟩ := Prod.mk.inj hends
  rw [Interaction.mk.injEq, hd, he, ha, hb]
  exact ⟨rfl, rfl, rfl⟩

/-- Two qubits are adjacent if operations other than barriers act on both. -/
def meetings (c : Circuit α) : SimpleGraph ℕ where
  Adj a b := a ≠ b ∧ 0 < c.weight a b
  symm := ⟨fun a b h => ⟨h.1.symm, c.weight_comm a b ▸ h.2⟩⟩
  loopless := ⟨fun _ h => h.1 rfl⟩

/-- A connected component of qubits that all interact, in ascending order. -/
structure IsGroup (c : Circuit α) (group : List Nat) : Prop where
  ascending : group.Pairwise (· < ·)
  component : ∃ C : c.meetings.ConnectedComponent, ∀ q, q ∈ group ↔ q ∈ C.supp
  interacting : ∀ q ∈ group, ∃ r, c.meetings.Adj q r

/-- Groups that share a qubit are equal. -/
theorem IsGroup.eq_of_mem {s t : List Nat} (hs : c.IsGroup s) (ht : c.IsGroup t) {q : Nat}
    (hqs : q ∈ s) (hqt : q ∈ t) : s = t := by
  obtain ⟨C, hC⟩ := hs.component
  obtain ⟨D, hD⟩ := ht.component
  have hsame : C = D := by
    rw [← (hC q).mp hqs, ← (hD q).mp hqt]
  exact hs.ascending.eq_of_mem_iff ht.ascending fun r => by rw [hC, hD, hsame]

end Circuit

/-! ## The interactions of a circuit -/

namespace InteractionGraph

variable {α : Type} {c : Circuit α}

theorem pairwise_edges (c : Circuit α) : (ofCircuit c).edges.Pairwise Interaction.Precedes :=
  Interaction.pairwise_tally _

theorem graph_ofCircuit (hc : c.WellFormed) : (ofCircuit c).graph = c.meetings := by
  ext a b
  rw [graph_ofCircuit_adj hc, ← Circuit.weight_pos_iff]
  rfl

theorem weight_of_mem (hc : c.WellFormed) {e : Interaction} (he : e ∈ (ofCircuit c).edges) :
    e.weight = c.weight e.a e.b := by
  have hsum := sum_edges_ofCircuit hc fun x => if x = e.ends then (1 : ℕ) else 0
  have hone := Interaction.sum_weight_of_mem (pairwise_edges c) he
  simp only [Nat.cast_id, mul_ite, mul_one, mul_zero, Finset.sum_ite_eq',
    ends_mem_qubitPairs hc he, if_true] at hsum hone
  exact hone.symm.trans hsum

/-- A pair is listed with a weight exactly if the weight is positive and counts the
operations on both qubits. -/
theorem mem_edges_ofCircuit (hc : c.WellFormed) {e : Interaction} :
    e ∈ (ofCircuit c).edges ↔ e.a < e.b ∧ 0 < e.weight ∧ e.weight = c.weight e.a e.b := by
  constructor
  · intro he
    exact ⟨((valid_ofCircuit hc).lt e he).1, (weighted_ofCircuit hc).pos e he,
      weight_of_mem hc he⟩
  · intro ⟨hlt, hpos, hweight⟩
    rw [hweight, Circuit.weight_pos_iff] at hpos
    obtain ⟨d, hd, hends⟩ := List.mem_map.mp ((mem_ends_ofCircuit hc).mpr ⟨hlt, hpos⟩)
    exact Circuit.interaction_eq (weight_of_mem hc hd) hweight hends ▸ hd

/-- Circuits with equal weights have the same interactions. -/
theorem ofCircuit_eq {β : Type} {c' : Circuit β} (hc : c.WellFormed) (hc' : c'.WellFormed)
    (hqubits : c'.numQubits = c.numQubits)
    (hweight : ∀ a b, a < b → c'.weight a b = c.weight a b) : ofCircuit c' = ofCircuit c := by
  have hedges : (ofCircuit c').edges = (ofCircuit c).edges := by
    refine (pairwise_edges c').eq_of_mem_iff (pairwise_edges c) fun e => ?_
    rw [mem_edges_ofCircuit hc, mem_edges_ofCircuit hc']
    exact and_congr_right fun hlt => by rw [hweight _ _ hlt]
  calc ofCircuit c' = ofEdges c'.numQubits (ofCircuit c').edges := rfl
    _ = ofEdges c.numQubits (ofCircuit c).edges := by rw [hqubits, hedges]

/-- A qubit has another one as its partner, with a weight, exactly if the weight is positive
and counts the operations on both. -/
theorem mem_partnersOf_ofCircuit (hc : c.WellFormed) {a b w : Nat} :
    (b, w) ∈ (ofCircuit c).partnersOf a ↔ a ≠ b ∧ 0 < w ∧ w = c.weight a b := by
  by_cases ha : a < c.numQubits
  · rw [(valid_ofCircuit hc).partnersOf_eq ha, List.mem_filterMap]
    constructor
    · intro h
      obtain ⟨e, he, hother⟩ := h
      obtain ⟨hlt, hpos, hweight⟩ := (mem_edges_ofCircuit hc).mp he
      rw [Interaction.other?] at hother
      split_ifs at hother with hfirst hsecond
      · cases hother
        rw [beq_iff_eq] at hfirst
        exact hfirst ▸ ⟨Nat.ne_of_lt hlt, hpos, hweight⟩
      · cases hother
        rw [beq_iff_eq] at hsecond
        exact hsecond ▸ ⟨Nat.ne_of_gt hlt, hpos, hweight.trans (c.weight_comm _ _)⟩
    · intro h
      obtain ⟨hne, hpos, hweight⟩ := h
      rcases Nat.lt_or_gt_of_ne hne with hlt | hlt
      · exact ⟨⟨a, b, w⟩, (mem_edges_ofCircuit hc).mpr ⟨hlt, hpos, hweight⟩,
          by simp [Interaction.other?]⟩
      · refine ⟨⟨b, a, w⟩,
          (mem_edges_ofCircuit hc).mpr ⟨hlt, hpos, hweight.trans (c.weight_comm _ _)⟩, ?_⟩
        simp [Interaction.other?, Ne.symm hne]
  · -- There is no such qubit, and no operation acts on it.
    have hnil : (ofCircuit c).partnersOf a = [] := by
      simp [partnersOf, ofCircuit, ofEdges, ha]
    rw [hnil]
    constructor
    · intro h
      cases h
    · intro h
      obtain ⟨-, hpos, hweight⟩ := h
      obtain ⟨op, hop, -, hmem, -⟩ := Circuit.weight_pos_iff.mp (hweight ▸ hpos)
      exact absurd ((hc op hop).qubits_lt a hmem) ha

theorem total_eq_sum (g : InteractionGraph) : g.total = (g.edges.map (·.weight)).sum :=
  (Nat.cast_id _).symm.trans (cast_sumOf _ _)

theorem total_ofCircuit (hc : c.WellFormed) :
    (ofCircuit c).total = ∑ x ∈ c.qubitPairs, c.weight x.1 x.2 := by
  have hsum := sum_edges_ofCircuit hc fun _ => (1 : ℕ)
  simp only [Nat.cast_id, mul_one] at hsum
  rw [total_eq_sum, hsum]

/-! ## Groups in order -/

/-- The first group is larger, or has the same size and a qubit below all of the second. -/
def LargerFirst (s t : List Nat) : Prop :=
  t.length < s.length ∨ s.length = t.length ∧ ∃ a ∈ s, ∀ b ∈ t, a < b

theorem LargerFirst.asymm {s t : List Nat} (h : LargerFirst s t) : ¬ LargerFirst t s := by
  rcases h with hlt | ⟨heq, a, ha, hbelow⟩
  · rintro (hlt' | ⟨heq', -⟩) <;> omega
  · rintro (hlt' | ⟨-, b, hb, hbelow'⟩)
    · omega
    · exact Nat.lt_asymm (hbelow b hb) (hbelow' a ha)

instance : Std.Irrefl LargerFirst := ⟨fun _ h => h.asymm h⟩

instance : Std.Antisymm LargerFirst := ⟨fun _ _ h h' => absurd h' h.asymm⟩

/-- Sorting is stable: elements that are all equal to each other in the order stay as they
are. -/
theorem filter_mergeSort {β : Type} {le : β → β → Bool}
    (trans : ∀ x y z, le x y = true → le y z = true → le x z = true)
    (total : ∀ x y, (le x y || le y x) = true) {p : β → Bool}
    (hp : ∀ x y, p x = true → p y = true → le x y = true) (xs : List β) :
    (xs.mergeSort le).filter p = xs.filter p := by
  have hsorted : (xs.filter p).Pairwise (le · · = true) :=
    List.pairwise_of_forall_mem_list fun x hx y hy =>
      hp x y (List.mem_filter.mp hx).2 (List.mem_filter.mp hy).2
  have hsub : (xs.filter p).Sublist ((xs.mergeSort le).filter p) := by
    have := (List.sublist_mergeSort trans total hsorted List.filter_sublist).filter p
    simpa only [List.filter_filter, Bool.and_self] using this
  exact (hsub.eq_of_length ((List.mergeSort_perm xs le).filter p).length_eq.symm).symm

/-- The groups in the order of their smallest qubits. -/
theorem Valid.pairwise_labelled {g : InteractionGraph} (hg : g.Valid) :
    (g.roots.map g.labelled).Pairwise fun s t => ∃ a ∈ s, ∀ b ∈ t, a < b := by
  have hroots : g.roots.Pairwise (· < ·) := List.pairwise_lt_range.filter _
  refine List.pairwise_map.mpr (hroots.imp_of_mem fun {r s} hr _ hlt => ?_)
  refine ⟨r, (hg.mem_labelled_iff hr).mpr (SimpleGraph.Reachable.refl r), fun b hb => ?_⟩
  obtain ⟨hblt, rfl⟩ := mem_labelled.mp hb
  exact Nat.lt_of_lt_of_le hlt (hg.label_spec hblt).2.2

theorem Valid.pairwise_components {g : InteractionGraph} (hg : g.Valid) :
    g.components.Pairwise LargerFirst := by
  have trans (s t u : List Nat) : decide (t.length ≤ s.length) = true →
      decide (u.length ≤ t.length) = true → decide (u.length ≤ s.length) = true := by
    simp only [decide_eq_true_eq]
    omega
  have total (s t : List Nat) :
      (decide (t.length ≤ s.length) || decide (s.length ≤ t.length)) = true := by
    simp only [Bool.or_eq_true, decide_eq_true_eq]
    omega
  rw [components_eq, List.pairwise_iff_forall_sublist]
  intro s t hsub
  have hle : t.length ≤ s.length := of_decide_eq_true
    (List.pairwise_iff_forall_sublist.mp (List.pairwise_mergeSort trans total _) hsub)
  rcases Nat.lt_or_eq_of_le hle with hlt | heq
  · exact .inl hlt
  · -- Among groups of one size the order is that of their smallest qubits.
    refine .inr ⟨heq.symm, List.pairwise_iff_forall_sublist.mp hg.pairwise_labelled ?_⟩
    have hsame := hsub.filter (·.length == s.length)
    rw [filter_mergeSort trans total fun x y hx hy => by simp_all] at hsame
    have hkept : [s, t].filter (·.length == s.length) = [s, t] := by simp [heq]
    exact (hkept ▸ hsame).trans List.filter_sublist

theorem isGroup_of_mem_components (hc : c.WellFormed) {group : List Nat}
    (h : group ∈ (ofCircuit c).components) : c.IsGroup group := by
  have hg := valid_ofCircuit hc
  obtain ⟨root, hroot, rfl⟩ := mem_components.mp h
  obtain ⟨hlt, hint, -⟩ := mem_roots.mp hroot
  obtain ⟨r, hadj⟩ := (hg.interacting_iff hlt).mp hint
  have hmem (q : Nat) : q ∈ (ofCircuit c).labelled root ↔ c.meetings.Reachable root q := by
    rw [← graph_ofCircuit hc]
    exact hg.mem_labelled_iff hroot
  rw [graph_ofCircuit hc] at hadj
  refine ⟨List.pairwise_lt_range.filter _,
    ⟨c.meetings.connectedComponentMk root, fun q => ?_⟩, ?_⟩
  · rw [hmem, SimpleGraph.ConnectedComponent.mem_supp_iff, SimpleGraph.ConnectedComponent.eq,
      SimpleGraph.reachable_comm]
  · intro q hq
    exact exists_adj_of_reachable hadj ((hmem q).mp hq).symm

/-- The groups of a circuit are the connected components of its interacting qubits. -/
theorem mem_components_ofCircuit (hc : c.WellFormed) {group : List Nat} :
    group ∈ (ofCircuit c).components ↔ c.IsGroup group := by
  refine ⟨isGroup_of_mem_components hc, fun h => ?_⟩
  -- Every interacting qubit is in some group of the list, and groups that share it are equal.
  obtain ⟨C, hC⟩ := h.component
  obtain ⟨q, hq⟩ := C.nonempty_supp
  have hq := (hC q).mpr hq
  obtain ⟨r, hadj⟩ := h.interacting q hq
  rw [← graph_ofCircuit hc] at hadj
  obtain ⟨listed, hlisted, hq', -⟩ := (valid_ofCircuit hc).exists_group hadj
  rwa [h.eq_of_mem (isGroup_of_mem_components hc hlisted) hq hq']

/-- What the interactions of a circuit are: the lists of pairs and of groups with these
elements in these orders.  The pairs may be collected in any order and sorted then. -/
structure Canonical (g : InteractionGraph) (c : Circuit α) : Prop where
  numQubits : g.numQubits = c.numQubits
  edges : ∀ es, g.edges = es ↔ es.Pairwise Interaction.Precedes ∧
    ∀ e, e ∈ es ↔ e.a < e.b ∧ 0 < e.weight ∧ e.weight = c.weight e.a e.b
  collected : ∀ es : List Interaction, es.Perm g.edges →
    es.mergeSort (fun d e => decide (toLex d.ends ≤ toLex e.ends)) = g.edges
  total : g.total = (g.edges.map (·.weight)).sum ∧ g.total = ∑ x ∈ c.qubitPairs, c.weight x.1 x.2
  partners : ∀ a b w, (b, w) ∈ g.partnersOf a ↔ a ≠ b ∧ 0 < w ∧ w = c.weight a b
  symmetric : ∀ a b w, (b, w) ∈ g.partnersOf a ↔ (a, w) ∈ g.partnersOf b
  components : ∀ groups, g.components = groups ↔ groups.Pairwise LargerFirst ∧
    ∀ group, group ∈ groups ↔ c.IsGroup group

theorem mergeSort_edges (hc : c.WellFormed) {es : List Interaction}
    (h : es.Perm (ofCircuit c).edges) :
    es.mergeSort (fun d e => decide (toLex d.ends ≤ toLex e.ends)) = (ofCircuit c).edges := by
  have hperm := (List.mergeSort_perm es fun d e => decide (toLex d.ends ≤ toLex e.ends)).trans h
  have hedges : (ofCircuit c).edges.Pairwise fun d e => toLex d.ends ≤ toLex e.ends :=
    (pairwise_edges c).imp le_of_lt
  have hsorted : (es.mergeSort fun d e => decide (toLex d.ends ≤ toLex e.ends)).Pairwise
      fun d e => toLex d.ends ≤ toLex e.ends := by
    refine (List.pairwise_mergeSort ?_ ?_ es).imp of_decide_eq_true
    · intro d e f hde hef
      exact decide_eq_true (le_trans (of_decide_eq_true hde) (of_decide_eq_true hef))
    · intro d e
      simpa using le_total (toLex d.ends) (toLex e.ends)
  refine List.Perm.eq_of_pairwise (fun d e hd he hle hge => ?_) hsorted hedges hperm
  exact Circuit.interaction_eq (weight_of_mem hc (hperm.mem_iff.mp hd)) (weight_of_mem hc he)
    (toLex.injective (le_antisymm hle hge))

theorem canonical_ofCircuit (hc : c.WellFormed) : (ofCircuit c).Canonical c where
  numQubits := rfl
  edges es := by
    constructor
    · rintro rfl
      exact ⟨pairwise_edges c, fun _ => mem_edges_ofCircuit hc⟩
    · intro ⟨hsorted, hmem⟩
      exact (pairwise_edges c).eq_of_mem_iff hsorted fun e =>
        (mem_edges_ofCircuit hc).trans (hmem e).symm
  collected _ := mergeSort_edges hc
  total := ⟨total_eq_sum _, total_ofCircuit hc⟩
  partners _ _ _ := mem_partnersOf_ofCircuit hc
  symmetric a b w := by
    rw [mem_partnersOf_ofCircuit hc, mem_partnersOf_ofCircuit hc, ne_comm, c.weight_comm]
  components groups := by
    have hsorted := (valid_ofCircuit hc).pairwise_components
    constructor
    · rintro rfl
      exact ⟨hsorted, fun _ => mem_components_ofCircuit hc⟩
    · intro ⟨hsorted', hmem⟩
      exact hsorted.eq_of_mem_iff hsorted' fun group =>
        (mem_components_ofCircuit hc).trans (hmem group).symm

end InteractionGraph

/-! ## Reordered circuits -/

/-- The same operation with its operands in another order. -/
def Operation.Permuted {α : Type} (op op' : Operation α) : Prop :=
  ∃ qs, op.qubits.Perm qs ∧ op' = op.withQubits qs

namespace Circuit

variable {α : Type} {c c' : Circuit α}

/-- The same operations in another order, each with its operands in another order. -/
structure Reordered (c c' : Circuit α) : Prop where
  numQubits : c'.numQubits = c.numQubits
  numClbits : c'.numClbits = c.numClbits
  ops : ∃ ops, c.ops.Perm ops ∧ List.Forall₂ Operation.Permuted ops c'.ops

theorem Reordered.wellFormed (h : c.Reordered c') (hc : c.WellFormed) : c'.WellFormed := by
  obtain ⟨ops, hperm, hops⟩ := h.ops
  have hwf : ∀ op ∈ ops, op.WellFormed c.numQubits c.numClbits := fun op hop =>
    hc op (hperm.mem_iff.mpr hop)
  rw [WellFormed, h.numQubits, h.numClbits]
  generalize c'.ops = ops' at hops ⊢
  clear hperm
  induction hops with
  | nil => simp
  | cons hop _ ih =>
    obtain ⟨qs, hqs, rfl⟩ := hop
    obtain ⟨hop, hrest⟩ := List.forall_mem_cons.mp hwf
    refine List.forall_mem_cons.mpr ⟨?_, ih hrest⟩
    refine hop.withQubits hqs.length_eq.symm (fun q hq => ?_) (hqs.nodup_iff.mp hop.nodup)
    exact hop.qubits_lt q (hqs.mem_iff.mpr hq)

theorem Reordered.weight_eq (h : c.Reordered c') (a b : Nat) : c'.weight a b = c.weight a b := by
  obtain ⟨ops, hperm, hops⟩ := h.ops
  rw [weight, weight, hperm.countP_eq, List.countP_eq_length_filter, List.countP_eq_length_filter]
  refine (List.rel_filter (fun op op' hop => ?_) hops).length_eq.symm
  obtain ⟨qs, hqs, rfl⟩ := hop
  simp [Operation.withQubits, Operation.isBarrier, hqs.mem_iff]

end Circuit

/-! ## The choice of a layout -/

namespace Layout

variable {α β : Type} {c c' : Circuit α}

theorem choose_eq_of_weight (hc : c.WellFormed) (hc' : c'.WellFormed)
    (hqubits : c'.numQubits = c.numQubits) (hweight : ∀ a b, a < b → c'.weight a b = c.weight a b)
    (budget : Nat) (d : Device β) : choose budget c' d = choose budget c d := by
  rw [choose, choose, hqubits, InteractionGraph.ofCircuit_eq hc hc' hqubits hweight]

/-- The interactions of a well-formed circuit are in canonical form.  Circuits with the same
number of qubits in which each two qubits have the same number of operations in common
therefore get the same layout, or fail in the same way, on all devices and with all
budgets.  In particular, neither the order of the operations nor that of their operands
matters. -/
theorem choose_canonical (hc : c.WellFormed) :
    (InteractionGraph.ofCircuit c).Canonical c ∧
      (∀ c' : Circuit α, c'.WellFormed → c'.numQubits = c.numQubits →
        (∀ a b, a < b → c'.weight a b = c.weight a b) →
        ∀ (budget : Nat) (d : Device β), choose budget c' d = choose budget c d) ∧
      ∀ c' : Circuit α, c.Reordered c' → c'.WellFormed ∧
        ∀ (budget : Nat) (d : Device β), choose budget c' d = choose budget c d := by
  refine ⟨InteractionGraph.canonical_ofCircuit hc, fun c' hc' hqubits hweight => ?_,
    fun c' h => ?_⟩
  · exact choose_eq_of_weight hc hc' hqubits hweight
  · have hc' := h.wellFormed hc
    exact ⟨hc', choose_eq_of_weight hc hc' h.numQubits fun a b _ => h.weight_eq a b⟩

/-- Groups of three, two and two qubits, a barrier on all qubits, and one qubit on which
nothing else acts. -/
def groupedCircuit : Circuit Float :=
  ⟨8, 0,
    [.ofGate .cx [] [6, 7], .ofGate .ccx [] [2, 0, 4], { kind := .gate .barrier },
      .ofGate .cz [] [1, 5], .ofGate .swap [] [5, 1]]⟩

/-- The operations of `groupedCircuit` and their operands from last to first. -/
def reversedCircuit : Circuit Float :=
  ⟨8, 0,
    [.ofGate .swap [] [1, 5], .ofGate .cz [] [5, 1], { kind := .gate .barrier },
      .ofGate .ccx [] [4, 0, 2], .ofGate .cx [] [7, 6]]⟩

theorem wellFormed_groupedCircuit : groupedCircuit.WellFormed := by
  unfold Circuit.WellFormed groupedCircuit
  decide

theorem reordered_reversedCircuit : groupedCircuit.Reordered reversedCircuit := by
  have hreverse (op : Operation Float) : op.Permuted (op.withQubits op.qubits.reverse) :=
    ⟨_, (List.reverse_perm _).symm, rfl⟩
  refine ⟨rfl, rfl, groupedCircuit.ops.reverse, (List.reverse_perm _).symm, ?_⟩
  exact .cons (hreverse _) (.cons (hreverse _) (.cons (hreverse _) (.cons (hreverse _)
    (.cons (hreverse _) .nil))))

/-- The two groups of two qubits in `groupedCircuit` are ordered by their smallest qubits,
although the operation on the second group comes first. -/
theorem choose_canonical_groupedCircuit :
    groupedCircuit.WellFormed ∧ groupedCircuit.Reordered reversedCircuit ∧
      (InteractionGraph.ofCircuit groupedCircuit).edges =
        [⟨0, 2, 1⟩, ⟨0, 4, 1⟩, ⟨1, 5, 2⟩, ⟨2, 4, 1⟩, ⟨6, 7, 1⟩] ∧
      (InteractionGraph.ofCircuit groupedCircuit).components = [[0, 2, 4], [1, 5], [6, 7]] ∧
      groupedCircuit.weight 1 5 = 2 ∧ groupedCircuit.IsGroup [1, 5] ∧
      ∀ (budget : Nat) (d : Device Float),
        choose budget reversedCircuit d = choose budget groupedCircuit d := by
  obtain ⟨hcanonical, -, hreordered⟩ := choose_canonical (β := Float) wellFormed_groupedCircuit
  have hedges : (InteractionGraph.ofCircuit groupedCircuit).edges =
      [⟨0, 2, 1⟩, ⟨0, 4, 1⟩, ⟨1, 5, 2⟩, ⟨2, 4, 1⟩, ⟨6, 7, 1⟩] := by rfl
  have hgroups : (InteractionGraph.ofCircuit groupedCircuit).components =
      [[0, 2, 4], [1, 5], [6, 7]] := by cbv
  have hweight := ((((hcanonical.edges _).mp hedges).2 ⟨1, 5, 2⟩).mp (by simp)).2.2
  have hgroup := (((hcanonical.components _).mp hgroups).2 [1, 5]).mp (by simp)
  exact ⟨wellFormed_groupedCircuit, reordered_reversedCircuit, hedges, hgroups, hweight.symm,
    hgroup, (hreordered _ reordered_reversedCircuit).2⟩

end Layout

end QuantumCompiler
