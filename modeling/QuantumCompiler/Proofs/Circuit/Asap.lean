import QuantumCompiler.Proofs.Circuit.Chains
import QuantumCompiler.Proofs.Circuit.Depth
import QuantumCompiler.Proofs.OptionalEntry
import QuantumCompiler.Proofs.WellFormed

/-!
# Layers as soon as possible

The layers of a circuit are the earliest possible ones: the layer of an
operation is the greatest number of gates on a chain of earlier operations that
leads to it.

* `Schedule.LevelsFollow` says that the level of every wire is the longest chain
  that ends on the wire.  It holds of qubits and of classical bits, and one lemma
  each for reading and for setting levels serves both.
* `Schedule.Follows` is the invariant of the schedule: besides the levels, a layer
  holds the gates that longest chains of one length lead to, and there are as many
  layers as gates on the longest chain of all.  `Follows.step` takes one operation
  and `Follows.run` all.
* `Circuit.layers_asap` collects what follows for the layers of a circuit.
-/

namespace QuantumCompiler

variable {α : Type} {width : Nat} {ops : List (Operation α)} {op : Operation α} {i k g : Nat}

/-! ## The schedule -/

namespace Schedule

variable {levels : Array Nat} {layers : Array (List Nat)} {wires : Operation α → List Nat}
  {count numClbits : Nat} {s : Schedule}

/-- The greatest level on wires is zero or the level of one of them. -/
theorem topLevel_eq (levels : Array Nat) (ws : List Nat) :
    topLevel levels ws = 0 ∨ ∃ w ∈ ws, topLevel levels ws = levels.getD w 0 := by
  by_contra hnot
  rw [not_or, not_exists] at hnot
  have hlt : topLevel levels ws ≤ topLevel levels ws - 1 := topLevel_le_iff.mpr fun w hw => by
    have hne : topLevel levels ws ≠ levels.getD w 0 := fun h => hnot.2 w ⟨hw, h⟩
    have hle : levels.getD w 0 ≤ topLevel levels ws := le_topLevel hw
    omega
  omega

/-- Levels of wires hold the longest chains that end on the wires. -/
structure LevelsFollow (width : Nat) (ops : List (Operation α)) (wires : Operation α → List Nat)
    (count : Nat) (levels : Array Nat) : Prop where
  size_eq : levels.size = count
  longest : ∀ w < count, Longest width ops (w ∈ wires ·) (levels.getD w 0)

/-- The greatest level on wires is the longest chain that ends on any of them. -/
theorem LevelsFollow.longest_topLevel (hlevels : LevelsFollow width ops wires count levels)
    {ws : List Nat} (hws : ∀ w ∈ ws, w < count) :
    Longest width ops (fun a => ∃ w ∈ ws, w ∈ wires a) (topLevel levels ws) := by
  constructor
  · rcases topLevel_eq levels ws with hzero | ⟨w, hw, htop⟩
    · exact ⟨[], dependencyChain_nil width ops, endsOn_nil, hzero.symm⟩
    · obtain ⟨chain, hchain, hends, hgates⟩ := (hlevels.longest w (hws w hw)).1
      exact ⟨chain, hchain, fun j a hj ha => ⟨w, hw, hends j a hj ha⟩, hgates.trans htop.symm⟩
  · rintro _ ⟨chain, hchain, hends, rfl⟩
    cases hlast : chain.getLast? with
    | none =>
      rw [List.getLast?_eq_none_iff.mp hlast]
      exact Nat.zero_le _
    | some j =>
      have hlt : j < ops.length := hchain.inRange j (List.mem_of_getLast? hlast)
      obtain ⟨w, hw, hmem⟩ := hends j _ hlast (List.getElem?_eq_getElem hlt)
      refine Nat.le_trans
        ((hlevels.longest w (hws w hw)).2 ⟨chain, hchain, fun j' a hj' ha => ?_, rfl⟩)
        (le_topLevel hw)
      rw [hlast] at hj'
      cases hj'
      rw [List.getElem?_eq_getElem hlt] at ha
      cases ha
      exact hmem

/-- An operation brings its wires to the length of the longest chain that it ends. -/
theorem LevelsFollow.concat (hlevels : LevelsFollow width ops wires count levels)
    (hlink : Longest width ops (·.Linked width op) k) (htop : topLevel levels (wires op) ≤ k) :
    LevelsFollow width (ops ++ [op]) wires count
      (setLevel levels (wires op) (k + op.weight)) := by
  refine ⟨by rw [size_setLevel, hlevels.size_eq], fun w hw => ?_⟩
  rw [getD_setLevel, hlevels.size_eq]
  by_cases hmem : w ∈ wires op
  · have hle : levels.getD w 0 ≤ k + op.weight :=
      Nat.le_trans (topLevel_le_iff.mp htop w hmem) (Nat.le_add_right k _)
    have hnew := hlink.concat (hlevels.longest w hw) hmem
    rw [Nat.max_eq_right hle] at hnew
    rwa [if_pos ⟨hmem, hw⟩]
  · rw [if_neg fun h => hmem h.1]
    exact (hlevels.longest w hw).concat_of_not hmem

theorem getD_place (hk : k ≤ layers.size) (index j : Nat) :
    (place layers k index).getD j [] =
      if j = k then layers.getD k [] ++ [index] else layers.getD j [] := by
  rw [place, Array.getD_eq_getD_getElem?]
  split_ifs with hlt hj hj
  · subst hj
    rw [Array.getElem?_modify, if_pos rfl]
    simp [hlt]
  · simp [Array.getElem?_modify, Ne.symm hj]
  · obtain rfl : k = layers.size := by omega
    subst hj
    simp
  · simp [Array.getElem?_push, show j ≠ layers.size by omega]

/-- A layer holds the gates that the longest chains of some length lead to, in
ascending order. -/
structure IsLayer (width : Nat) (ops : List (Operation α)) (k : Nat) (layer : List Nat) :
    Prop where
  ascending : layer.Pairwise (· < ·)
  mem_iff : ∀ i, i ∈ layer ↔ IsGateAt ops i ∧ LongestTo width ops i k

/-- A schedule follows the chains of the operations that it has taken. -/
structure Follows (width numClbits : Nat) (ops : List (Operation α)) (s : Schedule) : Prop where
  qubits : LevelsFollow width ops (·.occupied width) width s.qubitLevel
  clbits : LevelsFollow width ops (·.written) numClbits s.clbitLevel
  size_layers : Longest width ops (fun _ => True) s.layers.size
  layer : ∀ k, IsLayer width ops k (s.layers.getD k [])
  layer_ne_nil : ∀ k < s.layers.size, s.layers.getD k [] ≠ []

/-- The first layer that is free on all wires of an operation. -/
def firstFree (width : Nat) (s : Schedule) (op : Operation α) : Nat :=
  max (topLevel s.qubitLevel (op.occupied width)) (topLevel s.clbitLevel op.written)

/-- A gate and a barrier change levels in the same way, but only a gate is placed
in a layer. -/
theorem step_eq (hsize : s.qubitLevel.size = width) (index : Nat) (op : Operation α) :
    s.step index op =
      { qubitLevel := setLevel s.qubitLevel (op.occupied width) (s.firstFree width op + op.weight)
        clbitLevel := setLevel s.clbitLevel op.written (s.firstFree width op + op.weight)
        layers :=
          if op.isBarrier then s.layers else place s.layers (s.firstFree width op) index } := by
  cases hbarrier : op.isBarrier with
  | true =>
    have hclbits (top : Nat) : max top (topLevel s.clbitLevel []) = top := Nat.max_zero top
    simp only [step, firstFree, Operation.occupied, Operation.written, Operation.weight,
      hbarrier, hsize, hclbits, if_true, Bool.true_and, Nat.add_zero]
    rfl
  | false =>
    simp only [step, firstFree, Operation.occupied, Operation.written, Operation.weight, hbarrier,
      Bool.false_and, Bool.false_eq_true, if_false]

/-- The first free layer is the longest chain that leads to the operation. -/
theorem Follows.longest_firstFree (hs : Follows width numClbits ops s)
    (hop : op.WellFormed width numClbits) :
    Longest width ops (·.Linked width op) (s.firstFree width op) := by
  refine (hs.qubits.longest_topLevel fun q hq => ?_).or
    (hs.clbits.longest_topLevel fun x hx => ?_)
  · rw [Operation.occupied] at hq
    split_ifs at hq
    · exact List.mem_range.mp hq
    · exact hop.qubits_lt q hq
  · rw [Operation.written] at hx
    split_ifs at hx
    · cases hx
    · exact hop.clbits_lt x hx

/-- One more operation belongs to the layer that the longest chain to it gives, if
it is a gate. -/
theorem gate_append_iff (hlink : Longest width ops (·.Linked width op) g) :
    IsGateAt (ops ++ [op]) i ∧ LongestTo width (ops ++ [op]) i k ↔
      IsGateAt ops i ∧ LongestTo width ops i k ∨
      i = ops.length ∧ op.isBarrier = false ∧ k = g := by
  rcases Nat.lt_trichotomy i ops.length with hlt | rfl | hgt
  · rw [longestTo_append_iff op hlt, IsGateAt, List.getElem?_append_left hlt]
    simp only [Nat.ne_of_lt hlt, false_and, or_false]
    rfl
  · have hunique : Longest width ops (·.Linked width op) k ↔ k = g :=
      ⟨fun hk => hk.unique hlink, fun hk => hk ▸ hlink⟩
    rw [longestTo_length_iff, hunique]
    simp [IsGateAt]
  · have hout {xs : List (Operation α)} (hxs : xs.length ≤ i) : ¬ IsGateAt xs i := fun hi =>
      absurd (isGateAt_iff.mp hi).1 (Nat.not_lt.mpr hxs)
    have hnew : ¬ IsGateAt (ops ++ [op]) i := hout (by simp; omega)
    simp [hnew, hout (Nat.le_of_lt hgt), Nat.ne_of_gt hgt]

/-- A schedule goes on following the chains. -/
theorem Follows.step (hs : Follows width numClbits ops s) (hop : op.WellFormed width numClbits) :
    Follows width numClbits (ops ++ [op]) (s.step ops.length op) := by
  have hlink := hs.longest_firstFree hop
  have hle : s.firstFree width op ≤ s.layers.size := hlink.mono hs.size_layers fun _ _ => trivial
  have hsize := hlink.concat hs.size_layers trivial
  rw [step_eq hs.qubits.size_eq]
  have hqubits := hs.qubits.concat hlink (Nat.le_max_left _ _)
  have hclbits := hs.clbits.concat hlink (Nat.le_max_right _ _)
  cases hbarrier : op.isBarrier with
  | true =>
    refine ⟨hqubits, hclbits, ?_, fun k => ⟨(hs.layer k).ascending, fun i => ?_⟩, hs.layer_ne_nil⟩
    · rwa [Operation.weight, hbarrier, if_pos rfl, Nat.add_zero, Nat.max_eq_left hle] at hsize
    · rw [gate_append_iff hlink, hbarrier]
      simpa using (hs.layer k).mem_iff i
  | false =>
    rw [if_neg (by simp)]
    refine ⟨hqubits, hclbits, ?_, fun k => ?_, fun k hk => ?_⟩
    · rw [Operation.weight, hbarrier, if_neg (by simp)] at hsize
      have hplaced : (place s.layers (s.firstFree width op) ops.length).size =
          max s.layers.size (s.firstFree width op + 1) := by
        rw [size_place]
        split_ifs <;> omega
      rwa [hplaced]
    · have hlayer := hs.layer k
      dsimp only
      rw [getD_place hle]
      by_cases hk : k = s.firstFree width op
      · subst hk
        rw [if_pos rfl]
        refine ⟨List.pairwise_append.mpr ⟨hlayer.ascending, List.pairwise_singleton _ _, ?_⟩,
          fun i => ?_⟩
        · intro i hi j hj
          rw [List.mem_singleton.mp hj]
          exact (isGateAt_iff.mp ((hlayer.mem_iff i).mp hi).1).1
        · rw [gate_append_iff hlink, List.mem_append, hlayer.mem_iff, List.mem_singleton,
            hbarrier]
          simp
      · rw [if_neg hk]
        refine ⟨hlayer.ascending, fun i => ?_⟩
        rw [gate_append_iff hlink, hlayer.mem_iff]
        simp [hk]
    · dsimp only at hk ⊢
      rw [getD_place hle]
      split_ifs with hfree
      · simp
      · refine hs.layer_ne_nil k ?_
        rw [size_place] at hk
        split_ifs at hk <;> omega

theorem follows_start (width numClbits : Nat) :
    Follows width numClbits ([] : List (Operation α)) (start width numClbits) := by
  have hlevels (wires : Operation α → List Nat) (count : Nat) :
      LevelsFollow width [] wires count (Array.replicate count 0) := by
    refine ⟨Array.size_replicate, fun w _ => ?_⟩
    rw [getD_replicate]
    exact longest_nil width _
  refine ⟨hlevels _ width, hlevels _ numClbits, longest_nil width _,
    fun k => ⟨.nil, fun i => ?_⟩, ?_⟩
  · refine iff_of_false List.not_mem_nil ?_
    rintro ⟨⟨_, hget, -⟩, -⟩
    cases hget
  · intro k hk
    exact absurd hk (Nat.not_lt_zero k)

theorem Follows.run (hs : Follows width numClbits ops s) {rest : List (Operation α)}
    (hrest : ∀ op ∈ rest, op.WellFormed width numClbits) :
    Follows width numClbits (ops ++ rest) (s.run ops.length rest) := by
  induction rest generalizing ops s with
  | nil => rwa [List.append_nil, Schedule.run]
  | cons op rest ih =>
    obtain ⟨hop, hrest⟩ := List.forall_mem_cons.mp hrest
    have hnext := ih (hs.step hop) hrest
    rwa [List.append_assoc, List.length_append] at hnext

end Schedule

/-! ## Circuits -/

namespace Circuit

variable {c : Circuit α}

/-- The layers of a circuit are its schedule with every operation as soon as
possible. -/
structure Asap (c : Circuit α) : Prop where
  /-- Every operation that is not a barrier is in one layer, and once. -/
  once : c.layers.flatten.Perm ((List.range c.size).filter fun i => c.ops[i]?.any (!·.isBarrier))
  ascending : ∀ layer ∈ c.layers, layer.Pairwise (· < ·)
  ne_nil : ∀ layer ∈ c.layers, layer ≠ []
  /-- The operations of a layer share no qubit and no classical bit. -/
  disjoint : ∀ layer ∈ c.layers, ∀ i ∈ layer, ∀ j ∈ layer, i ≠ j →
    ∀ a b, c.ops[i]? = some a → c.ops[j]? = some b →
      List.Disjoint a.qubits b.qubits ∧ List.Disjoint a.clbits b.clbits
  /-- The layer of an operation is the greatest number of gates on a chain that
  leads to it. -/
  earliest : ∀ k layer, c.layers[k]? = some layer → ∀ i ∈ layer, LongestTo c.numQubits c.ops i k
  /-- The number of layers is the greatest number of gates on a chain. -/
  depth : IsGreatest {g | ∃ chain,
    DependencyChain c.numQubits c.ops chain ∧ gatesOn c.ops chain = g}
    c.depth

/-- The schedule follows the chains to the end of the circuit. -/
theorem layers_follow (hc : c.WellFormed) :
    Longest c.numQubits c.ops (fun _ => True) c.depth ∧
      ∀ k layer, c.layers[k]? = some layer →
        Schedule.IsLayer c.numQubits c.ops k layer ∧ layer ≠ [] := by
  have hs := (Schedule.follows_start c.numQubits c.numClbits).run hc
  rw [List.nil_append, List.length_nil] at hs
  refine ⟨?_, fun k layer hk => ?_⟩
  · rw [depth, layers, Array.length_toList]
    exact hs.size_layers
  · rw [layers, Array.getElem?_toList] at hk
    have hlayer := hs.layer k
    have hne := hs.layer_ne_nil k (Array.getElem?_eq_some_iff.mp hk).1
    rw [Array.getD_eq_getD_getElem?, hk, Option.getD_some] at hlayer hne
    exact ⟨hlayer, hne⟩

theorem mem_flatten_layers_iff (hc : c.WellFormed) : i ∈ c.layers.flatten ↔ IsGateAt c.ops i := by
  obtain ⟨hdepth, hlayer⟩ := layers_follow hc
  rw [List.mem_flatten]
  constructor
  · rintro ⟨layer, hmem, hi⟩
    obtain ⟨k, hk⟩ := List.mem_iff_getElem?.mp hmem
    exact (((hlayer k layer hk).1.mem_iff i).mp hi).1
  · intro hi
    obtain ⟨k, hk, hlongest⟩ := exists_longestTo hi hdepth
    have hget : c.layers[k]? = some (c.layers.get ⟨k, hk⟩) := List.getElem?_eq_getElem hk
    exact ⟨_, List.get_mem _ _, ((hlayer k _ hget).1.mem_iff i).mpr ⟨hi, hlongest⟩⟩

/-- The operations of a layer share no wire. -/
theorem disjoint_of_mem_layer (hc : c.WellFormed) {layer : List Nat} (hmem : layer ∈ c.layers)
    {i j : Nat} (hi : i ∈ layer) (hj : j ∈ layer) (hne : i ≠ j) {a b : Operation α}
    (ha : c.ops[i]? = some a) (hb : c.ops[j]? = some b) :
    List.Disjoint a.qubits b.qubits ∧ List.Disjoint a.clbits b.clbits := by
  obtain ⟨k, hk⟩ := List.mem_iff_getElem?.mp hmem
  have hlayer := ((layers_follow hc).2 k layer hk).1
  obtain ⟨hgate, hlongest⟩ := (hlayer.mem_iff i).mp hi
  obtain ⟨hgate', hlongest'⟩ := (hlayer.mem_iff j).mp hj
  exact disjoint_of_longestTo ha hb hgate hgate' hne hlongest hlongest'

/-- No operation is in two layers, as there is just one greatest length of the
chains that lead to it. -/
theorem nodup_flatten_layers (hc : c.WellFormed) : c.layers.flatten.Nodup := by
  obtain ⟨-, hlayer⟩ := layers_follow hc
  refine List.nodup_flatten.mpr ⟨fun layer hmem => ?_, List.pairwise_iff_getElem.mpr ?_⟩
  · obtain ⟨k, hk⟩ := List.mem_iff_getElem?.mp hmem
    exact (hlayer k layer hk).1.ascending.imp Nat.ne_of_lt
  · intro k l hk hl hlt i hi hi'
    have hfirst := (((hlayer k _ (List.getElem?_eq_getElem hk)).1.mem_iff i).mp hi).2
    have hsecond := (((hlayer l _ (List.getElem?_eq_getElem hl)).1.mem_iff i).mp hi').2
    exact Nat.ne_of_lt hlt (hfirst.unique hsecond)

/-- The layers of a well-formed circuit have every operation as soon as possible. -/
theorem layers_asap (hc : c.WellFormed) : c.Asap := by
  obtain ⟨hdepth, hlayer⟩ := layers_follow hc
  refine
    { once := ?_
      ascending := fun layer hmem => ?_
      ne_nil := fun layer hmem => ?_
      disjoint := fun layer hmem i hi j hj hne a b ha hb => ?_
      earliest := fun k layer hk i hi => (((hlayer k layer hk).1.mem_iff i).mp hi).2
      depth := ?_ }
  · refine (List.perm_ext_iff_of_nodup (nodup_flatten_layers hc) (List.nodup_range.filter _)).mpr
      fun i => ?_
    rw [mem_flatten_layers_iff hc, List.mem_filter, List.mem_range, isGateAt_iff, size]
  · obtain ⟨k, hk⟩ := List.mem_iff_getElem?.mp hmem
    exact (hlayer k layer hk).1.ascending
  · obtain ⟨k, hk⟩ := List.mem_iff_getElem?.mp hmem
    exact (hlayer k layer hk).2
  · exact disjoint_of_mem_layer hc hmem hi hj hne ha hb
  · simpa [Longest, EndsOn] using hdepth

/-- Barriers that overlap, measurements into one classical bit, and a barrier over
all qubits. -/
def synchronisedCircuit : Circuit Float :=
  ⟨3, 1, [.ofGate .h [] [0], .ofGate .h [] [1], .ofGate .x [] [0],
    { kind := .gate .barrier, qubits := [0, 1] }, { kind := .gate .barrier, qubits := [1, 2] },
    .ofGate .h [] [2], .measure 2 0, .measure 1 0, { kind := .gate .barrier }, .ofGate .x [] [0]]⟩

theorem layers_synchronisedCircuit :
    synchronisedCircuit.WellFormed ∧
      synchronisedCircuit.layers = [[0, 1], [2], [5], [6], [7], [9]] ∧
      synchronisedCircuit.Asap := by
  have hc : synchronisedCircuit.WellFormed := by
    unfold WellFormed synchronisedCircuit
    decide
  exact ⟨hc, by decide, layers_asap hc⟩

end Circuit

end QuantumCompiler
