import QuantumCompiler.Proofs.Circuit.Asap

/-!
# Relabelling is a renaming

A circuit whose qubits get new names, each of them once, is the same circuit up
to these names, also if the new circuit is wider.

* `relabel_eq_ok` says that an injective list of names is accepted.  Names can be
  changed twice (`relabel_renamed`) and changed back (`relabel_renamed_back`).
* The layers are the same although a barrier that names no qubits spans more wires
  in a wider circuit.  `Schedule.Mirrors` is the invariant behind this: a wire with
  a new name is at the level of the old one, and a wire that has no old name is
  raised by such barriers only, so it is never above all others.  `Simulates.step`
  takes one operation and `Simulates.run` all.
-/

namespace QuantumCompiler

variable {α : Type}

/-- The new name of a qubit. -/
def newName (mapping : List Nat) (q : Nat) : Nat := mapping.getD q q

/-- The names that two lists of names give one after the other. -/
def composeNames (first second : List Nat) : List Nat := first.map (newName second)

theorem newName_composeNames {first : List Nat} {q : Nat} (second : List Nat)
    (hq : q < first.length) :
    newName (composeNames first second) q = newName second (newName first q) := by
  simp [newName, composeNames, List.getD_eq_getElem?_getD, hq]

/-- New names for `n` qubits: all of them are below the new width, and no two are the
same. -/
structure Renames (f : Nat → Nat) (n width : Nat) : Prop where
  lt : ∀ q < n, f q < width
  injective : ∀ p < n, ∀ q < n, f p = f q → p = q

/-- An operation under new names occupies the renamed wires of the operation, or it
is a barrier over all wires in both circuits. -/
theorem Operation.occupied_cases (n width : Nat) (f : Nat → Nat) (op : Operation α) :
    op.occupied n = op.qubits ∧ (op.mapQubits f).occupied width = op.qubits.map f ∨
      op.isBarrier = true ∧ op.occupied n = List.range n ∧
        (op.mapQubits f).occupied width = List.range width := by
  have hall : ((op.mapQubits f).isBarrier && (op.mapQubits f).qubits.isEmpty) =
      (op.isBarrier && op.qubits.isEmpty) := by
    rw [mapQubits_qubits, List.isEmpty_map]
    rfl
  rw [occupied, occupied, hall]
  split_ifs with hbarrier
  · exact .inr ⟨(Bool.and_eq_true_iff.mp hbarrier).1, rfl, rfl⟩
  · exact .inl ⟨rfl, rfl⟩

/-! ## The schedule of a renamed circuit -/

namespace Schedule

variable {levels levels' : Array Nat} {n width level : Nat} {f : Nat → Nat} {op : Operation α}

/-- The levels of `n` wires and those of as many or more wires under new names.  A
wire without an old name is not above all others. -/
structure Mirrors (n width : Nat) (f : Nat → Nat) (levels levels' : Array Nat) : Prop where
  size : levels.size = n
  size' : levels'.size = width
  renamed : ∀ w < n, levels'.getD (f w) 0 = levels.getD w 0
  bounded : ∀ w, levels'.getD w 0 ≤ topLevel levels (List.range n)

namespace Mirrors

theorem topLevel_map (h : Mirrors n width f levels levels') {ws : List Nat}
    (hws : ∀ w ∈ ws, w < n) : topLevel levels' (ws.map f) = topLevel levels ws := by
  refine Nat.le_antisymm (topLevel_le_iff.mpr ?_) (topLevel_le_iff.mpr ?_)
  · intro v hv
    obtain ⟨w, hw, rfl⟩ := List.mem_map.mp hv
    rw [h.renamed w (hws w hw)]
    exact le_topLevel hw
  · intro w hw
    rw [← h.renamed w (hws w hw)]
    exact le_topLevel (List.mem_map_of_mem hw)

/-- All wires together are at the same level in both. -/
theorem topLevel_range (h : Mirrors n width f levels levels') (hf : Renames f n width) :
    topLevel levels' (List.range width) = topLevel levels (List.range n) := by
  refine Nat.le_antisymm (topLevel_le_iff.mpr fun w _ => h.bounded w) (topLevel_le_iff.mpr ?_)
  intro w hw
  have hw := List.mem_range.mp hw
  rw [← h.renamed w hw]
  exact le_topLevel (List.mem_range.mpr (hf.lt w hw))

/-- Wires and their new names can be brought to the same level, unless that lowers
them.  Wires without an old name may be brought there as well if they were not
above. -/
theorem setLevel (h : Mirrors n width f levels levels') (hf : Renames f n width)
    {ws ws' : List Nat} (hws : ∀ w < n, (f w ∈ ws' ↔ w ∈ ws)) (htop : topLevel levels ws ≤ level)
    (hlevel : ws' ≠ [] → level ≤ topLevel (Schedule.setLevel levels ws level) (List.range n)) :
    Mirrors n width f (Schedule.setLevel levels ws level)
      (Schedule.setLevel levels' ws' level) where
  size := size_setLevel.trans h.size
  size' := size_setLevel.trans h.size'
  renamed w hw := by
    rw [getD_setLevel, getD_setLevel, h.size, h.size', h.renamed w hw]
    simp only [hws w hw, hf.lt w hw, hw, and_true]
  bounded w := by
    rw [getD_setLevel]
    split_ifs with hw
    · exact hlevel (List.ne_nil_of_mem hw.1)
    · exact Nat.le_trans (h.bounded w) ((levelsBelow_setLevel htop).topLevel_le _)

theorem topLevel_occupied (h : Mirrors n width f levels levels') (hf : Renames f n width)
    (hop : ∀ q ∈ op.qubits, q < n) :
    topLevel levels' ((op.mapQubits f).occupied width) = topLevel levels (op.occupied n) := by
  rcases Operation.occupied_cases n width f op with ⟨hs, ht⟩ | ⟨-, hs, ht⟩
  · rw [hs, ht, h.topLevel_map hop]
  · rw [hs, ht, h.topLevel_range hf]

/-- A barrier brings its wires to the greatest level on them; a gate may go
beyond. -/
theorem setLevel_occupied (h : Mirrors n width f levels levels') (hf : Renames f n width)
    (hop : ∀ q ∈ op.qubits, q < n) (htop : topLevel levels (op.occupied n) ≤ level)
    (hbarrier : op.isBarrier = true → level = topLevel levels (op.occupied n)) :
    Mirrors n width f (Schedule.setLevel levels (op.occupied n) level)
      (Schedule.setLevel levels' ((op.mapQubits f).occupied width) level) := by
  rcases Operation.occupied_cases n width f op with ⟨hs, ht⟩ | ⟨hall, hs, ht⟩
  · rw [hs] at htop ⊢
    rw [ht]
    refine h.setLevel hf (fun w hw => ?_) htop fun hne => ?_
    · constructor
      · intro hmem
        obtain ⟨q, hq, hqw⟩ := List.mem_map.mp hmem
        exact hf.injective q (hop q hq) w hw hqw ▸ hq
      · exact List.mem_map_of_mem
    · -- One of the old wires is at the new level, so no new wire gets above all old ones.
      obtain ⟨q, hq⟩ :=
        List.exists_mem_of_ne_nil op.qubits fun hnil => hne (by rw [hnil, List.map_nil])
      have hlevel : (Schedule.setLevel levels op.qubits level).getD q 0 = level := by
        rw [getD_setLevel, h.size, if_pos ⟨hq, hop q hq⟩]
      exact hlevel.symm.trans_le (le_topLevel (List.mem_range.mpr (hop q hq)))
  · have hlevel := hbarrier hall
    rw [hs] at htop hlevel ⊢
    rw [ht]
    refine h.setLevel hf (fun w hw => ?_) htop fun _ => ?_
    · rw [List.mem_range, List.mem_range]
      exact iff_of_true (hf.lt w hw) hw
    · -- There may be no old wire at all, but then the barrier is at level zero.
      exact hlevel.trans_le ((levelsBelow_setLevel htop).topLevel_le _)

end Mirrors

/-- The schedules of a circuit and of the same circuit under new names. -/
structure Simulates (n width : Nat) (f : Nat → Nat) (s t : Schedule) : Prop where
  qubits : Mirrors n width f s.qubitLevel t.qubitLevel
  clbits : t.clbitLevel = s.clbitLevel
  layers : t.layers = s.layers

theorem simulates_start (n width numClbits : Nat) (f : Nat → Nat) :
    Simulates n width f (start n numClbits) (start width numClbits) where
  qubits :=
    { size := Array.size_replicate
      size' := Array.size_replicate
      renamed := fun _ _ => (getD_replicate _ _).trans (getD_replicate _ _).symm
      bounded := fun _ => (getD_replicate _ _).trans_le (Nat.zero_le _) }
  clbits := rfl
  layers := rfl

namespace Simulates

variable {s t : Schedule}

theorem firstFree_eq (h : Simulates n width f s t) (hf : Renames f n width)
    (hop : ∀ q ∈ op.qubits, q < n) : t.firstFree width (op.mapQubits f) = s.firstFree n op := by
  rw [firstFree, firstFree, h.qubits.topLevel_occupied hf hop, h.clbits]
  rfl

theorem firstFree_barrier (s : Schedule) (hbarrier : op.isBarrier = true) :
    s.firstFree n op + op.weight = topLevel s.qubitLevel (op.occupied n) := by
  rw [firstFree, Operation.written, Operation.weight, if_pos hbarrier, if_pos hbarrier]
  exact Nat.max_zero _

theorem step (h : Simulates n width f s t) (hf : Renames f n width) (hop : ∀ q ∈ op.qubits, q < n)
    (i : Nat) :
    Simulates n width f (s.step i op) (t.step i (op.mapQubits f)) := by
  rw [step_eq h.qubits.size, step_eq h.qubits.size', h.firstFree_eq hf hop]
  refine ⟨h.qubits.setLevel_occupied hf hop ?_ fun hbarrier => firstFree_barrier s hbarrier,
    ?_, ?_⟩
  · exact Nat.le_add_right_of_le (Nat.le_max_left _ _)
  · dsimp only
    rw [h.clbits]
    rfl
  · dsimp only
    rw [h.layers]
    rfl

theorem run (h : Simulates n width f s t) (hf : Renames f n width)
    {ops : List (Operation α)} (hops : ∀ op ∈ ops, ∀ q ∈ op.qubits, q < n) (i : Nat) :
    Simulates n width f (s.run i ops) (t.run i (ops.map (·.mapQubits f))) := by
  induction ops generalizing s t i with
  | nil => exact h
  | cons op rest ih =>
    rw [List.forall_mem_cons] at hops
    exact ih (h.step hf hops.1 i) hops.2 (i + 1)

end Simulates

end Schedule

/-! ## Renamed circuits -/

namespace Circuit

variable {c : Circuit α} {mapping : List Nat} {width : Nat}

/-- The circuit of some width in which all qubits have new names. -/
def renamed (c : Circuit α) (mapping : List Nat) (width : Nat) : Circuit α :=
  ⟨width, c.numClbits, c.ops.map (·.mapQubits (newName mapping))⟩

/-- Only the renamed operations and the classical bits matter for the outcome. -/
theorem relabel_congr {c' : Circuit α} {mapping' : List Nat}
    (hcovers : c.numQubits ≤ mapping.length) (hcovers' : c'.numQubits ≤ mapping'.length)
    (hclbits : c.numClbits = c'.numClbits)
    (hops : c.ops.map (·.mapQubits (newName mapping)) =
      c'.ops.map (·.mapQubits (newName mapping'))) :
    c.relabel mapping width = c'.relabel mapping' width := by
  have hops : c.ops.map (·.mapQubits fun q => mapping.getD q q) =
    c'.ops.map (·.mapQubits fun q => mapping'.getD q q) := hops
  rw [relabel, relabel, if_neg (Nat.not_lt.mpr hcovers), if_neg (Nat.not_lt.mpr hcovers'),
    hclbits, hops]

theorem relabel_eq_ok (hcovers : c.numQubits ≤ mapping.length)
    (hops : (c.renamed mapping width).WellFormed) :
    c.relabel mapping width = .ok (c.renamed mapping width) := by
  have hbuilt :
      ofOperations width c.numClbits (c.ops.map (·.mapQubits fun q => mapping.getD q q)) =
      .ok (c.renamed mapping width) := ofOperations_eq_ok_iff.mpr ⟨hops, rfl⟩
  rw [relabel, if_neg (Nat.not_lt.mpr hcovers), hbuilt]

theorem wellFormed_renamed (hc : c.WellFormed)
    (hnames : Renames (newName mapping) c.numQubits width) :
    (c.renamed mapping width).WellFormed := by
  intro op' hop'
  obtain ⟨op, hop, rfl⟩ := List.mem_map.mp hop'
  have hlt := (hc op hop).qubits_lt
  exact (hc op hop).mapQubits (fun q hq => hnames.lt q (hlt q hq))
    fun p hp q hq => hnames.injective p (hlt p hp) q (hlt q hq)

/-- New names given to new names. -/
theorem relabel_renamed (hc : c.WellFormed) (hcovers : c.numQubits ≤ mapping.length)
    {second : List Nat} (hsecond : width ≤ second.length) (width' : Nat) :
    (c.renamed mapping width).relabel second width' =
      c.relabel (composeNames mapping second) width' := by
  refine relabel_congr hsecond (by rwa [composeNames, List.length_map]) rfl ?_
  rw [renamed, List.map_map]
  refine List.map_congr_left fun op hop => ?_
  rw [Function.comp_apply, Operation.mapQubits_mapQubits]
  refine Operation.mapQubits_congr fun q hq => ?_
  exact (newName_composeNames second
    (Nat.lt_of_lt_of_le ((hc op hop).qubits_lt q hq) hcovers)).symm

/-- New names that are taken back. -/
theorem relabel_renamed_back (hc : c.WellFormed) {inverse : List Nat}
    (hinverse : width ≤ inverse.length)
    (hback : ∀ q < c.numQubits, newName inverse (newName mapping q) = q) :
    (c.renamed mapping width).relabel inverse c.numQubits = .ok c := by
  have hops : (c.ops.map (·.mapQubits (newName mapping))).map (·.mapQubits (newName inverse)) =
      c.ops := by
    rw [List.map_map]
    refine (List.map_congr_left fun op hop => ?_).trans (List.map_id _)
    rw [Function.comp_apply, Operation.mapQubits_mapQubits]
    refine (Operation.mapQubits_congr (g := id) fun q hq => ?_).trans ?_
    · exact hback q ((hc op hop).qubits_lt q hq)
    · simp [Operation.mapQubits, Operation.withQubits]
  have hsame : (c.renamed mapping width).renamed inverse c.numQubits = c := by
    rw [renamed, renamed, hops]
  rw [relabel_eq_ok hinverse (hsame.symm ▸ hc), hsame]

theorem layers_renamed (hc : c.WellFormed)
    (hnames : Renames (newName mapping) c.numQubits width) :
    (c.renamed mapping width).layers = c.layers := by
  have hrun :=
    (Schedule.simulates_start c.numQubits width c.numClbits (newName mapping)).run hnames
    (fun op hop => (hc op hop).qubits_lt) 0
  rw [layers, layers, renamed, hrun.layers]

theorem kindCounts_renamed (c : Circuit α) (mapping : List Nat) (width : Nat) :
    (c.renamed mapping width).kindCounts = c.kindCounts := by
  have hkinds : (c.renamed mapping width).ops.map (·.kind) = c.ops.map (·.kind) := by
    rw [renamed, List.map_map]
    rfl
  have hcount (kind : Kind) : (c.renamed mapping width).kindCount kind = c.kindCount kind := by
    rw [kindCount, renamed, List.countP_map]
    rfl
  rw [kindCounts, kindCounts, hkinds]
  simp only [hcount]

theorem gateCount_renamed (c : Circuit α) (mapping : List Nat) (width : Nat) :
    (c.renamed mapping width).gateCount = c.gateCount := by
  rw [gateCount, renamed, List.countP_map]
  rfl

/-- A circuit is relabelled by any list of different names below the new width.  The
operations of the result are the renamed ones, and they are in the same layers, are
as many, and have the same kinds.  Relabelling once more has the outcome of
relabelling with the names put together, and relabelling with the old names gives the
circuit back. -/
theorem relabel_faithful (hc : c.WellFormed) (hcovers : c.numQubits ≤ mapping.length)
    (hnames : Renames (newName mapping) c.numQubits width) :
    ∃ r, c.relabel mapping width = .ok r ∧
      r.numQubits = width ∧ r.ops = c.ops.map (·.mapQubits (newName mapping)) ∧
      r.layers = c.layers ∧ r.depth = c.depth ∧ r.gateCount = c.gateCount ∧ r.size = c.size ∧
      r.kindCounts = c.kindCounts ∧
      (∀ second width', width ≤ second.length →
        r.relabel second width' = c.relabel (composeNames mapping second) width') ∧
      ∀ inverse, width ≤ inverse.length →
        (∀ q < c.numQubits, newName inverse (newName mapping q) = q) →
        r.relabel inverse c.numQubits = .ok c := by
  have hlayers := layers_renamed hc hnames
  refine ⟨c.renamed mapping width, relabel_eq_ok hcovers (wellFormed_renamed hc hnames), rfl,
    rfl, hlayers, ?_, gateCount_renamed c mapping width, ?_, kindCounts_renamed c mapping width,
    ?_, ?_⟩
  · rw [depth, depth, hlayers]
  · rw [size, size, renamed, List.length_map]
  · exact fun second width' hsecond => relabel_renamed hc hcovers hsecond width'
  · exact fun inverse hinverse hback => relabel_renamed_back hc hinverse hback

/-- Five wires take the place of three, so that the barrier over all qubits spans two
wires that no operation acts on. -/
theorem relabel_synchronisedCircuit :
    synchronisedCircuit.WellFormed ∧ Renames (newName [4, 0, 3, 0]) 3 5 ∧
      ∃ r, synchronisedCircuit.relabel [4, 0, 3, 0] 5 = .ok r ∧
      r.layers = synchronisedCircuit.layers ∧
        r.relabel [1, 0, 0, 2, 0] 3 = .ok synchronisedCircuit ∧
        r.relabel [2, 6, 6, 1, 0] 7 = synchronisedCircuit.relabel [0, 2, 1, 2] 7 := by
  have hc : synchronisedCircuit.WellFormed := by
    unfold WellFormed synchronisedCircuit
    decide
  have hnames : Renames (newName [4, 0, 3, 0]) 3 5 := ⟨by decide, by decide⟩
  obtain ⟨r, hr, -, -, hlayers, -, -, -, -, htwice, hback⟩ :=
    relabel_faithful hc (by decide) hnames
  exact ⟨hc, hnames, r, hr, hlayers, hback _ (by decide) (by decide),
    htwice [2, 6, 6, 1, 0] 7 (by decide)⟩

end Circuit

end QuantumCompiler
