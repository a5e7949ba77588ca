import QuantumCompiler.Proofs.Peephole.Absorb
import QuantumCompiler.Proofs.Peephole.Angle

/-!
# Circuits that need many passes

A rung is a pair of controlled flips with a general rotation on their control
in between.  The rotation turns the phase only, but the tables of the optimiser
do not know that, so the pair does not cancel.  A later phase flip on the control
erases the rotation from behind the second flip, and the pair cancels in the
next pass.

On a staircase, the flips of each rung stand in the way of the phase flip for the rung before it
in the circuit.  A pass removes one rotation and the pair that lost its rotation in the pass
before (`pass_stage`), so a staircase takes as many passes as it has rungs, and some more
(`afterPasses_stage`).  Hence no bound on the number of passes is enough for all circuits
(`exists_not_settles`).
-/

namespace QuantumCompiler

/-! ## When a gate is no identity -/

namespace GateMatrix

/-- Matrices that agree up to a factor have entries that agree up to this
factor. -/
theorem norm_sub_le_of_equalUpToPhase {ε : ℝ} {m n : GateMatrix ℝ}
    (h : equalUpToPhase ε m n = true) {i j : Nat} (hi : i < m.length) (hj : j < m.length) :
    ‖(m.entry i j).toComplex - (phaseBetween ε m n).toComplex * (n.entry i j).toComplex‖ ≤ ε := by
  rw [equalUpToPhase] at h
  split_ifs at h
  dsimp only at h
  split_ifs at h
  rw [Bool.not_eq_true', List.any_eq_false] at h
  have hmem : (m.entry i j, n.entry i j) ∈ m.pairs n :=
    List.mem_flatMap.mpr ⟨i, List.mem_range.mpr hi,
      List.mem_map.mpr ⟨j, List.mem_range.mpr hj, rfl⟩⟩
  have hle := h _ hmem
  rw [RealArith.lt_real, not_lt, Amplitude.abs_eq_norm] at hle
  exact hle

theorem entry_identity {size i : Nat} (hi : i < size) :
    (identity size : GateMatrix ℝ).entry i i = Amplitude.one := by
  simp [identity, ofFn, entry, hi]

theorem identity_two : (identity 2 : GateMatrix ℝ) = [[.one, .zero], [.zero, .one]] := rfl

end GateMatrix

namespace Peephole

/-- A gate whose matrix has diagonal entries that are far apart is no
identity. -/
theorem isIdentity_eq_false {op : Operation ℝ} (hkind : op.kind ≠ .gate .id) {m : GateMatrix ℝ}
    (hm : op.unitary? = some m) {i j : Nat} (hi : i < m.length) (hj : j < m.length)
    (h : 1 ≤ ‖(m.entry i i).toComplex - (m.entry j j).toComplex‖) : isIdentity op = false := by
  by_contra htrue
  rw [Bool.not_eq_false, isIdentity, hm, Bool.or_eq_true, Bool.and_eq_true, beq_iff_eq] at htrue
  have hequal := (htrue.resolve_left hkind).2
  have hi' := GateMatrix.norm_sub_le_of_equalUpToPhase hequal hi hi
  have hj' := GateMatrix.norm_sub_le_of_equalUpToPhase hequal hj hj
  rw [GateMatrix.entry_identity hi] at hi'
  rw [GateMatrix.entry_identity hj] at hj'
  set x := (m.entry i i).toComplex
  set y := (m.entry j j).toComplex
  set z := (GateMatrix.phaseBetween tolerance m (GateMatrix.identity m.length)).toComplex *
    (Amplitude.one : Amplitude ℝ).toComplex
  have htriangle : ‖x - y‖ ≤ ‖x - z‖ + ‖y - z‖ := by
    rw [norm_sub_rev y z]
    exact norm_sub_le_norm_sub_add_norm_sub x z y
  linarith [tolerance_lt_half]

/-! ## When gates fuse to the identity -/

theorem equalUpToPhase_identity :
    GateMatrix.equalUpToPhase tolerance (GateMatrix.identity 2 : GateMatrix ℝ)
      (GateMatrix.identity 2) = true := by
  have hone : (tolerance : ℝ) < 1 := by linarith [tolerance_lt_half]
  have hzero : RealArith.lt (tolerance : ℝ) 0 = false := decide_eq_false tolerance_pos.le.not_gt
  have hphase : GateMatrix.phaseBetween tolerance (GateMatrix.identity 2 : GateMatrix ℝ)
      (GateMatrix.identity 2) = .one := by
    simp [GateMatrix.phaseBetween, GateMatrix.pairs, GateMatrix.identity_two, List.range_succ,
      GateMatrix.entry, Amplitude.abs_eq_norm, Amplitude.one_div_one, hone]
  rw [GateMatrix.equalUpToPhase, hphase]
  simp [GateMatrix.pairs, GateMatrix.identity_two, List.range_succ, GateMatrix.entry,
    Amplitude.abs_eq_norm, hzero]

theorem eulerAngles_identity :
    eulerAngles (GateMatrix.identity 2 : GateMatrix ℝ) = (0, 0, 0) := by
  have hatan : RealArith.atan2 (0 : ℝ) 1 = 0 := Complex.arg_one
  simp [eulerAngles, GateMatrix.identity_two, GateMatrix.entry, Amplitude.abs_eq_norm,
    Amplitude.arg_eq_arg, tolerance_pos, normalise_zero, hatan]

/-- Gates whose matrices multiply to the identity fuse to an identity. -/
theorem fuse?_of_mul_eq_identity {a b : Operation ℝ} {q : Nat} (ha : a.qubits = [q])
    (hb : b.qubits = [q]) {ma mb : GateMatrix ℝ} (hma : a.unitary? = some ma)
    (hmb : b.unitary? = some mb) (h : mb.mul ma = GateMatrix.identity 2) :
    ∃ op, fuse? a b = some op ∧ isIdentity op = true := by
  refine ⟨.ofGate .u [0, 0, 0] [q], ?_, ?_⟩
  · simp [fuse?, ha, hb, hma, hmb, h, eulerAngles_identity]
  · have hmatrix : (Operation.ofGate .u [(0 : ℝ), 0, 0] [q]).unitary? =
        some (GateMatrix.identity 2) := by
      simp [Operation.unitary?, Operation.ofGate, Operation.param, GateMatrix.identity_two,
        ← Amplitude.toComplex_injective.eq_iff]
    rw [isIdentity, hmatrix, Bool.or_eq_true, Bool.and_eq_true]
    exact .inr ⟨rfl, equalUpToPhase_identity⟩

/-! ## The gates of a staircase -/

/-- The flip between a wire and the next. -/
def flip (j : Nat) : Operation ℝ := .ofGate .cx [] [j, j + 1]

/-- A half turn of the phase as a general rotation. -/
noncomputable def turnPhase (j : Nat) : Operation ℝ := .ofGate .u [0, 0, Real.pi] [j]

/-- The phase flip that undoes this half turn. -/
def phaseFlip (j : Nat) : Operation ℝ := .ofGate .z [] [j]

theorem isIdentity_flip (j : Nat) : isIdentity (flip j) = false := by
  refine isIdentity_eq_false (i := 0) (j := 2) (by simp [flip, Operation.ofGate]) rfl (by simp)
    (by simp) ?_
  simp [GateMatrix.entry]

theorem isIdentity_phaseFlip (j : Nat) : isIdentity (phaseFlip j) = false := by
  refine isIdentity_eq_false (i := 0) (j := 1) (by simp [phaseFlip, Operation.ofGate]) rfl
    (by simp) (by simp) ?_
  norm_num [GateMatrix.entry]

theorem isIdentity_turnPhase (j : Nat) : isIdentity (turnPhase j) = false := by
  refine isIdentity_eq_false (i := 0) (j := 1) (by simp [turnPhase, Operation.ofGate]) rfl
    (by simp) (by simp) ?_
  norm_num [GateMatrix.entry, turnPhase, Operation.ofGate, Operation.param]

/-! ## How they combine -/

/-- All simplifications. -/
def Simplifications.all : Simplifications := ⟨true, true, true, true, true⟩

/-- Gates on different qubits do not combine. -/
theorem combine?_eq_none_of_qubits {r : Simplifications} {a b : Operation ℝ} {q : Nat}
    (h : ¬ (q ∈ a.qubits ↔ q ∈ b.qubits)) : Sweep.combine? r a b = none := by
  by_contra hne
  obtain ⟨c, hc⟩ := Option.ne_none_iff_exists'.mp hne
  exact h (mem_qubits_of_combine? hc q)

theorem combine?_flip_flip (j : Nat) :
    Sweep.combine? .all (flip j) (flip j) = some .eliminated := by
  simp [Sweep.combine?, Simplifications.all, isInversePair, flip, Operation.ofGate, inverse?,
    sameQubits]

/-- The phase flip undoes the half turn of the phase. -/
theorem combine?_turnPhase_phaseFlip (j : Nat) :
    Sweep.combine? .all (turnPhase j) (phaseFlip j) = some .eliminated := by
  obtain ⟨op, hfuse, hidentity⟩ :=
    fuse?_of_mul_eq_identity (a := turnPhase j) (b := phaseFlip j) rfl rfl rfl rfl (by
      simp [GateMatrix.mul, GateMatrix.ofFn, GateMatrix.identity_two, List.range_succ,
        GateMatrix.entry, ← Amplitude.toComplex_injective.eq_iff, turnPhase, Operation.ofGate,
        Operation.param])
  have hinverse : isInversePair (turnPhase j) (phaseFlip j) = false := rfl
  have hmerge : merge? (turnPhase j) (phaseFlip j) = none := rfl
  simp [Sweep.combine?, Simplifications.all, hinverse, hmerge, hfuse, hidentity]

/-- A gate on other wires than the phase flip lets it pass. -/
theorem clear_phaseFlip {n j : Nat} {e : Operation ℝ} (hunitary : e.isUnitary = true)
    (h : j ∉ e.qubits) :
    Sweep.combine? .all e (phaseFlip j) = none ∧ Clear .all n e (phaseFlip j) := by
  refine ⟨combine?_eq_none_of_qubits (q := j) (by simp [h, phaseFlip, Operation.ofGate]), .inl ?_⟩
  rw [wiresOf_of_isUnitary hunitary]
  simpa [phaseFlip, Operation.ofGate] using h

/-- The phase flip passes a flip that it controls. -/
theorem clear_flip_phaseFlip (n j : Nat) :
    Sweep.combine? .all (flip j) (phaseFlip j) = none ∧ Clear .all n (flip j) (phaseFlip j) := by
  refine ⟨combine?_eq_none_of_qubits (q := j + 1) (by simp [flip, phaseFlip, Operation.ofGate]),
    .inr ?_⟩
  simp [Sweep.passes, Simplifications.all, commute, flip, phaseFlip, Operation.ofGate,
    Operation.isUnitary, Kind.gate?, Gate.isUnitary, operandAxis?, axis?, List.idxOf?_cons]

/-- A gate is stopped by one on other qubits with which it shares a wire and is
not known to commute. -/
theorem absorb_of_commute_eq_false {r : Simplifications} {n : Nat} {e op : Operation ℝ}
    (hunitary : e.isUnitary = true) (hcommute : commute e op = false) {p q : Nat}
    (hp : ¬ (p ∈ e.qubits ↔ p ∈ op.qubits)) (hq : q ∈ op.qubits) (hqe : q ∈ e.qubits)
    (rest : List (Operation ℝ)) : absorb r n op (e :: rest) = none := by
  refine absorb_cons_of_not_clear (combine?_eq_none_of_qubits hp) ?_ rest
  rintro (hdisj | hpass)
  · rw [wiresOf_of_isUnitary hunitary] at hdisj
    exact hdisj q hq hqe
  · rw [Sweep.passes, hcommute, Bool.and_false] at hpass
    cases hpass

theorem absorb_phaseFlip_flip (n j : Nat) (rest : List (Operation ℝ)) :
    absorb .all n (phaseFlip (j + 1)) (flip j :: rest) = none := by
  refine absorb_of_commute_eq_false (p := j) (q := j + 1) rfl ?_ ?_ ?_ ?_ rest <;>
    simp [commute, flip, phaseFlip, Operation.ofGate, Operation.isUnitary, Kind.gate?,
      Gate.isUnitary, operandAxis?, axis?, List.idxOf?_cons]

theorem absorb_flip_flip (n j : Nat) (rest : List (Operation ℝ)) :
    absorb .all n (flip j) (flip (j + 1) :: rest) = none := by
  refine absorb_of_commute_eq_false (p := j + 2) (q := j + 1) rfl ?_ ?_ ?_ ?_ rest <;>
    simp [commute, flip, Operation.ofGate, Operation.isUnitary, Kind.gate?, Gate.isUnitary,
      operandAxis?, axis?, List.idxOf?_cons]

theorem absorb_turnPhase_flip (n j : Nat) (rest : List (Operation ℝ)) :
    absorb .all n (turnPhase j) (flip j :: rest) = none := by
  refine absorb_of_commute_eq_false (p := j + 1) (q := j) rfl ?_ ?_ ?_ ?_ rest <;>
    simp [commute, flip, turnPhase, Operation.ofGate, Operation.isUnitary, Kind.gate?,
      Gate.isUnitary, operandAxis?, axis?, List.idxOf?_cons]

theorem absorb_flip_turnPhase (n j : Nat) (rest : List (Operation ℝ)) :
    absorb .all n (flip j) (turnPhase j :: rest) = none := by
  refine absorb_of_commute_eq_false (p := j + 1) (q := j) rfl ?_ ?_ ?_ ?_ rest <;>
    simp [commute, flip, turnPhase, Operation.ofGate, Operation.isUnitary, Kind.gate?,
      Gate.isUnitary, operandAxis?, axis?, List.idxOf?_cons]

/-! ## Staircases -/

/-- The gates of a rung.  They read the same in both directions. -/
noncomputable def rung (j : Nat) : List (Operation ℝ) := [flip j, turnPhase j, flip j]

/-- A number of rungs from a wire upwards, latest first. -/
noncomputable def tower : Nat → Nat → List (Operation ℝ)
  | _, 0 => []
  | k, m + 1 => rung k ++ tower (k + 1) m

/-- The pair of flips below a wire that has lost the half turn between them. -/
def loosePair : Nat → List (Operation ℝ)
  | 0 => []
  | k + 1 => [flip k, flip k]

/-- A staircase of which some rungs are gone, with a number of rungs left. -/
noncomputable def stage (width gone rungs : Nat) : Circuit ℝ :=
  { numQubits := width
    numClbits := 0
    ops := (tower gone rungs).reverse ++ loosePair gone ++
      (List.range' gone rungs).map phaseFlip }

/-- The staircase with a number of rungs. -/
noncomputable def staircase (rungs : Nat) : Circuit ℝ := stage (rungs + 1) 0 rungs

theorem mem_tower {op : Operation ℝ} {k m : Nat} (h : op ∈ tower k m) :
    ∃ j < k + m, op = flip j ∨ op = turnPhase j := by
  induction m generalizing k with
  | zero => cases h
  | succ m ih =>
    rcases List.mem_append.mp h with hrung | htower
    · refine ⟨k, by omega, ?_⟩
      simp only [rung, List.mem_cons, List.not_mem_nil, or_false] at hrung
      tauto
    · obtain ⟨j, hj, hop⟩ := ih htower
      exact ⟨j, by omega, hop⟩

theorem stage_wellFormed {width gone rungs : Nat} (h : gone + rungs < width) :
    (stage width gone rungs).WellFormed := by
  have hflip (j : Nat) (hj : j < gone + rungs) : (flip j).WellFormed width 0 :=
    Operation.wellFormed_ofGate (by decide) rfl rfl rfl (by simp; omega) (by simp)
  have hturn (j : Nat) (hj : j < gone + rungs) : (turnPhase j).WellFormed width 0 :=
    Operation.wellFormed_ofGate (by decide) rfl rfl rfl (by simp; omega) (by simp)
  have hphase (j : Nat) (hj : j < gone + rungs) : (phaseFlip j).WellFormed width 0 :=
    Operation.wellFormed_ofGate (by decide) rfl rfl rfl (by simp; omega) (by simp)
  intro op hop
  rcases List.mem_append.mp hop with hop | hop
  · rcases List.mem_append.mp hop with hop | hop
    · obtain ⟨j, hj, rfl | rfl⟩ := mem_tower (List.mem_reverse.mp hop)
      · exact hflip j hj
      · exact hturn j hj
    · cases gone with
      | zero => cases hop
      | succ k =>
        have : op = flip k := by simpa [loosePair] using hop
        rw [this]
        exact hflip k (by omega)
  · obtain ⟨j, hj, rfl⟩ := List.mem_map.mp hop
    exact hphase j (List.mem_range'_1.mp hj).2

/-! ## A pass over a staircase -/

theorem Trail.step_of_absorb_none {r : Simplifications} {n : Nat} {t : Trail ℝ}
    {op : Operation ℝ} (hidentity : isIdentity op = false) (h : absorb r n op t.left = none) :
    t.step r n op = ⟨op :: t.left, t.fired⟩ := by
  simp only [Trail.step, hidentity, Bool.and_false, Bool.false_eq_true, if_false, h]

theorem Trail.step_of_absorb_some {r : Simplifications} {n : Nat} {t : Trail ℝ}
    {op : Operation ℝ} {left : List (Operation ℝ)} (hidentity : isIdentity op = false)
    (h : absorb r n op t.left = some left) : t.step r n op = ⟨left, t.fired + 1⟩ := by
  simp only [Trail.step, hidentity, Bool.and_false, Bool.false_eq_true, if_false, h]

/-- The flip below a tower finds no partner. -/
theorem absorb_flip_tower (n k m : Nat) : absorb .all n (flip k) (tower (k + 1) m) = none := by
  cases m with
  | zero => rfl
  | succ m => exact absorb_flip_flip n k _

/-- Rungs are kept. -/
theorem run_tower (n k m : Nat) :
    Trail.run .all n ⟨[], 0⟩ (tower k m).reverse = ⟨tower k m, 0⟩ := by
  induction m generalizing k with
  | zero => rfl
  | succ m ih =>
    have hsplit : (tower k (m + 1)).reverse = (tower (k + 1) m).reverse ++ rung k := by
      rw [tower, List.reverse_append]
      rfl
    rw [hsplit, Trail.run_append, ih, rung, Trail.run_cons,
      Trail.step_of_absorb_none (isIdentity_flip k) (absorb_flip_tower n k m), Trail.run_cons,
      Trail.step_of_absorb_none (isIdentity_turnPhase k) (absorb_turnPhase_flip n k _),
      Trail.run_cons, Trail.step_of_absorb_none (isIdentity_flip k) (absorb_flip_turnPhase n k _)]
    rfl

/-- A loose pair cancels. -/
theorem run_loosePair (n k m : Nat) :
    Trail.run .all n ⟨tower k m, 0⟩ (loosePair k) = ⟨tower k m, min k 1⟩ := by
  cases k with
  | zero => rfl
  | succ k =>
    have hpair : absorb .all n (flip k) (flip k :: tower (k + 1) m) = some (tower (k + 1) m) :=
      absorb_cons_of_combine? (combine?_flip_flip k) _
    rw [loosePair, Trail.run_cons,
      Trail.step_of_absorb_none (isIdentity_flip k) (absorb_flip_tower n k m), Trail.run_cons,
      Trail.step_of_absorb_some (isIdentity_flip k) hpair]
    simp

/-- A phase flip reaches the half turn of its own rung past one flip. -/
theorem absorb_phaseFlip_rung (n k : Nat) (rest : List (Operation ℝ)) :
    absorb .all n (phaseFlip k) (rung k ++ rest) = some (flip k :: flip k :: rest) := by
  have hfront : ∀ e ∈ [flip k], Sweep.combine? .all e (phaseFlip k) = none ∧
      Clear .all n e (phaseFlip k) := by
    simpa using clear_flip_phaseFlip n k
  rw [rung, ← List.singleton_append, List.append_assoc, absorb_append hfront, List.cons_append,
    absorb_cons_of_combine? (combine?_turnPhase_phaseFlip k)]
  rfl

/-- A phase flip is stopped by the rung below its own. -/
theorem absorb_phaseFlip_tower (n : Nat) {j k m : Nat} (hkj : k < j) (hjm : j ≤ k + m) :
    absorb .all n (phaseFlip j) (tower k m) = none := by
  induction m generalizing k with
  | zero => omega
  | succ m ih =>
    rcases Nat.lt_or_eq_of_le (Nat.succ_le_of_lt hkj) with hlt | rfl
    · have hfront : ∀ e ∈ rung k, Sweep.combine? .all e (phaseFlip j) = none ∧
          Clear .all n e (phaseFlip j) := by
        have hflip := clear_phaseFlip (n := n) (e := flip k) (j := j) rfl
          (by simp [flip, Operation.ofGate]; omega)
        have hturn := clear_phaseFlip (n := n) (e := turnPhase k) (j := j) rfl
          (by simp [turnPhase, Operation.ofGate]; omega)
        simp only [rung, List.forall_mem_cons, List.not_mem_nil, false_implies, implies_true,
          and_true]
        exact ⟨hflip, hturn, hflip⟩
      rw [tower, absorb_append hfront, ih hlt (by omega)]
      rfl
    · exact absorb_phaseFlip_flip n k _

/-- Phase flips that find no partner are kept, whichever of them are there
already. -/
theorem run_phaseFlips {n : Nat} {base : List (Operation ℝ)} {js : List Nat} (fired : Nat)
    (ds : List Nat) (hbase : ∀ j ∈ js, absorb .all n (phaseFlip j) base = none)
    (hnodup : (js ++ ds).Nodup) :
    Trail.run .all n ⟨ds.map phaseFlip ++ base, fired⟩ (js.map phaseFlip) =
      ⟨js.reverse.map phaseFlip ++ ds.map phaseFlip ++ base, fired⟩ := by
  induction js generalizing ds with
  | nil => simp
  | cons j rest ih =>
    obtain ⟨hj, hrest⟩ := List.forall_mem_cons.mp hbase
    have hnew : ∀ d ∈ ds, j ≠ d := fun d hd =>
      (List.nodup_append.mp hnodup).2.2 j List.mem_cons_self d hd
    have hfront : ∀ e ∈ ds.map phaseFlip, Sweep.combine? .all e (phaseFlip j) = none ∧
        Clear .all n e (phaseFlip j) := by
      intro e he
      obtain ⟨d, hd, rfl⟩ := List.mem_map.mp he
      exact clear_phaseFlip rfl (by simpa [phaseFlip, Operation.ofGate] using hnew d hd)
    have habsorb : absorb .all n (phaseFlip j) (ds.map phaseFlip ++ base) = none := by
      rw [absorb_append hfront, hj]
      rfl
    rw [List.map_cons, Trail.run_cons, Trail.step_of_absorb_none (isIdentity_phaseFlip j) habsorb]
    rw [List.cons_append] at hnodup
    have hrun := ih (j :: ds) hrest (List.nodup_middle.mpr hnodup)
    simpa using hrun

/-- A pass over a staircase removes a rung, and the pair of the rung removed
before. -/
theorem pass_stage {width gone rungs : Nat} (h : gone + (rungs + 1) < width) :
    pass .all (stage width gone (rungs + 1)) =
      (stage width (gone + 1) rungs, min gone 1 + 1) := by
  have hkept : ∀ j ∈ List.range' (gone + 1) rungs,
      absorb .all width (phaseFlip j) (flip gone :: flip gone :: tower (gone + 1) rungs) =
      none := by
    intro j hj
    have hrange := List.mem_range'_1.mp hj
    rcases Nat.lt_or_eq_of_le hrange.1 with hlt | rfl
    · have hclear := clear_phaseFlip (n := width) (e := flip gone) (j := j) rfl
        (by simp [flip, Operation.ofGate]; omega)
      rw [show flip gone :: flip gone :: tower (gone + 1) rungs =
        [flip gone, flip gone] ++ tower (gone + 1) rungs from rfl,
        absorb_append (by simp [hclear]),
        absorb_phaseFlip_tower width hlt (by omega)]
      rfl
    · exact absorb_phaseFlip_flip width gone _
  have hrun : Trail.run .all width ⟨[], 0⟩ (stage width gone (rungs + 1)).ops =
      ⟨(stage width (gone + 1) rungs).ops.reverse, min gone 1 + 1⟩ := by
    rw [stage, Trail.run_append, Trail.run_append, run_tower, run_loosePair, List.range'_succ,
      List.map_cons, Trail.run_cons,
      Trail.step_of_absorb_some (isIdentity_phaseFlip gone) (absorb_phaseFlip_rung width gone _)]
    have hrest := run_phaseFlips (min gone 1 + 1) [] hkept
      (by simpa using List.nodup_range')
    rw [List.map_nil, List.nil_append, List.append_nil] at hrest
    rw [hrest]
    simp [stage, loosePair]
  have hpass := pass_eq_trail (stage_wellFormed h) hrun
  rwa [List.reverse_reverse] at hpass

theorem afterPasses_stage {width gone rungs : Nat} (passes : Nat)
    (h : gone + (rungs + passes) < width) :
    afterPasses .all passes (stage width gone (rungs + passes)) =
      stage width (gone + passes) rungs := by
  induction passes generalizing gone with
  | zero => rfl
  | succ passes ih =>
    rw [afterPasses, ← Nat.add_assoc, pass_stage (by omega), ih (by omega)]
    congr 1
    omega

/-- Every pass over a staircase with rungs left makes a simplification. -/
theorem not_settles_stage {width gone rungs : Nat} (h : gone + rungs < width) :
    ¬ Settles .all rungs (stage width gone rungs) := by
  rintro ⟨k, hk, hfired⟩
  obtain ⟨rest, rfl⟩ := Nat.exists_eq_add_of_lt hk
  rw [show k + rest + 1 = rest + 1 + k by omega, afterPasses_stage k (by omega),
    pass_stage (by omega)] at hfired
  simp at hfired

/-- On a staircase with as many rungs as there may be passes, the passes do not
settle. -/
theorem exists_not_settles (bound : Nat) :
    ∃ c : Circuit ℝ, c.WellFormed ∧ ¬ Settles .all bound c :=
  ⟨staircase bound, stage_wellFormed (by omega), not_settles_stage (by omega)⟩

/-- When the bound is reached on such a staircase, a pair of flips is left that
the next pass cancels. -/
theorem fired_pass_staircase (bound : Nat) :
    (pass .all (repeatPass .all (bound + 1) (staircase (bound + 1))).1).2 = 1 := by
  have hleft : (repeatPass .all (bound + 1) (staircase (bound + 1))).1 =
      stage (bound + 2) (bound + 1) 0 := by
    have hafter : afterPasses .all (bound + 1) (stage (bound + 2) 0 (0 + (bound + 1))) =
        stage (bound + 2) (0 + (bound + 1)) 0 := afterPasses_stage (bound + 1) (by omega)
    rw [Nat.zero_add] at hafter
    rw [staircase, repeatPass_of_not_settles (not_settles_stage (by omega)), hafter]
  have hrun :
      Trail.run .all (bound + 2) ⟨[], 0⟩ (stage (bound + 2) (bound + 1) 0).ops = ⟨[], 1⟩ := by
    have := run_loosePair (bound + 2) (bound + 1) 0
    simpa [stage, tower] using this
  rw [hleft, pass_eq_trail (stage_wellFormed (by omega)) hrun]

/-- The kinds of the gates of a staircase. -/
def staircaseKinds : GateSet := .ofKinds [.gate .cx, .gate .u, .gate .z]

theorem within_staircaseKinds : Config.highest.enabled.within staircaseKinds = .all := by
  have hmem : staircaseKinds.contains (.gate .u) = true := by
    simp [staircaseKinds, GateSet.ofKinds, GateSet.contains]
  rw [Simplifications.within, hmem]
  rfl

/-- On a staircase of 128 rungs the highest level stops at its bound, and
optimising once more changes the circuit. -/
theorem optimise_highest_staircase :
    (staircase 128).WellFormed ∧
      ¬ Settles (Config.highest.enabled.within staircaseKinds) 128 (staircase 128) ∧
      (optimise staircaseKinds .highest (optimise staircaseKinds .highest (staircase 128)).1).1 ≠
        (optimise staircaseKinds .highest (staircase 128)).1 := by
  refine ⟨stage_wellFormed (by omega), ?_, ?_⟩
  · rw [within_staircaseKinds]
    exact not_settles_stage (by omega)
  · rw [optimise, optimise, within_staircaseKinds]
    refine repeatPass_ne_of_fired ?_ 127
    have hfired := fired_pass_staircase 127
    intro hzero
    rw [show Config.highest.maxPasses = 127 + 1 from rfl, hfired] at hzero
    cases hzero

end Peephole

end QuantumCompiler
