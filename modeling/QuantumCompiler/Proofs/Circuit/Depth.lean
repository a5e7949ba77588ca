import Mathlib.Data.List.Forall2
import QuantumCompiler.Circuit.Layers

/-!
# Depth and operands

The layers of a circuit depend on the wires that its operations occupy and on
nothing else.  This module compares the schedules of two circuits, one of which
is left of the other when some operations are dropped and the operands of the
rest are kept.

* `topLevel_le_iff` and `getD_setLevel` say what reading and setting the levels
  of some wires does to one wire.
* `Schedule.Below` is the order of schedules: no wire is at a higher level, and
  there are no more layers.  Operations with the same operands keep it
  (`Below.step`), and an operation that only the higher schedule takes keeps it
  as well (`below_step`).
* `depth_le`, `gateCount_le` and `multiQubitCount_le` are what follows for
  circuits.
-/

namespace QuantumCompiler

variable {α : Type}

/-- Two operations occupy the same wires in the same way. -/
structure Operation.SameOperands (a b : Operation α) : Prop where
  barrier : a.isBarrier = b.isBarrier
  qubits : a.qubits = b.qubits
  clbits : a.clbits = b.clbits

namespace Schedule

/-! ## Levels -/

section Levels

variable {levels levels' : Array Nat} {wires : List Nat} {w level level' : Nat}

theorem topLevel_le_iff :
    topLevel levels wires ≤ level ↔ ∀ w ∈ wires, levels.getD w 0 ≤ level := by
  have hfold (top : Nat) : wires.foldl (fun top w => max top (levels.getD w 0)) top ≤ level ↔
      top ≤ level ∧ ∀ w ∈ wires, levels.getD w 0 ≤ level := by
    induction wires generalizing top with
    | nil => simp
    | cons w rest ih => rw [List.foldl_cons, ih, Nat.max_le, List.forall_mem_cons, and_assoc]
  rw [topLevel, hfold]
  simp

theorem le_topLevel (hw : w ∈ wires) : levels.getD w 0 ≤ topLevel levels wires :=
  topLevel_le_iff.mp (Nat.le_refl _) w hw

@[simp] theorem size_setLevel : (setLevel levels wires level).size = levels.size :=
  List.foldlRecOn (motive := fun xs : Array Nat => xs.size = levels.size) wires _ rfl
    fun _ hxs _ _ => by rw [Array.size_setIfInBounds, hxs]

theorem getD_setLevel : (setLevel levels wires level).getD w 0 =
    if w ∈ wires ∧ w < levels.size then level else levels.getD w 0 := by
  rw [setLevel]
  induction wires generalizing levels with
  | nil => simp
  | cons v rest ih =>
    rw [List.foldl_cons, ih, Array.size_setIfInBounds, Array.getD_eq_getD_getElem?,
      Array.getElem?_setIfInBounds, Array.getD_eq_getD_getElem?]
    by_cases hv : v = w
    · subst hv
      by_cases hsize : v < levels.size <;> simp [hsize]
    · have hv' : w ≠ v := fun h => hv h.symm
      simp [hv, hv']

/-- No wire is at a higher level. -/
structure LevelsBelow (levels levels' : Array Nat) : Prop where
  size : levels.size = levels'.size
  le : ∀ w, levels.getD w 0 ≤ levels'.getD w 0

namespace LevelsBelow

theorem topLevel_le (h : LevelsBelow levels levels') (wires : List Nat) :
    topLevel levels wires ≤ topLevel levels' wires :=
  topLevel_le_iff.mpr fun w hw => Nat.le_trans (h.le w) (le_topLevel hw)

theorem setLevel (h : LevelsBelow levels levels') (wires : List Nat) (hlevel : level ≤ level') :
    LevelsBelow (Schedule.setLevel levels wires level)
      (Schedule.setLevel levels' wires level') where
  size := by rw [size_setLevel, size_setLevel, h.size]
  le w := by
    rw [getD_setLevel, getD_setLevel, h.size]
    split_ifs
    · exact hlevel
    · exact h.le w

end LevelsBelow

/-- Bringing wires to a level that none of them is above lowers no wire. -/
theorem levelsBelow_setLevel (h : topLevel levels wires ≤ level) :
    LevelsBelow levels (setLevel levels wires level) where
  size := size_setLevel.symm
  le w := by
    rw [getD_setLevel]
    split_ifs with hw
    · exact topLevel_le_iff.mp h w hw.1
    · exact Nat.le_refl _

end Levels

/-! ## Layers -/

section Place

variable {layers layers' : Array (List Nat)} {layer layer' : Nat}

theorem size_place (layers : Array (List Nat)) (layer index : Nat) :
    (place layers layer index).size =
      if layer < layers.size then layers.size else layers.size + 1 := by
  rw [place]
  split_ifs
  · exact Array.size_modify
  · exact Array.size_push _

theorem size_place_le (hlayers : layers.size ≤ layers'.size) (hlayer : layer ≤ layer')
    (index index' : Nat) :
    (place layers layer index).size ≤ (place layers' layer' index').size := by
  rw [size_place, size_place]
  split_ifs <;> omega

theorem size_le_size_place (index : Nat) : layers.size ≤ (place layers layer index).size := by
  rw [size_place]
  split_ifs <;> omega

end Place

/-! ## Schedules -/

/-- No wire is at a higher level, and there are no more layers. -/
structure Below (s t : Schedule) : Prop where
  qubits : LevelsBelow s.qubitLevel t.qubitLevel
  clbits : LevelsBelow s.clbitLevel t.clbitLevel
  layers : s.layers.size ≤ t.layers.size

namespace Below

variable {s t u : Schedule}

theorem refl (s : Schedule) : Below s s :=
  ⟨⟨rfl, fun _ => Nat.le_refl _⟩, ⟨rfl, fun _ => Nat.le_refl _⟩, Nat.le_refl _⟩

theorem trans (h : Below s t) (h' : Below t u) : Below s u :=
  ⟨⟨h.qubits.size.trans h'.qubits.size, fun w => Nat.le_trans (h.qubits.le w) (h'.qubits.le w)⟩,
    ⟨h.clbits.size.trans h'.clbits.size, fun w => Nat.le_trans (h.clbits.le w) (h'.clbits.le w)⟩,
    Nat.le_trans h.layers h'.layers⟩

/-- Two schedules that take operations with the same operands stay in order. -/
theorem step (h : Below s t) {a b : Operation α} (hab : a.SameOperands b) (i j : Nat) :
    Below (s.step i a) (t.step j b) := by
  rw [Schedule.step, Schedule.step, hab.barrier, hab.qubits, hab.clbits]
  by_cases hbarrier : b.isBarrier = true
  · rw [if_pos hbarrier, if_pos hbarrier, h.qubits.size]
    exact ⟨h.qubits.setLevel _ (h.qubits.topLevel_le _), h.clbits, h.layers⟩
  · rw [if_neg hbarrier, if_neg hbarrier]
    have hlayer : max (topLevel s.qubitLevel b.qubits) (topLevel s.clbitLevel b.clbits) ≤
        max (topLevel t.qubitLevel b.qubits) (topLevel t.clbitLevel b.clbits) := by
      have hqubits := h.qubits.topLevel_le b.qubits
      have hclbits := h.clbits.topLevel_le b.clbits
      omega
    exact ⟨h.qubits.setLevel _ (Nat.succ_le_succ hlayer),
      h.clbits.setLevel _ (Nat.succ_le_succ hlayer), size_place_le h.layers hlayer i j⟩

end Below

/-- A schedule only grows. -/
theorem below_step (s : Schedule) (i : Nat) (op : Operation α) : Below s (s.step i op) := by
  have hrefl := Below.refl s
  rw [step]
  by_cases hbarrier : op.isBarrier = true
  · rw [if_pos hbarrier]
    exact ⟨levelsBelow_setLevel (Nat.le_refl _), hrefl.clbits, hrefl.layers⟩
  · rw [if_neg hbarrier]
    exact ⟨levelsBelow_setLevel (Nat.le_succ_of_le (Nat.le_max_left _ _)),
      levelsBelow_setLevel (Nat.le_succ_of_le (Nat.le_max_right _ _)), size_le_size_place i⟩

/-- Schedules stay in order when operations are dropped from the lower one. -/
theorem Below.run {s t : Schedule} (h : Below s t) {xs ys : List (Operation α)}
    (hops : List.SublistForall₂ Operation.SameOperands ys xs) (i j : Nat) :
    Below (s.run i ys) (t.run j xs) := by
  induction hops generalizing s t i j with
  | @nil xs =>
    -- The lower schedule is done; whatever else the higher one takes only raises it.
    rw [Schedule.run]
    induction xs generalizing t j with
    | nil => exact h
    | cons op rest ih => exact ih (h.trans (below_step t j op)) (j + 1)
  | cons hab _ ih => exact ih (h.step hab i j) (i + 1) (j + 1)
  | cons_right _ ih => exact ih (h.trans (below_step t j _)) i (j + 1)

end Schedule

/-! ## Circuits -/

theorem countP_le_of_sublistForall₂ {R : α → α → Prop} {p : α → Bool} {xs ys : List α}
    (hp : ∀ a b, R a b → p a = p b) (h : List.SublistForall₂ R ys xs) :
    ys.countP p ≤ xs.countP p := by
  obtain ⟨kept, hkept, hsub⟩ := List.sublistForall₂_iff.mp h
  have hcount : ys.countP p = kept.countP p := by
    clear h hsub
    induction hkept with
    | nil => rfl
    | cons hab _ ih => rw [List.countP_cons, List.countP_cons, ih, hp _ _ hab]
  rw [hcount]
  exact hsub.countP_le

namespace Circuit

variable {c c' : Circuit α}

/-- A circuit from which operations are dropped is not deeper. -/
theorem depth_le (hqubits : c'.numQubits = c.numQubits) (hclbits : c'.numClbits = c.numClbits)
    (h : List.SublistForall₂ Operation.SameOperands c'.ops c.ops) : c'.depth ≤ c.depth := by
  have hbelow := (Schedule.Below.refl (.start c.numQubits c.numClbits)).run h 0 0
  simpa [depth, layers, hqubits, hclbits] using hbelow.layers

theorem gateCount_le (h : List.SublistForall₂ Operation.SameOperands c'.ops c.ops) :
    c'.gateCount ≤ c.gateCount :=
  countP_le_of_sublistForall₂ (fun a b hab => by rw [hab.barrier]) h

theorem multiQubitCount_le (h : List.SublistForall₂ Operation.SameOperands c'.ops c.ops) :
    c'.multiQubitCount ≤ c.multiQubitCount :=
  countP_le_of_sublistForall₂
    (fun a b hab => by rw [hab.barrier, Operation.arity, Operation.arity, hab.qubits]) h

end Circuit

end QuantumCompiler
