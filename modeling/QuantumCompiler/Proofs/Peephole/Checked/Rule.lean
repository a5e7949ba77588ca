import Mathlib.Algebra.Group.Nat.Defs
import QuantumCompiler.Proofs.Access
import QuantumCompiler.Proofs.Decomposition.Rule
import QuantumCompiler.Proofs.Peephole.Rule

/-!
# Rules on pairs of gates with every access checked

The rules read entries of matrices by row and column and replace the first
parameter of a rotation.  The matrix of a gate is square (`square_unitary?`), and
that of a gate on one qubit has two rows, so `isIdentity_eq` and `fuse_eq` read
no entry that is not there.  A well-formed rotation has a first parameter
(`merge_eq`).  `combine_eq` puts the rules together.
-/

namespace QuantumCompiler.Checked

open Peephole

variable {α : Type} [RealArith α]

/-! ## Matrices -/

/-- An entry of a matrix. -/
def entry (m : GateMatrix α) (row column : Nat) : Option (Amplitude α) :=
  m[row]?.bind (·[column]?)

/-- An entry of the product of two matrices. -/
def entryMul (m n : GateMatrix α) (row column : Nat) : Option (Amplitude α) :=
  (List.range m.length).foldlM
    (fun sum k => do
      let x ← entry m row k
      let y ← entry n k column
      some (sum + x * y)) Amplitude.zero

/-- The matrix product. -/
def mul (m n : GateMatrix α) : Option (GateMatrix α) :=
  (List.range m.length).mapM fun row => (List.range m.length).mapM (entryMul m n row)

/-- An entry of a matrix with its counterpart in another one. -/
def entryPair (m n : GateMatrix α) (row column : Nat) : Option (Amplitude α × Amplitude α) := do
  let x ← entry m row column
  let y ← entry n row column
  some (x, y)

/-- All entries of a matrix with their counterparts in another one. -/
def pairs (m n : GateMatrix α) : Option (List (Amplitude α × Amplitude α)) :=
  ((List.range m.length).mapM fun row => (List.range m.length).mapM (entryPair m n row)).map
    List.flatten

/-- The factor between the entries of two matrices, read off the first pair whose
second entry exceeds a tolerance. -/
def phaseOf (tolerance : α) (entries : List (Amplitude α × Amplitude α)) : Amplitude α :=
  entries.foldl
    (fun phase x => if phase.isZero && RealArith.lt tolerance x.2.abs then x.1 / x.2 else phase)
    Amplitude.zero

/-- Whether the entries of two matrices agree up to a factor of modulus one. -/
def agree (tolerance : α) (entries : List (Amplitude α × Amplitude α)) : Bool :=
  let phase := phaseOf tolerance entries
  if RealArith.lt tolerance (RealArith.abs (phase.abs - RealArith.one)) then false
  else !entries.any fun x => RealArith.lt tolerance (x.1 - phase * x.2).abs

/-- Whether two matrices agree up to a factor of modulus one. -/
def equalUpToPhase (tolerance : α) (m n : GateMatrix α) : Option Bool :=
  if m.length != n.length then some false else (pairs m n).map (agree tolerance)

/-! ## Rules -/

/-- Whether an operation is the identity up to a phase. -/
def isIdentity (op : Operation α) : Option Bool :=
  if op.kind == .gate .id then some true
  else if op.isUnitary then
    match op.unitary? with
    | some m => equalUpToPhase tolerance m (GateMatrix.identity m.length)
    | none => some false
  else some false

/-- Whether an operation is an identity that is to be removed. -/
def isTrivial (r : Simplifications) (op : Operation α) : Option Bool :=
  if r.identities then isIdentity op else some false

/-- Replaces the first parameter. -/
def setFirst (params : List α) (x : α) : Option (List α) :=
  if params.isEmpty then none else some (params.set 0 x)

/-- The rotation that has the effect of two rotations about the same axis. -/
def merge (a b : Operation α) : Option (Option (Operation α)) :=
  match (period? a.kind : Option α) with
  | none => some none
  | some period =>
    if a.kind == b.kind && sameQubits a b && sameAxis a b then
      (setFirst a.params (normalise (a.param 0 + b.param 0) period)).map fun params =>
        some { a with params }
    else some none

/-- The parameters of the general rotation with a given matrix. -/
def eulerAngles (m : GateMatrix α) : Option (α × α × α) := do
  let a ← entry m 0 0
  let b ← entry m 0 1
  let c ← entry m 1 0
  let d ← entry m 1 1
  some (Peephole.eulerAngles [[a, b], [c, d]])

/-- The general rotation that has the effect of two gates on one qubit. -/
def fuse (a b : Operation α) : Option (Option (Operation α)) :=
  if a.qubits.length == 1 && a.qubits == b.qubits then
    match a.unitary?, b.unitary? with
    | some ma, some mb => do
      let product ← mul mb ma
      let angles ← eulerAngles product
      let q ← a.qubits[0]?
      some (some (.ofGate .u [angles.1, angles.2.1, angles.2.2] [q]))
    | _, _ => some none
  else some none

/-- What two operations become by merging, or else by fusing. -/
def join (r : Simplifications) (a b : Operation α) : Option (Option (Operation α)) := do
  let merged ← if r.merge then merge a b else some none
  if merged.isSome then some merged else if r.fuse then fuse a b else some none

/-- What two operations become, where the second follows the first. -/
def combine (r : Simplifications) (a b : Operation α) : Option (Option (Combination α)) :=
  if r.cancel && isInversePair a b then some (some .eliminated)
  else do
    match ← join r a b with
    | none => some none
    | some op =>
      let trivial ← isTrivial r op
      some (some (if trivial then .eliminated else .merged op))

/-! ## Matrices in range -/

/-- A matrix with a number of rows of the same length. -/
structure Square (size : Nat) (m : GateMatrix α) : Prop where
  rows : m.length = size
  columns : ∀ row ∈ m, row.length = size

theorem entry_eq {size : Nat} {m : GateMatrix α} (hm : Square size m) {row column : Nat}
    (hrow : row < size) (hcolumn : column < size) :
    entry m row column = some (m.entry row column) := by
  have hrow' : row < m.length := hm.rows ▸ hrow
  have hlength : (m.getD row []).length = size := by
    rw [List.getD_eq_getElem?_getD, List.getElem?_eq_getElem hrow', Option.getD_some]
    exact hm.columns _ (List.getElem_mem hrow')
  rw [entry, getElem?_list_eq hrow' [], Option.bind_some]
  exact getElem?_list_eq (hlength ▸ hcolumn) Amplitude.zero

omit [RealArith α] in
theorem square_ofFn (size : Nat) (f : Nat → Nat → Amplitude α) :
    Square size (GateMatrix.ofFn size f) where
  rows := by simp [GateMatrix.ofFn]
  columns row hrow := by
    obtain ⟨i, -, rfl⟩ := List.mem_map.mp hrow
    simp

section Pairs

variable {size : Nat} {m n : GateMatrix α} (hm : Square size m) (hn : Square size n)

include hm hn

theorem entryMul_eq {row column : Nat} (hrow : row < size) (hcolumn : column < size) :
    entryMul m n row column = some ((List.range m.length).foldl
      (fun sum k => sum + m.entry row k * n.entry k column) Amplitude.zero) := by
  refine foldlM_eq_of_forall (fun sum k hk => ?_) Amplitude.zero
  have hk : k < size := hm.rows ▸ List.mem_range.mp hk
  rw [entry_eq hm hrow hk, entry_eq hn hk hcolumn]
  rfl

theorem mul_eq : mul m n = some (m.mul n) :=
  mapM_eq fun _ hrow => mapM_eq fun _ hcolumn =>
    entryMul_eq hm hn (hm.rows ▸ List.mem_range.mp hrow) (hm.rows ▸ List.mem_range.mp hcolumn)

theorem pairs_eq : pairs m n = some (m.pairs n) := by
  have hentries :
      (List.range m.length).mapM (fun row => (List.range m.length).mapM (entryPair m n row)) =
      some ((List.range m.length).map fun row =>
        (List.range m.length).map fun column => (m.entry row column, n.entry row column)) :=
    mapM_eq fun row hrow => mapM_eq fun column hcolumn => by
      have hrow : row < size := hm.rows ▸ List.mem_range.mp hrow
      have hcolumn : column < size := hm.rows ▸ List.mem_range.mp hcolumn
      rw [entryPair, entry_eq hm hrow hcolumn, entry_eq hn hrow hcolumn]
      rfl
  rw [pairs, hentries, Option.map_some, GateMatrix.pairs, List.flatMap]

theorem equalUpToPhase_eq (tolerance : α) :
    equalUpToPhase tolerance m n = some (m.equalUpToPhase tolerance n) := by
  have hlength : ¬ (m.length != n.length) = true := by simp [hm.rows, hn.rows]
  rw [equalUpToPhase, GateMatrix.equalUpToPhase, if_neg hlength, if_neg hlength, pairs_eq hm hn]
  rfl

end Pairs

/-- The matrix of a gate has a row and a column for every state of its
qubits. -/
theorem square_unitary? {op : Operation α} {m : GateMatrix α} (h : op.unitary? = some m) :
    ∃ g, op.kind = .gate g ∧ g.isUnitary = true ∧ Square (2 ^ g.numQubits) m := by
  rw [Operation.unitary?] at h
  split at h
  · cases h
  · next g hkind =>
    refine ⟨g, hkind, ?_⟩
    -- Matrices are given by their entries or listed; gates without a matrix drop out.
    cases g <;> cases h <;> first
      | exact ⟨rfl, square_ofFn _ _⟩
      | exact ⟨rfl, rfl, by simp [Gate.numQubits]⟩

/-! ## Rules in range -/

theorem isIdentity_eq (op : Operation α) : isIdentity op = some (Peephole.isIdentity op) := by
  rw [isIdentity, Peephole.isIdentity]
  by_cases hid : (op.kind == .gate .id) = true
  · rw [if_pos hid, hid, Bool.true_or]
  · rw [if_neg hid, Bool.eq_false_iff.mpr hid, Bool.false_or]
    by_cases hunitary : op.isUnitary = true
    · rw [if_pos hunitary, hunitary, Bool.true_and]
      cases hm : op.unitary? with
      | none => rfl
      | some m =>
        obtain ⟨g, -, -, hsquare⟩ := square_unitary? hm
        have hidentity : Square (2 ^ g.numQubits) (GateMatrix.identity m.length : GateMatrix α) :=
          hsquare.rows ▸ square_ofFn _ _
        exact equalUpToPhase_eq hsquare hidentity tolerance
    · rw [if_neg hunitary, Bool.eq_false_iff.mpr hunitary, Bool.false_and]

theorem isTrivial_eq (r : Simplifications) (op : Operation α) :
    isTrivial r op = some (r.identities && Peephole.isIdentity op) := by
  rw [isTrivial, isIdentity_eq]
  cases r.identities <;> rfl

section Combine

variable {n m : Nat} {a b : Operation α}

/-- A kind that merges has a parameter. -/
theorem params_ne_nil (ha : a.WellFormed n m) {period : α} (h : period? a.kind = some period) :
    a.params ≠ [] := by
  cases hkind : a.kind with
  | custom name novel =>
    rw [hkind] at h
    cases h
  | gate g =>
    rw [hkind] at h
    have hgate : g.isUnitary = true ∧ 0 < g.numParams := by
      cases g <;> first | decide | cases h
    have hlength := (Decomposition.lengths_of_wellFormed ha hkind hgate.1).2
    intro hnil
    rw [hnil] at hlength
    exact absurd hlength (Nat.ne_of_lt hgate.2)

theorem merge_eq (ha : a.WellFormed n m) (b : Operation α) : merge a b = some (merge? a b) := by
  rw [merge, merge?]
  cases hperiod : (period? a.kind : Option α) with
  | none => rfl
  | some period =>
    have hparams : ¬ a.params.isEmpty = true := by simpa using params_ne_nil ha hperiod
    simp only [setFirst, if_neg hparams, Option.map_some]
    split_ifs <;> rfl

/-- The matrix of a well-formed gate on one qubit has two rows. -/
theorem square_two (ha : a.WellFormed n m) (hlength : a.qubits.length = 1) {mat : GateMatrix α}
    (h : a.unitary? = some mat) : Square 2 mat := by
  obtain ⟨g, hkind, hunitary, hsquare⟩ := square_unitary? h
  have hqubits := (Decomposition.lengths_of_wellFormed ha hkind hunitary).1
  rw [← hqubits, hlength] at hsquare
  exact hsquare

theorem eulerAngles_eq {mat : GateMatrix α} (h : Square 2 mat) :
    eulerAngles mat = some (Peephole.eulerAngles mat) := by
  rw [eulerAngles, entry_eq h (by decide) (by decide), entry_eq h (by decide) (by decide),
    entry_eq h (by decide) (by decide), entry_eq h (by decide) (by decide)]
  rfl

theorem fuse_eq (ha : a.WellFormed n m) (hb : b.WellFormed n m) :
    fuse a b = some (fuse? a b) := by
  rw [fuse, fuse?]
  rcases hqs : a.qubits with _ | ⟨q, _ | ⟨p, rest⟩⟩
  · rfl
  · dsimp only
    by_cases hsame : b.qubits = [q]
    · rw [if_pos (by simp [hsame]), if_pos (by simp [hsame])]
      cases hma : a.unitary? with
      | none => rfl
      | some ma =>
        cases hmb : b.unitary? with
        | none => rfl
        | some mb =>
          have hleft := square_two hb (by rw [hsame]; rfl) hmb
          have hright := square_two ha (by rw [hqs]; rfl) hma
          have hproduct : Square 2 (mb.mul ma) := hleft.rows ▸ square_ofFn _ _
          simp only [mul_eq hleft hright, eulerAngles_eq hproduct, Option.bind_eq_bind,
            Option.bind_some]
          rfl
    · rw [if_neg (by simpa using fun h => hsame h.symm), if_neg (by simpa using hsame)]
  · rw [if_neg (by simp)]

theorem join_eq (r : Simplifications) (ha : a.WellFormed n m) (hb : b.WellFormed n m) :
    join r a b = some ((if r.merge then merge? a b else none) <|>
      (if r.fuse then fuse? a b else none)) := by
  rw [join, merge_eq ha, fuse_eq ha hb]
  cases r.merge <;> cases r.fuse <;> cases merge? a b <;> rfl

/-- No rule on two well-formed operations reads what is not there. -/
theorem combine_eq (r : Simplifications) (ha : a.WellFormed n m) (hb : b.WellFormed n m) :
    combine r a b = some (Sweep.combine? r a b) := by
  rw [combine, Sweep.combine?, join_eq r ha hb]
  by_cases hcancel : (r.cancel && isInversePair a b) = true
  · rw [if_pos hcancel, if_pos hcancel]
  · rw [if_neg hcancel, if_neg hcancel]
    simp only [Option.bind_eq_bind, Option.bind_some]
    cases (if r.merge then merge? a b else none) <|> (if r.fuse then fuse? a b else none) with
    | none => rfl
    | some op =>
      simp only [isTrivial_eq, Option.bind_some]
      split_ifs <;> rfl

end Combine

end QuantumCompiler.Checked
