import Mathlib.Logic.Equiv.Basic
import QuantumCompiler.Layout.Basic
import QuantumCompiler.Proofs.OptionalEntry

/-!
# Both directions of a layout agree

A layout keeps the physical qubit of every logical qubit and the logical qubit
on every physical one.  `Layout.Consistent` says that the two are inverse to
each other.  It follows that no two logical qubits share a place and that all
places are in range.

`Layout.Built` are the layouts that the checked operations can build.
`Built.consistent` is the invariant over every sequence of them.

An exchange moves logical qubits by a transposition of the physical ones
(`physical?_exchange`), and a sequence of exchanges by the product of the
transpositions.
-/

namespace QuantumCompiler.Layout

/-- The physical qubit of a logical one and the logical qubit on a physical
one determine each other. -/
def Consistent (l : Layout) : Prop := ∀ q p, l.physical? q = some p ↔ l.logical? p = some q

section Reading

variable {l : Layout} {q p : Nat}

theorem lt_numLogical (h : l.physical? q = some p) : q < l.numLogical := lt_size_of_getD h

theorem lt_numPhysical (h : l.logical? p = some q) : p < l.numPhysical := lt_size_of_getD h

theorem physical?_eq_getD (l : Layout) (q : Nat) : l.physical? q = l.physicals.getD q none := by
  rw [physical?, physicals, Array.getD_eq_getD_getElem?, List.getD_eq_getElem?_getD,
    Array.getElem?_toList]

/-- The list of places is known by its entries. -/
theorem physicals_eq {places : List (Option Nat)} (hlength : l.numLogical = places.length)
    (h : ∀ q < places.length, l.physical? q = places.getD q none) : l.physicals = places := by
  have hsize : l.physicals.length = places.length := hlength
  refine List.ext_getElem hsize fun q hq hq' => ?_
  have hplace := h q hq'
  rwa [physical?_eq_getD, List.getD_eq_getElem?_getD, List.getD_eq_getElem?_getD,
    List.getElem?_eq_getElem hq, List.getElem?_eq_getElem hq'] at hplace

theorem Consistent.physical_lt (hl : l.Consistent) (h : l.physical? q = some p) :
    p < l.numPhysical := lt_numPhysical ((hl q p).mp h)

theorem Consistent.logical_lt (hl : l.Consistent) (h : l.logical? p = some q) :
    q < l.numLogical := lt_numLogical ((hl q p).mpr h)

/-- Different logical qubits have different places. -/
theorem Consistent.injective (hl : l.Consistent) {q' : Nat} (h : l.physical? q = some p)
    (h' : l.physical? q' = some p) : q = q' := by
  have := ((hl q p).mp h).symm.trans ((hl q' p).mp h')
  exact Option.some.inj this

/-- In a complete layout every logical qubit has a place. -/
theorem exists_physical (hcomplete : l.isComplete = true) (hq : q < l.numLogical) :
    ∃ p, l.physical? q = some p := by
  rw [isComplete, Array.all_eq_true] at hcomplete
  have hq' : q < l.l2p.size := hq
  obtain ⟨p, hp⟩ := Option.isSome_iff_exists.mp (hcomplete q hq')
  refine ⟨p, ?_⟩
  rw [physical?, Array.getD_eq_getD_getElem?, Array.getElem?_eq_getElem hq', Option.getD_some, hp]

theorem isComplete_of_placed (h : ∀ q < l.numLogical, ∃ p, l.physical? q = some p) :
    l.isComplete = true := by
  refine Array.all_eq_true.mpr fun q hq => ?_
  obtain ⟨p, hp⟩ := h q hq
  rw [physical?, Array.getD_eq_getD_getElem?, Array.getElem?_eq_getElem hq,
    Option.getD_some] at hp
  rw [hp]
  rfl

end Reading

/-! ## Changes -/

section Changes

variable {l : Layout}

@[simp] theorem numLogical_place (l : Layout) (a b : Nat) :
    (l.place a b).numLogical = l.numLogical := Array.size_setIfInBounds

@[simp] theorem numPhysical_place (l : Layout) (a b : Nat) :
    (l.place a b).numPhysical = l.numPhysical := Array.size_setIfInBounds

theorem physical?_place {a b : Nat} (ha : a < l.numLogical) (q : Nat) :
    (l.place a b).physical? q = if q = a then some b else l.physical? q := by
  rw [physical?, place, getD_setIfInBounds ha, physical?]

theorem logical?_place {a b : Nat} (hb : b < l.numPhysical) (p : Nat) :
    (l.place a b).logical? p = if p = b then some a else l.logical? p := by
  rw [logical?, place, getD_setIfInBounds hb, logical?]

/-- Placing a free qubit on a free place keeps both directions in agreement. -/
theorem Consistent.place (hl : l.Consistent) {a b : Nat} (ha : a < l.numLogical)
    (hb : b < l.numPhysical) (hfree : l.physical? a = none) (hempty : l.logical? b = none) :
    (l.place a b).Consistent := by
  intro q p
  rw [physical?_place ha, logical?_place hb]
  have hq : l.physical? q = some b → False := fun h => by
    rw [(hl q b).mp h] at hempty
    cases hempty
  have hp : l.logical? p = some a → False := fun h => by
    rw [(hl a p).mpr h] at hfree
    cases hfree
  split_ifs with hqa hpb hpb
  · simp [hqa, hpb]
  · constructor
    · intro h
      exact absurd (Option.some.inj h).symm hpb
    · intro h
      exact absurd (hqa ▸ h) hp
  · constructor
    · intro h
      exact absurd (hpb ▸ h) hq
    · intro h
      exact absurd (Option.some.inj h).symm hqa
  · exact hl q p

theorem getD_relocate (l2p : Array (Option Nat)) (logical : Option Nat) (p q : Nat)
    (hlogical : ∀ k, logical = some k → k < l2p.size) :
    (relocate l2p logical p).getD q none =
      if logical = some q then some p else l2p.getD q none := by
  cases logical with
  | none => rfl
  | some k =>
    rw [relocate, getD_setIfInBounds (hlogical k rfl)]
    simp only [Option.some.injEq, eq_comm]

@[simp] theorem size_relocate (l2p : Array (Option Nat)) (logical : Option Nat) (p : Nat) :
    (relocate l2p logical p).size = l2p.size := by
  cases logical <;> simp [relocate]

@[simp] theorem numLogical_exchange (l : Layout) (p q : Nat) :
    (l.exchange p q).numLogical = l.numLogical := by
  simp [exchange, numLogical]

@[simp] theorem numPhysical_exchange (l : Layout) (p q : Nat) :
    (l.exchange p q).numPhysical = l.numPhysical := by
  simp [exchange, numPhysical]

/-- After an exchange a physical qubit hosts what its counterpart hosted. -/
theorem logical?_exchange {p q : Nat} (hp : p < l.numPhysical) (hq : q < l.numPhysical)
    (r : Nat) : (l.exchange p q).logical? r = l.logical? (Equiv.swap p q r) := by
  have hq' : q < (l.p2l.setIfInBounds p (l.logical? q)).size := by
    rw [Array.size_setIfInBounds]
    exact hq
  rw [exchange, logical?, getD_setIfInBounds hq', getD_setIfInBounds hp, Equiv.swap_apply_def]
  split_ifs with hrq hrp hrp
  · rw [← hrp, hrq]
  · rfl
  · rfl
  · rfl

/-- An exchange moves logical qubits by a transposition. -/
theorem Consistent.physical?_exchange (hl : l.Consistent) {p q : Nat} (k : Nat) :
    (l.exchange p q).physical? k = (l.physical? k).map (Equiv.swap p q) := by
  have hbound (r : Nat) : ∀ k, l.logical? r = some k → k < l.l2p.size := fun k hk =>
    hl.logical_lt hk
  rw [exchange, physical?, getD_relocate _ _ _ _ (by simpa using hbound q),
    getD_relocate _ _ _ _ (hbound p)]
  simp only [← hl k q, ← hl k p]
  show _ = Option.map _ (l.l2p.getD k none)
  cases hk : l.l2p.getD k none with
  | none => simp [physical?, hk]
  | some r =>
    simp only [physical?, hk, Option.some.injEq, Option.map_some]
    rw [Equiv.swap_apply_def]
    split_ifs with hrq hrp hrp
    · rw [← hrp, ← hrq]
    · rfl
    · rfl
    · rfl

theorem Consistent.exchange (hl : l.Consistent) {p q : Nat} (hp : p < l.numPhysical)
    (hq : q < l.numPhysical) : (l.exchange p q).Consistent := by
  intro k r
  rw [hl.physical?_exchange, logical?_exchange hp hq, ← hl k]
  cases l.physical? k with
  | none => simp
  | some r' =>
    simp only [Option.map_some, Option.some.injEq]
    constructor
    · rintro rfl
      rw [Equiv.swap_apply_self]
    · rintro rfl
      rw [Equiv.swap_apply_self]

end Changes

/-! ## Layouts that can be built -/

/-- The layouts that the checked operations build. -/
inductive Built : Layout → Prop where
  | new {logical physical : Nat} {l : Layout} (h : new logical physical = .ok l) : Built l
  | trivial {logical physical : Nat} {l : Layout} (h : trivial logical physical = .ok l) : Built l
  | ofPhysicals {places : List Nat} {physical : Nat} {l : Layout}
      (h : ofPhysicals places physical = .ok l) : Built l
  | assign {l l' : Layout} {logical physical : Nat} (hl : Built l)
      (h : l.assign logical physical = .ok l') : Built l'
  | swap {l l' : Layout} {p q : Nat} (hl : Built l) (h : l.swap p q = .ok l') : Built l'
  | freeze {l : Layout} (hl : Built l) : Built l.freeze
  | clone {l : Layout} (hl : Built l) : Built l.clone

@[simp] theorem physical?_empty (logical physical q : Nat) :
    (empty logical physical).physical? q = none := getD_replicate logical q

@[simp] theorem logical?_empty (logical physical p : Nat) :
    (empty logical physical).logical? p = none := getD_replicate physical p

theorem empty_consistent (logical physical : Nat) : (empty logical physical).Consistent := by
  intro q p
  simp

/-- Whether changes are refused does not matter for the places. -/
theorem Consistent.congr {l l' : Layout} (hl : l.Consistent) (hl2p : l'.l2p = l.l2p)
    (hp2l : l'.p2l = l.p2l) : l'.Consistent := by
  intro q p
  rw [physical?, hl2p, logical?, hp2l]
  exact hl q p

theorem assign_eq_ok {l l' : Layout} {a b : Nat} (h : l.assign a b = .ok l') :
    a < l.numLogical ∧ b < l.numPhysical ∧ l.physical? a = none ∧ l.logical? b = none ∧
      l' = l.place a b := by
  rw [assign] at h
  split_ifs at h with hfrozen ha hb
  split at h
  · cases h
  · cases h
  · next ha' hb' =>
    cases h
    exact ⟨by omega, by omega, ha', hb', rfl⟩

theorem assignAll_consistent {l l' : Layout} {k : Nat} {places : List (Option Nat)}
    (hl : l.Consistent) (h : l.assignAll k places = .ok l') : l'.Consistent := by
  induction places generalizing l k with
  | nil =>
    cases h
    exact hl
  | cons place rest ih =>
    cases place with
    | none => exact ih hl h
    | some p =>
      rw [assignAll] at h
      split at h
      · next l'' hassign =>
        obtain ⟨ha, hb, hfree, hempty, rfl⟩ := assign_eq_ok hassign
        exact ih (hl.place ha hb hfree hempty) h
      · cases h

/-- The identity places every logical qubit on the physical one of the same
number, as long as there is one. -/
theorem identity_spec {logical physical : Nat} (hle : logical ≤ physical) :
    (identity logical physical).Consistent ∧ (identity logical physical).numLogical = logical ∧
      (identity logical physical).numPhysical = physical ∧
      ∀ q, (identity logical physical).physical? q = if q < logical then some q else none := by
  have hprefix (k : Nat) (hk : k ≤ logical) :
      let l := (List.range k).foldl (fun l q => l.place q q) (empty logical physical)
      l.Consistent ∧ l.numLogical = logical ∧ l.numPhysical = physical ∧
        (∀ q, l.physical? q = if q < k then some q else none) ∧
        ∀ p, l.logical? p = if p < k then some p else none := by
    induction k with
    | zero =>
      refine ⟨empty_consistent _ _, ?_, ?_, fun q => ?_, fun p => ?_⟩
      · simp [empty, numLogical]
      · simp [empty, numPhysical]
      · simp
      · simp
    | succ k ih =>
      obtain ⟨hl, hlogical, hphysical, hget, hget'⟩ := ih (by omega)
      simp only [List.range_succ, List.foldl_append, List.foldl_cons, List.foldl_nil]
      refine ⟨?_, ?_, ?_, fun q => ?_, fun p => ?_⟩
      · exact hl.place (by omega) (by omega) (by simp [hget]) (by simp [hget'])
      · rw [numLogical_place, hlogical]
      · rw [numPhysical_place, hphysical]
      · rw [physical?_place (by omega), hget]
        by_cases hq : q = k
        · simp [hq]
        · rw [if_neg hq]
          exact if_congr (by omega) rfl rfl
      · rw [logical?_place (by omega), hget']
        by_cases hp : p = k
        · simp [hp]
        · rw [if_neg hp]
          exact if_congr (by omega) rfl rfl
  obtain ⟨hl, hlogical, hphysical, hget, -⟩ := hprefix logical (Nat.le_refl _)
  exact ⟨hl, hlogical, hphysical, hget⟩

/-- Both directions of every layout that can be built agree. -/
theorem Built.consistent {l : Layout} (h : Built l) : l.Consistent := by
  induction h with
  | @new logical physical _ h =>
    rw [Layout.new] at h
    split_ifs at h
    cases h
    exact empty_consistent _ _
  | @trivial logical physical _ h =>
    rw [Layout.trivial] at h
    split_ifs at h with hlt
    cases h
    exact (identity_spec (by omega)).1
  | ofPhysicals h =>
    rw [Layout.ofPhysicals] at h
    split_ifs at h
    exact assignAll_consistent (empty_consistent _ _) h
  | assign _ h ih =>
    obtain ⟨ha, hb, hfree, hempty, rfl⟩ := assign_eq_ok h
    exact ih.place ha hb hfree hempty
  | swap _ h ih =>
    rw [Layout.swap] at h
    split_ifs at h with hfrozen hbounds
    cases h
    simp only [Bool.or_eq_true, decide_eq_true_eq, not_or, Nat.not_le] at hbounds
    exact ih.exchange hbounds.1 hbounds.2
  | freeze _ ih => exact ih.congr rfl rfl
  | clone _ ih => exact ih.congr rfl rfl

end QuantumCompiler.Layout
