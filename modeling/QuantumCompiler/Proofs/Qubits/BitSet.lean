import Mathlib.Data.List.Sort
import Mathlib.Data.Nat.Bitwise
import QuantumCompiler.Proofs.OptionalEntry
import QuantumCompiler.Qubits.BitSet

/-!
# Sets of numbers as bits

A set of bits is known by the numbers that it contains.  The words behind them
are opened here only.

* `bit_clearLowest` says that a word loses its lowest bit and no other, so the
  positions that are read off one after the other are those of all bits in
  ascending order (`mem_wordElements_iff`, `wordElements_ascending`), and there are
  as many as the word has bits (`length_wordElements`).
* `contains_insert` says what one more number does to a set.
* `mem_elements_iff` and `elements_ascending` say that the elements are the numbers
  contained, in order, and `count_eq_length` that all of them are counted.
* `built_observed` collects what can be seen of a set after any insertions.
-/

namespace QuantumCompiler.BitSet

variable {s : BitSet} {v w : Nat}

/-! ## Words -/

theorem bit_zero (i : Nat) : bit 0 i = false := Nat.zero_testBit i

/-- Setting one bit of a word leaves the others. -/
theorem bit_or_shiftLeft (word : UInt64) {i k : Nat} (hi : i < 64) (hk : k < 64) :
    bit (word ||| (1 <<< k.toUInt64)) i = (bit word i || i == k) := by
  have hshift : k.toUInt64.toNat % 64 = k := by
    simp [Nat.toUInt64]
    omega
  rw [bit, bit, UInt64.toNat_or, UInt64.toNat_shiftLeft, hshift, Nat.testBit_or,
    Nat.testBit_mod_two_pow, UInt64.toNat_one, Nat.one_shiftLeft, Nat.testBit_two_pow,
    decide_eq_true hi,
    Bool.true_and]
  congr 1
  rw [Bool.eq_iff_iff, decide_eq_true_eq, beq_iff_eq, eq_comm]

/-- Only the first 64 bits can be set. -/
theorem lt_of_bit {word : UInt64} {i : Nat} (h : bit word i = true) : i < 64 := by
  by_contra hi
  have hlt : word.toNat < 2 ^ i :=
    Nat.lt_of_lt_of_le word.toNat_lt (Nat.pow_le_pow_right (by decide) (Nat.not_lt.mp hi))
  rw [bit, Nat.testBit_lt_two_pow hlt] at h
  cases h

theorem bit_eq_getLsbD (word : UInt64) (i : Nat) : bit word i = word.toBitVec.getLsbD i := by
  rw [bit, ← UInt64.toNat_toBitVec, BitVec.testBit_toNat]

theorem bit_trailingZeros {word : UInt64} (h : word ≠ 0) :
    bit word (trailingZeros word) = true := by
  rw [bit_eq_getLsbD]
  exact BitVec.getLsbD_true_ctz_of_ne_zero fun hzero => h (UInt64.toBitVec_inj.mp hzero)

theorem bit_of_lt_trailingZeros {word : UInt64} {i : Nat} (h : i < trailingZeros word) :
    bit word i = false := by
  rw [bit_eq_getLsbD]
  exact BitVec.getLsbD_false_of_lt_ctz h

/-- Subtracting one flips the lowest bit and those below it, so a number has no bit
but its lowest one that its predecessor does not have. -/
theorem testBit_and_pred {n t : Nat} (hbit : n.testBit t = true)
    (hlow : ∀ i < t, n.testBit i = false) (i : Nat) :
    (n &&& (n - 1)).testBit i = (n.testBit i && i != t) := by
  -- Split the number above its lowest bit: what remains below is this bit alone.
  have hmod : n % 2 ^ (t + 1) = 2 ^ t := Nat.eq_of_testBit_eq fun j => by
    rw [Nat.testBit_mod_two_pow, Nat.testBit_two_pow]
    rcases Nat.lt_trichotomy j t with hj | rfl | hj
    · simp [hlow j hj, Nat.ne_of_gt hj]
    · simp [hbit]
    · simp [Nat.not_lt.mpr hj, Nat.ne_of_lt hj]
  have hpos : 0 < 2 ^ t := Nat.two_pow_pos t
  have hlt : 2 ^ t < 2 ^ (t + 1) := Nat.pow_lt_pow_right (by decide) (Nat.lt_succ_self t)
  have hdecomp : n = 2 ^ (t + 1) * (n / 2 ^ (t + 1)) + 2 ^ t := by
    have := Nat.div_add_mod n (2 ^ (t + 1))
    omega
  have hpred : n - 1 = 2 ^ (t + 1) * (n / 2 ^ (t + 1)) + (2 ^ t - 1) := by omega
  rw [Nat.testBit_and, hpred, Nat.testBit_two_pow_mul_add _ (by omega)]
  split_ifs with hi
  · rw [Nat.testBit_two_pow_sub_one]
    rcases Nat.lt_or_eq_of_le (Nat.le_of_lt_succ hi) with hi | rfl
    · simp [hlow i hi]
    · simp
  · have hne : (i != t) = true := by simp; omega
    have hhigh : n.testBit i = (n / 2 ^ (t + 1)).testBit (i - (t + 1)) := by
      rw [Nat.testBit_div_two_pow, Nat.sub_add_cancel (Nat.not_lt.mp hi)]
    rw [hne, hhigh, Bool.and_self, Bool.and_true]

theorem bit_clearLowest {word : UInt64} (h : word ≠ 0) (i : Nat) :
    bit (clearLowest word) i = (bit word i && i != trailingZeros word) := by
  rw [bit, toNat_clearLowest h]
  exact testBit_and_pred (bit_trailingZeros h) (fun _ => bit_of_lt_trailingZeros) i

theorem mem_wordElements_iff {word : UInt64} {i : Nat} :
    i ∈ wordElements word ↔ bit word i = true := by
  induction word using wordElements.induct with
  | case1 => simp [wordElements, bit_zero]
  | case2 word h ih =>
    rw [wordElements, if_neg h, List.mem_cons, ih, bit_clearLowest h, Bool.and_eq_true,
      bne_iff_ne]
    constructor
    · rintro (rfl | ⟨hbit, -⟩)
      · exact bit_trailingZeros h
      · exact hbit
    · intro hbit
      exact (em (i = trailingZeros word)).imp_right fun hne => ⟨hbit, hne⟩

theorem wordElements_ascending (word : UInt64) : (wordElements word).Pairwise (· < ·) := by
  induction word using wordElements.induct with
  | case1 => simp [wordElements]
  | case2 word h ih =>
    rw [wordElements, if_neg h, List.pairwise_cons]
    refine ⟨fun i hi => ?_, ih⟩
    rw [mem_wordElements_iff, bit_clearLowest h, Bool.and_eq_true, bne_iff_ne] at hi
    obtain ⟨hbit, hne⟩ := hi
    refine Nat.lt_of_le_of_ne (Nat.not_lt.mp fun hlt => ?_) hne.symm
    rw [bit_of_lt_trailingZeros hlt] at hbit
    cases hbit

/-- The count of bits goes through all positions, from the highest down. -/
theorem onesCount_eq_countP (word : UInt64) :
    onesCount word = (List.range 64).countP (bit word) := by
  have hcount (k : Nat) : word.toBitVec.cpopNatRec k 0 = (List.range k).countP (bit word) := by
    induction k with
    | zero => rfl
    | succ k ih =>
      rw [BitVec.cpopNatRec_succ, BitVec.cpopNatRec_add, ih, List.range_succ, List.countP_append,
        List.countP_singleton, bit_eq_getLsbD]
      cases word.toBitVec.getLsbD k <;> rfl
  rw [onesCount, BitVec.toNat_cpop, hcount]

theorem length_wordElements (word : UInt64) : (wordElements word).length = onesCount word := by
  have hfilter : wordElements word = (List.range 64).filter (bit word) := by
    refine (wordElements_ascending word).eq_of_mem_iff (List.pairwise_lt_range.filter _)
      fun i => ?_
    rw [mem_wordElements_iff, List.mem_filter, List.mem_range]
    exact ⟨fun hbit => ⟨lt_of_bit hbit, hbit⟩, And.right⟩
  rw [hfilter, onesCount_eq_countP, List.countP_eq_length_filter]

/-! ## Membership -/

theorem contains_ofSize (size : UInt64) (v : Nat) : (ofSize size).contains v = false := by
  rw [contains, ofSize, getD_replicate, bit_zero]

theorem contains_insert (s : BitSet) (v w : Nat) :
    (s.insert v).contains w = (s.contains w || w == v) := by
  have hgrown (j : Nat) : (s.words ++ Array.replicate (v / 64 + 1 - s.words.size) 0).getD j 0 =
      s.words.getD j 0 := by
    rw [Array.getD_eq_getD_getElem?, Array.getD_eq_getD_getElem?, Array.getElem?_append,
      Array.getElem?_replicate]
    split_ifs with hj hfill
    · rfl
    · rw [Array.getElem?_eq_none (Nat.not_lt.mp hj)]
      rfl
    · rw [Array.getElem?_eq_none (Nat.not_lt.mp hj)]
  have hsize : v / 64 < (s.words ++ Array.replicate (v / 64 + 1 - s.words.size) 0).size := by
    rw [Array.size_append, Array.size_replicate]
    omega
  rw [contains, contains, insert]
  generalize (s.words ++ Array.replicate (v / 64 + 1 - s.words.size) 0) = words at hgrown hsize ⊢
  rw [← hgrown]
  dsimp only
  rw [Array.getD_eq_getD_getElem?, Array.getElem?_modify, Array.getD_eq_getD_getElem?]
  split_ifs with hword
  · rw [← hword, Array.getElem?_eq_getElem hsize, Option.map_some, Option.getD_some,
      Option.getD_some, bit_or_shiftLeft _ (Nat.mod_lt w (by decide)) (Nat.mod_lt v (by decide))]
    congr 1
    rw [Bool.eq_iff_iff, beq_iff_eq, beq_iff_eq]
    omega
  · have hne : (w == v) = false := by
      rw [beq_eq_false_iff_ne]
      rintro rfl
      exact hword rfl
    rw [hne, Bool.or_false]

theorem contains_insertAll (s : BitSet) (vs : List Nat) (w : Nat) :
    (s.insertAll vs).contains w = (s.contains w || vs.contains w) := by
  rw [insertAll]
  induction vs generalizing s with
  | nil => simp
  | cons v rest ih =>
    rw [List.foldl_cons, ih, contains_insert, List.contains_cons, Bool.or_assoc]

/-! ## Elements -/

theorem mem_elements_iff : v ∈ s.elements ↔ s.contains v = true := by
  simp only [elements, List.mem_flatMap, List.mem_range, List.mem_map, mem_wordElements_iff,
    contains]
  constructor
  · rintro ⟨k, -, i, hbit, rfl⟩
    have hi := lt_of_bit hbit
    rwa [show (64 * k + i) / 64 = k by omega, show (64 * k + i) % 64 = i by omega]
  · intro hbit
    refine ⟨v / 64, Nat.lt_of_not_le fun hle => ?_, v % 64, hbit, Nat.div_add_mod v 64⟩
    rw [Array.getD_eq_getD_getElem?, Array.getElem?_eq_none hle, Option.getD_none,
      bit_zero] at hbit
    cases hbit

/-- Words hold consecutive intervals of numbers, so their elements are in order. -/
theorem elements_ascending (s : BitSet) : s.elements.Pairwise (· < ·) := by
  rw [elements, List.pairwise_flatMap]
  constructor
  · intro k _
    rw [List.pairwise_map]
    exact (wordElements_ascending _).imp fun hlt => Nat.add_lt_add_left hlt _
  · refine List.pairwise_lt_range.imp fun {k l} hkl x hx y hy => ?_
    obtain ⟨i, hi, rfl⟩ := List.mem_map.mp hx
    obtain ⟨j, -, rfl⟩ := List.mem_map.mp hy
    have hlt := lt_of_bit (mem_wordElements_iff.mp hi)
    omega

theorem count_eq_length (s : BitSet) : s.count = s.elements.length := by
  have hfold (words : List UInt64) (c : Nat) :
      words.foldl (fun count word => count + onesCount word) c =
      c + (words.map onesCount).sum := by
    induction words generalizing c with
    | nil => rfl
    | cons word rest ih => rw [List.foldl_cons, ih, List.map_cons, List.sum_cons, Nat.add_assoc]
  have hwords : s.words.toList = (List.range s.words.size).map (s.words.getD · 0) := by
    refine List.ext_getElem (by simp) fun w hw _ => ?_
    simp [Array.getD_eq_getD_getElem?, Array.getElem?_eq_getElem hw]
  rw [count, ← Array.foldl_toList, hfold, hwords, elements, List.length_flatMap, List.map_map,
    Nat.zero_add]
  simp only [List.length_map, length_wordElements]
  rfl

/-- Sets with the same numbers have the same elements, whatever their words are. -/
theorem elements_congr {t : BitSet} (h : ∀ v, s.contains v = t.contains v) :
    s.elements = t.elements :=
  s.elements_ascending.eq_of_mem_iff t.elements_ascending fun v => by
    rw [mem_elements_iff, mem_elements_iff, h]

/-! ## Sequences of insertions -/

/-- One call that adds numbers to a set. -/
inductive Insertion where
  /-- A single number. -/
  | one (v : Nat)
  /-- Every number of a list. -/
  | all (vs : List Nat)

/-- The numbers that a call adds. -/
def Insertion.numbers : Insertion → List Nat
  | one v => [v]
  | all vs => vs

/-- The set after a call. -/
def apply (s : BitSet) : Insertion → BitSet
  | .one v => s.insert v
  | .all vs => s.insertAll vs

/-- The set of some initial size after all calls. -/
def built (size : UInt64) (calls : List Insertion) : BitSet := calls.foldl apply (ofSize size)

/-- The numbers that calls add, as often and in the order as they are added. -/
def inserted (calls : List Insertion) : List Nat := calls.flatMap Insertion.numbers

theorem contains_apply (s : BitSet) (call : Insertion) (w : Nat) :
    (s.apply call).contains w = (s.contains w || call.numbers.contains w) := by
  cases call with
  | one v =>
    rw [apply, contains_insert, Insertion.numbers, List.contains_cons, List.contains_nil,
      Bool.or_false]
  | all vs => exact contains_insertAll s vs w

theorem contains_built {size : UInt64} {calls : List Insertion} :
    (built size calls).contains v = true ↔ v ∈ inserted calls := by
  have hfold (calls : List Insertion) (s : BitSet) :
      (calls.foldl apply s).contains v = true ↔ s.contains v = true ∨ v ∈ inserted calls := by
    induction calls generalizing s with
    | nil => simp [inserted]
    | cons call rest ih =>
      rw [List.foldl_cons, ih, contains_apply, Bool.or_eq_true, List.contains_iff_mem, inserted,
        inserted, List.flatMap_cons, List.mem_append, or_assoc]
  rw [built, hfold, contains_ofSize]
  simp

/-- After any insertions, a set of bits is the set of the numbers inserted: it
contains them and no others, it lists them in strictly ascending order, and it
counts what it lists.  None of this depends on the initial size, or on the order
and the number of times in which the numbers came. -/
theorem built_observed (size : UInt64) (calls : List Insertion) :
    (∀ v, (built size calls).contains v = true ↔ v ∈ inserted calls) ∧
      (built size calls).elements.Pairwise (· < ·) ∧
      (∀ v, v ∈ (built size calls).elements ↔ v ∈ inserted calls) ∧
      (built size calls).count = (built size calls).elements.length ∧
      ∀ size' calls', (∀ v, v ∈ inserted calls' ↔ v ∈ inserted calls) →
        (∀ v, (built size' calls').contains v = (built size calls).contains v) ∧
          (built size' calls').elements = (built size calls).elements ∧
          (built size' calls').count = (built size calls).count ∧
          (built size' calls').text = (built size calls).text := by
  refine ⟨fun v => contains_built, elements_ascending _, fun v => ?_, count_eq_length _, ?_⟩
  · rw [mem_elements_iff, contains_built]
  · intro size' calls' hsame
    have hcontains (v : Nat) :
        (built size' calls').contains v = (built size calls).contains v := by
      rw [Bool.eq_iff_iff, contains_built, contains_built, hsame]
    have helements := elements_congr hcontains
    refine ⟨hcontains, helements, ?_, ?_⟩
    · rw [count_eq_length, count_eq_length, helements]
    · rw [text, text, helements]

/-- The largest size leaves no room at first, and the other set starts with one
word. -/
theorem built_observed_wrapped :
    (ofSize (-1)).words.size = 0 ∧
      (built (-1) [.one 130, .all [3, 64, 3], .one 64]).elements = [3, 64, 130] ∧
      (built (-1) [.one 130, .all [3, 64, 3], .one 64]).elements =
        (built 20 [.all [64, 3], .one 130]).elements ∧
      (built (-1) [.one 130, .all [3, 64, 3], .one 64]).count =
        (built 20 [.all [64, 3], .one 130]).count := by
  have hsame : ∀ v, v ∈ inserted [.one 130, .all [3, 64, 3], .one 64] ↔
      v ∈ inserted [.all [64, 3], .one 130] := fun v => by
    simp [inserted, Insertion.numbers]
    omega
  obtain ⟨-, helements, hcount, -⟩ :=
    (built_observed 20 [.all [64, 3], .one 130]).2.2.2.2 (-1) _ hsame
  exact ⟨by decide, by decide +kernel, helements, hcount⟩

end QuantumCompiler.BitSet
