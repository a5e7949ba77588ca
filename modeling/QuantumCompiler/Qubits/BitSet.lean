/-!
# Sets of numbers as bits

A set of natural numbers as an array of 64 bit words: the number `v` is in the set if bit
`v % 64` of word `v / 64` is set.  Words are appended when a number does not fit, so the initial
size only says how many words are there from the start.
-/

namespace QuantumCompiler

/-- A finite set of natural numbers. -/
structure BitSet where
  /-- The words, the lowest numbers first. -/
  words : Array UInt64
  deriving DecidableEq

namespace BitSet

/-- Whether a bit of a word is set. -/
def bit (word : UInt64) (i : Nat) : Bool := word.toNat.testBit i

/-- The empty set with room for a number of elements.  The number of words is computed in 64 bit
arithmetic, so the largest size gives no words at all. -/
def ofSize (size : UInt64) : BitSet := ⟨Array.replicate ((size + 63) / 64).toNat 0⟩

/-- The set with one more element. -/
def insert (s : BitSet) (v : Nat) : BitSet :=
  let words := s.words ++ Array.replicate (v / 64 + 1 - s.words.size) 0
  ⟨words.modify (v / 64) fun word => word ||| (1 <<< (v % 64).toUInt64)⟩

/-- The set with every element of a list. -/
def insertAll (s : BitSet) (vs : List Nat) : BitSet := vs.foldl insert s

/-- Whether a number is in the set. -/
def contains (s : BitSet) (v : Nat) : Bool := bit (s.words.getD (v / 64) 0) (v % 64)

/-- Number of bits of a word that are set. -/
def onesCount (word : UInt64) : Nat := word.toBitVec.cpop.toNat

/-- Position of the lowest bit of a word that is set. -/
def trailingZeros (word : UInt64) : Nat := word.toBitVec.ctz.toNat

/-- A word without its lowest bit. -/
def clearLowest (word : UInt64) : UInt64 := word &&& (word - 1)

theorem toNat_pos {word : UInt64} (h : word ≠ 0) : 0 < word.toNat :=
  Nat.pos_of_ne_zero fun hzero => h (UInt64.toNat_inj.mp hzero)

theorem toNat_clearLowest {word : UInt64} (h : word ≠ 0) :
    (clearLowest word).toNat = word.toNat &&& (word.toNat - 1) := by
  have hone : (1 : UInt64) ≤ word := UInt64.le_iff_toNat_le.mpr (toNat_pos h)
  rw [clearLowest, UInt64.toNat_and, UInt64.toNat_sub_of_le _ _ hone, UInt64.toNat_one]

theorem clearLowest_lt {word : UInt64} (h : word ≠ 0) :
    (clearLowest word).toNat < word.toNat := by
  rw [toNat_clearLowest h]
  exact Nat.lt_of_le_of_lt Nat.and_le_right (Nat.sub_lt (toNat_pos h) Nat.one_pos)

/-- The positions of the bits of a word, in ascending order: the lowest bit is read off and
cleared until no bit is left. -/
def wordElements (word : UInt64) : List Nat :=
  if word = 0 then [] else trailingZeros word :: wordElements (clearLowest word)
termination_by word.toNat
decreasing_by exact clearLowest_lt ‹_›

/-- The elements in ascending order. -/
def elements (s : BitSet) : List Nat :=
  (List.range s.words.size).flatMap fun w => (wordElements (s.words.getD w 0)).map (64 * w + ·)

/-- Number of elements. -/
def count (s : BitSet) : Nat := s.words.foldl (fun count word => count + onesCount word) 0

/-- Text of a set. -/
def text (s : BitSet) : String := "[" ++ ", ".intercalate (s.elements.map toString) ++ "]"

end BitSet

end QuantumCompiler
