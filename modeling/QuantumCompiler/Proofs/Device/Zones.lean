import Mathlib.Order.Interval.Finset.Nat
import QuantumCompiler.Numeric.Binary64
import QuantumCompiler.Proofs.Device.Descriptor

/-!
# Zones of a device

The qubits of a device are split over its zones in order of their numbers.  A
zone is an interval of qubits (`mem_zone_iff`), so how many qubits it has is the
length of the interval (`card_zone`): the zones before the last one have equally
many, and the last one has those that are left over as well.

Neither way to a number of zones, a descriptor or a later split, leaves a zone
empty (`zones_splitEvenly`).
-/

namespace QuantumCompiler.Device

variable {α : Type} {d : Device α} {k q : Nat}

/-! ## Where a qubit rests -/

/-- A device with qubits has no more zones than qubits. -/
theorem zones_le_numQubits (h : 0 < d.numQubits) : d.zones ≤ d.numQubits := by
  have hle := d.zones_le
  rw [numQubits] at h ⊢
  omega

theorem zoneSize_pos (h : 0 < d.numQubits) : 0 < d.numQubits / d.zones :=
  Nat.div_pos (zones_le_numQubits h) d.zones_pos

theorem zoneOf_lt_zones (d : Device α) (q : Nat) : d.zoneOf q < d.zones := by
  have hpos := d.zones_pos
  rw [zoneOf]
  omega

theorem zoneOf_mono (d : Device α) : Monotone d.zoneOf := by
  intro p q hpq
  have hdiv : p / (d.numQubits / d.zones) ≤ q / (d.numQubits / d.zones) :=
    Nat.div_le_div_right hpq
  rw [zoneOf, zoneOf]
  omega

/-! ## The qubits of a zone -/

/-- The qubits that rest in a zone. -/
def zone (d : Device α) (k : Nat) : Finset Nat :=
  (Finset.range d.numQubits).filter (d.zoneOf · = k)

/-- The first qubit that is behind a zone. -/
def zoneEnd (d : Device α) (k : Nat) : Nat :=
  if k + 1 = d.zones then d.numQubits else (k + 1) * (d.numQubits / d.zones)

/-- A zone is an interval of qubits.  The last one reaches to the end of the
device. -/
theorem mem_zone_iff (h : 0 < d.numQubits) (hk : k < d.zones) :
    q ∈ d.zone k ↔ k * (d.numQubits / d.zones) ≤ q ∧ q < d.zoneEnd k := by
  have hsize := zoneSize_pos h
  have hall : d.zones * (d.numQubits / d.zones) ≤ d.numQubits := Nat.mul_div_le _ _
  rw [zone, Finset.mem_filter, Finset.mem_range, zoneOf, zoneEnd]
  have hfrom : k ≤ q / (d.numQubits / d.zones) ↔ k * (d.numQubits / d.zones) ≤ q :=
    Nat.le_div_iff_mul_le hsize
  have hto : q / (d.numQubits / d.zones) < k + 1 ↔ q < (k + 1) * (d.numQubits / d.zones) :=
    Nat.div_lt_iff_lt_mul hsize
  split_ifs with hlast
  · rw [← hfrom]
    omega
  · have hbelow : (k + 1) * (d.numQubits / d.zones) ≤ d.zones * (d.numQubits / d.zones) :=
      Nat.mul_le_mul_right _ (by omega)
    rw [← hfrom, ← hto]
    omega

theorem card_zone (h : 0 < d.numQubits) (hk : k < d.zones) :
    (d.zone k).card =
      if k + 1 = d.zones then d.numQubits / d.zones + d.numQubits % d.zones
      else d.numQubits / d.zones := by
  have hinterval : d.zone k = Finset.Ico (k * (d.numQubits / d.zones)) (d.zoneEnd k) := by
    ext q
    rw [mem_zone_iff h hk, Finset.mem_Ico]
  have hrest := Nat.div_add_mod d.numQubits d.zones
  rw [hinterval, Nat.card_Ico, zoneEnd]
  generalize d.numQubits / d.zones = size at hrest ⊢
  split_ifs with hlast
  · rw [← hlast, Nat.succ_mul] at hrest
    rw [← hlast]
    omega
  · rw [Nat.succ_mul]
    omega

/-- What the zones of a device promise. -/
structure SplitEvenly (d : Device α) : Prop where
  pos : 1 ≤ d.zones
  le : d.zones ≤ d.numQubits
  /-- The zone of a qubit is found by dividing by the number of zones, then by the
  size of a zone. -/
  divisors : d.zones ≠ 0 ∧ d.numQubits / d.zones ≠ 0
  zoneOf_lt : ∀ q < d.numQubits, d.zoneOf q < d.zones
  ascending : ∀ p q, p ≤ q → d.zoneOf p ≤ d.zoneOf q
  card : ∀ k < d.zones - 1, (d.zone k).card = d.numQubits / d.zones
  card_last : (d.zone (d.zones - 1)).card = d.numQubits / d.zones + d.numQubits % d.zones
  nonempty : ∀ k < d.zones, ∃ q < d.numQubits, d.zoneOf q = k

theorem splitEvenly (h : 0 < d.numQubits) : d.SplitEvenly where
  pos := d.zones_pos
  le := zones_le_numQubits h
  divisors := ⟨Nat.ne_of_gt d.zones_pos, Nat.ne_of_gt (zoneSize_pos h)⟩
  zoneOf_lt q _ := d.zoneOf_lt_zones q
  ascending _ _ hpq := d.zoneOf_mono hpq
  card k hk := by rw [card_zone h (by omega), if_neg (by omega)]
  card_last := by
    have hpos := d.zones_pos
    rw [card_zone h (by omega), if_pos (by omega)]
  nonempty k hk := by
    have hcard : 0 < (d.zone k).card := by
      have hsize := zoneSize_pos h
      rw [card_zone h hk]
      split_ifs <;> omega
    obtain ⟨q, hq⟩ := Finset.card_pos.mp hcard
    rw [zone, Finset.mem_filter, Finset.mem_range] at hq
    exact ⟨q, hq⟩

/-! ## Where the number of zones comes from -/

variable [RealArith α]

/-- A device of a descriptor has the zones that are asked for, and at least one.  A
device that is split again has as many zones as asked for, as far as it has qubits.
Either way the qubits are split evenly. -/
theorem zones_splitEvenly :
    (∀ (desc : Descriptor α) (d : Device α), ofDescriptor desc = .ok d →
        d.zones = max desc.zones 1 ∧ d.SplitEvenly) ∧
      ∀ d : Device α, 0 < d.numQubits → ∀ zones,
        (d.withZones zones).zones = max (min zones d.numQubits) 1 ∧
        (d.withZones zones).SplitEvenly := by
  constructor
  · intro desc d h
    have hd := ofDescriptor_eq_ok_iff.mp h
    exact ⟨hd.zones, splitEvenly hd.numQubits_pos⟩
  · intro d h zones
    exact ⟨rfl, splitEvenly h⟩

/-- Five qubits in three zones: two qubits are left over, which is more than a zone
has. -/
def fiveInThree : Descriptor Float :=
  { name := "row", numQubits := 5, nativeGates := ["cz"], zones := 3 }

theorem zones_splitEvenly_fiveInThree :
    ∃ d, ofDescriptor fiveInThree = .ok d ∧ d.SplitEvenly ∧ (d.zone 0).card = 1 ∧
      (d.zone 2).card = 3 ∧
      (d.withZones 9).SplitEvenly ∧ (d.withZones 9).zones = 5 := by
  have hvalid : fiveInThree.violations = [] := by decide +kernel
  obtain ⟨d, hd, -⟩ : ∃ d, ofDescriptor fiveInThree = .ok d ∧
      d.coupling = ⟨5, [], _, by decide, by decide, rfl⟩ :=
    exists_ofDescriptor (Descriptor.violations_eq_nil_iff.mp hvalid) (.inl rfl) (by decide)
      rfl rfl
  obtain ⟨hdescribed, hsplit⟩ := zones_splitEvenly (α := Float)
  obtain ⟨hzones, heven⟩ := hdescribed fiveInThree d hd
  have hsize : d.numQubits = 5 := (ofDescriptor_eq_ok_iff.mp hd).numQubits
  have hthree : d.zones = 3 := hzones
  obtain ⟨hagain, heven'⟩ := hsplit d (by omega) 9
  have hfirst := heven.card 0 (by omega)
  have hlast := heven.card_last
  rw [hthree, hsize] at hfirst hlast
  exact ⟨d, hd, heven, hfirst, hlast, heven', by rw [hagain, hsize]; rfl⟩

end QuantumCompiler.Device
