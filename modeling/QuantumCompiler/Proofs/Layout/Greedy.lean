import Mathlib.Data.List.Nodup
import QuantumCompiler.Layout.Assign
import QuantumCompiler.Proofs.Layout.Consistent
import QuantumCompiler.Proofs.Layout.Interaction
import QuantumCompiler.Proofs.Layout.Packing

/-!
# Greedy placement never gets stuck

`Filling` is what holds after some qubits of a group went into a region: the
numbers of open qubits and of free places go down together, and no other
region is touched.  As long as the region has room for the whole group there
is a next qubit, and every free place has a cost for it, because its partners
are in the same group and hence in the same region.

`greedy_eq_ok` puts the groups together: from a packing that fits, the result
connects all interacting qubits.
-/

namespace QuantumCompiler.Greedy

variable {g : InteractionGraph} {m : CouplingMap} {l₀ l : Layout} {group region : List Nat}

/-- The qubits of a group that have no place. -/
def unplaced (l : Layout) (group : List Nat) : List Nat :=
  group.filter fun q => l.physical? q == none

theorem mem_freeIn {p : Nat} : p ∈ freeIn l region ↔ p ∈ region ∧ l.logical? p = none := by
  simp [freeIn]

theorem mem_unplaced {q : Nat} : q ∈ unplaced l group ↔ q ∈ group ∧ l.physical? q = none := by
  simp [unplaced]

/-! ## One qubit -/

section Place

variable {q p : Nat}

/-- Filtering out one more element of a list without repetitions. -/
theorem length_filter_of_erase {xs : List Nat} (hxs : xs.Nodup) {P P' : Nat → Bool} {x : Nat}
    (hx : x ∈ xs.filter P) (hP : ∀ y, P' y = (P y && y != x)) :
    (xs.filter P').length + 1 = (xs.filter P).length := by
  have herase : xs.filter P' = (xs.filter P).erase x := by
    rw [(hxs.filter P).erase_eq_filter, List.filter_filter]
    refine List.filter_congr fun y _ => ?_
    rw [hP, Bool.and_comm]
  have hpos : 0 < (xs.filter P).length := List.length_pos_of_mem hx
  rw [herase, List.length_erase_of_mem hx]
  omega

theorem length_freeIn_place (hregion : region.Nodup) (hp : p ∈ freeIn l region)
    (hlt : p < l.numPhysical) :
    (freeIn (l.place q p) region).length + 1 = (freeIn l region).length := by
  refine length_filter_of_erase hregion hp fun y => ?_
  rw [Layout.logical?_place hlt]
  by_cases hy : y = p <;> simp [hy]

theorem length_unplaced_place (hgroup : group.Nodup) (hq : q ∈ unplaced l group)
    (hlt : q < l.numLogical) :
    (unplaced (l.place q p) group).length + 1 = (unplaced l group).length := by
  refine length_filter_of_erase hgroup hq fun y => ?_
  rw [Layout.physical?_place hlt]
  by_cases hy : y = q <;> simp [hy]

theorem freeIn_place_of_notMem (hp : p ∉ region) (hlt : p < l.numPhysical) :
    freeIn (l.place q p) region = freeIn l region := by
  refine List.filter_congr fun y hy => ?_
  have hne : y ≠ p := fun h => hp (h ▸ hy)
  rw [Layout.logical?_place hlt, if_neg hne]

end Place

/-! ## One group -/

/-- A number of qubits of a group have been placed in a region. -/
structure Filling (l₀ l : Layout) (group region : List Nat) (k : Nat) : Prop where
  consistent : l.Consistent
  logical : l.numLogical = l₀.numLogical
  physical : l.numPhysical = l₀.numPhysical
  others : ∀ q, q ∉ group → l.physical? q = l₀.physical? q
  inside : ∀ q ∈ group, ∀ p, l.physical? q = some p → p ∈ region
  open_length : (unplaced l group).length + k = group.length
  free_length : (freeIn l region).length + k = (freeIn l₀ region).length
  outside : ∀ other, List.Disjoint other region → freeIn l other = freeIn l₀ other

theorem filling_start (hl : l.Consistent) (hopen : ∀ q ∈ group, l.physical? q = none) :
    Filling l l group region 0 where
  consistent := hl
  logical := rfl
  physical := rfl
  others _ _ := rfl
  inside q hq p hp := by
    rw [hopen q hq] at hp
    cases hp
  open_length := by
    have hall : unplaced l group = group :=
      List.filter_eq_self.mpr fun q hq => by rw [hopen q hq]; rfl
    rw [hall, Nat.add_zero]
  free_length := rfl
  outside _ _ := rfl

/-- One more qubit of the group is placed in the region. -/
theorem Filling.place {k q p : Nat} (h : Filling l₀ l group region k) (hgroup : group.Nodup)
    (hregion : region.Nodup) (hq : q ∈ unplaced l group) (hp : p ∈ freeIn l region)
    (hqlt : q < l₀.numLogical) (hplt : p < l₀.numPhysical) :
    Filling l₀ (l.place q p) group region (k + 1) := by
  have hqlt' : q < l.numLogical := h.logical ▸ hqlt
  have hplt' : p < l.numPhysical := h.physical ▸ hplt
  obtain ⟨hqmem, hqnone⟩ := mem_unplaced.mp hq
  obtain ⟨hpmem, hpnone⟩ := mem_freeIn.mp hp
  refine
    { consistent := h.consistent.place hqlt' hplt' hqnone hpnone
      logical := by rw [Layout.numLogical_place, h.logical]
      physical := by rw [Layout.numPhysical_place, h.physical]
      others := fun r hr => ?_
      inside := fun r hr p' hp' => ?_
      open_length := ?_
      free_length := ?_
      outside := fun other hother => ?_ }
  · have hne : r ≠ q := fun heq => hr (heq ▸ hqmem)
    rw [Layout.physical?_place hqlt', if_neg hne, h.others r hr]
  · rw [Layout.physical?_place hqlt'] at hp'
    split_ifs at hp'
    · cases hp'
      exact hpmem
    · exact h.inside r hr p' hp'
  · have hcount := @length_unplaced_place l group q p hgroup hq hqlt'
    have := h.open_length
    omega
  · have hcount := @length_freeIn_place l region q p hregion hp hplt'
    have := h.free_length
    omega
  · rw [freeIn_place_of_notMem (fun hmem => hother hmem hpmem) hplt', h.outside other hother]

theorem Filling.all_placed (h : Filling l₀ l group region group.length) :
    ∀ q ∈ group, ∃ p ∈ region, l.physical? q = some p := by
  have hnone : unplaced l group = [] :=
    List.eq_nil_of_length_eq_zero (by have := h.open_length; omega)
  intro q hq
  cases hplace : l.physical? q with
  | none =>
    have hmem : q ∈ unplaced l group := mem_unplaced.mpr ⟨hq, hplace⟩
    rw [hnone] at hmem
    cases hmem
  | some p => exact ⟨p, h.inside q hq p hplace, rfl⟩

/-- There is an open qubit and a free place until the group is complete. -/
theorem Filling.exists_mem {k : Nat} (h : Filling l₀ l group region k) (hk : k < group.length)
    (hroom : group.length ≤ (freeIn l₀ region).length) :
    unplaced l group ≠ [] ∧ freeIn l region ≠ [] := by
  have hopen := h.open_length
  have hfree := h.free_length
  constructor
  · exact List.ne_nil_of_length_pos (by omega)
  · exact List.ne_nil_of_length_pos (by omega)

section Group

variable (hg : g.Valid) (hgroup : g.IsGroup group) (hregion : m.IsRegion region)
  (hlogical : l₀.numLogical = g.numQubits) (hphysical : l₀.numPhysical = m.size)
  (hroom : group.length ≤ (freeIn l₀ region).length)

include hgroup hregion hlogical hphysical hroom in
theorem placeFirst_filling (h : Filling l₀ l group region 0) :
    ∃ l', placeFirst g m group region l = some l' ∧ Filling l₀ l' group region 1 := by
  have hpos := List.length_pos_iff.mpr hgroup.nonempty
  obtain ⟨-, hfree⟩ := h.exists_mem hpos hroom
  rw [placeFirst]
  cases hfirst : firstMax? g.degree group with
  | none => exact absurd (firstMax?_eq_none_iff.mp hfirst) hgroup.nonempty
  | some first =>
    cases hstart : firstMax? (fun q => (m.neighbours q).length) (freeIn l region) with
    | none => exact absurd (firstMax?_eq_none_iff.mp hstart) hfree
    | some start =>
      have hmem := mem_of_firstMax? hfirst
      have hstart := mem_of_firstMax? hstart
      have hopen : first ∈ unplaced l group := by
        have hall : unplaced l group = group :=
          List.filter_eq_self.mpr (List.length_filter_eq_length_iff.mp h.open_length)
        rw [hall]
        exact hmem
      refine ⟨_, rfl, h.place hgroup.nodup hregion.nodup hopen hstart ?_ ?_⟩
      · rw [hlogical]
        exact hgroup.lt first hmem
      · rw [hphysical]
        exact hregion.lt start (mem_freeIn.mp hstart).1

include hg hgroup hregion hlogical hphysical hroom in
theorem placeNext_filling {k : Nat} (h : Filling l₀ l group region k) (hk : k < group.length) :
    ∃ l', placeNext g m group region l = some l' ∧ Filling l₀ l' group region (k + 1) := by
  obtain ⟨hopen, hfree⟩ := h.exists_mem hk hroom
  rw [placeNext, show group.filter (fun q => l.physical? q == none) = unplaced l group from rfl]
  cases hnext : firstMax? (tie g l) (unplaced l group) with
  | none => exact absurd (firstMax?_eq_none_iff.mp hnext) hopen
  | some next =>
    have hnext := mem_of_firstMax? hnext
    have hmem := (mem_unplaced.mp hnext).1
    dsimp only
    -- All partners that are placed are in the region, so every free place has a cost.
    have hcost (p : Nat) (hp : p ∈ freeIn l region) :
        (g.localCost? m l.physical? next p).isSome = true := by
      have hp := (mem_freeIn.mp hp).1
      refine (hg.isSome_localCost?_iff (hgroup.lt next hmem) (hregion.lt p hp)).mpr ?_
      intro r p' hadj hp'
      exact hregion.connected p hp p' (h.inside r (hgroup.closed next hmem r hadj) p' hp')
    generalize hcosts : (freeIn l region).filterMap
      (fun q => (g.localCost? m l.physical? next q).map fun c => (q, c)) = costs
    have hcosts_mem {x : Nat × Nat} (hx : x ∈ costs) : x.1 ∈ freeIn l region := by
      rw [← hcosts, List.mem_filterMap] at hx
      obtain ⟨p, hp, hx⟩ := hx
      obtain ⟨c, -, rfl⟩ := Option.map_eq_some_iff.mp hx
      exact hp
    cases hbest : firstMin? (·.2) costs with
    | none =>
      obtain ⟨p, hp⟩ := List.exists_mem_of_ne_nil _ hfree
      obtain ⟨c, hc⟩ := Option.isSome_iff_exists.mp (hcost p hp)
      have : (p, c) ∈ costs := by
        rw [← hcosts]
        exact List.mem_filterMap.mpr ⟨p, hp, by rw [hc]; rfl⟩
      rw [firstMin?_eq_none_iff.mp hbest] at this
      cases this
    | some best =>
      have hbest := hcosts_mem (mem_of_firstMin? hbest)
      refine ⟨_, rfl, h.place hgroup.nodup hregion.nodup hnext hbest ?_ ?_⟩
      · rw [hlogical]
        exact hgroup.lt next hmem
      · rw [hphysical]
        exact hregion.lt _ (mem_freeIn.mp hbest).1

include hg hgroup hregion hlogical hphysical hroom in
theorem placeMore_filling {k n : Nat} (h : Filling l₀ l group region k)
    (hk : k + n = group.length) :
    ∃ l', placeMore g m group region n l = some l' ∧
      Filling l₀ l' group region group.length := by
  induction n generalizing l k with
  | zero => exact ⟨l, rfl, by rw [← hk]; exact h⟩
  | succ n ih =>
    obtain ⟨l', hl', h'⟩ :=
      placeNext_filling hg hgroup hregion hlogical hphysical hroom h (by omega)
    rw [placeMore, hl']
    exact ih h' (by omega)

include hg hgroup hregion hlogical hphysical hroom in
/-- A region with room for a group takes all of it. -/
theorem placeGroup_filling (hl : l₀.Consistent) (hopen : ∀ q ∈ group, l₀.physical? q = none) :
    ∃ l', placeGroup g m group region l₀ = some l' ∧
      Filling l₀ l' group region group.length := by
  have hpos := List.length_pos_iff.mpr hgroup.nonempty
  obtain ⟨l₁, hl₁, h₁⟩ :=
    placeFirst_filling hgroup hregion hlogical hphysical hroom (filling_start hl hopen)
  rw [placeGroup, hl₁]
  exact placeMore_filling hg hgroup hregion hlogical hphysical hroom h₁ (by omega)

end Group

/-! ## All groups -/

/-- Groups that fit into the regions of a coupling map are all placed, each in
one region. -/
theorem placeGroups_spec (hg : g.Valid) {free targets : List Nat} {groups : List (List Nat)}
    (hfits : Packing.Fits free (groups.map List.length) targets)
    (hgroups : ∀ group ∈ groups, g.IsGroup group) (hdisjoint : groups.Pairwise List.Disjoint)
    (hl : l.Consistent) (hlogical : l.numLogical = g.numQubits)
    (hphysical : l.numPhysical = m.size) (hlength : free.length = m.components.length)
    (hfree : ∀ j, (freeIn l (m.components.getD j [])).length = free.getD j 0)
    (hopen : ∀ group ∈ groups, ∀ q ∈ group, l.physical? q = none) :
    ∃ l', placeGroups g m (groups.zip (targets.map fun j => m.components.getD j [])) l = some l' ∧
      l'.Consistent ∧ l'.numLogical = g.numQubits ∧ l'.numPhysical = m.size ∧
      (∀ q, (∀ group ∈ groups, q ∉ group) → l'.physical? q = l.physical? q) ∧
      ∀ group ∈ groups, ∃ region ∈ m.components, ∀ q ∈ group, ∃ p ∈ region,
        l'.physical? q = some p := by
  induction groups generalizing free targets l with
  | nil => exact ⟨l, rfl, hl, hlogical, hphysical, fun _ _ => rfl, by simp⟩
  | cons group rest ih =>
    cases hfits with
    | @cons _ _ targets _ j hj hroom tail =>
      obtain ⟨hhead, hrest⟩ := List.pairwise_cons.mp hdisjoint
      have hj' : j < m.components.length := hlength ▸ hj
      have hmem : m.components.getD j [] ∈ m.components := by
        rw [List.getD_eq_getElem _ _ hj']
        exact List.getElem_mem hj'
      have hgroup := hgroups group List.mem_cons_self
      obtain ⟨l₁, hl₁, h₁⟩ := placeGroup_filling hg hgroup (CouplingMap.isRegion hmem) hlogical
        hphysical (by rw [hfree]; exact hroom) hl (hopen group List.mem_cons_self)
      have hfree₁ (i : Nat) : (freeIn l₁ (m.components.getD i [])).length =
          (Packing.fill free j group.length).getD i 0 := by
        rw [Packing.getD_fill]
        by_cases hi : i = j
        · have := h₁.free_length
          rw [hi, if_pos rfl, ← hfree]
          omega
        · rw [if_neg hi, h₁.outside _ (m.disjoint_getD_components hi), hfree]
      have hopen₁ : ∀ other ∈ rest, ∀ q ∈ other, l₁.physical? q = none := by
        intro other hother q hq
        rw [h₁.others q fun hq' => hhead other hother hq' hq]
        exact hopen other (List.mem_cons_of_mem _ hother) q hq
      obtain ⟨l', hl', hcons, hlog, hphys, hothers, hplaced⟩ :=
        ih tail (fun other hother => hgroups other (List.mem_cons_of_mem _ hother)) hrest
          h₁.consistent (h₁.logical.trans hlogical) (h₁.physical.trans hphysical)
          (by rw [Packing.length_fill, hlength]) hfree₁ hopen₁
      refine ⟨l', ?_, hcons, hlog, hphys, ?_, ?_⟩
      · rw [List.map_cons, List.zip_cons_cons, placeGroups, hl₁]
        exact hl'
      · intro q hq
        rw [hothers q fun other hother => hq other (List.mem_cons_of_mem _ hother),
          h₁.others q (hq group List.mem_cons_self)]
      · intro other hother
        rcases List.mem_cons.mp hother with rfl | hother
        · refine ⟨_, hmem, fun q hq => ?_⟩
          obtain ⟨p, hp, hqp⟩ := h₁.all_placed q hq
          exact ⟨p, hp, by rw [hothers q fun o ho hq' => hhead o ho hq hq', hqp]⟩
        · exact hplaced other hother

end Greedy

namespace Layout

/-- A layout of the qubits of a graph on a coupling map that connects all
interacting qubits.  Other qubits may have no place. -/
structure Serves (g : InteractionGraph) (m : CouplingMap) (l : Layout) : Prop where
  consistent : l.Consistent
  logical : l.numLogical = g.numQubits
  physical : l.numPhysical = m.size
  connects : g.Connects m l.physical?

variable {g : InteractionGraph} {m : CouplingMap}

/-- Groups that fit into the regions are placed so that all interacting qubits
are connected. -/
theorem greedy_eq_ok (hg : g.Valid) {targets : List Nat}
    (hfits : Packing.Fits (m.components.map List.length) (g.components.map List.length) targets) :
    ∃ l, greedy g m = .ok l ∧ Serves g m l := by
  obtain ⟨ts, hpack⟩ := Packing.exists_pack hfits
  have hfree (j : Nat) :
      (Greedy.freeIn (empty g.numQubits m.size) (m.components.getD j [])).length =
      (m.components.map List.length).getD j 0 := by
    have hall (region : List Nat) : Greedy.freeIn (empty g.numQubits m.size) region = region :=
      List.filter_eq_self.mpr fun p _ => by simp
    rw [hall]
    exact (List.getD_map m.components [] List.length).symm
  obtain ⟨l, hl, hcons, hlog, hphys, -, hplaced⟩ :=
    Greedy.placeGroups_spec hg (Packing.pack_fits hpack) (fun _ => hg.isGroup)
      g.components_disjoint (empty_consistent _ _) (by simp [empty, numLogical])
      (by simp [empty, numPhysical]) (by simp) hfree (by simp)
  refine ⟨l, by simp only [greedy, hpack, hl], ⟨hcons, hlog, hphys, fun a b hadj => ?_⟩⟩
  obtain ⟨group, hgroup, ha, hb⟩ := hg.exists_group hadj
  obtain ⟨region, hregion, hall⟩ := hplaced group hgroup
  obtain ⟨p, hp, hap⟩ := hall a ha
  obtain ⟨q, hq, hbq⟩ := hall b hb
  have hregion := CouplingMap.isRegion hregion
  exact ⟨p, q, hap, hbq, hregion.lt p hp, hregion.connected p hp q hq⟩

end Layout

end QuantumCompiler
