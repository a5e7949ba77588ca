import Mathlib.Data.List.ReduceOption
import QuantumCompiler.Proofs.Layout.Improvement

/-!
# When a circuit has a layout

A circuit is `Placeable` on a coupling map if its qubits have different places
such that qubits on which an operation acts together are in one connected
region.  `choose_cases` says that a layout is found exactly for these circuits,
with any budget, and that it is such a placement.

One direction needs a counting argument: a placement takes every group of
interacting qubits into one region, so the groups fit into the regions
(`exists_fits`), and packing, greedy placement and search then cannot fail.
-/

namespace QuantumCompiler

variable {α β : Type} {g : InteractionGraph} {m : CouplingMap}

/-- The qubits of a circuit have different places on a coupling map such that
those on which an operation other than a barrier acts are in one region. -/
def Circuit.Placeable (c : Circuit α) (m : CouplingMap) : Prop :=
  ∃ f : Nat → Nat, (∀ q < c.numQubits, f q < m.size) ∧
    (∀ a < c.numQubits, ∀ b < c.numQubits, f a = f b → a = b) ∧
    ∀ op ∈ c.ops, op.isBarrier = false → ∀ a ∈ op.qubits, ∀ b ∈ op.qubits,
      m.graph.Reachable (f a) (f b)

/-- Too many qubits have no different places. -/
theorem Circuit.Placeable.numQubits_le {c : Circuit α} (h : c.Placeable m) :
    c.numQubits ≤ m.size := by
  obtain ⟨f, hlt, hinj, -⟩ := h
  have hnodup : ((List.range c.numQubits).map f).Nodup :=
    List.Nodup.map_on (fun a ha b hb => hinj a (List.mem_range.mp ha) b (List.mem_range.mp hb))
      List.nodup_range
  have hsub : (List.range c.numQubits).map f ⊆ List.range m.size := by
    intro p hp
    obtain ⟨q, hq, rfl⟩ := List.mem_map.mp hp
    exact List.mem_range.mpr (hlt q (List.mem_range.mp hq))
  have hlength := (hnodup.subperm hsub).length_le
  rwa [List.length_map, List.length_range, List.length_range] at hlength

namespace InteractionGraph

/-- The same for a graph of interactions. -/
def Placeable (g : InteractionGraph) (m : CouplingMap) : Prop :=
  ∃ f : Nat → Nat, (∀ q < g.numQubits, f q < m.size) ∧
    (∀ a < g.numQubits, ∀ b < g.numQubits, f a = f b → a = b) ∧
    ∀ a b, g.graph.Adj a b → m.graph.Reachable (f a) (f b)

theorem placeable_ofCircuit {c : Circuit α} (hc : c.WellFormed) :
    (ofCircuit c).Placeable m ↔ c.Placeable m := by
  refine exists_congr fun f => and_congr_right fun _ => and_congr_right fun _ => ?_
  constructor
  · intro h op hop hbarrier a ha b hb
    by_cases hab : a = b
    · rw [hab]
    · exact h a b ((graph_ofCircuit_adj hc).mpr ⟨hab, op, hop, hbarrier, ha, hb⟩)
  · intro h a b hadj
    obtain ⟨-, op, hop, hbarrier, ha, hb⟩ := (graph_ofCircuit_adj hc).mp hadj
    exact h op hop hbarrier a ha b hb

/-! ## Placeable graphs fit -/

/-- The number of the region of a physical qubit. -/
def regionOf (m : CouplingMap) (p : Nat) : Nat := m.components.findIdx (·.contains p)

theorem mem_regionOf {p : Nat} (hp : p < m.size) :
    ∃ hj : regionOf m p < m.components.length, p ∈ m.components[regionOf m p] := by
  obtain ⟨region, hregion, hmem⟩ := CouplingMap.exists_region hp
  have hj : regionOf m p < m.components.length :=
    List.findIdx_lt_length_of_exists ⟨region, hregion, by simpa using hmem⟩
  exact ⟨hj, List.contains_iff_mem.mp (List.findIdx_getElem (w := hj))⟩

/-- A placement takes qubits that are connected by interactions into one
region. -/
theorem reachable_map {f : Nat → Nat}
    (hf : ∀ a b, g.graph.Adj a b → m.graph.Reachable (f a) (f b)) {a b : Nat}
    (h : g.graph.Reachable a b) : m.graph.Reachable (f a) (f b) := by
  obtain ⟨w⟩ := h
  induction w with
  | nil => exact SimpleGraph.Reachable.refl _
  | cons hadj _ ih => exact (hf _ _ hadj).trans ih

/-- A placement takes a group into the region of its first qubit. -/
theorem IsGroup.mem_regionOf {group : List Nat} (hgroup : g.IsGroup group) {f : Nat → Nat}
    (hlt : ∀ q < g.numQubits, f q < m.size)
    (hf : ∀ a b, g.graph.Adj a b → m.graph.Reachable (f a) (f b)) :
    ∃ hj : regionOf m (f (group.headD 0)) < m.components.length,
      ∀ q ∈ group, f q ∈ m.components[regionOf m (f (group.headD 0))] := by
  have hhead : group.headD 0 ∈ group := by
    cases group with
    | nil => exact absurd rfl hgroup.nonempty
    | cons q rest => exact List.mem_cons_self
  obtain ⟨hj, hfirst⟩ := InteractionGraph.mem_regionOf (hlt _ (hgroup.lt _ hhead))
  refine ⟨hj, fun q hq => ?_⟩
  exact (CouplingMap.isRegion (List.getElem_mem hj)).closed _ hfirst _
    (reachable_map hf (hgroup.connected _ hhead q hq))

/-- The groups of a placeable graph fit into the regions. -/
theorem Valid.exists_fits (hg : g.Valid) (h : g.Placeable m) :
    ∃ targets, Packing.Fits (m.components.map List.length) (g.components.map List.length)
      targets := by
  obtain ⟨f, hlt, hinj, hf⟩ := h
  refine ⟨g.components.map fun group => regionOf m (f (group.headD 0)),
    Packing.fits_of_sum_le (fun group hgroup => ?_) fun j => ?_⟩
  · rw [List.length_map]
    exact ((hg.isGroup hgroup).mem_regionOf hlt hf).1
  · -- The qubits of all groups for one region are mapped into it one to one.
    generalize hinto : g.components.filter (fun group => regionOf m (f (group.headD 0)) == j) =
      into
    have hmem {q : Nat} (hq : q ∈ into.flatten) :
        ∃ group ∈ g.components, regionOf m (f (group.headD 0)) = j ∧ q ∈ group := by
      rw [← hinto] at hq
      obtain ⟨group, hgroup, hq⟩ := List.mem_flatten.mp hq
      obtain ⟨hgroup, hj⟩ := List.mem_filter.mp hgroup
      exact ⟨group, hgroup, by simpa using hj, hq⟩
    have hnodup : (into.flatten.map f).Nodup := by
      refine List.Nodup.map_on (fun a ha b hb => ?_) (List.nodup_flatten.mpr ⟨?_, ?_⟩)
      · obtain ⟨A, hA, -, ha⟩ := hmem ha
        obtain ⟨B, hB, -, hb⟩ := hmem hb
        exact hinj a ((hg.isGroup hA).lt a ha) b ((hg.isGroup hB).lt b hb)
      · intro group hgroup
        rw [← hinto] at hgroup
        exact (hg.isGroup (List.mem_filter.mp hgroup).1).nodup
      · rw [← hinto]
        exact g.components_disjoint.filter _
    have hsub : into.flatten.map f ⊆ m.components.getD j [] := by
      intro p hp
      obtain ⟨q, hq, rfl⟩ := List.mem_map.mp hp
      obtain ⟨group, hgroup, hj, hq⟩ := hmem hq
      obtain ⟨hlength, hall⟩ := (hg.isGroup hgroup).mem_regionOf hlt hf
      rw [← hj, List.getD_eq_getElem _ _ hlength]
      exact hall q hq
    have hlength := (hnodup.subperm hsub).length_le
    rw [List.length_map, Packing.length_flatten] at hlength
    rwa [show (0 : Nat) = ([] : List Nat).length from rfl, List.getD_map]

end InteractionGraph

namespace Layout

/-- Every qubit of a graph has a place, and interacting qubits are connected. -/
structure Settles (g : InteractionGraph) (m : CouplingMap) (l : Layout) : Prop extends
    Serves g m l where
  placed : ∀ q < g.numQubits, ∃ p, l.physical? q = some p

section Settled

variable {l : Layout} (h : l.Settles g m)

include h

theorem Settles.isComplete : l.isComplete = true :=
  isComplete_of_placed fun q hq => h.placed q (Nat.lt_of_lt_of_eq hq h.logical)

theorem Settles.getD_lt {q : Nat} (hq : q < g.numQubits) : (l.physical? q).getD 0 < m.size := by
  obtain ⟨p, hp⟩ := h.placed q hq
  rw [hp, Option.getD_some, ← h.physical]
  exact h.consistent.physical_lt hp

theorem Settles.getD_injective {a b : Nat} (ha : a < g.numQubits) (hb : b < g.numQubits)
    (hab : (l.physical? a).getD 0 = (l.physical? b).getD 0) : a = b := by
  obtain ⟨p, hp⟩ := h.placed a ha
  obtain ⟨p', hp'⟩ := h.placed b hb
  rw [hp, hp', Option.getD_some, Option.getD_some] at hab
  exact h.consistent.injective hp (hab ▸ hp')

theorem Settles.getD_reachable {a b : Nat} (hadj : g.graph.Adj a b) :
    m.graph.Reachable ((l.physical? a).getD 0) ((l.physical? b).getD 0) := by
  obtain ⟨p, q, hp, hq, -, hreach⟩ := h.connects a b hadj
  rw [hp, hq]
  exact hreach

theorem Settles.placeable : g.Placeable m :=
  ⟨fun q => (l.physical? q).getD 0, fun _ => h.getD_lt, fun _ ha _ hb => h.getD_injective ha hb,
    fun _ _ => h.getD_reachable⟩

end Settled

/-! ## From places to a layout -/

/-- Different places that exist are assigned without fault. -/
theorem assignAll_eq_ok {l : Layout} (hl : l.Consistent) (hfrozen : l.frozen = false) {k : Nat}
    {places : List (Option Nat)} (hopen : ∀ q, k ≤ q → l.physical? q = none)
    (hfree : ∀ p ∈ places.reduceOption, l.logical? p = none)
    (hlt : ∀ p ∈ places.reduceOption, p < l.numPhysical) (hnodup : places.reduceOption.Nodup)
    (hlength : k + places.length ≤ l.numLogical) :
    ∃ l', l.assignAll k places = .ok l' ∧ l'.Consistent ∧
      l'.numLogical = l.numLogical ∧ l'.numPhysical = l.numPhysical ∧
      (∀ q < k, l'.physical? q = l.physical? q) ∧
      ∀ i, l'.physical? (k + i) = places.getD i none := by
  induction places generalizing l k with
  | nil => exact ⟨l, rfl, hl, rfl, rfl, fun _ _ => rfl, fun i => hopen _ (Nat.le_add_right k i)⟩
  | cons place rest ih =>
    rw [List.length_cons] at hlength
    have hk : k < l.numLogical := by omega
    have hkopen := hopen k (Nat.le_refl k)
    -- The rest is assigned from the next qubit on, whatever happened to this one.
    have hshift {l' : Layout} (hat : l'.physical? k = place)
        (hrest : ∀ i, l'.physical? (k + 1 + i) = rest.getD i none) (i : Nat) :
        l'.physical? (k + i) = (place :: rest).getD i none := by
      cases i with
      | zero => exact hat
      | succ i => rw [← Nat.add_assoc, Nat.add_right_comm, hrest, List.getD_cons_succ]
    cases place with
    | none =>
      rw [List.reduceOption_cons_of_none] at hfree hlt hnodup
      obtain ⟨l', hl', hcons, hlog, hphys, hbefore, hplaced⟩ :=
        @ih l hl hfrozen (k + 1) (fun q hq => hopen q (by omega)) hfree hlt hnodup (by omega)
      exact ⟨l', hl', hcons, hlog, hphys, fun q hq => hbefore q (by omega),
        hshift ((hbefore k (by omega)).trans hkopen) hplaced⟩
    | some p =>
      rw [List.reduceOption_cons_of_some] at hfree hlt hnodup
      obtain ⟨hp, hrest⟩ := List.nodup_cons.mp hnodup
      have hplt := hlt p List.mem_cons_self
      have hpfree := hfree p List.mem_cons_self
      have hassign : l.assign k p = .ok (l.place k p) := by
        rw [assign, hfrozen, if_neg (by simp), if_neg (by omega), if_neg (by omega), hkopen,
          hpfree]
      obtain ⟨l', hl', hcons, hlog, hphys, hbefore, hplaced⟩ := @ih (l.place k p)
        (hl.place hk hplt hkopen hpfree) hfrozen (k + 1)
        (fun q hq => by
          rw [physical?_place hk, if_neg (by omega)]
          exact hopen q (by omega))
        (fun p' hp' => by
          have hne : p' ≠ p := fun h => hp (h ▸ hp')
          rw [logical?_place hplt, if_neg hne]
          exact hfree p' (List.mem_cons_of_mem _ hp'))
        (fun p' hp' => by
          rw [numPhysical_place]
          exact hlt p' (List.mem_cons_of_mem _ hp'))
        hrest (by rw [numLogical_place]; omega)
      refine ⟨l', ?_, hcons, by simpa using hlog, by simpa using hphys, fun q hq => ?_,
        hshift ?_ hplaced⟩
      · rw [assignAll, hassign]
        exact hl'
      · rw [hbefore q (by omega), physical?_place hk, if_neg (by omega)]
      · rw [hbefore k (by omega), physical?_place hk, if_pos rfl]

/-- Different places that exist are the places of a layout. -/
theorem assignAll_empty {places : List (Option Nat)} {size : Nat}
    (hnodup : places.reduceOption.Nodup) (hlt : ∀ p ∈ places.reduceOption, p < size) :
    ∃ l, (empty places.length size).assignAll 0 places = .ok l ∧ l.Consistent ∧
      l.numPhysical = size ∧ l.physicals = places := by
  have hlog : (empty places.length size).numLogical = places.length := by simp [empty, numLogical]
  have hphys : (empty places.length size).numPhysical = size := by simp [empty, numPhysical]
  obtain ⟨l, hl, hcons, hlog', hphys', -, hplaced⟩ :=
    assignAll_eq_ok (k := 0) (empty_consistent places.length size) rfl (by simp) (by simp)
      (by rwa [hphys]) hnodup (by rw [hlog, Nat.zero_add])
  refine ⟨l, hl, hcons, hphys'.trans hphys, physicals_eq (hlog'.trans hlog) fun q _ => ?_⟩
  rw [← hplaced q, Nat.zero_add]

theorem ofPhysicals_settles (hg : g.Valid) {places : Array Nat} (h : Search.Full g m places) :
    ∃ l, ofPhysicals places.toList m.size = .ok l ∧ l.Settles g m ∧
      l.physicals = places.toList.map some := by
  obtain ⟨⟨hnodup, hlt, hreach⟩, hsize⟩ := h
  have hle : places.toList.length ≤ m.size := by
    have := (hnodup.subperm fun p hp => List.mem_range.mpr (hlt p hp)).length_le
    rwa [List.length_range] at this
  have hplaces : (places.toList.map some).reduceOption = places.toList := by
    simp [List.reduceOption, List.filterMap_map]
  obtain ⟨l, hl, hcons, hphys, hphysicals⟩ :=
    assignAll_empty (hplaces.symm ▸ hnodup) (hplaces.symm ▸ hlt)
  rw [List.length_map] at hl
  have hlog : l.numLogical = places.size := by
    have := congrArg List.length hphysicals
    rwa [List.length_map] at this
  have hget (q : Nat) (hq : q < g.numQubits) :
      ∃ p, places[q]? = some p ∧ l.physical? q = some p := by
    have hq' : q < places.size := hsize ▸ hq
    refine ⟨places[q], Array.getElem?_eq_getElem hq', ?_⟩
    rw [physical?_eq_getD, hphysicals]
    simp [hq']
  refine ⟨l, ?_, ⟨⟨hcons, hlog.trans hsize, hphys, ?_⟩, ?_⟩, hphysicals⟩
  · rw [ofPhysicals, if_neg (by omega)]
    exact hl
  · intro a b hadj
    obtain ⟨ha, hb⟩ := hg.lt_of_adj hadj
    obtain ⟨p, hp, hap⟩ := hget a ha
    obtain ⟨q, hq, hbq⟩ := hget b hb
    exact ⟨p, q, hap, hbq, hlt p (Array.mem_toList_iff.mpr (Array.mem_of_getElem? hp)),
      hreach a b p q hadj hp hq⟩
  · intro q hq
    obtain ⟨p, -, hp⟩ := hget q hq
    exact ⟨p, hp⟩

/-! ## The choice -/

theorem identity_settles (hg : g.Valid) (hle : g.numQubits ≤ m.size)
    (h : (g.cost? m (identity g.numQubits m.size).physical?).isSome = true) :
    (identity g.numQubits m.size).Settles g m := by
  obtain ⟨hcons, hlog, hphys, hplace⟩ := identity_spec hle
  exact ⟨⟨hcons, hlog, hphys, hg.isSome_cost?_iff.mp h⟩,
    fun q hq => ⟨q, by rw [hplace, if_pos hq]⟩⟩

/-- The places of a complete layout. -/
theorem full_of_settles {l : Layout} (hg : g.Valid) (h : l.Settles g m) :
    Search.Full g m (l.l2p.map (·.getD 0)) := by
  have hsize : l.l2p.size = g.numQubits := h.logical
  have hget (q : Nat) : (l.l2p.map (·.getD 0))[q]? =
      if q < g.numQubits then some ((l.physical? q).getD 0) else none := by
    rw [Array.getElem?_map, physical?, Array.getD_eq_getD_getElem?]
    by_cases hq : q < g.numQubits
    · have hq' : q < l.l2p.size := hsize ▸ hq
      rw [if_pos hq, Array.getElem?_eq_getElem hq']
      rfl
    · have hq' : l.l2p.size ≤ q := by omega
      rw [if_neg hq, Array.getElem?_eq_none hq']
      rfl
  have hlist : (l.l2p.map (·.getD 0)).toList =
      (List.range g.numQubits).map fun q => (l.physical? q).getD 0 := by
    refine List.ext_getElem? fun q => ?_
    rw [Array.getElem?_toList, hget, List.getElem?_map]
    by_cases hq : q < g.numQubits
    · rw [if_pos hq, List.getElem?_range hq]
      rfl
    · rw [if_neg hq, List.getElem?_eq_none (by simpa using hq)]
      rfl
  refine ⟨⟨?_, ?_, ?_⟩, by rw [Array.size_map, hsize]⟩
  · rw [hlist]
    refine List.Nodup.map_on (fun a ha b hb => ?_) List.nodup_range
    exact h.getD_injective (List.mem_range.mp ha) (List.mem_range.mp hb)
  · intro p hp
    rw [hlist] at hp
    obtain ⟨q, hq, rfl⟩ := List.mem_map.mp hp
    exact h.getD_lt (List.mem_range.mp hq)
  · intro a b p q hadj ha hb
    obtain ⟨hlta, hltb⟩ := hg.lt_of_adj hadj
    rw [hget, if_pos hlta] at ha
    rw [hget, if_pos hltb] at hb
    cases ha
    cases hb
    exact h.getD_reachable hadj

/-- What the heuristic goes through if the groups fit: a layout that serves, its
cost, the layout improved, and the rest of the qubits placed without moving any
other. -/
theorem heuristic_steps (hg : g.Valid) (hle : g.numQubits ≤ m.size) {targets : List Nat}
    (hfits : Packing.Fits (m.components.map List.length) (g.components.map List.length) targets) :
    ∃ l cost full, greedy g m = .ok l ∧ l.Serves g m ∧ g.cost? m l.physical? = some cost ∧
      Greedy.placeIsolated (List.range g.numQubits) (Climb.climb g m ⟨l, cost⟩).layout =
      some full ∧
      full.Settles g m ∧
      (∀ q p, (Climb.climb g m ⟨l, cost⟩).layout.physical? q = some p →
        full.physical? q = some p) ∧
      heuristic g m = .ok (full.l2p.map (·.getD 0), (Climb.climb g m ⟨l, cost⟩).cost) := by
  obtain ⟨l, hl, hserves⟩ := greedy_eq_ok hg hfits
  obtain ⟨cost, hcost⟩ := Option.isSome_iff_exists.mp (hg.isSome_cost?_iff.mpr hserves.connects)
  have himproved := @Climb.climb_serves g m ⟨l, cost⟩ hg hserves
  obtain ⟨full, hfull, hcons, hlog, hphys, hkeep, hall⟩ :=
    @Greedy.placeIsolated_spec _ (List.range g.numQubits) himproved.consistent
      (by rw [himproved.logical, himproved.physical]; exact hle)
      (fun q hq => by rw [himproved.logical]; exact List.mem_range.mp hq)
  have hsettles : full.Settles g m := by
    refine ⟨⟨hcons, hlog.trans himproved.logical, hphys.trans himproved.physical, ?_⟩, ?_⟩
    · intro a b hadj
      obtain ⟨p, q, hp, hq, hlt, hreach⟩ := himproved.connects a b hadj
      exact ⟨p, q, hkeep a p hp, hkeep b q hq, hlt, hreach⟩
    · exact fun q hq => hall q (List.mem_range.mpr hq)
  refine ⟨l, cost, full, hl, hserves, hcost, hfull, hsettles, hkeep, ?_⟩
  simp only [heuristic, hl, hcost, hfull]

/-- A layout is found exactly when there is a placement. -/
theorem ofGraph_cases (hg : g.Valid) (hle : g.numQubits ≤ m.size) (budget : Nat) :
    g.Placeable m ∧ (∃ l, ofGraph g m budget = .ok l ∧ l.Settles g m) ∨
      ¬ g.Placeable m ∧ ofGraph g m budget = .error (.packing g.components) := by
  rw [ofGraph]
  split_ifs with hidentity
  · have hsome : (g.cost? m (identity g.numQubits m.size).physical?).isSome = true := by
      rw [beq_iff_eq.mp hidentity]
      rfl
    have hsettles := identity_settles hg hle hsome
    exact .inl ⟨hsettles.placeable, _, rfl, hsettles⟩
  · by_cases hfits : ∃ targets,
        Packing.Fits (m.components.map List.length) (g.components.map List.length) targets
    · obtain ⟨targets, hfits⟩ := hfits
      obtain ⟨start, cost, full, -, -, -, -, hfull, -, hheuristic⟩ := heuristic_steps hg hle hfits
      obtain ⟨l, hl, hsettles, -⟩ := ofPhysicals_settles hg
        (@Search.search_best g m hg budget (Climb.climb g m ⟨start, cost⟩).cost _
          (full_of_settles hg hfull))
      refine .inl ⟨hsettles.placeable, l, ?_, hsettles⟩
      simp only [hheuristic, hl]
    · refine .inr ⟨fun hplaceable => hfits (hg.exists_fits hplaceable), ?_⟩
      have hpack :
          Packing.pack (m.components.map List.length) (g.components.map List.length) = none :=
        Option.eq_none_iff_forall_ne_some.mpr fun ts hts => hfits ⟨ts, Packing.pack_fits hts⟩
      simp only [heuristic, greedy, hpack]

/-- A layout of a circuit on a device is found exactly when the circuit is
placeable.  Otherwise the device is too small, or the groups do not fit. -/
theorem choose_cases {c : Circuit α} {d : Device β} (hc : c.WellFormed) (budget : Nat) :
    c.Placeable d.coupling ∧ (∃ l, choose budget c d = .ok l ∧
        l.Settles (InteractionGraph.ofCircuit c) d.coupling) ∨
      ¬ c.Placeable d.coupling ∧ choose budget c d =
        .error (if d.numQubits < c.numQubits then .width c.numQubits d.name d.numQubits
          else .packing (InteractionGraph.ofCircuit c).components) := by
  rw [choose]
  split_ifs with hwidth
  · refine .inr ⟨fun hplaceable => ?_, rfl⟩
    exact absurd hplaceable.numQubits_le (Nat.not_le.mpr hwidth)
  · rw [← InteractionGraph.placeable_ofCircuit hc]
    exact ofGraph_cases (InteractionGraph.valid_ofCircuit hc) (Nat.not_lt.mp hwidth) budget

/-- A chosen layout is settled. -/
theorem settles_of_choose {c : Circuit α} {d : Device β} (hc : c.WellFormed) {budget : Nat}
    {l : Layout} (h : choose budget c d = .ok l) :
    l.Settles (InteractionGraph.ofCircuit c) d.coupling := by
  rcases choose_cases hc budget with ⟨-, l', hl', hsettles⟩ | ⟨-, he⟩
  · rw [h] at hl'
    cases hl'
    exact hsettles
  · rw [h] at he
    cases he

end Layout

end QuantumCompiler
