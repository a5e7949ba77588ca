import QuantumCompiler.Proofs.Device.Zones
import QuantumCompiler.Proofs.Executable
import QuantumCompiler.Proofs.Numeric.RealLine

/-!
# Zones in the course of routing

Routing decides about shuttles from the zones where qubits rest.  An operation
that crosses zones is put between two shuttles, after which every qubit is at
rest again (`Wrapped.replay_eq`).  The swaps in front of an operation have no
shuttles around them, so they are possible exactly if each of them stays
within a zone (`replay_swaps`).

`Simulates.replay_cases` is the induction over the blocks of a routed circuit:
either no swap leaves its zone, and the zones can be followed to the end where
everything is at rest, or the first swap that leaves its zone is refused.
-/

namespace QuantumCompiler.Route

open Executable (replay restingZones size_restingZones trackZones zoneAt zoneAt_setIfInBounds)

variable {α β : Type} [RealArith α] {d : Device β} {n m : Nat} {l : Layout}

/-- The numbers of the zones are read back as they are written into shuttles. -/
def ReadsZones (α : Type) [RealArith α] (d : Device β) : Prop :=
  ∀ z < d.zones, RealArith.truncate ((z : Nat) : α) = z

/-! ## Shuttles -/

/-- A shuttle from where its qubit is moves the qubit. -/
theorem trackZones_shuttle (hread : ReadsZones α d) (zones : Array Nat) (q : Nat) {target : Nat}
    (hsource : zoneAt zones q < d.zones) (htarget : target < d.zones) :
    trackZones d zones (.shuttle q (zoneAt zones q) target : Operation α) =
      .ok (zones.setIfInBounds q target) := by
  have hzones : (Operation.shuttle q (zoneAt zones q) target : Operation α).zones? =
      some (zoneAt zones q, target) := by
    rw [Operation.zones?, Operation.shuttle, Operation.ofGate]
    simp only [hread _ hsource, hread _ htarget]
  rw [trackZones, if_pos (show Operation.isShuttle _ = true from rfl), hzones]
  simp [Operation.shuttle, Operation.ofGate, htarget]

/-- A qubit that is taken back to its zone is at rest again. -/
theorem restingZones_back (q z : Nat) :
    ((restingZones d).setIfInBounds q z).setIfInBounds q (d.zoneOf q) = restingZones d := by
  refine Array.ext (by simp) fun i hi _ => ?_
  have hi : i < d.numQubits := by simpa [restingZones] using hi
  by_cases hq : q = i
  · simp [hq, restingZones]
  · simp [hq, restingZones]

/-- An operation between its shuttles is possible while everything is at rest,
and leaves everything at rest. -/
theorem Wrapped.replay_eq (hread : ReadsZones α d) {op : Operation α}
    {before after : List (Operation α)} (h : Wrapped d op before after)
    (hop : op.WellFormed d.numQubits m) (hshuttle : op.isShuttle = false) :
    replay d (restingZones d) (before ++ op :: after) = .ok (restingZones d) := by
  cases h with
  | home hhome =>
    refine Executable.replay_eq_self fun o ho => ?_
    obtain rfl : o = op := by simpa using ho
    refine Executable.trackZones_eq_self hshuttle fun hbarrier a b hqubits => ?_
    rw [Executable.zoneAt_restingZones (hop.qubits_lt a (by simp [hqubits])),
      Executable.zoneAt_restingZones (hop.qubits_lt b (by simp [hqubits]))]
    by_contra hne
    exact hhome ⟨hbarrier, a, b, hqubits, hne⟩
  | @away p q _ hqubits =>
    have hp : p < d.numQubits := hop.qubits_lt p (by simp [hqubits])
    have hq : q < d.numQubits := hop.qubits_lt q (by simp [hqubits])
    have hne : p ≠ q := by
      have := hop.nodup
      rw [hqubits] at this
      simpa using this
    have hsize : q < (restingZones d).size := by rwa [size_restingZones]
    -- While it is away the second qubit shares the zone of the first one.
    have haway : zoneAt ((restingZones d).setIfInBounds q (d.zoneOf p)) q = d.zoneOf p := by
      rw [zoneAt_setIfInBounds hsize, if_pos rfl]
    have hfirst : zoneAt ((restingZones d).setIfInBounds q (d.zoneOf p)) p = d.zoneOf p := by
      rw [zoneAt_setIfInBounds hsize, if_neg hne, Executable.zoneAt_restingZones hp]
    have hout := trackZones_shuttle hread (restingZones d) q
      (by rw [Executable.zoneAt_restingZones hq]; exact d.zoneOf_lt_zones q) (d.zoneOf_lt_zones p)
    rw [Executable.zoneAt_restingZones hq] at hout
    have hmid : trackZones d ((restingZones d).setIfInBounds q (d.zoneOf p)) op =
        .ok ((restingZones d).setIfInBounds q (d.zoneOf p)) := by
      refine Executable.trackZones_eq_self hshuttle fun _ a b hab => ?_
      rw [hqubits] at hab
      cases hab
      rw [hfirst, haway]
    have hback := trackZones_shuttle hread ((restingZones d).setIfInBounds q (d.zoneOf p)) q
      (by rw [haway]; exact d.zoneOf_lt_zones p) (d.zoneOf_lt_zones q)
    rw [haway] at hback
    rw [List.singleton_append, Executable.replay_cons hout, Executable.replay_cons hmid,
      Executable.replay_cons hback, restingZones_back, Executable.replay_nil]

/-! ## Swaps -/

/-- Swaps are possible while everything is at rest exactly if none of them
leaves a zone; the first one that does is refused. -/
theorem replay_swaps {swaps : List (Nat × Nat)} (hswaps : SwapsBelow d.numQubits swaps) :
    (∀ s ∈ swaps, d.zoneOf s.1 = d.zoneOf s.2) ∧
        replay d (restingZones d) (swaps.map fun s => (.swap s.1 s.2 : Operation α)) =
          .ok (restingZones d) ∨
      ∃ s ∈ swaps, d.zoneOf s.1 ≠ d.zoneOf s.2 ∧
        replay d (restingZones d) (swaps.map fun s => (.swap s.1 s.2 : Operation α)) =
          .error (.zonesDiffer s.1 s.2) := by
  induction swaps with
  | nil => exact .inl ⟨by simp, rfl⟩
  | cons s rest ih =>
    obtain ⟨hp, hq⟩ := hswaps s List.mem_cons_self
    rw [List.map_cons]
    have hshuttle : (.swap s.1 s.2 : Operation α).isShuttle = false := rfl
    rcases Executable.trackZones_of_not_shuttle d (restingZones d) hshuttle with
      ⟨hok, hsame⟩ | ⟨a, b, -, hqubits, hne, herror⟩
    · have hsame := hsame rfl s.1 s.2 rfl
      rw [Executable.zoneAt_restingZones hp, Executable.zoneAt_restingZones hq] at hsame
      rw [Executable.replay_cons hok]
      rcases ih fun s' hs' => hswaps s' (List.mem_cons_of_mem _ hs') with
        ⟨hall, hrest⟩ | ⟨s', hs', hne, hrest⟩
      · exact .inl ⟨List.forall_mem_cons.mpr ⟨hsame, hall⟩, hrest⟩
      · exact .inr ⟨s', List.mem_cons_of_mem _ hs', hne, hrest⟩
    · obtain ⟨rfl, rfl⟩ : s.1 = a ∧ s.2 = b := by
        simpa [Operation.swap, Operation.ofGate] using hqubits
      rw [Executable.zoneAt_restingZones hp, Executable.zoneAt_restingZones hq] at hne
      exact .inr ⟨s, List.mem_cons_self, hne, Executable.replay_cons_error herror _⟩

/-! ## The whole circuit -/

/-- Following the zones through a routed circuit: either no swap leaves its zone
and everything is at rest in the end, or a swap that leaves its zone is
refused. -/
theorem Simulates.replay_cases (hread : ReadsZones α d) {ops routed : List (Operation α)}
    {final : Layout} {swaps : List (Nat × Nat)} {shuttles : Nat}
    (h : Simulates d l ops routed final swaps shuttles) (hops : ∀ op ∈ ops, op.WellFormed n m)
    (hresting : ∀ op ∈ ops, op.isShuttle = false) (hl : Ready d n l) :
    (∀ s ∈ swaps, d.zoneOf s.1 = d.zoneOf s.2) ∧
        replay d (restingZones d) routed = .ok (restingZones d) ∨
      ∃ s ∈ swaps, d.zoneOf s.1 ≠ d.zoneOf s.2 ∧
        replay d (restingZones d) routed = .error (.zonesDiffer s.1 s.2) := by
  induction h with
  | nil => exact .inl ⟨by simp, rfl⟩
  | @cons l l' final op placed rest before after routed swaps more shuttles _ hcoupled hswapped
      hplaced hwrapped _ ih =>
    have hready : Ready d n l' := eq_applySwaps hl hcoupled hswapped ▸ hl.applySwaps hcoupled
    have hbelow : SwapsBelow d.numQubits swaps :=
      fun s hs => CouplingMap.lt_size_of_adj (hcoupled s hs)
    have hshuttle : placed.isShuttle = false := by
      rw [hplaced.1]
      exact hresting op List.mem_cons_self
    have hblock := hwrapped.replay_eq hread
      (hplaced.wellFormed (hops op List.mem_cons_self) hready) hshuttle
    rw [List.append_assoc, List.append_assoc]
    rcases replay_swaps (α := α) hbelow with ⟨hstay, hswaps⟩ | ⟨s, hs, hne, hswaps⟩
    · rw [Executable.replay_append hswaps, ← List.append_assoc, Executable.replay_append hblock]
      rcases ih (fun o ho => hops o (List.mem_cons_of_mem _ ho))
        (fun o ho => hresting o (List.mem_cons_of_mem _ ho)) hready with
        ⟨hmore, hrest⟩ | ⟨s, hs, hne, hrest⟩
      · exact .inl ⟨fun s hs => (List.mem_append.mp hs).elim (hstay s) (hmore s), hrest⟩
      · exact .inr ⟨s, List.mem_append_right _ hs, hne, hrest⟩
    · exact .inr ⟨s, List.mem_append_left _ hs, hne, Executable.replay_append_error hswaps _⟩

/-- Routing respects zones as long as its own swaps do.  For a circuit without
shuttles, the zones can be followed from rest through the routed circuit, and
everything is at rest again in the end, exactly if every swap that routing puts
in is between qubits of one zone.  Nothing but such a swap is ever refused. -/
theorem route_replay_iff (hread : ReadsZones α d) {c : Circuit α} (hc : c.WellFormed)
    (hresting : ∀ op ∈ c.ops, op.isShuttle = false) (hl : l.Built) {res : Result α}
    (h : route c d l = .ok res) :
    ∃ bs, blocks d 0 l.clone c.ops = .ok (bs, res.layout) ∧
      res.circuit.ops = bs.flatMap Block.ops ∧
      (replay d (restingZones d) res.circuit.ops = .ok (restingZones d) ↔
        ∀ b ∈ bs, ∀ s ∈ b.swaps, d.zoneOf s.1 = d.zoneOf s.2) ∧
      ∀ o, replay d (restingZones d) res.circuit.ops = .error o →
        ∃ b ∈ bs, ∃ s ∈ b.swaps, d.zoneOf s.1 ≠ d.zoneOf s.2 ∧ o = .zonesDiffer s.1 s.2 := by
  obtain ⟨bs, hcause, hblocks, -, hcircuit, -⟩ := route_eq_ok h
  have hready := clone_ready hl.consistent hcause
  obtain ⟨hsim, -⟩ := blocks_simulates hc hready hblocks
  refine ⟨bs, hblocks, by rw [hcircuit], ?_⟩
  rw [hcircuit]
  rcases hsim.replay_cases hread hc hresting hready with ⟨hstay, hok⟩ | ⟨s, hs, hne, herror⟩
  · refine ⟨iff_of_true hok fun b hb s hs => hstay s (List.mem_flatMap.mpr ⟨b, hb, hs⟩), ?_⟩
    intro o ho
    rw [hok] at ho
    cases ho
  · obtain ⟨b, hb, hs⟩ := List.mem_flatMap.mp hs
    rw [herror]
    refine ⟨iff_of_false (by simp) fun hall => hne (hall b hb s hs), ?_⟩
    intro o ho
    cases ho
    exact ⟨b, hb, s, hs, hne, rfl⟩

/-! ## A gate on the chain -/

/-- The chain in two zones of two qubits each. -/
def twoZones : Device Float := chainDevice ⟨[]⟩ 2

/-- One gate on two qubits. -/
def pairCircuit (α : Type) : Circuit α := ⟨2, 0, [.ofGate .cx [] [0, 1]]⟩

/-- Its qubits in two places of the chain. -/
def pairLayout (p q : Nat) : Layout := ((Layout.empty 2 4).place 0 p).place 1 q

section Pair

variable {γ : Type} {p q r : Nat}

theorem wellFormed_pairCircuit (γ : Type) : (pairCircuit γ).WellFormed := by
  intro op hop
  obtain rfl := List.mem_singleton.mp hop
  refine Operation.wellFormed_ofGate (by decide) rfl rfl rfl (fun k hk => ?_) (by simp)
  show k < 2
  simp only [List.mem_cons, List.not_mem_nil, or_false] at hk
  omega

theorem exists_route_pair [NatCast γ] (hl : (pairLayout p q).Built)
    (hcomplete : (pairLayout p q).isComplete = true) :
    ∃ res : Result γ, route (pairCircuit γ) twoZones (pairLayout p q) = .ok res := by
  have hlogical : (pairLayout p q).numLogical = 2 := by
    simp [pairLayout, Layout.empty, Layout.numLogical, Layout.place]
  have hphysical : (pairLayout p q).numPhysical = 4 := by
    simp [pairLayout, Layout.empty, Layout.numPhysical, Layout.place]
  have hlt {k x : Nat} (h : (pairLayout p q).physical? k = some x) : x < 4 :=
    hphysical ▸ hl.consistent.physical_lt h
  have hcause : layoutCause? (pairCircuit γ) twoZones (pairLayout p q) = none := by
    rw [layoutCause?, hlogical, hphysical, show (pairCircuit γ).numQubits = 2 from rfl,
      show twoZones.numQubits = 4 from rfl, if_neg (by simp), if_neg (by simp [hcomplete])]
  rcases route_cases (wellFormed_pairCircuit γ) hl.consistent hcause fun _ _ _ _ _ _ _ _ hp hq =>
      chain_reachable (hlt hp) (hlt hq) with ⟨-, hres⟩ | ⟨⟨op, hop, -, hwide⟩, -⟩
  · exact hres
  · obtain rfl := List.mem_singleton.mp hop
    have : 3 ≤ 2 := hwide
    omega

/-- At a distance of two the gate becomes a swap and the gate next to it. -/
theorem blocks_pair (hpath : chain.shortestPath? p q = some [p, r, q]) :
    blocks twoZones 0 (pairLayout p q).clone (pairCircuit γ).ops =
      .ok ([⟨[(p, r)], .ofGate .cx [] [r, q],
          excursion? twoZones (.ofGate .cx [] [r, q] : Operation γ)⟩],
        applySwaps (pairLayout p q).clone [(p, r)]) := by
  have hplaced : (Operation.ofGate .cx [] [0, 1] : Operation γ).withQubits
      (physicalQubits (pairLayout p q).clone (Operation.ofGate .cx [] [0, 1] : Operation γ)) =
        .ofGate .cx [] [p, q] := rfl
  have hswaps : swapsFor twoZones (.ofGate .cx [] [p, q] : Operation γ) = .ok [(p, r)] := by
    have hbarrier : (.ofGate .cx [] [p, q] : Operation γ).isBarrier = false := rfl
    rw [swapsFor, hbarrier, if_neg Bool.false_ne_true]
    simp only [Operation.ofGate]
    rw [show twoZones.coupling = chain from rfl, hpath]
    rfl
  simp only [blocks, pairCircuit, block, hplaced, hswaps]
  rfl

end Pair

/-- From the places 0 and 2 the swap stays within a zone, and the gate crosses
zones between its shuttles. -/
theorem route_pair_within :
    ReadsZones ℝ twoZones ∧ (pairCircuit ℝ).WellFormed ∧
      (∀ op ∈ (pairCircuit ℝ).ops, op.isShuttle = false) ∧ (pairLayout 0 2).Built ∧
      ∃ res, route (pairCircuit ℝ) twoZones (pairLayout 0 2) = .ok res ∧
        replay twoZones (restingZones twoZones) res.circuit.ops =
        .ok (restingZones twoZones) := by
  have hread : ReadsZones ℝ twoZones := fun z _ => truncate_natCast z
  have hplaces : Layout.ofPhysicals [0, 2] 4 = .ok (pairLayout 0 2) := by decide
  have hl : (pairLayout 0 2).Built := .ofPhysicals hplaces
  have hresting : ∀ op ∈ (pairCircuit ℝ).ops, op.isShuttle = false := by
    intro op hop
    obtain rfl := List.mem_singleton.mp hop
    rfl
  obtain ⟨res, hres⟩ := exists_route_pair (γ := ℝ) hl (by cbv)
  refine ⟨hread, wellFormed_pairCircuit ℝ, hresting, hl, res, hres, ?_⟩
  obtain ⟨bs, hblocks, -, hiff, -⟩ :=
    route_replay_iff hread (wellFormed_pairCircuit ℝ) hresting hl hres
  rw [blocks_pair (r := 1) (by cbv), Except.ok.injEq, Prod.mk.injEq] at hblocks
  obtain ⟨rfl, -⟩ := hblocks
  refine hiff.mpr fun b hb s hs => ?_
  obtain rfl := List.mem_singleton.mp hb
  obtain rfl := List.mem_singleton.mp hs
  rfl

/-- From the places 1 and 3 the swap is between two zones, so what routing
gives cannot be executed. -/
theorem route_pair_across :
    (pairCircuit Float).WellFormed ∧ (∀ op ∈ (pairCircuit Float).ops, op.isShuttle = false) ∧
      (pairLayout 1 3).Built ∧ (pairLayout 1 3).isComplete = true ∧
      ∃ res, route (pairCircuit Float) twoZones (pairLayout 1 3) = .ok res ∧
        replay twoZones (restingZones twoZones) res.circuit.ops = .error (.zonesDiffer 1 2) := by
  have hplaces : Layout.ofPhysicals [1, 3] 4 = .ok (pairLayout 1 3) := by decide
  have hl : (pairLayout 1 3).Built := .ofPhysicals hplaces
  have hcomplete : (pairLayout 1 3).isComplete = true := by cbv
  obtain ⟨res, hres⟩ := exists_route_pair (γ := Float) hl hcomplete
  refine ⟨wellFormed_pairCircuit Float, by decide, hl, hcomplete, res, hres, ?_⟩
  obtain ⟨bs, -, hblocks, -, hcircuit, -⟩ := route_eq_ok hres
  rw [blocks_pair (r := 2) (by cbv), Except.ok.injEq, Prod.mk.injEq] at hblocks
  obtain ⟨rfl, -⟩ := hblocks
  rw [hcircuit]
  rfl

end QuantumCompiler.Route
