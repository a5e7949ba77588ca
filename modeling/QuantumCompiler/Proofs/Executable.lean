import Mathlib.Data.List.Permutation
import QuantumCompiler.Executable
import QuantumCompiler.Proofs.Decomposition.Expand
import QuantumCompiler.Proofs.Peephole.Thinning
import QuantumCompiler.Proofs.Route.Success

/-!
# Operations that a device can execute

The final check accepts a circuit exactly when none of its operations is
refused by itself (`obstacle?_eq_none_iff`) and the zones of the qubits can be
followed to its end (`replay`); `violation?_eq_none_iff` says so.

`Routed` is what routing guarantees for an operation on a device: it is well
formed there, and unless it is a barrier it acts on at most two qubits, which
are coupled.  `Runs` adds that it is native and no shuttle.  On a device with
a single zone every circuit of such operations passes the final check
(`violation?_eq_none`).

Expansion leads from `Routed` to `Runs` (`Routed.product`).  Optimisation keeps
every circuit executable (`violation?_optimise`): it works on unitary gates
only, which move nothing between zones, and what it puts in acts on the qubits
of the gate that made room for it.
-/

namespace QuantumCompiler.Executable

variable {α β : Type} {d : Device β} {n m : Nat}

/-- An operation on few coupled qubits of a device, or a barrier. -/
structure Routed (d : Device β) (m : Nat) (op : Operation α) : Prop where
  wellFormed : op.WellFormed d.numQubits m
  narrow : op.isBarrier = true ∨ op.arity ≤ 2
  coupled : Route.OnCoupled d.coupling op
  resting : op.isShuttle = false

/-- An operation that a device executes as it is. -/
structure Runs (d : Device β) (m : Nat) (op : Operation α) : Prop extends Routed d m op where
  native : d.isNative op.kind = true

/-! ## The check of one operation -/

/-- The scan over the qubits finds nothing exactly when they are in range,
distinct, and not among those already seen. -/
theorem qubitObstacle?_eq_none_iff {size : Nat} {seen qs : List Nat} :
    qubitObstacle? size seen qs = none ↔
      (∀ q ∈ qs, q < size) ∧ qs.Nodup ∧ List.Disjoint seen qs := by
  induction qs generalizing seen with
  | nil => simp [qubitObstacle?]
  | cons q rest ih =>
    rw [qubitObstacle?]
    split_ifs with hsize hseen
    · have : ¬ q < size := by omega
      simp [this]
    · have : q ∈ seen := by simpa using hseen
      simp [this]
    · have hq : q < size := by omega
      have hnew : q ∉ seen := by simpa using hseen
      rw [ih]
      simp only [List.forall_mem_cons, List.nodup_cons, List.disjoint_cons_left,
        List.disjoint_cons_right]
      tauto

/-- What is executable apart from zones: an operation of a native kind on
distinct qubits of the device, and unless it is a barrier on at most two of
them, which are coupled. -/
theorem obstacle?_eq_none_iff {op : Operation α} :
    obstacle? d op = none ↔
      d.isNative op.kind = true ∧ (∀ q ∈ op.qubits, q < d.numQubits) ∧ op.qubits.Nodup ∧
        (op.isBarrier = true ∨ op.arity ≤ 2) ∧ Route.OnCoupled d.coupling op := by
  have hqubits := @qubitObstacle?_eq_none_iff d.numQubits [] op.qubits
  rw [obstacle?]
  by_cases hnative : d.isNative op.kind = true
  · rw [if_neg (by simp [hnative])]
    cases hfound : qubitObstacle? d.numQubits [] op.qubits with
    | some o =>
      rw [hfound] at hqubits
      refine iff_of_false (by simp) fun ⟨_, hlt, hnodup, _⟩ => ?_
      cases hqubits.mpr ⟨hlt, hnodup, List.disjoint_nil_left _⟩
    | none =>
      obtain ⟨hlt, hnodup, -⟩ := hqubits.mp hfound
      dsimp only
      by_cases hbarrier : op.isBarrier = true
      · rw [if_pos hbarrier]
        exact iff_of_true rfl ⟨hnative, hlt, hnodup, .inl hbarrier,
          fun h => by simp [hbarrier] at h⟩
      · rw [if_neg hbarrier]
        have hnarrow : op.isBarrier = true ∨ op.arity ≤ 2 ↔ op.qubits.length ≤ 2 :=
          or_iff_right hbarrier
        have hcoupled : Route.OnCoupled d.coupling op ↔
            ∀ p q, op.qubits = [p, q] → d.coupling.graph.Adj p q := by
          rw [Route.OnCoupled, Bool.eq_false_iff]
          exact imp_iff_right hbarrier
        rw [hnarrow, hcoupled]
        simp only [hnative, hnodup, true_and, iff_true_intro hlt]
        split
        · next h => simp [h]
        · next p h => simp [h]
        · next a b h => simp [h, CouplingMap.adjacent_iff]
        · next h0 h1 h2 =>
          have hwide : 3 ≤ op.qubits.length := Route.three_le_length h0 h1 h2
          exact iff_of_false (by simp) fun ⟨hle, _⟩ => by omega
  · rw [if_pos (by simpa using hnative)]
    exact iff_of_false (by simp) fun h => hnative h.1

theorem Runs.obstacle?_eq_none {op : Operation α} (h : Runs d m op) : obstacle? d op = none :=
  obstacle?_eq_none_iff.mpr ⟨h.native, h.wellFormed.qubits_lt, h.wellFormed.nodup, h.narrow,
    h.coupled⟩

/-! ## The zones in the course of a circuit -/

variable [RealArith α]

/-- The zones after operations, if each of them is possible in the zones at
that time. -/
def replay (d : Device β) (zones : Array Nat) (ops : List (Operation α)) :
    Except Obstacle (Array Nat) :=
  ops.foldlM (trackZones d) zones

theorem replay_nil (zones : Array Nat) :
    replay d zones ([] : List (Operation α)) = .ok zones := rfl

theorem replay_cons {zones zones' : Array Nat} {op : Operation α}
    (h : trackZones d zones op = .ok zones') (rest : List (Operation α)) :
    replay d zones (op :: rest) = replay d zones' rest := by
  rw [replay, List.foldlM_cons, h]
  rfl

theorem replay_cons_error {zones : Array Nat} {op : Operation α} {o : Obstacle}
    (h : trackZones d zones op = .error o) (rest : List (Operation α)) :
    replay d zones (op :: rest) = .error o := by
  rw [replay, List.foldlM_cons, h]
  rfl

theorem replay_cons_eq_ok {zones zones' : Array Nat} {op : Operation α} {ops : List (Operation α)}
    (h : replay d zones (op :: ops) = .ok zones') :
    ∃ mid, trackZones d zones op = .ok mid ∧ replay d mid ops = .ok zones' := by
  cases htrack : trackZones d zones op with
  | error o =>
    rw [replay_cons_error htrack] at h
    cases h
  | ok mid =>
    rw [replay_cons htrack] at h
    exact ⟨mid, rfl, h⟩

theorem replay_append {zones zones' : Array Nat} {xs : List (Operation α)}
    (h : replay d zones xs = .ok zones') (ys : List (Operation α)) :
    replay d zones (xs ++ ys) = replay d zones' ys := by
  rw [replay, List.foldlM_append, show xs.foldlM (trackZones d) zones = .ok zones' from h]
  rfl

theorem replay_append_error {zones : Array Nat} {xs : List (Operation α)} {o : Obstacle}
    (h : replay d zones xs = .error o) (ys : List (Operation α)) :
    replay d zones (xs ++ ys) = .error o := by
  rw [replay, List.foldlM_append, show xs.foldlM (trackZones d) zones = .error o from h]
  rfl

/-- Operations that are possible and move nothing leave the zones as they are. -/
theorem replay_eq_self {zones : Array Nat} {ops : List (Operation α)}
    (h : ∀ op ∈ ops, trackZones d zones op = .ok zones) : replay d zones ops = .ok zones := by
  induction ops with
  | nil => rfl
  | cons op rest ih =>
    rw [replay_cons (h op List.mem_cons_self)]
    exact ih fun o ho => h o (List.mem_cons_of_mem _ ho)

/-- Whatever is not a shuttle moves nothing, and it is possible unless it acts
on two qubits in different zones. -/
theorem trackZones_of_not_shuttle (d : Device β) (zones : Array Nat) {op : Operation α}
    (hshuttle : op.isShuttle = false) :
    trackZones d zones op = .ok zones ∧
        (op.isBarrier = false → ∀ a b, op.qubits = [a, b] → zoneAt zones a = zoneAt zones b) ∨
      ∃ a b, op.isBarrier = false ∧ op.qubits = [a, b] ∧ zoneAt zones a ≠ zoneAt zones b ∧
        trackZones d zones op = .error (.zonesDiffer a b) := by
  rw [trackZones, hshuttle, if_neg (by simp)]
  split
  · next a b hbarrier hqubits =>
    by_cases hsame : zoneAt zones a = zoneAt zones b
    · refine .inl ⟨by rw [if_pos (by simpa using hsame)], ?_⟩
      rintro - a' b' hqubits'
      rw [hqubits] at hqubits'
      cases hqubits'
      exact hsame
    · exact .inr ⟨a, b, hbarrier, hqubits, hsame, by rw [if_neg (by simpa using hsame)]⟩
  · next hnot =>
    refine .inl ⟨rfl, fun hbarrier a b hqubits => ?_⟩
    exact absurd hqubits (hnot a b hbarrier)

theorem trackZones_eq_self {zones : Array Nat} {op : Operation α}
    (hshuttle : op.isShuttle = false)
    (h : op.isBarrier = false → ∀ a b, op.qubits = [a, b] → zoneAt zones a = zoneAt zones b) :
    trackZones d zones op = .ok zones := by
  rcases trackZones_of_not_shuttle d zones hshuttle with
    ⟨hok, -⟩ | ⟨a, b, hbarrier, hqubits, hne, -⟩
  · exact hok
  · exact absurd (h hbarrier a b hqubits) hne

/-- A unitary gate moves nothing, and it is possible unless it acts on two qubits
in different zones. -/
theorem trackZones_eq_ok_iff {zones zones' : Array Nat} {op : Operation α}
    (hunitary : op.isUnitary = true) :
    trackZones d zones op = .ok zones' ↔
      zones' = zones ∧ ∀ p q, op.qubits = [p, q] → zoneAt zones p = zoneAt zones q := by
  have hbarrier := Operation.isBarrier_of_isUnitary hunitary
  rcases trackZones_of_not_shuttle d zones (Operation.isShuttle_of_isUnitary hunitary) with
    ⟨hok, hsame⟩ | ⟨a, b, -, hqubits, hne, herror⟩
  · rw [hok, Except.ok.injEq, eq_comm]
    exact (and_iff_left (hsame hbarrier)).symm
  · rw [herror]
    exact iff_of_false (by simp) fun h => hne (h.2 a b hqubits)

theorem zoneAt_restingZones {q : Nat} (hq : q < d.numQubits) :
    zoneAt (restingZones d) q = d.zoneOf q := by
  simp [zoneAt, restingZones, hq]

theorem zoneAt_setIfInBounds {zones : Array Nat} {q : Nat} (hq : q < zones.size) (z r : Nat) :
    zoneAt (zones.setIfInBounds q z) r = if r = q then z else zoneAt zones r := by
  rw [zoneAt, zoneAt, Array.getD_eq_getD_getElem?, Array.getD_eq_getD_getElem?,
    Array.getElem?_setIfInBounds]
  by_cases hr : r = q
  · simp [hr, hq]
  · simp [hr, Ne.symm hr]

theorem size_restingZones (d : Device β) : (restingZones d).size = d.numQubits := by
  simp [restingZones]

/-! ## The check of a circuit -/

theorem firstViolation?_eq_none_iff {zones : Array Nat} {ops : List (Operation α)} {i : Nat} :
    firstViolation? d i zones ops = none ↔
      (∀ op ∈ ops, obstacle? d op = none) ∧ ∃ zones', replay d zones ops = .ok zones' := by
  induction ops generalizing i zones with
  | nil => simp [firstViolation?, replay_nil]
  | cons op rest ih =>
    rw [firstViolation?, List.forall_mem_cons]
    cases hop : obstacle? d op with
    | some o => simp
    | none =>
      cases htrack : trackZones d zones op with
      | error o => simp [replay_cons_error htrack]
      | ok zones' => simp [ih, replay_cons htrack]

/-- A circuit is accepted exactly when it is no wider than the device, none of
its operations is refused by itself, and the zones can be followed to its
end. -/
theorem violation?_eq_none_iff {c : Circuit α} :
    violation? c d = none ↔
      c.numQubits ≤ d.numQubits ∧ (∀ op ∈ c.ops, obstacle? d op = none) ∧
        ∃ zones, replay d (restingZones d) c.ops = .ok zones := by
  rw [violation?, ← firstViolation?_eq_none_iff (i := 0)]
  split_ifs with hwidth
  · exact iff_of_false (by simp) fun h => by omega
  · exact ⟨fun h => ⟨by omega, h⟩, fun h => h.2⟩

/-- With a single zone nothing has to move. -/
theorem Runs.trackZones_eq {op : Operation α} (h : Runs d m op) (hzones : d.zones = 1) :
    trackZones d (restingZones d) op = .ok (restingZones d) := by
  refine trackZones_eq_self h.resting fun _ a b hqubits => ?_
  have hlt := h.wellFormed.qubits_lt
  rw [zoneAt_restingZones (hlt a (by simp [hqubits])),
    zoneAt_restingZones (hlt b (by simp [hqubits])), Route.zoneOf_eq_zero hzones,
    Route.zoneOf_eq_zero hzones]

theorem violation?_eq_none {c : Circuit α} (hzones : d.zones = 1)
    (hwidth : c.numQubits ≤ d.numQubits) (hops : ∀ op ∈ c.ops, Runs d m op) :
    violation? c d = none :=
  violation?_eq_none_iff.mpr ⟨hwidth, fun op hop => (hops op hop).obstacle?_eq_none, _,
    replay_eq_self fun op hop => (hops op hop).trackZones_eq hzones⟩

/-! ## Where such operations come from -/

/-- On a device with a single zone routing gives routed operations, unless there
are shuttles in the first place. -/
theorem routed_of_simulates {l final : Layout} {ops routed : List (Operation α)}
    {swaps : List (Nat × Nat)} {shuttles : Nat} (hzones : d.zones = 1)
    (h : Route.Simulates d l ops routed final swaps shuttles) (hl : Route.Ready d n l)
    (hops : ∀ op ∈ ops, op.WellFormed n m) (hresting : ∀ op ∈ ops, op.isShuttle = false)
    (hcoupled : ∀ op ∈ routed, Route.OnCoupled d.coupling op) : ∀ op ∈ routed, Routed d m op := by
  have hwf := h.wellFormed hops hl
  intro o ho
  rcases h.mem_cases o ho with
    ⟨p, q, rfl⟩ | ⟨⟨op, -, p, q, -, hne⟩, -⟩ | ⟨op, hop, hkind, harity, hnarrow⟩
  · exact ⟨hwf _ ho, .inr (Nat.le_refl 2), hcoupled _ ho, rfl⟩
  · rw [Route.zoneOf_eq_zero hzones, Route.zoneOf_eq_zero hzones] at hne
    exact absurd rfl hne
  · refine ⟨hwf o ho, ?_, hcoupled o ho, ?_⟩
    · rw [Operation.isBarrier, hkind, harity]
      exact hnarrow
    · rw [Operation.isShuttle, hkind]
      exact hresting op hop

omit [RealArith α] in
/-- An operation on at most two qubits is expanded into itself, or it is unitary
and expanded into unitary gates on one of its qubits or on both. -/
theorem product_cases {natives : GateSet} {op o : Operation α}
    (hnarrow : op.isBarrier = true ∨ op.arity ≤ 2) (h : Decomposition.Product natives n m op o) :
    o = op ∨ o.isUnitary = true ∧ op.isUnitary = true ∧ o.arity ≤ 2 ∧
      ∀ p q, o.qubits = [p, q] → op.qubits = [p, q] ∨ op.qubits = [q, p] := by
  rcases h.unitary with rfl | ⟨hunitary, hunitary'⟩
  · exact .inl rfl
  · have hbarrier : op.isBarrier = false := Operation.isBarrier_of_isUnitary hunitary'
    have hnarrow : op.qubits.length ≤ 2 := hnarrow.resolve_left (by simp [hbarrier])
    have hsub := h.wellFormed.nodup.subperm h.qubits
    refine .inr ⟨hunitary, hunitary', Nat.le_trans hsub.length_le hnarrow, fun p q hqubits => ?_⟩
    -- Both qubits are qubits of the operation, which has no others.
    rw [hqubits] at hsub
    exact List.pair_perm.mp (hsub.perm_of_length_le hnarrow)

omit [RealArith α] in
/-- What a routed operation is expanded into can be executed. -/
theorem Routed.product {op o : Operation α} (h : Routed d m op)
    (hproduct : Decomposition.Product d.natives d.numQubits m op o) : Runs d m o := by
  rcases product_cases h.narrow hproduct with rfl | ⟨hunitary, hunitary', hnarrow, hpair⟩
  · exact ⟨h, hproduct.native⟩
  · refine ⟨⟨hproduct.wellFormed, .inr hnarrow, fun _ p q hqubits => ?_,
      Operation.isShuttle_of_isUnitary hunitary⟩, hproduct.native⟩
    have hbarrier : op.isBarrier = false := Operation.isBarrier_of_isUnitary hunitary'
    rcases hpair p q hqubits with hpq | hqp
    · exact h.coupled hbarrier p q hpq
    · exact (h.coupled hbarrier q p hqp).symm

/-! ## Optimisation -/

omit [RealArith α] in
/-- What stands in the place of an executable gate is executable there, as only
native kinds are brought in. -/
theorem obstacle?_of_standsFor {r : Peephole.Simplifications} {a op : Operation α}
    (hop : Peephole.StandsFor (r.within d.natives) a op) (hunitary : a.isUnitary = true)
    (h : obstacle? d a = none) : obstacle? d op = none := by
  obtain ⟨hnative, hlt, hnodup, hnarrow, hcoupled⟩ := obstacle?_eq_none_iff.mp h
  have hbarrier : a.isBarrier = false := Operation.isBarrier_of_isUnitary hunitary
  refine obstacle?_eq_none_iff.mpr ⟨?_, hop.qubits ▸ hlt, hop.qubits ▸ hnodup, .inr ?_, ?_⟩
  · rcases hop.kind with hkind | ⟨hfuse, hkind⟩
    · rw [hkind]
      exact hnative
    · rw [hkind]
      exact (Bool.and_eq_true_iff.mp hfuse).2
  · rw [Operation.arity, hop.qubits]
    exact hnarrow.resolve_left (by simp [hbarrier])
  · intro _ p q hpq
    exact hcoupled hbarrier p q (hop.qubits ▸ hpq)

/-- Optimisation leaves the zones as they are at any time, as unitary gates move
nothing. -/
theorem replay_thinned {r : Peephole.Simplifications} {zones zones' : Array Nat}
    {xs ys : List (Operation α)} (h : Peephole.Thinned r xs ys)
    (hreplay : replay d zones xs = .ok zones') : replay d zones ys = .ok zones' := by
  induction h generalizing zones with
  | nil => exact hreplay
  | keep op _ ih =>
    obtain ⟨mid, htrack, hrest⟩ := replay_cons_eq_ok hreplay
    rw [replay_cons htrack]
    exact ih hrest
  | drop hop _ ih =>
    obtain ⟨mid, htrack, hrest⟩ := replay_cons_eq_ok hreplay
    obtain ⟨rfl, -⟩ := (trackZones_eq_ok_iff hop).mp htrack
    exact ih hrest
  | @alter a b ha hb xs ys _ ih =>
    obtain ⟨mid, htrack, hrest⟩ := replay_cons_eq_ok hreplay
    obtain ⟨rfl, hsame⟩ := (trackZones_eq_ok_iff ha).mp htrack
    have htrack' : trackZones d mid b = .ok mid :=
      (trackZones_eq_ok_iff hb.unitary).mpr ⟨rfl, hb.qubits ▸ hsame⟩
    rw [replay_cons htrack']
    exact ih hrest

/-- What is executable stays so when it is optimised. -/
theorem violation?_optimise {c : Circuit α} (h : violation? c d = none)
    (config : Peephole.Config) :
    violation? (Peephole.optimise d.natives config c).1 d = none := by
  obtain ⟨hwidth, hops, zones, hzones⟩ := violation?_eq_none_iff.mp h
  have hthin := Peephole.repeatPass_thinned (config.enabled.within d.natives) config.maxPasses c
  refine violation?_eq_none_iff.mpr ⟨?_, ?_, zones, replay_thinned hthin hzones⟩
  · rw [Peephole.optimise, Peephole.numQubits_repeatPass]
    exact hwidth
  · exact hthin.forall_mem (fun a b ha hb => obstacle?_of_standsFor hb ha) hops

end QuantumCompiler.Executable
