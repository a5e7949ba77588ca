import QuantumCompiler.Proofs.Layout.Greedy

/-!
# Improving a placement

Local exchanges, the placement of qubits without interactions and the exact
search all keep what makes a placement usable, whatever the costs are.

* An exchange is only made if the two qubits it moves have a cost in their new
  places, and a cost means that all partners are within reach
  (`tryExchange_serves`).  `climb_keeps` is the induction over all rounds, for
  whatever an exchange keeps.
* There is a free place for every qubit as long as the device is as wide as
  the circuit (`exists_free`).
* `Search.Partial` is the invariant of a branch of the search; the best
  placement known always satisfies it for all qubits (`search_best`).
-/

namespace QuantumCompiler

variable {g : InteractionGraph} {m : CouplingMap} {l : Layout}

/-! ## Exchanges -/

namespace Climb

variable {s : State} {p q : Nat}

/-- A qubit that has a cost reaches its partners. -/
theorem reachable_of_costOf (hg : g.Valid) {a b x y : Nat}
    (hcost : (costOf g m l (some a)).isSome = true) (hadj : g.graph.Adj a b)
    (ha : l.physical? a = some x) (hx : x < m.size) (hb : l.physical? b = some y) :
    m.graph.Reachable x y := by
  simp only [costOf, ha] at hcost
  exact (hg.isSome_localCost?_iff (hg.lt_of_adj hadj).1 hx).mp hcost b y hadj hb

theorem isSome_of_pairCost {a b : Option Nat} {c : Nat} (h : pairCost g m l a b = some c) :
    (costOf g m l a).isSome = true ∧ (costOf g m l b).isSome = true := by
  rw [pairCost] at h
  cases ha : costOf g m l a <;> cases hb : costOf g m l b <;> simp [ha, hb] at h ⊢

/-- An exchange after which both qubits have a cost connects all interacting
qubits as before. -/
theorem exchange_serves (hg : g.Valid) (hl : l.Serves g m) (hp : p < m.size) (hq : q < m.size)
    {c : Nat} (hcost : pairCost g m (l.exchange p q) (l.logical? p) (l.logical? q) = some c) :
    (l.exchange p q).Serves g m := by
  obtain ⟨hcostP, hcostQ⟩ := isSome_of_pairCost hcost
  have hp' : p < l.numPhysical := hl.physical ▸ hp
  have hq' : q < l.numPhysical := hl.physical ▸ hq
  have hcons := hl.consistent.exchange hp' hq'
  have hlt {k x : Nat} (h : (l.exchange p q).physical? k = some x) : x < m.size := by
    have := hcons.physical_lt h
    rwa [Layout.numPhysical_exchange, hl.physical] at this
  -- Whichever qubit is moved has a cost in its new place.
  have hmoved {a b x y z : Nat} (hadj : g.graph.Adj a b) (ha : l.physical? a = some z)
      (hz : z = p ∨ z = q) (hx : (l.exchange p q).physical? a = some x)
      (hy : (l.exchange p q).physical? b = some y) : m.graph.Reachable x y := by
    have hhost := (hl.consistent a z).mp ha
    rcases hz with rfl | rfl
    · rw [hhost] at hcostP
      exact reachable_of_costOf hg hcostP hadj hx (hlt hx) hy
    · rw [hhost] at hcostQ
      exact reachable_of_costOf hg hcostQ hadj hx (hlt hx) hy
  refine ⟨hcons, by simp [hl.logical], by simp [hl.physical], fun a b hadj => ?_⟩
  obtain ⟨x, y, ha, hb, -, hreach⟩ := hl.connects a b hadj
  have ha' : (l.exchange p q).physical? a = some (Equiv.swap p q x) := by
    rw [hl.consistent.physical?_exchange, ha]
    rfl
  have hb' : (l.exchange p q).physical? b = some (Equiv.swap p q y) := by
    rw [hl.consistent.physical?_exchange, hb]
    rfl
  refine ⟨_, _, ha', hb', hlt ha', ?_⟩
  by_cases hx : x = p ∨ x = q
  · exact hmoved hadj ha hx ha' hb'
  · by_cases hy : y = p ∨ y = q
    · exact (hmoved hadj.symm hb hy hb' ha').symm
    · rw [Equiv.swap_apply_of_ne_of_ne (fun h => hx (.inl h)) fun h => hx (.inr h),
        Equiv.swap_apply_of_ne_of_ne (fun h => hy (.inl h)) fun h => hy (.inr h)]
      exact hreach

/-- An exchange is made only if the two qubits have a smaller cost in their new
places; otherwise everything stays. -/
theorem tryExchange_cases (g : InteractionGraph) (m : CouplingMap) (s : State) (p q : Nat) :
    tryExchange g m s p q = (s, false) ∨
      ∃ before after,
        pairCost g m s.layout (s.layout.logical? p) (s.layout.logical? q) = some before ∧
        pairCost g m (s.layout.exchange p q) (s.layout.logical? p) (s.layout.logical? q) =
        some after ∧
        after < before ∧
        tryExchange g m s p q = (⟨s.layout.exchange p q, s.cost - (before - after)⟩, true) := by
  rw [tryExchange]
  dsimp only
  split_ifs with hidle
  · exact .inl rfl
  · split
    · next before after hbefore hafter =>
      split_ifs with hbetter
      · exact .inr ⟨before, after, hbefore, hafter, hbetter, rfl⟩
      · exact .inl rfl
    · exact .inl rfl

theorem tryExchange_serves (hg : g.Valid) (hs : s.layout.Serves g m) (hp : p < m.size)
    (hq : q < m.size) : (tryExchange g m s p q).1.layout.Serves g m := by
  rcases tryExchange_cases g m s p q with hstay | ⟨before, after, -, hafter, -, hmade⟩
  · rwa [hstay]
  · rw [hmade]
    exact exchange_serves hg hs hp hq hafter

/-! ## Rounds -/

section Rounds

variable {P : State → Prop} {pairs : List (Nat × Nat)}

/-- What every exchange of a list keeps is kept by the round. -/
theorem round_keeps (hstep : ∀ x ∈ pairs, ∀ s, P s → P (tryExchange g m s x.1 x.2).1) (hs : P s) :
    P (round g m pairs s).1 := by
  rw [round]
  refine List.foldlRecOn (motive := fun acc : State × Bool => P acc.1) pairs _ hs ?_
  intro acc hacc x hx
  exact hstep x hx acc.1 hacc

theorem rounds_keeps (hstep : ∀ x ∈ pairs, ∀ s, P s → P (tryExchange g m s x.1 x.2).1) {n : Nat}
    (hs : P s) : P (rounds g m pairs n s) := by
  induction n generalizing s with
  | zero => exact hs
  | succ n ih =>
    have hround := round_keeps hstep hs
    rw [rounds]
    dsimp only
    split_ifs
    · exact ih hround
    · exact hround

theorem allPairs_lt {size : Nat} : ∀ x ∈ allPairs size, x.1 < size ∧ x.2 < size := by
  intro x hx
  simp only [allPairs, List.mem_flatMap, List.mem_map, List.mem_range] at hx
  obtain ⟨p, hp, k, hk, rfl⟩ := hx
  exact ⟨hp, by dsimp only; omega⟩

/-- What every exchange of two physical qubits keeps is kept by all rounds
together. -/
theorem climb_keeps
    (hstep : ∀ p < s.layout.numPhysical, ∀ q < s.layout.numPhysical, ∀ t, P t →
      P (tryExchange g m t p q).1)
    (hs : P s) : P (climb g m s) :=
  rounds_keeps (fun x hx => hstep x.1 (allPairs_lt x hx).1 x.2 (allPairs_lt x hx).2) hs

end Rounds

theorem round_serves (hg : g.Valid) {pairs : List (Nat × Nat)}
    (hpairs : ∀ x ∈ pairs, x.1 < m.size ∧ x.2 < m.size) (hs : s.layout.Serves g m) :
    (round g m pairs s).1.layout.Serves g m :=
  round_keeps (P := fun t => t.layout.Serves g m)
    (fun x hx _ ht => tryExchange_serves hg ht (hpairs x hx).1 (hpairs x hx).2) hs

/-- All rounds together keep interacting qubits connected. -/
theorem climb_serves (hg : g.Valid) (hs : s.layout.Serves g m) :
    (climb g m s).layout.Serves g m :=
  climb_keeps (P := fun t => t.layout.Serves g m)
    (fun _ hp _ hq _ ht => tryExchange_serves hg ht (hs.physical ▸ hp) (hs.physical ▸ hq)) hs

end Climb

/-! ## Qubits without interactions -/

namespace Greedy

/-- As long as a qubit has no place, some place is free. -/
theorem exists_free (hl : l.Consistent) (hle : l.numLogical ≤ l.numPhysical) {q : Nat}
    (hq : q < l.numLogical) (hnone : l.physical? q = none) :
    ∃ p < l.numPhysical, l.logical? p = none := by
  by_contra hall
  have hhost : ∀ p < l.numPhysical, ∃ k, l.logical? p = some k := fun p hp =>
    Option.ne_none_iff_exists'.mp fun h => hall ⟨p, hp, h⟩
  -- The qubits on all places would be as many different ones other than `q`.
  have hnodup : ((List.range l.numPhysical).map fun p => (l.logical? p).getD 0).Nodup := by
    refine List.Nodup.map_on (fun a ha b hb hab => ?_) List.nodup_range
    obtain ⟨k, hk⟩ := hhost a (List.mem_range.mp ha)
    obtain ⟨k', hk'⟩ := hhost b (List.mem_range.mp hb)
    rw [hk, hk'] at hab
    obtain rfl : k = k' := hab
    exact Option.some.inj (((hl k a).mpr hk).symm.trans ((hl k b).mpr hk'))
  have hsub : ((List.range l.numPhysical).map fun p => (l.logical? p).getD 0) ⊆
      (List.range l.numLogical).erase q := by
    intro k hk
    obtain ⟨p, hp, rfl⟩ := List.mem_map.mp hk
    obtain ⟨k, hk⟩ := hhost p (List.mem_range.mp hp)
    have hplace := (hl k p).mpr hk
    have hne : k ≠ q := fun h => by
      rw [h, hnone] at hplace
      cases hplace
    rw [hk, Option.getD_some]
    exact (List.mem_erase_of_ne hne).mpr (List.mem_range.mpr (hl.logical_lt hk))
  have hlength := (hnodup.subperm hsub).length_le
  rw [List.length_map, List.length_range, List.length_erase_of_mem (List.mem_range.mpr hq),
    List.length_range] at hlength
  omega

/-- All qubits of a list get a place, and the places there were stay. -/
theorem placeIsolated_spec {qs : List Nat} (hl : l.Consistent)
    (hle : l.numLogical ≤ l.numPhysical) (hqs : ∀ q ∈ qs, q < l.numLogical) :
    ∃ l', placeIsolated qs l = some l' ∧ l'.Consistent ∧ l'.numLogical = l.numLogical ∧
      l'.numPhysical = l.numPhysical ∧
      (∀ q p, l.physical? q = some p → l'.physical? q = some p) ∧
      ∀ q ∈ qs, ∃ p, l'.physical? q = some p := by
  induction qs generalizing l with
  | nil => exact ⟨l, rfl, hl, rfl, rfl, fun _ _ h => h, by simp⟩
  | cons q rest ih =>
    have hq := hqs q List.mem_cons_self
    have hrest : ∀ r ∈ rest, r < l.numLogical := fun r hr => hqs r (List.mem_cons_of_mem _ hr)
    rw [placeIsolated]
    cases hplace : l.physical? q with
    | some p =>
      obtain ⟨l', hl', hcons, hlog, hphys, hkeep, hall⟩ := ih hl hle hrest
      rw [if_pos Option.isSome_some]
      refine ⟨l', hl', hcons, hlog, hphys, hkeep, fun r hr => ?_⟩
      rcases List.mem_cons.mp hr with rfl | hr
      · exact ⟨p, hkeep r p hplace⟩
      · exact hall r hr
    | none =>
      rw [if_neg (by simp)]
      cases hfind : (List.range l.numPhysical).find? fun p => l.logical? p == none with
      | none =>
        obtain ⟨p, hp, hfree⟩ := exists_free hl hle hq hplace
        have := List.find?_eq_none.mp hfind p (List.mem_range.mpr hp)
        simp [hfree] at this
      | some p =>
        have hp : p < l.numPhysical := List.mem_range.mp (List.mem_of_find?_eq_some hfind)
        have hfree : l.logical? p = none := by
          have := List.find?_some hfind
          simpa using this
        obtain ⟨l', hl', hcons, hlog, hphys, hkeep, hall⟩ :=
          ih (hl.place hq hp hplace hfree) (by simpa using hle) (by simpa using hrest)
        have hkeep' : ∀ r x, l.physical? r = some x → l'.physical? r = some x := by
          intro r x hr
          refine hkeep r x ?_
          have hne : r ≠ q := fun h => by
            rw [h, hplace] at hr
            cases hr
          rw [Layout.physical?_place hq, if_neg hne, hr]
        refine ⟨l', hl', hcons, by simpa using hlog, by simpa using hphys, hkeep', fun r hr => ?_⟩
        rcases List.mem_cons.mp hr with rfl | hr
        · exact ⟨p, hkeep r p (by rw [Layout.physical?_place hq, if_pos rfl])⟩
        · exact hall r hr

end Greedy

/-! ## Exact search -/

namespace Search

/-- Different places for the first qubits, within reach of each other where
they interact. -/
structure Partial (g : InteractionGraph) (m : CouplingMap) (placed : Array Nat) : Prop where
  nodup : placed.toList.Nodup
  lt : ∀ p ∈ placed.toList, p < m.size
  reach : ∀ a b p q, g.graph.Adj a b → placed[a]? = some p → placed[b]? = some q →
    m.graph.Reachable p q

theorem partial_empty : Partial g m #[] where
  nodup := List.nodup_nil
  lt := by simp
  reach a b p q _ ha := by simp at ha

/-- A free place with a cost extends a branch. -/
theorem Partial.push (hg : g.Valid) {placed : Array Nat} (h : Partial g m placed) {q : Nat}
    (hlt : placed.size < g.numQubits) (hq : q < m.size) (hfree : placed.contains q = false)
    (hcost : (g.localCost? m (fun k => placed[k]?) placed.size q).isSome = true) :
    Partial g m (placed.push q) := by
  have hreach := (hg.isSome_localCost?_iff hlt hq).mp hcost
  have hget (k : Nat) : (placed.push q)[k]? = if k = placed.size then some q else placed[k]? :=
    Array.getElem?_push
  refine ⟨?_, ?_, ?_⟩
  · rw [Array.toList_push]
    refine List.nodup_append'.mpr ⟨h.nodup, List.nodup_singleton q, ?_⟩
    intro x hx hxq
    rw [List.mem_singleton.mp hxq] at hx
    have hmem : placed.contains q = true :=
      Array.contains_iff_mem.mpr (Array.mem_toList_iff.mp hx)
    rw [hfree] at hmem
    cases hmem
  · intro p hp
    rw [Array.toList_push, List.mem_append, List.mem_singleton] at hp
    rcases hp with hp | rfl
    · exact h.lt p hp
    · exact hq
  · intro a b p p' hadj ha hb
    rw [hget] at ha hb
    split_ifs at ha hb with ha' hb' hb'
    · exact absurd (ha'.trans hb'.symm) hadj.ne
    · cases ha
      subst ha'
      exact hreach b p' hadj hb
    · cases hb
      subst hb'
      exact (hreach a p hadj.symm ha).symm
    · exact h.reach a b p p' hadj ha hb

/-- Places for all qubits. -/
def Full (g : InteractionGraph) (m : CouplingMap) (placed : Array Nat) : Prop :=
  Partial g m placed ∧ placed.size = g.numQubits

theorem conclude_best {s : Incumbent} {placed : Array Nat} {cost : Nat} {lex : Ordering}
    (hs : Full g m s.best) (hplaced : Full g m placed) :
    Full g m (conclude s placed cost lex).best := by
  rw [conclude]
  split_ifs
  · exact hplaced
  · exact hs

theorem visit_best (hg : g.Valid) {budget more : Nat} {placed : Array Nat} {cost : Nat}
    {lex : Ordering} {s : Incumbent} (hplaced : Partial g m placed)
    (hmore : placed.size + more = g.numQubits) (hs : Full g m s.best) :
    Full g m (visit (Problem.of g m budget) more placed cost lex s).best := by
  induction more generalizing placed cost lex s with
  | zero =>
    rw [visit]
    split_ifs
    · exact hs
    · exact conclude_best hs ⟨hplaced, by omega⟩
  | succ more ih =>
    rw [visit]
    split_ifs
    · exact hs
    · -- The incumbent stays complete from site to site.
      refine List.foldlRecOn (motive := fun s : Incumbent => Full g m s.best) _ _ hs ?_
      intro s hs q hq
      dsimp only
      split_ifs with hfree
      · exact hs
      · split
        · exact hs
        · next c hc =>
          split_ifs
          · exact hs
          · refine ih (hplaced.push hg (by omega) (List.mem_range.mp hq) (by simpa using hfree)
              (Option.isSome_of_eq_some hc)) ?_ hs
            rw [Array.size_push]
            omega

/-- The search ends with places for all qubits if it starts with such. -/
theorem search_best (hg : g.Valid) {budget cost : Nat} {known : Array Nat}
    (hknown : Full g m known) : Full g m (search g m budget known cost).best :=
  visit_best hg partial_empty (by simp [hknown.2]) hknown

end Search

end QuantumCompiler
