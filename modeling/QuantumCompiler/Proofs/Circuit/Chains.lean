import Mathlib.Data.List.Chain
import Mathlib.Data.Nat.SuccPred
import Mathlib.Order.SuccPred.Archimedean
import QuantumCompiler.Circuit.Basic

/-!
# Chains of dependent operations

An operation waits for the earlier ones that it shares a wire with.  This module
is about chains of operations each of which waits for the one before, and about
the greatest number of gates on them.

* `Operation.Linked` says that two operations share a wire.  A barrier occupies
  qubits, all of them if it names none, and no classical bits.
* `DependencyChain` is a chain of dependent operations and `gatesOn` the number
  of gates on it; barriers do not count.
* `Longest` is the greatest number of gates on a chain whose last operation has
  some property, and `LongestTo` that on a chain which leads to an operation.
  `Longest.concat`, `longestTo_length_iff` and `longestTo_append_iff` say what one
  more operation at the end does to them.
* Gates to which equally long chains lead share no wire
  (`disjoint_of_longestTo`).
-/

namespace QuantumCompiler

variable {α : Type} {width : Nat} {ops : List (Operation α)} {op : Operation α}
  {P Q : Operation α → Prop} {chain : List Nat} {i j k g h : Nat}

/-! ## Chains -/

namespace Operation

/-- The qubits that an operation occupies in a circuit of some width.  A barrier
that names no qubits occupies all of them. -/
def occupied (width : Nat) (op : Operation α) : List Nat :=
  if op.isBarrier && op.qubits.isEmpty then List.range width else op.qubits

/-- The classical bits that an operation occupies.  A barrier occupies none. -/
def written (op : Operation α) : List Nat := if op.isBarrier then [] else op.clbits

/-- Two operations share a qubit or a classical bit. -/
def Linked (width : Nat) (a b : Operation α) : Prop :=
  (∃ q ∈ b.occupied width, q ∈ a.occupied width) ∨ ∃ x ∈ b.written, x ∈ a.written

/-- What an operation adds to the length of a chain. -/
def weight (op : Operation α) : Nat := if op.isBarrier then 0 else 1

end Operation

/-- The operation at one index waits for that at an earlier one. -/
def Waits (width : Nat) (ops : List (Operation α)) (i j : Nat) : Prop :=
  i < j ∧ ∃ a b, ops[i]? = some a ∧ ops[j]? = some b ∧ a.Linked width b

/-- Indices of operations, each of which waits for the one before. -/
structure DependencyChain (width : Nat) (ops : List (Operation α)) (chain : List Nat) : Prop where
  inRange : ∀ i ∈ chain, i < ops.length
  linked : chain.IsChain (Waits width ops)

/-- The operation at an index is there and is not a barrier. -/
def IsGateAt (ops : List (Operation α)) (i : Nat) : Prop :=
  ∃ op, ops[i]? = some op ∧ op.isBarrier = false

/-- Number of operations on a chain that are not barriers. -/
def gatesOn (ops : List (Operation α)) (chain : List Nat) : Nat :=
  chain.countP fun i => ops[i]?.any (!·.isBarrier)

/-- The last operation of a chain, if there is one, has a property. -/
def EndsOn (ops : List (Operation α)) (P : Operation α → Prop) (chain : List Nat) : Prop :=
  ∀ j a, chain.getLast? = some j → ops[j]? = some a → P a

/-- The greatest number of gates on a chain whose last operation has a property. -/
def Longest (width : Nat) (ops : List (Operation α)) (P : Operation α → Prop) : Nat → Prop :=
  IsGreatest {g | ∃ chain,
    DependencyChain width ops chain ∧ EndsOn ops P chain ∧ gatesOn ops chain = g}

/-- The greatest number of gates on a chain of earlier operations that leads to an
operation. -/
def LongestTo (width : Nat) (ops : List (Operation α)) (i : Nat) : Nat → Prop :=
  IsGreatest {g | ∃ chain, DependencyChain width ops (chain ++ [i]) ∧ gatesOn ops chain = g}

theorem dependencyChain_nil (width : Nat) (ops : List (Operation α)) :
    DependencyChain width ops [] :=
  ⟨fun _ h => absurd h List.not_mem_nil, .nil⟩

theorem dependencyChain_concat_iff :
    DependencyChain width ops (chain ++ [i]) ↔
      DependencyChain width ops chain ∧ i < ops.length ∧
        ∀ j, chain.getLast? = some j → Waits width ops j i := by
  constructor
  · rintro ⟨hrange, hlinked⟩
    obtain ⟨hchain, -, hlast⟩ := List.isChain_append.mp hlinked
    refine ⟨⟨fun j hj => hrange j (List.mem_append_left _ hj), hchain⟩, hrange i (by simp),
      fun j hj => ?_⟩
    exact hlast j hj i rfl
  · rintro ⟨⟨hrange, hchain⟩, hi, hlast⟩
    refine ⟨fun j hj => ?_, List.isChain_append.mpr ⟨hchain, .singleton i, fun j hj p hp => ?_⟩⟩
    · rcases List.mem_append.mp hj with hj | hj
      · exact hrange j hj
      · rwa [List.mem_singleton.mp hj]
    · cases hp
      exact hlast j hj

theorem DependencyChain.ascending (h : DependencyChain width ops chain) :
    chain.Pairwise (· < ·) :=
  List.isChain_iff_pairwise.mp (h.linked.imp fun _ _ hwaits => hwaits.1)

theorem DependencyChain.lt_last (h : DependencyChain width ops (chain ++ [i])) :
    ∀ j ∈ chain, j < i :=
  fun j hj => (List.pairwise_append.mp h.ascending).2.2 j hj i (by simp)

theorem gatesOn_concat (ops : List (Operation α)) (chain : List Nat) (i : Nat) :
    gatesOn ops (chain ++ [i]) =
      gatesOn ops chain + if ops[i]?.any (!·.isBarrier) then 1 else 0 := by
  rw [gatesOn, gatesOn, List.countP_append, List.countP_singleton]

theorem isGateAt_iff : IsGateAt ops i ↔ i < ops.length ∧ ops[i]?.any (!·.isBarrier) = true := by
  rw [IsGateAt]
  by_cases hi : i < ops.length <;> simp [hi]

theorem IsGateAt.gatesOn_concat (hi : IsGateAt ops i) (chain : List Nat) :
    gatesOn ops (chain ++ [i]) = gatesOn ops chain + 1 := by
  rw [QuantumCompiler.gatesOn_concat, if_pos (isGateAt_iff.mp hi).2]

theorem IsGateAt.isBarrier_eq (hi : IsGateAt ops i) (hget : ops[i]? = some op) :
    op.isBarrier = false := by
  obtain ⟨a, ha, hgate⟩ := hi
  rw [ha] at hget
  cases hget
  exact hgate

/-! ## One more operation -/

theorem waits_append_iff (op : Operation α) (hj : j < ops.length) :
    Waits width (ops ++ [op]) i j ↔ Waits width ops i j := by
  rw [Waits, Waits]
  refine and_congr_right fun hij => ?_
  rw [List.getElem?_append_left hj, List.getElem?_append_left (Nat.lt_trans hij hj)]

/-- A chain of operations that were there before is one of them. -/
theorem dependencyChain_append_iff (op : Operation α) (h : ∀ i ∈ chain, i < ops.length) :
    DependencyChain width (ops ++ [op]) chain ↔ DependencyChain width ops chain := by
  have hlinked : chain.IsChain (Waits width (ops ++ [op])) ↔ chain.IsChain (Waits width ops) :=
    List.IsChain.iff_of_mem_imp fun i j _ hj => waits_append_iff op (h j hj)
  constructor
  · exact fun hchain => ⟨h, hlinked.mp hchain.linked⟩
  · refine fun hchain => ⟨fun i hi => ?_, hlinked.mpr hchain.linked⟩
    rw [List.length_append]
    exact Nat.lt_add_right _ (h i hi)

theorem gatesOn_append (op : Operation α) (h : ∀ i ∈ chain, i < ops.length) :
    gatesOn (ops ++ [op]) chain = gatesOn ops chain :=
  List.countP_congr fun i hi => by rw [List.getElem?_append_left (h i hi)]

theorem gatesOn_length (op : Operation α) (h : ∀ i ∈ chain, i < ops.length) :
    gatesOn (ops ++ [op]) (chain ++ [ops.length]) = gatesOn ops chain + op.weight := by
  rw [gatesOn_concat, gatesOn_append op h, Operation.weight]
  cases hbarrier : op.isBarrier <;> simp [hbarrier]

theorem endsOn_append_iff (op : Operation α) (h : ∀ i ∈ chain, i < ops.length) :
    EndsOn (ops ++ [op]) P chain ↔ EndsOn ops P chain := by
  rw [EndsOn, EndsOn]
  refine forall₂_congr fun j a => imp_congr_right fun hj => ?_
  rw [List.getElem?_append_left (h j (List.mem_of_getLast? hj))]

/-- A chain leads to the last operation exactly if that is linked with its end. -/
theorem dependencyChain_length_iff :
    DependencyChain width (ops ++ [op]) (chain ++ [ops.length]) ↔
      DependencyChain width ops chain ∧ EndsOn ops (·.Linked width op) chain := by
  constructor
  · intro hall
    have hrange := hall.lt_last
    obtain ⟨hchain, -, hlast⟩ := dependencyChain_concat_iff.mp hall
    refine ⟨(dependencyChain_append_iff op hrange).mp hchain, fun j a hj ha => ?_⟩
    obtain ⟨-, a', b, ha', hb, hlinked⟩ := hlast j hj
    rw [List.getElem?_append_left (hrange j (List.mem_of_getLast? hj)), ha] at ha'
    rw [List.getElem?_concat_length] at hb
    cases ha'
    cases hb
    exact hlinked
  · rintro ⟨hchain, hends⟩
    refine dependencyChain_concat_iff.mpr
      ⟨(dependencyChain_append_iff op hchain.inRange).mpr hchain, by simp, fun j hj => ?_⟩
    have hlt : j < ops.length := hchain.inRange j (List.mem_of_getLast? hj)
    have ha : ops[j]? = some (ops.get ⟨j, hlt⟩) := List.getElem?_eq_getElem hlt
    exact ⟨hlt, _, op, by rw [List.getElem?_append_left hlt, ha], List.getElem?_concat_length,
      hends j _ hj ha⟩

/-- With one more operation there are the chains from before and those that lead
to it. -/
theorem DependencyChain.cases_append (hchain : DependencyChain width (ops ++ [op]) chain) :
    DependencyChain width ops chain ∨
      ∃ before, chain = before ++ [ops.length] ∧ DependencyChain width ops before ∧
        EndsOn ops (·.Linked width op) before := by
  by_cases hlast : ops.length ∈ chain
  · obtain ⟨before, after, rfl⟩ := List.append_of_mem hlast
    -- Indices ascend, and there is none above the last one.
    have hafter : after = [] := by
      refine List.eq_nil_iff_forall_not_mem.mpr fun i hi => ?_
      have hgt := (List.pairwise_cons.mp (List.pairwise_append.mp hchain.ascending).2.1).1 i hi
      have hlt := hchain.inRange i (by simp [hi])
      rw [List.length_append, List.length_singleton] at hlt
      omega
    subst hafter
    obtain ⟨hbefore, hends⟩ := dependencyChain_length_iff.mp hchain
    exact .inr ⟨before, rfl, hbefore, hends⟩
  · refine .inl ((dependencyChain_append_iff op fun i hi => ?_).mp hchain)
    have hlt := hchain.inRange i hi
    have hne : i ≠ ops.length := fun h => hlast (h ▸ hi)
    rw [List.length_append, List.length_singleton] at hlt
    omega

/-! ## Longest chains -/

theorem endsOn_nil : EndsOn ops P [] := fun _ _ hj => by cases hj

theorem longest_nil (width : Nat) (P : Operation α → Prop) : Longest width [] P 0 := by
  refine ⟨⟨[], dependencyChain_nil width [], endsOn_nil, rfl⟩, ?_⟩
  rintro g ⟨chain, hchain, -, rfl⟩
  have hnil : chain = [] :=
    List.eq_nil_iff_forall_not_mem.mpr fun i hi =>
      absurd (hchain.inRange i hi) (Nat.not_lt_zero i)
  rw [hnil]
  exact Nat.le_refl 0

theorem Longest.mono (hP : Longest width ops P g) (hQ : Longest width ops Q h)
    (hPQ : ∀ a, P a → Q a) : g ≤ h := by
  obtain ⟨chain, hchain, hends, rfl⟩ := hP.1
  exact hQ.2 ⟨chain, hchain, fun j a hj ha => hPQ a (hends j a hj ha), rfl⟩

theorem Longest.or (hP : Longest width ops P g) (hQ : Longest width ops Q h) :
    Longest width ops (fun a => P a ∨ Q a) (max g h) := by
  constructor
  · rcases Nat.le_total g h with hle | hle
    · obtain ⟨chain, hchain, hends, rfl⟩ := hQ.1
      rw [Nat.max_eq_right hle]
      exact ⟨chain, hchain, fun j a hj ha => .inr (hends j a hj ha), rfl⟩
    · obtain ⟨chain, hchain, hends, rfl⟩ := hP.1
      rw [Nat.max_eq_left hle]
      exact ⟨chain, hchain, fun j a hj ha => .inl (hends j a hj ha), rfl⟩
  · rintro _ ⟨chain, hchain, hends, rfl⟩
    -- The last operation has one of the properties, and a chain has just one end.
    by_cases hP' : EndsOn ops P chain
    · exact Nat.le_trans (hP.2 ⟨chain, hchain, hP', rfl⟩) (Nat.le_max_left g h)
    · refine Nat.le_trans (hQ.2 ⟨chain, hchain, fun j a hj ha => ?_, rfl⟩) (Nat.le_max_right g h)
      refine (hends j a hj ha).resolve_left fun hPa => hP' fun j' a' hj' ha' => ?_
      rw [hj] at hj'
      cases hj'
      rw [ha] at ha'
      cases ha'
      exact hPa

/-- One more operation adds the chains that lead to it where it has the property. -/
theorem Longest.concat (hlink : Longest width ops (·.Linked width op) k)
    (hP : Longest width ops P g) (hop : P op) :
    Longest width (ops ++ [op]) P (max g (k + op.weight)) := by
  constructor
  · rcases Nat.le_total g (k + op.weight) with hle | hle
    · obtain ⟨chain, hchain, hends, rfl⟩ := hlink.1
      rw [Nat.max_eq_right hle]
      refine ⟨chain ++ [ops.length], dependencyChain_length_iff.mpr ⟨hchain, hends⟩, ?_,
        gatesOn_length op hchain.inRange⟩
      intro j a hj ha
      rw [List.getLast?_concat] at hj
      cases hj
      rw [List.getElem?_concat_length] at ha
      cases ha
      exact hop
    · obtain ⟨chain, hchain, hends, rfl⟩ := hP.1
      rw [Nat.max_eq_left hle]
      exact ⟨chain, (dependencyChain_append_iff op hchain.inRange).mpr hchain,
        (endsOn_append_iff op hchain.inRange).mpr hends, gatesOn_append op hchain.inRange⟩
  · rintro _ ⟨chain, hchain, hends, rfl⟩
    rcases hchain.cases_append with hold | ⟨before, rfl, hbefore, hlinked⟩
    · rw [gatesOn_append op hold.inRange]
      exact Nat.le_trans (hP.2 ⟨chain, hold, (endsOn_append_iff op hold.inRange).mp hends, rfl⟩)
        (Nat.le_max_left g _)
    · rw [gatesOn_length op hbefore.inRange]
      exact Nat.le_trans
        (Nat.add_le_add_right (hlink.2 ⟨before, hbefore, hlinked, rfl⟩) op.weight)
        (Nat.le_max_right g _)

theorem Longest.concat_of_not (hP : Longest width ops P g) (hop : ¬ P op) :
    Longest width (ops ++ [op]) P g := by
  constructor
  · obtain ⟨chain, hchain, hends, rfl⟩ := hP.1
    exact ⟨chain, (dependencyChain_append_iff op hchain.inRange).mpr hchain,
      (endsOn_append_iff op hchain.inRange).mpr hends, gatesOn_append op hchain.inRange⟩
  · rintro _ ⟨chain, hchain, hends, rfl⟩
    rcases hchain.cases_append with hold | ⟨before, rfl, -, -⟩
    · rw [gatesOn_append op hold.inRange]
      exact hP.2 ⟨chain, hold, (endsOn_append_iff op hold.inRange).mp hends, rfl⟩
    · exact absurd (hends ops.length op List.getLast?_concat List.getElem?_concat_length) hop

/-- The chains that lead to the last operation are those which end on an operation
that it is linked with. -/
theorem longestTo_length_iff :
    LongestTo width (ops ++ [op]) ops.length k ↔ Longest width ops (·.Linked width op) k := by
  rw [LongestTo, Longest]
  have hset : {g | ∃ chain, DependencyChain width (ops ++ [op]) (chain ++ [ops.length]) ∧
      gatesOn (ops ++ [op]) chain = g} =
      {g | ∃ chain, DependencyChain width ops chain ∧ EndsOn ops (·.Linked width op) chain ∧
        gatesOn ops chain = g} := by
    ext g
    refine exists_congr fun chain => ?_
    rw [dependencyChain_length_iff, and_assoc]
    refine and_congr_right fun hchain => and_congr_right fun _ => ?_
    rw [gatesOn_append op hchain.inRange]
  rw [hset]

/-- What comes later does not lead to an operation. -/
theorem longestTo_append_iff (op : Operation α) (hi : i < ops.length) :
    LongestTo width (ops ++ [op]) i k ↔ LongestTo width ops i k := by
  rw [LongestTo, LongestTo]
  have hset : {g | ∃ chain, DependencyChain width (ops ++ [op]) (chain ++ [i]) ∧
      gatesOn (ops ++ [op]) chain = g} =
      {g | ∃ chain, DependencyChain width ops (chain ++ [i]) ∧ gatesOn ops chain = g} := by
    ext g
    refine exists_congr fun chain => ?_
    constructor
    · rintro ⟨hchain, rfl⟩
      have hrange : ∀ j ∈ chain ++ [i], j < ops.length := by
        intro j hj
        rcases List.mem_append.mp hj with hj | hj
        · exact Nat.lt_trans (hchain.lt_last j hj) hi
        · rwa [List.mem_singleton.mp hj]
      exact ⟨(dependencyChain_append_iff op hrange).mp hchain,
        (gatesOn_append op fun j hj => hrange j (List.mem_append_left _ hj)).symm⟩
    · rintro ⟨hchain, rfl⟩
      exact ⟨(dependencyChain_append_iff op hchain.inRange).mpr hchain,
        gatesOn_append op (dependencyChain_concat_iff.mp hchain).1.inRange⟩
  rw [hset]

/-- There is a longest chain to every gate, and with the gate it is no longer than
any chain may be. -/
theorem exists_longestTo (hi : IsGateAt ops i) (hall : Longest width ops (fun _ => True) g) :
    ∃ k < g, LongestTo width ops i k := by
  have hbound {k : Nat} {chain : List Nat} (hchain : DependencyChain width ops (chain ++ [i]))
      (hk : gatesOn ops chain = k) : k < g := by
    refine hall.2 ⟨chain ++ [i], hchain, fun _ _ _ _ => trivial, ?_⟩
    rw [hi.gatesOn_concat, hk]
  have hne : DependencyChain width ops ([] ++ [i]) :=
    dependencyChain_concat_iff.mpr
      ⟨dependencyChain_nil width ops, (isGateAt_iff.mp hi).1, fun _ hj => by cases hj⟩
  obtain ⟨k, hk⟩ : ∃ k, LongestTo width ops i k :=
    BddAbove.exists_isGreatest_of_nonempty
      ⟨g, fun _ ⟨_, hchain, hk⟩ => Nat.le_of_lt (hbound hchain hk)⟩ ⟨0, [], hne, rfl⟩
  obtain ⟨chain, hchain, hgates⟩ := hk.1
  exact ⟨k, hbound hchain hgates, hk⟩

/-- A gate that waits for another one has a longer chain. -/
theorem lt_of_waits (hi : IsGateAt ops i) (hg : LongestTo width ops i g)
    (hh : LongestTo width ops j h) (hwaits : Waits width ops i j) : g < h := by
  obtain ⟨chain, hchain, rfl⟩ := hg.1
  refine hh.2 ⟨chain ++ [i], dependencyChain_concat_iff.mpr ⟨hchain, ?_, ?_⟩, ?_⟩
  · obtain ⟨_, _, b, -, hb, -⟩ := hwaits
    exact (List.getElem?_eq_some_iff.mp hb).1
  · intro p hp
    rw [List.getLast?_concat] at hp
    cases hp
    exact hwaits
  · exact hi.gatesOn_concat chain

/-- Gates whose longest chains have the same length share no wire. -/
theorem disjoint_of_longestTo {a b : Operation α} (ha : ops[i]? = some a) (hb : ops[j]? = some b)
    (hi : IsGateAt ops i) (hj : IsGateAt ops j) (hne : i ≠ j)
    (hgi : LongestTo width ops i g) (hgj : LongestTo width ops j g) :
    List.Disjoint a.qubits b.qubits ∧ List.Disjoint a.clbits b.clbits := by
  have hnot : ¬ a.Linked width b := by
    intro hlinked
    rcases Nat.lt_or_gt_of_ne hne with hlt | hlt
    · exact Nat.lt_irrefl g (lt_of_waits hi hgi hgj ⟨hlt, a, b, ha, hb, hlinked⟩)
    · have hsymm : b.Linked width a :=
        hlinked.imp (fun ⟨q, hq, hq'⟩ => ⟨q, hq', hq⟩) fun ⟨x, hx, hx'⟩ => ⟨x, hx', hx⟩
      exact Nat.lt_irrefl g (lt_of_waits hj hgj hgi ⟨hlt, b, a, hb, ha, hsymm⟩)
  have hwires {o : Operation α} (hgate : o.isBarrier = false) :
      o.occupied width = o.qubits ∧ o.written = o.clbits := by
    simp [Operation.occupied, Operation.written, hgate]
  rw [Operation.Linked, (hwires (hi.isBarrier_eq ha)).1, (hwires (hi.isBarrier_eq ha)).2,
    (hwires (hj.isBarrier_eq hb)).1, (hwires (hj.isBarrier_eq hb)).2, not_or] at hnot
  exact ⟨fun q hq hq' => hnot.1 ⟨q, hq', hq⟩, fun x hx hx' => hnot.2 ⟨x, hx', hx⟩⟩

end QuantumCompiler
