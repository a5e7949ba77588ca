import QuantumCompiler.Proofs.Layout.Consistent

/-!
# Layouts over whole runs

Layouts are created, changed in place, frozen and cloned in any order.  A store
holds all layouts of a run, numbered in order of their creation, and a call
creates one or changes one.  `Store.perform` makes a call and reports the fault
that stops it, if there is one; `Store.run` makes one call after the other.

A store holds values, so a clone is a full copy: both directions are copied, and a
later change of the one layout does not reach the other.  `Reliable.independent`
rests on this reading of a clone.

What one call can do to a store is said once (`perform_cases`).  From it follow
the invariants of whole runs: every layout in a store can be built, so that its
two directions agree, a frozen layout stays as it is, and so does a layout that
no call names.  `Store.Reliable` collects what a caller can rely on for one
layout, and `run_reliable` gives it for every layout of every run.
-/

namespace QuantumCompiler.Layout

/-! ## Changes that undo themselves -/

section Extensionality

variable {l l' : Layout}

/-- Layouts of the same sizes are equal if they place qubits alike. -/
theorem ext_places (hl2p : l.numLogical = l'.numLogical) (hp2l : l.numPhysical = l'.numPhysical)
    (hphysical : ∀ q, l.physical? q = l'.physical? q)
    (hlogical : ∀ p, l.logical? p = l'.logical? p) (hfrozen : l.frozen = l'.frozen) : l = l' := by
  have hentries {xs ys : Array (Option Nat)} (hsize : xs.size = ys.size)
      (hget : ∀ i, xs.getD i none = ys.getD i none) : xs = ys := by
    refine Array.ext hsize fun i hx hy => ?_
    have := hget i
    rwa [Array.getD_eq_getD_getElem?, Array.getD_eq_getD_getElem?, Array.getElem?_eq_getElem hx,
      Array.getElem?_eq_getElem hy] at this
  cases l
  cases l'
  congr
  · exact hentries hl2p hphysical
  · exact hentries hp2l hlogical

/-- A second exchange of the same physical qubits takes the first one back. -/
theorem Consistent.exchange_exchange (hl : l.Consistent) {p q : Nat} (hp : p < l.numPhysical)
    (hq : q < l.numPhysical) : (l.exchange p q).exchange p q = l := by
  refine ext_places (by simp) (by simp) (fun k => ?_) (fun r => ?_) rfl
  · rw [(hl.exchange hp hq).physical?_exchange, hl.physical?_exchange, Option.map_map]
    cases l.physical? k <;> simp
  · rw [logical?_exchange (by simpa using hp) (by simpa using hq), logical?_exchange hp hq,
      Equiv.swap_apply_self]

end Extensionality

/-! ## Stores and calls -/

/-- A change of a layout in place. -/
inductive Change where
  | assign (logical physical : Nat)
  | swap (p q : Nat)
  | freeze
  deriving Repr, DecidableEq

/-- The layout after a change, unless the change is refused. -/
def Change.apply (l : Layout) : Change → Except Fault Layout
  | assign logical physical => l.assign logical physical
  | swap p q => l.swap p q
  | freeze => .ok l.freeze

namespace Change

variable {l l' : Layout}

theorem built_of_apply {c : Change} (hl : l.Built) (h : c.apply l = .ok l') : l'.Built := by
  cases c with
  | assign logical physical => exact hl.assign h
  | swap p q => exact hl.swap h
  | freeze =>
    cases h
    exact hl.freeze

/-- A frozen layout refuses every change but a second freeze, which leaves it as
it is. -/
theorem apply_frozen (hl : l.frozen = true) (c : Change) :
    c.apply l = if c = .freeze then .ok l else .error .frozen := by
  cases c with
  | assign logical physical => simp [apply, Layout.assign, hl]
  | swap p q => simp [apply, Layout.swap, hl]
  | freeze => rw [if_pos rfl, apply, Layout.freeze, ← hl]

end Change

/-- A call that creates a layout or changes the one with a given number. -/
inductive Call where
  | new (logical physical : Nat)
  | trivial (logical physical : Nat)
  | ofPhysicals (places : List Nat) (physical : Nat)
  | clone (source : Nat)
  | change (target : Nat) (c : Change)
  deriving Repr, DecidableEq

/-- The layout that a call changes. -/
def Call.target? : Call → Option Nat
  | change target _ => some target
  | _ => none

/-- All layouts of a run, in order of their creation. -/
abbrev Store := List Layout

namespace Store

/-- The store with one more layout, unless its creation fails. -/
def create (s : Store) : Except Fault Layout → Store × Option Fault
  | .ok l => (s ++ [l], none)
  | .error f => (s, some f)

/-- The store after the change of a layout, unless the change is refused. -/
def update (s : Store) (i : Nat) : Except Fault Layout → Store × Option Fault
  | .ok l => (s.set i l, none)
  | .error f => (s, some f)

/-- The store after a call, with the fault that stopped it.  A number without a
layout names nothing. -/
def perform (s : Store) : Call → Store × Option Fault
  | .new logical physical => s.create (Layout.new logical physical)
  | .trivial logical physical => s.create (Layout.trivial logical physical)
  | .ofPhysicals places physical => s.create (Layout.ofPhysicals places physical)
  | .clone source =>
    match s[source]? with
    | some l => s.create (.ok l.clone)
    | none => (s, none)
  | .change target c =>
    match s[target]? with
    | some l => s.update target (c.apply l)
    | none => (s, none)

/-- The store after calls, whether they fail or not. -/
def run (s : Store) (calls : List Call) : Store :=
  calls.foldl (fun s call => (s.perform call).1) s

variable {s : Store} {i : Nat} {l l' : Layout}

theorem perform_change (h : s[i]? = some l) (c : Change) :
    s.perform (.change i c) = s.update i (c.apply l) := by
  simp only [perform, h]

/-! ## One call -/

theorem create_cases (s : Store) (made : Except Fault Layout) :
    (s.create made).1 = s ∨ ∃ l, made = .ok l ∧ (s.create made).1 = s ++ [l] := by
  cases made with
  | error f => exact .inl rfl
  | ok l => exact .inr ⟨l, rfl, rfl⟩

/-- What a call can do: nothing, add a layout that can be built if those of the
store can, or put the outcome of a change in the place of a layout. -/
theorem perform_cases (s : Store) (call : Call) :
    (s.perform call).1 = s ∨
      (∃ l, ((∀ k ∈ s, k.Built) → l.Built) ∧ (s.perform call).1 = s ++ [l]) ∨
      ∃ i c l l', call = .change i c ∧ s[i]? = some l ∧ c.apply l = .ok l' ∧
        (s.perform call).1 = s.set i l' := by
  cases call with
  | new logical physical =>
    rcases create_cases s (Layout.new logical physical) with h | ⟨l, hl, h⟩
    · exact .inl h
    · exact .inr (.inl ⟨l, fun _ => .new hl, h⟩)
  | trivial logical physical =>
    rcases create_cases s (Layout.trivial logical physical) with h | ⟨l, hl, h⟩
    · exact .inl h
    · exact .inr (.inl ⟨l, fun _ => .trivial hl, h⟩)
  | ofPhysicals places physical =>
    rcases create_cases s (Layout.ofPhysicals places physical) with h | ⟨l, hl, h⟩
    · exact .inl h
    · exact .inr (.inl ⟨l, fun _ => .ofPhysicals hl, h⟩)
  | clone source =>
    cases hsource : s[source]? with
    | none => exact .inl (by simp only [perform, hsource])
    | some l =>
      refine .inr (.inl ⟨l.clone, fun hs => (hs l (List.mem_of_getElem? hsource)).clone, ?_⟩)
      simp only [perform, hsource, create]
  | change target c =>
    cases htarget : s[target]? with
    | none => exact .inl (by simp only [perform, htarget])
    | some l =>
      rw [perform_change htarget]
      cases happly : c.apply l with
      | error f => exact .inl rfl
      | ok l' => exact .inr (.inr ⟨target, c, l, l', rfl, htarget, happly, rfl⟩)

theorem perform_built (hs : ∀ l ∈ s, l.Built) (call : Call) :
    ∀ l ∈ (s.perform call).1, l.Built := by
  rcases perform_cases s call with h | ⟨l, hl, h⟩ | ⟨i, c, l, l', -, hi, happly, h⟩
  · rwa [h]
  · rw [h]
    simpa [or_imp, forall_and] using ⟨hs, hl hs⟩
  · rw [h]
    intro k hk
    rcases List.mem_or_eq_of_mem_set hk with hk | rfl
    · exact hs k hk
    · exact Change.built_of_apply (hs l (List.mem_of_getElem? hi)) happly

/-- A call leaves a layout alone unless it changes it. -/
theorem getElem?_perform (h : s[i]? = some l) (call : Call)
    (hcall : ∀ c l', call = .change i c → c.apply l = .ok l' → l' = l) :
    (s.perform call).1[i]? = some l := by
  have hi : i < s.length := (List.getElem?_eq_some_iff.mp h).1
  rcases perform_cases s call with hs | ⟨k, -, hs⟩ | ⟨j, c, k, k', rfl, hj, happly, hs⟩
  · rwa [hs]
  · rw [hs, List.getElem?_append_left hi, h]
  · rw [hs, List.getElem?_set]
    split_ifs with hji hlength
    · subst hji
      cases hj.symm.trans h
      rw [hcall c k' rfl happly]
    · subst hji
      exact absurd hi hlength
    · exact h

/-! ## Runs -/

/-- What every call of a run preserves holds after the run. -/
theorem run_keeps {P : Store → Prop} {calls : List Call}
    (hcalls : ∀ call ∈ calls, ∀ s, P s → P (s.perform call).1) (h : P s) : P (s.run calls) := by
  induction calls generalizing s with
  | nil => exact h
  | cons call rest ih =>
    obtain ⟨hcall, hrest⟩ := List.forall_mem_cons.mp hcalls
    exact ih hrest (hcall s h)

theorem run_built (hs : ∀ l ∈ s, l.Built) (calls : List Call) : ∀ l ∈ s.run calls, l.Built :=
  run_keeps (P := fun s => ∀ l ∈ s, l.Built) (fun call _ _ hs => perform_built hs call) hs

/-- No run changes a frozen layout. -/
theorem run_frozen (h : s[i]? = some l) (hl : l.frozen = true) (calls : List Call) :
    (s.run calls)[i]? = some l := by
  refine run_keeps (P := fun s => s[i]? = some l) (fun call _ s h => ?_) h
  refine getElem?_perform h call fun c l' _ happly => ?_
  rw [Change.apply_frozen hl] at happly
  split_ifs at happly
  exact (Except.ok.inj happly).symm

/-- Calls on other layouts do not change a layout. -/
theorem run_untouched (h : s[i]? = some l) {calls : List Call}
    (hcalls : ∀ call ∈ calls, call.target? ≠ some i) : (s.run calls)[i]? = some l := by
  refine run_keeps (P := fun s => s[i]? = some l) (fun call hcall s h => ?_) h
  refine getElem?_perform h call fun c l' heq _ => ?_
  exact absurd (heq ▸ rfl) (hcalls call hcall)

/-! ## What can be relied on -/

/-- What can be relied on for the layout with a given number, whatever is
called. -/
structure Reliable (s : Store) (i : Nat) (l : Layout) : Prop where
  /-- Both directions agree. -/
  agree : ∀ q p, l.physical? q = some p ↔ l.logical? p = some q
  /-- Qubits with a place are within bounds, and so are their places. -/
  inRange : ∀ q p, l.physical? q = some p → q < l.numLogical ∧ p < l.numPhysical
  /-- No two logical qubits are on the same physical one. -/
  injective : ∀ q q' p, l.physical? q = some p → l.physical? q' = some p → q = q'
  /-- An assignment that fails changes nothing. -/
  assign_error : ∀ q p f, l.assign q p = .error f →
    s.perform (.change i (.assign q p)) = (s, some f)
  /-- Unless it is frozen, free qubits can be assigned. -/
  assign_ok : l.frozen = false → ∀ q p, q < l.numLogical → p < l.numPhysical →
    l.physical? q = none → l.logical? p = none →
    ∃ l', s.perform (.change i (.assign q p)) = (s.set i l', none) ∧
      ∀ k, l'.physical? k = if k = q then some p else l.physical? k
  /-- Unless it is frozen, any two physical qubits can be swapped.  The same
  logical qubits have places afterwards, and a second swap takes it back. -/
  swap_ok : l.frozen = false → ∀ p q, p < l.numPhysical → q < l.numPhysical →
    ∃ l', s.perform (.change i (.swap p q)) = (s.set i l', none) ∧
      (∀ k, l'.physical? k = (l.physical? k).map (Equiv.swap p q)) ∧
      (∀ k, (l'.physical? k).isSome = (l.physical? k).isSome) ∧
      perform (s.set i l') (.change i (.swap p q)) = (s, none)
  /-- Once it is frozen it never changes, and changes are refused. -/
  frozen : l.frozen = true → ∀ calls, (s.run calls)[i]? = some l ∧
    (∀ q p, (s.run calls).perform (.change i (.assign q p)) = (s.run calls, some .frozen)) ∧
    ∀ p q, (s.run calls).perform (.change i (.swap p q)) = (s.run calls, some .frozen)
  /-- A clone has the same contents and can be changed. -/
  clone_ok : ∃ copy, s.perform (.clone i) = (s ++ [copy], none) ∧ copy.l2p = l.l2p ∧
    copy.p2l = l.p2l ∧ copy.frozen = false
  /-- Only changes of the layout itself change it: those of its clones and of
  the layout that it was cloned from do not. -/
  independent : ∀ calls : List Call, (∀ call ∈ calls, call.target? ≠ some i) →
    (s.run calls)[i]? = some l

theorem perform_assign (h : s[i]? = some l) (hfrozen : l.frozen = false) {q p : Nat}
    (hq : q < l.numLogical) (hp : p < l.numPhysical) (hfree : l.physical? q = none)
    (hempty : l.logical? p = none) :
    s.perform (.change i (.assign q p)) = (s.set i (l.place q p), none) := by
  have happly : l.assign q p = .ok (l.place q p) := by
    rw [assign, if_neg (by simp [hfrozen]), if_neg (by omega), if_neg (by omega), hfree, hempty]
  rw [perform_change h, Change.apply, happly, update]

theorem perform_swap (h : s[i]? = some l) (hfrozen : l.frozen = false) {p q : Nat}
    (hp : p < l.numPhysical) (hq : q < l.numPhysical) :
    s.perform (.change i (.swap p q)) = (s.set i (l.exchange p q), none) := by
  have happly : l.swap p q = .ok (l.exchange p q) := by
    rw [swap, if_neg (by simp [hfrozen]), if_neg (by simp [hp, hq])]
  rw [perform_change h, Change.apply, happly, update]

theorem perform_frozen (h : s[i]? = some l) (hfrozen : l.frozen = true) {c : Change}
    (hc : c ≠ .freeze) : s.perform (.change i c) = (s, some .frozen) := by
  rw [perform_change h, Change.apply_frozen hfrozen, if_neg hc, update]

/-- Two swaps of the same physical qubits leave the store as it was. -/
theorem perform_swap_swap (hl : l.Consistent) (h : s[i]? = some l) (hfrozen : l.frozen = false)
    {p q : Nat} (hp : p < l.numPhysical) (hq : q < l.numPhysical) :
    perform (s.set i (l.exchange p q)) (.change i (.swap p q)) = (s, none) := by
  obtain ⟨hi, hget⟩ := List.getElem?_eq_some_iff.mp h
  have hset : s.set i l = s := by rw [← hget, List.set_getElem_self]
  have h' : (s.set i (l.exchange p q))[i]? = some (l.exchange p q) := by
    rw [List.getElem?_set_self hi]
  rw [perform_swap h' hfrozen (by simpa using hp) (by simpa using hq), hl.exchange_exchange hp hq,
    List.set_set, hset]

/-- At all times of every run of calls, every layout can be relied on. -/
theorem run_reliable (calls : List Call) (i : Nat) (l : Layout)
    (h : (run [] calls)[i]? = some l) : Reliable (run [] calls) i l := by
  have hl : l.Consistent := (run_built (by simp) calls l (List.mem_of_getElem? h)).consistent
  exact
    { agree := hl
      inRange := fun q p hqp => ⟨lt_numLogical hqp, hl.physical_lt hqp⟩
      injective := fun q q' p hq hq' => hl.injective hq hq'
      assign_error := fun q p f hf => by rw [perform_change h, Change.apply, hf, update]
      assign_ok := fun hfrozen q p hq hp hfree hempty =>
        ⟨_, perform_assign h hfrozen hq hp hfree hempty, physical?_place hq⟩
      swap_ok := fun hfrozen p q hp hq =>
        ⟨_, perform_swap h hfrozen hp hq, hl.physical?_exchange,
          fun k => by rw [hl.physical?_exchange, Option.isSome_map],
          perform_swap_swap hl h hfrozen hp hq⟩
      frozen := fun hfrozen more =>
        have hmore := run_frozen h hfrozen more
        ⟨hmore, fun _ _ => perform_frozen hmore hfrozen (by simp),
          fun _ _ => perform_frozen hmore hfrozen (by simp)⟩
      clone_ok := ⟨l.clone, by simp only [perform, h, create], rfl, rfl, rfl⟩
      independent := fun _ hcalls => run_untouched h hcalls }

/-- A layout that is swapped with a free qubit, cloned and frozen, after which
its clone is changed and its own changes fail. -/
def clonedRun : List Call :=
  [.trivial 2 3, .change 0 (.swap 1 2), .change 0 (.assign 1 1), .clone 0, .change 0 .freeze,
    .change 1 (.swap 0 1), .change 0 (.swap 0 1)]

theorem reliable_clonedRun :
    (run [] clonedRun)[0]? = some ⟨#[some 0, some 2], #[some 0, none, some 1], true⟩ ∧
      (run [] clonedRun)[1]? = some ⟨#[some 1, some 2], #[none, some 0, some 1], false⟩ ∧
      Reliable (run [] clonedRun) 0 ⟨#[some 0, some 2], #[some 0, none, some 1], true⟩ ∧
      Reliable (run [] clonedRun) 1 ⟨#[some 1, some 2], #[none, some 0, some 1], false⟩ := by
  have hfrozen : (run [] clonedRun)[0]? =
      some ⟨#[some 0, some 2], #[some 0, none, some 1], true⟩ := by decide
  have hcopy : (run [] clonedRun)[1]? =
      some ⟨#[some 1, some 2], #[none, some 0, some 1], false⟩ := by decide
  exact ⟨hfrozen, hcopy, run_reliable _ _ _ hfrozen, run_reliable _ _ _ hcopy⟩

end Store

end QuantumCompiler.Layout
