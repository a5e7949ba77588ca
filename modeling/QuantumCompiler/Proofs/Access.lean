/-!
# Checked accesses

Tables are read with a default beyond their end and written only within it, so
an index out of range would not be noticed.  The namespace `Checked` repeats
what reads and writes tables with every access checked: the result is `none` if
an index is out of range.

`mapM_eq`, `traverse_eq` and `foldlM_eq` are how a checked step is lifted to a
list.  If every single step gives what the unchecked one gives, as long as an
invariant holds, so does the whole run.
-/

namespace QuantumCompiler.Checked

variable {β γ σ : Type}

/-- Writes an entry of a table. -/
def write (xs : Array β) (i : Nat) (v : β) : Option (Array β) :=
  if i < xs.size then some (xs.setIfInBounds i v) else none

/-- Changes an entry of a table. -/
def update (xs : Array β) (i : Nat) (f : β → β) : Option (Array β) :=
  if i < xs.size then some (xs.modify i f) else none

/-- Maps a list by steps that may fail.  The first failure ends it. -/
def traverse {ε : Type} (f : β → Option (Except ε γ)) : List β → Option (Except ε (List γ))
  | [] => some (.ok [])
  | x :: rest => do
    match ← f x with
    | .error e => some (.error e)
    | .ok y => (traverse f rest).map fun ys => ys.map (y :: ·)

theorem getElem?_eq_some_getD {xs : Array β} {i : Nat} (hi : i < xs.size) (v : β) :
    xs[i]? = some (xs.getD i v) := by
  simp [hi]

theorem getElem?_list_eq {xs : List β} {i : Nat} (hi : i < xs.length) (v : β) :
    xs[i]? = some (xs.getD i v) := by
  simp [hi]

theorem write_eq {xs : Array β} {i : Nat} (hi : i < xs.size) (v : β) :
    write xs i v = some (xs.setIfInBounds i v) := if_pos hi

theorem update_eq {xs : Array β} {i : Nat} (hi : i < xs.size) (f : β → β) :
    update xs i f = some (xs.modify i f) := if_pos hi

theorem mapM_eq {f : β → Option γ} {g : β → γ} {xs : List β} (h : ∀ x ∈ xs, f x = some (g x)) :
    xs.mapM f = some (xs.map g) := by
  induction xs with
  | nil => rfl
  | cons x rest ih =>
    rw [List.mapM_cons, h x List.mem_cons_self, ih fun y hy => h y (List.mem_cons_of_mem _ hy)]
    rfl

/-- Entries that exist are all found. -/
theorem mapM_getElem?_eq {xs : List β} {indices : List Nat}
    (h : ∀ i ∈ indices, i < xs.length) :
    indices.mapM (xs[·]?) = some (indices.filterMap (xs.toArray[·]?)) := by
  induction indices with
  | nil => rfl
  | cons i rest ih =>
    obtain ⟨hi, hrest⟩ := List.forall_mem_cons.mp h
    rw [List.mapM_cons, ih hrest, List.getElem?_eq_getElem hi]
    simp [hi]

theorem traverse_eq {ε : Type} {f : β → Option (Except ε γ)} {g : β → Except ε γ} {xs : List β}
    (h : ∀ x ∈ xs, f x = some (g x)) : traverse f xs = some (xs.mapM g) := by
  induction xs with
  | nil => rfl
  | cons x rest ih =>
    rw [traverse, List.mapM_cons, h x List.mem_cons_self,
      ih fun y hy => h y (List.mem_cons_of_mem _ hy)]
    cases g x with
    | error e => rfl
    | ok y => cases rest.mapM g <;> rfl

theorem foldlM_eq {P : σ → Prop} {f : σ → β → Option σ} {g : σ → β → σ} {xs : List β}
    (hstep : ∀ s, P s → ∀ x ∈ xs, f s x = some (g s x) ∧ P (g s x)) {s : σ} (hs : P s) :
    xs.foldlM f s = some (xs.foldl g s) ∧ P (xs.foldl g s) := by
  induction xs generalizing s with
  | nil => exact ⟨rfl, hs⟩
  | cons x rest ih =>
    obtain ⟨hx, hP⟩ := hstep s hs x List.mem_cons_self
    rw [List.foldlM_cons, List.foldl_cons, hx]
    exact ih (fun s hs y hy => hstep s hs y (List.mem_cons_of_mem _ hy)) hP

/-- Steps that need no invariant. -/
theorem foldlM_eq_of_forall {f : σ → β → Option σ} {g : σ → β → σ} {xs : List β}
    (hstep : ∀ s, ∀ x ∈ xs, f s x = some (g s x)) (s : σ) :
    xs.foldlM f s = some (xs.foldl g s) :=
  (foldlM_eq (P := fun _ => True) (fun s _ x hx => ⟨hstep s x hx, trivial⟩) trivial).1

end QuantumCompiler.Checked
