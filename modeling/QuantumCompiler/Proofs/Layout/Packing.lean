import Mathlib.Data.List.GetD
import Mathlib.Data.List.Perm.Basic
import QuantumCompiler.Layout.Packing

/-!
# Packing finds a region for each group whenever there is one

`Fits` says that each group in turn finds room in its region.  What `pack`
returns fits (`pack_fits`), and it returns something whenever anything fits
(`exists_pack`).

The exhaustive search only tries the first of several regions with the same
room.  Nothing is lost, because whether groups fit depends on the room of the
regions up to their order (`Fits.exists_of_perm`).
-/

namespace QuantumCompiler

section FirstBest

variable {β : Type} {f : β → Nat} {xs : List β} {x : β}

theorem mem_of_firstMin? (h : firstMin? f xs = some x) : x ∈ xs := by
  induction xs generalizing x with
  | nil => simp [firstMin?] at h
  | cons y rest ih => cases hrest : firstMin? f rest <;> grind [firstMin?]

theorem mem_of_firstMax? (h : firstMax? f xs = some x) : x ∈ xs := by
  induction xs generalizing x with
  | nil => simp [firstMax?] at h
  | cons y rest ih => cases hrest : firstMax? f rest <;> grind [firstMax?]

end FirstBest

namespace Packing

/-- Each group in turn finds room in the region that is its target. -/
inductive Fits : List Nat → List Nat → List Nat → Prop
  | nil (free : List Nat) : Fits free [] []
  | cons {free rest targets : List Nat} {size j : Nat} (hj : j < free.length)
      (hroom : size ≤ free.getD j 0) (tail : Fits (fill free j size) rest targets) :
      Fits free (size :: rest) (j :: targets)

variable {free sizes targets : List Nat} {size j : Nat}

@[simp] theorem length_fill : (fill free j size).length = free.length := by simp [fill]

theorem getD_fill (free : List Nat) (j size i : Nat) :
    (fill free j size).getD i 0 = if i = j then free.getD j 0 - size else free.getD i 0 := by
  rw [fill, List.getD_eq_getElem?_getD, List.getElem?_modify, List.getD_eq_getElem?_getD,
    List.getD_eq_getElem?_getD]
  by_cases hij : i = j
  · subst hij
    cases free[i]? <;> simp
  · simp [hij, Ne.symm hij]

theorem mem_fitting : j ∈ fitting free size ↔ j < free.length ∧ size ≤ free.getD j 0 := by
  simp [fitting]

/-! ## What is found fits -/

theorem bestFit_fits (h : bestFit free sizes = some targets) : Fits free sizes targets := by
  induction sizes generalizing free targets with
  | nil =>
    cases h
    exact .nil free
  | cons size rest ih =>
    rw [bestFit] at h
    split at h
    · cases h
    · next j hj =>
      obtain ⟨ts, hts, rfl⟩ := Option.map_eq_some_iff.mp h
      obtain ⟨hlt, hroom⟩ := mem_fitting.mp (mem_of_firstMin? hj)
      exact .cons hlt hroom (ih hts)

theorem exhaustive_fits (h : exhaustive free sizes = some targets) : Fits free sizes targets := by
  induction sizes generalizing free targets with
  | nil =>
    cases h
    exact .nil free
  | cons size rest ih =>
    rw [exhaustive] at h
    obtain ⟨j, hj, hmap⟩ := List.exists_of_findSome?_eq_some h
    obtain ⟨ts, hts, rfl⟩ := Option.map_eq_some_iff.mp hmap
    obtain ⟨hlt, hroom⟩ := mem_fitting.mp (List.mem_filter.mp hj).1
    exact .cons hlt hroom (ih hts)

theorem pack_fits (h : pack free sizes = some targets) : Fits free sizes targets := by
  rw [pack] at h
  cases hbest : bestFit free sizes with
  | none =>
    rw [hbest] at h
    exact exhaustive_fits h
  | some ts =>
    rw [hbest] at h
    cases h
    exact bestFit_fits hbest

/-! ## What fits is found -/

theorem fill_perm (hj : j < free.length) :
    (fill free j size).Perm ((free[j] - size) :: free.eraseIdx j) := by
  rw [fill, List.modify_eq_take_cons_drop hj, List.eraseIdx_eq_take_drop_succ]
  exact List.perm_middle

/-- Regions with the same room are interchangeable. -/
theorem fill_perm_fill {free' : List Nat} {j' : Nat} (hperm : free.Perm free')
    (hj : j < free.length) (hj' : j' < free'.length) (heq : free'[j'] = free[j]) :
    (fill free j size).Perm (fill free' j' size) := by
  have hfree : (free[j] :: free.eraseIdx j).Perm free := List.getElem_cons_eraseIdx_perm hj
  have hfree' : (free[j] :: free'.eraseIdx j').Perm free' :=
    heq ▸ List.getElem_cons_eraseIdx_perm hj'
  have hrest : (free.eraseIdx j).Perm (free'.eraseIdx j') :=
    List.Perm.cons_inv (hfree.trans (hperm.trans hfree'.symm))
  refine (fill_perm hj).trans (.trans ?_ (fill_perm hj').symm)
  rw [heq]
  exact hrest.cons _

/-- Whether groups fit depends on the room of the regions up to their order. -/
theorem Fits.exists_of_perm (h : Fits free sizes targets) {free' : List Nat}
    (hperm : free.Perm free') : ∃ targets', Fits free' sizes targets' := by
  induction h generalizing free' with
  | nil => exact ⟨[], .nil free'⟩
  | @cons free rest targets size j hj hroom _ ih =>
    obtain ⟨j', hj', heq⟩ := List.getElem_of_mem (hperm.mem_iff.mp (List.getElem_mem hj))
    obtain ⟨targets', htail⟩ := ih (fill_perm_fill hperm hj hj' heq)
    refine ⟨j' :: targets', .cons hj' ?_ htail⟩
    rw [List.getD_eq_getElem _ _ hj] at hroom
    rw [List.getD_eq_getElem _ _ hj', heq]
    exact hroom

theorem exists_exhaustive (h : Fits free sizes targets) :
    ∃ ts, exhaustive free sizes = some ts := by
  induction sizes generalizing free targets with
  | nil => exact ⟨[], rfl⟩
  | cons size rest ih =>
    cases h with
    | @cons _ _ targets _ j hj hroom tail =>
      rw [List.getD_eq_getElem _ _ hj] at hroom
      -- The first region with the same room takes the place of the target.
      have hmem := List.getElem_mem hj
      have hfirst : free.idxOf free[j] < free.length := List.idxOf_lt_length_of_mem hmem
      have hsame : free[free.idxOf free[j]] = free[j] := List.getElem_idxOf hfirst
      obtain ⟨ts', htail⟩ := tail.exists_of_perm (fill_perm_fill (.refl free) hj hfirst hsame)
      obtain ⟨ts, hts⟩ := ih htail
      have htried : free.idxOf free[j] ∈ distinctFitting free size := by
        refine List.mem_filter.mpr ⟨mem_fitting.mpr ⟨hfirst, ?_⟩, ?_⟩
        · rw [List.getD_eq_getElem _ _ hfirst, hsame]
          exact hroom
        · have hnew : free[j] ∉ free.take (free.idxOf free[j]) := by
            rw [List.mem_take_iff_idxOf_lt hmem]
            omega
          rw [List.getD_eq_getElem _ _ hfirst, hsame]
          simpa using hnew
      rw [exhaustive]
      refine Option.isSome_iff_exists.mp (List.findSome?_isSome_iff.mpr ⟨_, htried, ?_⟩)
      rw [hts]
      rfl

theorem exists_pack (h : Fits free sizes targets) : ∃ ts, pack free sizes = some ts := by
  obtain ⟨ts, hts⟩ := exists_exhaustive h
  rw [pack, hts]
  cases bestFit free sizes with
  | none => exact ⟨ts, rfl⟩
  | some ts' => exact ⟨ts', rfl⟩

theorem length_flatten {β : Type} (xss : List (List β)) :
    xss.flatten.length = sumOf List.length xss := by
  induction xss with
  | nil => rfl
  | cons xs rest ih => rw [List.flatten_cons, List.length_append, ih, sumOf]

/-- Groups fit as soon as no region is given more than it has room for. -/
theorem fits_of_sum_le {ι : Type} {groups : List ι} {size target : ι → Nat}
    (hlt : ∀ x ∈ groups, target x < free.length)
    (hroom : ∀ j, sumOf size (groups.filter (target · == j)) ≤ free.getD j 0) :
    Fits free (groups.map size) (groups.map target) := by
  induction groups generalizing free with
  | nil => exact .nil free
  | cons x rest ih =>
    refine .cons (hlt x List.mem_cons_self) ?_ (ih (fun y hy => ?_) fun j => ?_)
    · have := hroom (target x)
      simp only [List.filter_cons, beq_self_eq_true, if_true, sumOf] at this
      omega
    · rw [length_fill]
      exact hlt y (List.mem_cons_of_mem _ hy)
    · have hj := hroom j
      rw [getD_fill]
      by_cases hx : j = target x
      · subst hx
        simp only [List.filter_cons, beq_self_eq_true, if_true, sumOf] at hj
        rw [if_pos rfl]
        omega
      · rw [if_neg hx]
        simpa [List.filter_cons, Ne.symm hx] using hj

end Packing

end QuantumCompiler
