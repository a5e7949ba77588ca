import QuantumCompiler.Proofs.Json.Literal
import QuantumCompiler.Proofs.Numeric.Finite

/-!
# Decoders

Two kinds of facts about decoders.

* A decoder gives back what was encoded, whatever was known before: numbers
  (`decodeNat_ofNat`), lists (`decodeList_map`) and records, member by member
  (`decodeMembers_cons`).  What a list leaves behind its end depends on what was known,
  so `Reads` looks at a value that is being read through a view.
* A property of records that every field keeps holds of whatever is decoded
  (`decodeRecord_induct`), and so does one of the items of a list and of what they leave
  behind (`decodeList_forall`).  Natural numbers are below `2 ^ 64` and floating point
  numbers are finite.
-/

namespace QuantumCompiler.Json

namespace Slots

variable {β : Type} {s : Slots β} {x : β}

theorem mem_all_iff : x ∈ s.all ↔ x ∈ s.items ∨ x ∈ s.spare := List.mem_append

theorem not_mem_all_empty : x ∉ ({} : Slots β).all := List.not_mem_nil

end Slots

section Encoded

variable {σ β γ : Type}

/-- Whatever was known before, the JSON value is read as something with the given view. -/
def Reads (decoder : Decoder β) (view : β → γ) (v : Json) (x : γ) : Prop :=
  ∀ old, ∃ b, decoder old v = some b ∧ view b = x

theorem decodeNat_ofNat {n : Nat} (hn : n < Nat.pow 2 64) (old : Nat) :
    decodeNat old (ofNat n) = some n := literalNat?_natText hn

theorem decodeItems_map {fresh : β} {item : Decoder β} {view : β → γ} {encode : γ → Json}
    {xs : List γ} (h : ∀ x ∈ xs, Reads item view (encode x) x) (old : List β) :
    ∃ ys, decodeItems fresh item old (xs.map encode) = some ys ∧ ys.map view = xs := by
  induction xs generalizing old with
  | nil => exact ⟨[], rfl, rfl⟩
  | cons x xs ih =>
    obtain ⟨hx, hxs⟩ := List.forall_mem_cons.mp h
    obtain ⟨y, hy, rfl⟩ := hx (old.headD fresh)
    obtain ⟨ys, hys, hview⟩ := ih hxs old.tail
    refine ⟨y :: ys, ?_, by rw [List.map_cons, hview]⟩
    simp only [List.map_cons, decodeItems, hy, hys]
    rfl

theorem decodeList_map {item : Decoder β} {view : β → γ} {encode : γ → Json} {xs : List γ}
    (h : ∀ x ∈ xs, Reads item view (encode x) x) (fresh : β) :
    Reads (decodeList fresh item) (·.items.map view) (array (xs.map encode)) xs := by
  intro old
  cases xs with
  | nil => exact ⟨{}, rfl, rfl⟩
  | cons x xs =>
    obtain ⟨ys, hys, hview⟩ := decodeItems_map h old.all
    refine ⟨⟨ys, old.all.drop ys.length⟩, ?_, hview⟩
    rw [List.map_cons] at hys ⊢
    rw [decodeList, hys]
    rfl

/-- Items that hold no lists are read as they are. -/
theorem decodeList_plain {item : Decoder β} {encode : β → Json} {xs : List β}
    (h : ∀ x ∈ xs, ∀ old, item old (encode x) = some x) (fresh : β) :
    Reads (decodeList fresh item) Slots.items (array (xs.map encode)) xs := by
  have hreads : ∀ x ∈ xs, Reads item id (encode x) x := fun x hx old => ⟨x, h x hx old, rfl⟩
  simpa only [List.map_id] using decodeList_map hreads fresh

theorem decodeList_ofNats {ns : List Nat} (h : ∀ n ∈ ns, n < Nat.pow 2 64) (fresh : Nat) :
    Reads (decodeList fresh decodeNat) Slots.items (ofNats ns) ns :=
  decodeList_plain (fun n hn => decodeNat_ofNat (h n hn)) fresh

theorem field_update {key : String} {decoder : Decoder β} {get : σ → β} {set : β → σ → σ}
    {s : σ} {v : Json} {b : β} (h : decoder (get s) v = some b) :
    (field key decoder get set).update s v = some (set b s) := by
  simp only [field, h, Option.map_some]

/-- A member changes the record through the field that its key finds. -/
theorem decodeMembers_cons {fields : List (Field σ)} {f : Field σ} {key : String}
    (hfind : fields.find? (sameKey ·.key key) = some f) {s s' : σ} {v : Json}
    (hupdate : f.update s v = some s') (rest : List (String × Json)) :
    decodeMembers fields s ((key, v) :: rest) = decodeMembers fields s' rest := by
  rw [decodeMembers, hfind]
  simp only [hupdate]

end Encoded

section Decoded

variable {σ β : Type}

theorem lt_of_literalNat? {literal : String} {n : Nat} (h : literalNat? literal = some n) :
    n < Nat.pow 2 64 := by
  simp only [literalNat?] at h
  split_ifs at h with hcond
  cases h
  simp only [Bool.and_eq_true, decide_eq_true_eq] at hcond
  exact hcond.2

theorem decodeNat_lt {old n : Nat} {v : Json} (hold : old < Nat.pow 2 64)
    (h : decodeNat old v = some n) : n < Nat.pow 2 64 := by
  cases v with
  | null => cases h; exact hold
  | number literal => exact lt_of_literalNat? h
  | _ => cases h

theorem decodeFloat_isFinite {old x : Float} {v : Json} (hold : Binary64.isFinite old = true)
    (h : decodeFloat old v = some x) : Binary64.isFinite x = true := by
  cases v with
  | null => cases h; exact hold
  | number literal => exact Decimal.isFinite_of_read h
  | _ => cases h

theorem decodeItems_forall {P : β → Prop} {fresh : β} {item : Decoder β} (hfresh : P fresh)
    (hitem : ∀ old v x, P old → item old v = some x → P x) {old xs : List β} {vs : List Json}
    (hold : ∀ x ∈ old, P x) (h : decodeItems fresh item old vs = some xs) : ∀ x ∈ xs, P x := by
  induction vs generalizing old xs with
  | nil =>
    cases h
    simp
  | cons v vs ih =>
    simp only [decodeItems, Option.bind_eq_bind, Option.bind_eq_some_iff] at h
    obtain ⟨x, hx, rest, hrest, hxs⟩ := h
    cases hxs
    have hhead : P (old.headD fresh) := by
      cases old with
      | nil => exact hfresh
      | cons y ys => exact hold y List.mem_cons_self
    refine List.forall_mem_cons.mpr ⟨hitem _ v x hhead hx, ih ?_ hrest⟩
    exact fun y hy => hold y (List.mem_of_mem_tail hy)

theorem decodeList_forall {P : β → Prop} {fresh : β} {item : Decoder β} (hfresh : P fresh)
    (hitem : ∀ old v x, P old → item old v = some x → P x) {old new : Slots β} {v : Json}
    (hold : ∀ x ∈ old.all, P x) (h : decodeList fresh item old v = some new) :
    ∀ x ∈ new.all, P x := by
  have hempty : ∀ x ∈ ({} : Slots β).all, P x := fun x hx =>
    absurd hx Slots.not_mem_all_empty
  cases v with
  | null =>
    cases h
    exact hempty
  | array vs =>
    cases vs with
    | nil =>
      cases h
      exact hempty
    | cons v vs =>
      rw [decodeList, Option.bind_eq_bind, Option.bind_eq_some_iff] at h
      obtain ⟨items, hitems, hnew⟩ := h
      cases hnew
      intro x hx
      rcases Slots.mem_all_iff.mp hx with hx | hx
      · exact decodeItems_forall hfresh hitem hold hitems x hx
      · exact hold x (List.mem_of_mem_drop hx)
  | _ => cases h

theorem decodeMembers_induct {P : σ → Prop} {fields : List (Field σ)}
    (hfields : ∀ f ∈ fields, ∀ s v s', P s → f.update s v = some s' → P s') {s s' : σ}
    {ms : List (String × Json)} (hs : P s) (h : decodeMembers fields s ms = some s') : P s' := by
  induction ms generalizing s with
  | nil =>
    cases h
    exact hs
  | cons m ms ih =>
    rw [decodeMembers] at h
    cases hfind : fields.find? (sameKey ·.key m.1) with
    | none =>
      rw [hfind] at h
      exact ih hs h
    | some f =>
      simp only [hfind] at h
      cases hupdate : f.update s m.2 with
      | none =>
        rw [hupdate] at h
        cases h
      | some t =>
        rw [hupdate] at h
        exact ih (hfields f (List.mem_of_find?_eq_some hfind) s m.2 t hs hupdate) h

theorem decodeRecord_induct {P : σ → Prop} {fields : List (Field σ)}
    (hfields : ∀ f ∈ fields, ∀ s v s', P s → f.update s v = some s' → P s') {s s' : σ} {v : Json}
    (hs : P s) (h : decodeRecord fields s v = some s') : P s' := by
  cases v with
  | null =>
    cases h
    exact hs
  | object ms => exact decodeMembers_induct hfields hs h
  | _ => cases h

end Decoded

end QuantumCompiler.Json
