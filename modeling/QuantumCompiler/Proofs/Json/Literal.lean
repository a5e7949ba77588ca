import Mathlib.Data.List.Basic
import QuantumCompiler.Json.Decode
import QuantumCompiler.Json.Reader

/-!
# Number literals

`Json.Literal` is the grammar of number literals.

* `numberLiteral_append`: a literal is read to its end, unless what follows could
  go on with it.
* `literal_text`: the text of a finite floating point number is a literal in every
  style.  No zero is put in front of a digit because the digits of a number other
  than zero do not start with one (`Decimal.normal_shortest`).
* `literalNat?_natText`: the text of a natural number is read back.
-/

namespace QuantumCompiler

/-! ## Shortest digits -/

namespace Decimal

/-- The digits do not start with zeros: they are not zero, or they are a single zero
in front of the point. -/
def Digits.Normal (digits : Digits) : Prop := digits.value ≠ 0 ∨ digits.exponent = 0

theorem gridHit_ne_zero {mantissa low unitNum unitDen hit : Nat} (hlow : 0 < low)
    (hunit : 0 < unitNum) (h : gridHit mantissa low unitNum unitDen = some hit) : hit ≠ 0 := by
  have hlower : 0 < low * unitNum := Nat.mul_pos hlow hunit
  simp only [gridHit] at h
  generalize 4 * mantissa * unitNum / unitDen = below at h
  -- zero is not inside the interval
  have hbelow (hinside : (if (mantissa % 2 == 0) = true then
      decide (low * unitNum ≤ below * unitDen) &&
      decide (below * unitDen ≤ (4 * mantissa + 2) * unitNum)
      else decide (low * unitNum < below * unitDen) &&
        decide (below * unitDen < (4 * mantissa + 2) * unitNum)) =
        true) : below ≠ 0 := by
    rintro rfl
    simp only [Nat.zero_mul] at hinside
    split_ifs at hinside <;> rw [Bool.and_eq_true, decide_eq_true_eq] at hinside <;> omega
  split at h
  · next hinside _ =>
    have := hbelow hinside
    split_ifs at h <;> cases h <;> omega
  · next hinside _ =>
    cases h
    exact hbelow hinside
  · next =>
    cases h
    exact Nat.succ_ne_zero below
  · cases h

theorem dropZeros_ne_zero {fuel n : Nat} (hn : n ≠ 0) : dropZeros fuel n ≠ 0 := by
  induction fuel generalizing n with
  | zero => exact hn
  | succ fuel ih =>
    rw [dropZeros]
    split_ifs with hdivides
    · simp only [Bool.and_eq_true, bne_iff_ne, beq_iff_eq] at hdivides
      exact ih (by omega)
    · exact hn

theorem scale_num_pos {num den : Nat} (h : 0 < num) (e : Int) : 0 < (scale num den e).1 := by
  cases e with
  | ofNat e => exact Nat.mul_pos h (Nat.pow_pos (by decide))
  | negSucc e => exact h

theorem normal_shortestFrom {mantissa low unitNum unitDen : Nat} (hlow : 0 < low)
    (hunit : 0 < unitNum) (exponent : Int) (fuel digits : Nat) :
    (shortestFrom mantissa low unitNum unitDen exponent fuel digits).Normal := by
  induction fuel generalizing digits with
  | zero => exact .inr rfl
  | succ fuel ih =>
    rw [shortestFrom]
    have hpos : 0 < (scale unitNum unitDen ((digits : Int) - 1 - exponent)).1 :=
      scale_num_pos hunit _
    generalize scale unitNum unitDen ((digits : Int) - 1 - exponent) = scaled at hpos
    cases hhit : gridHit mantissa low scaled.1 scaled.2 with
    | none => simpa only [hhit] using ih (digits + 1)
    | some hit =>
      have hne := gridHit_ne_zero hlow hpos hhit
      simp only [hhit]
      split_ifs
      · exact .inl Nat.one_ne_zero
      · exact .inl (dropZeros_ne_zero hne)

theorem normal_shortest {mantissa : Nat} (h : mantissa ≠ 0) (exponent : Int) :
    (shortest mantissa exponent).Normal := by
  rw [shortest]
  refine normal_shortestFrom ?_ ?_ _ _ _
  · split_ifs <;> omega
  · split
    · exact Nat.pow_pos (by decide)
    · exact Nat.one_pos

end Decimal

namespace Json

/-! ## The grammar -/

/-- A list of characters does not start with one of a class. -/
def Stops (p : Char → Bool) (cs : List Char) : Prop := ∀ c ∈ cs.head?, p c = false

/-- Digits, of which there is at least one. -/
structure IsDigits (ds : List Char) : Prop where
  ne_nil : ds ≠ []
  all : ∀ c ∈ ds, isDigit c = true

/-- An integer part. -/
inductive Whole : List Char → Prop where
  | zero : Whole ['0']
  | digits {ds : List Char} : IsDigits ds → ds.head? ≠ some '0' → Whole ds

inductive Fraction : List Char → Prop where
  | none : Fraction []
  | digits {ds : List Char} : IsDigits ds → Fraction ('.' :: ds)

inductive Exponent : List Char → Prop where
  | none : Exponent []
  | unsigned {mark : Char} {ds : List Char} :
      mark = 'e' ∨ mark = 'E' → IsDigits ds → Exponent (mark :: ds)
  | signed {mark sign : Char} {ds : List Char} :
      mark = 'e' ∨ mark = 'E' → sign = '+' ∨ sign = '-' → IsDigits ds →
      Exponent (mark :: sign :: ds)

/-- A literal without a sign. -/
inductive Unsigned : List Char → Prop where
  | mk {whole fraction exponent : List Char} :
      Whole whole → Fraction fraction → Exponent exponent →
      Unsigned (whole ++ fraction ++ exponent)

/-- A number literal. -/
inductive Literal : List Char → Prop where
  | unsigned {cs : List Char} : Unsigned cs → Literal cs
  | negative {cs : List Char} : Unsigned cs → Literal ('-' :: cs)

/-! ## Reading literals -/

/-- The characters that can go on with a literal. -/
def isNumeral (c : Char) : Bool := isDigit c || c == '.' || c == 'e' || c == 'E'

namespace Stops

variable {p q : Char → Bool} {cs rest : List Char}

theorem mono (h : Stops p cs) (hq : ∀ c, q c = true → p c = true) : Stops q cs := by
  intro c hc
  cases hqc : q c with
  | false => rfl
  | true => rw [← h c hc, hq c hqc]

theorem takeWhile_eq_nil (h : Stops p cs) : cs.takeWhile p = [] := by
  cases cs with
  | nil => rfl
  | cons c rest => rw [List.takeWhile_cons_of_neg (by simp [h c rfl])]

theorem dropWhile_eq_self (h : Stops p cs) : cs.dropWhile p = cs := by
  cases cs with
  | nil => rfl
  | cons c rest => rw [List.dropWhile_cons_of_neg (by simp [h c rfl])]

theorem fraction_append {fraction : List Char} (h : Fraction fraction) (hrest : Stops p rest)
    (hpoint : p '.' = false) : Stops p (fraction ++ rest) := by
  cases h with
  | none => exact hrest
  | digits => simpa [Stops] using hpoint

theorem exponent_append {exponent : List Char} (h : Exponent exponent) (hrest : Stops p rest)
    (hmark : p 'e' = false ∧ p 'E' = false) : Stops p (exponent ++ rest) := by
  cases h with
  | none => exact hrest
  | unsigned h => rcases h with rfl | rfl <;> simp [Stops, hmark]
  | signed h => rcases h with rfl | rfl <;> simp [Stops, hmark]

end Stops

theorem ne_of_isDigit {c d : Char} (hd : isDigit d = true) (hc : isDigit c = false) : d ≠ c := by
  rintro rfl
  exact Bool.noConfusion (hd.symm.trans hc)

theorem IsDigits.exists_cons {ds : List Char} (h : IsDigits ds) :
    ∃ d tail, ds = d :: tail ∧ isDigit d = true := by
  obtain ⟨d, tail, rfl⟩ := List.exists_cons_of_ne_nil h.ne_nil
  exact ⟨d, tail, rfl, h.all d List.mem_cons_self⟩

theorem Unsigned.exists_cons {cs : List Char} (h : Unsigned cs) :
    ∃ d tail, cs = d :: tail ∧ isDigit d = true := by
  obtain ⟨hwhole, -, -⟩ := h
  cases hwhole with
  | zero => exact ⟨_, _, rfl, rfl⟩
  | digits hds =>
    obtain ⟨d, tail, rfl, hd⟩ := hds.exists_cons
    exact ⟨_, _, rfl, hd⟩

theorem digits1_append {ds rest : List Char} (hds : IsDigits ds) (hrest : Stops isDigit rest) :
    digits1 (ds ++ rest) = some (ds, rest) := by
  have htake : (ds ++ rest).takeWhile isDigit = ds := by
    rw [List.takeWhile_append_of_pos hds.all, hrest.takeWhile_eq_nil, List.append_nil]
  have hdrop : (ds ++ rest).dropWhile isDigit = rest := by
    rw [List.dropWhile_append_of_pos hds.all, hrest.dropWhile_eq_self]
  rw [digits1, htake, hdrop]
  simp [hds.ne_nil]

theorem integerDigits_append {ds rest : List Char} (hds : Whole ds) (hrest : Stops isDigit rest) :
    integerDigits (ds ++ rest) = some (ds, rest) := by
  cases hds with
  | zero => rfl
  | digits hds hhead =>
    rw [← digits1_append hds hrest]
    obtain ⟨d, tail, rfl, -⟩ := hds.exists_cons
    unfold integerDigits
    split
    · next heq =>
      obtain ⟨rfl, -⟩ := List.cons.inj heq
      exact absurd rfl hhead
    · rfl

theorem fractionPart_append {fraction rest : List Char} (h : Fraction fraction)
    (hdigit : Stops isDigit rest) (hpoint : Stops (· == '.') rest) :
    fractionPart (fraction ++ rest) = some (fraction, rest) := by
  cases h with
  | none =>
    unfold fractionPart
    split
    · next tail heq =>
      rw [List.nil_append] at heq
      cases hpoint '.' (by rw [heq]; rfl)
    · rfl
  | digits hds => rw [List.cons_append, fractionPart, digits1_append hds hdigit, Option.map_some]

theorem exponentPart_append {exponent rest : List Char} (h : Exponent exponent)
    (hdigit : Stops isDigit rest) (hmark : Stops (fun c => c == 'e' || c == 'E') rest) :
    exponentPart (exponent ++ rest) = some (exponent, rest) := by
  cases h with
  | none =>
    cases rest with
    | nil => rfl
    | cons c tail =>
      have hc := hmark c rfl
      simp only [List.nil_append, exponentPart, hc]
      rfl
  | unsigned hmark hds =>
    have hread := digits1_append hds hdigit
    obtain ⟨d, tail, rfl, hd⟩ := hds.exists_cons
    have hplus : d ≠ '+' := ne_of_isDigit hd rfl
    have hminus : d ≠ '-' := ne_of_isDigit hd rfl
    rcases hmark with rfl | rfl <;> simp_all [exponentPart]
  | signed hmark hsign hds =>
    rcases hmark with rfl | rfl <;> rcases hsign with rfl | rfl <;>
      simp [exponentPart, digits1_append hds hdigit]

theorem unsignedLiteral_append {cs rest : List Char} (h : Unsigned cs)
    (hrest : Stops isNumeral rest) : unsignedLiteral (cs ++ rest) = some (cs, rest) := by
  cases h with | mk hwhole hfraction hexponent =>
  have hdigit : Stops isDigit rest := hrest.mono (by simp +contextual [isNumeral])
  have hpoint : Stops (· == '.') rest := hrest.mono (by simp +contextual [isNumeral])
  have hmark : Stops (fun c => c == 'e' || c == 'E') rest :=
    hrest.mono (by simp +contextual [isNumeral])
  have hdigit' := hdigit.exponent_append hexponent ⟨rfl, rfl⟩
  have hpoint' := hpoint.exponent_append hexponent ⟨rfl, rfl⟩
  simp only [List.append_assoc, unsignedLiteral,
    integerDigits_append hwhole (hdigit'.fraction_append hfraction rfl),
    fractionPart_append hfraction hdigit' hpoint', exponentPart_append hexponent hdigit hmark,
    Option.map_some]

theorem numberLiteral_append {cs rest : List Char} (h : Literal cs)
    (hrest : Stops isNumeral rest) :
    numberLiteral (cs ++ rest) = some (String.ofList cs, rest) := by
  cases h with
  | negative h =>
    rw [List.cons_append, numberLiteral, unsignedLiteral_append h hrest, Option.map_some]
  | unsigned h =>
    have hread := unsignedLiteral_append h hrest
    obtain ⟨d, tail, rfl, hd⟩ := h.exists_cons
    unfold numberLiteral
    split
    · next heq =>
      obtain ⟨rfl, -⟩ := List.cons.inj heq
      cases hd
    · rw [hread, Option.map_some]

/-! ## Texts of numbers -/

theorem isDigits_toDigits (n : Nat) : IsDigits (Nat.toDigits 10 n) where
  ne_nil := Nat.toDigits_ne_nil
  all c hc := by
    have hdigit := Nat.isDigit_of_mem_toDigits (by decide) (by decide) hc
    simpa [Char.isDigit, isDigit, Char.le_def] using hdigit

theorem head?_toDigits {n : Nat} (hn : n ≠ 0) : (Nat.toDigits 10 n).head? ≠ some '0' := by
  induction n using Nat.strongRecOn with
  | _ n ih =>
    rw [Nat.toDigits_eq_if (by decide)]
    split_ifs with hlt
    · have hdigit : ∀ n < 10, n ≠ 0 → Nat.digitChar n ≠ '0' := by decide
      simpa using hdigit n hlt hn
    · rw [List.head?_append_of_ne_nil _ Nat.toDigits_ne_nil]
      exact ih (n / 10) (by omega) (by omega)

theorem whole_toDigits (n : Nat) : Whole (Nat.toDigits 10 n) := by
  by_cases hn : n = 0
  · rw [hn]
    exact .zero
  · exact .digits (isDigits_toDigits n) (head?_toDigits hn)

theorem literal_natText (n : Nat) : Literal (Decimal.natText n).toList := by
  have := Unsigned.mk (whole_toDigits n) .none .none
  simpa [Decimal.natText] using Literal.unsigned this

theorem literalNat?_natText {n : Nat} (hn : n < Nat.pow 2 64) :
    literalNat? (Decimal.natText n) = some n := by
  have hvalue : digitsValue (Nat.toDigits 10 n) = n := Nat.ofDigitChars_ten_toDigits
  have hall : (Nat.toDigits 10 n).all (fun c => '0' ≤ c && c ≤ '9') = true :=
    List.all_eq_true.mpr (isDigits_toDigits n).all
  have hlt : decide (n < Nat.pow 2 64) = true := decide_eq_true hn
  simp only [literalNat?, Decimal.natText, String.toList_ofList, hvalue, hall, hlt]
  simp [Nat.toDigits_ne_nil]

namespace IsDigits

variable {ds more : List Char}

theorem append_left (h : IsDigits ds) (hmore : ∀ c ∈ more, isDigit c = true) :
    IsDigits (more ++ ds) where
  ne_nil := List.append_ne_nil_of_right_ne_nil more h.ne_nil
  all := List.forall_mem_append.mpr ⟨hmore, h.all⟩

theorem append_right (h : IsDigits ds) (hmore : ∀ c ∈ more, isDigit c = true) :
    IsDigits (ds ++ more) where
  ne_nil := List.append_ne_nil_of_left_ne_nil h.ne_nil more
  all := List.forall_mem_append.mpr ⟨h.all, hmore⟩

theorem take (h : IsDigits ds) (n : Nat) : IsDigits (ds.take (n + 1)) where
  ne_nil := by simpa using h.ne_nil
  all c hc := h.all c (List.mem_of_mem_take hc)

theorem drop (h : IsDigits ds) {n : Nat} (hn : n < ds.length) : IsDigits (ds.drop n) where
  ne_nil := by simpa using hn
  all c hc := h.all c (List.mem_of_mem_drop hc)

end IsDigits

theorem Whole.take {ds : List Char} (h : Whole ds) (n : Nat) : Whole (ds.take (n + 1)) := by
  cases h with
  | zero => simpa using Whole.zero
  | digits hds hhead => exact .digits (hds.take n) (by simpa [List.head?_take] using hhead)

theorem all_replicate_zero (n : Nat) : ∀ c ∈ List.replicate n '0', isDigit c = true := by
  intro c hc
  rw [List.eq_of_mem_replicate hc]
  rfl

theorem isDigits_padZeros (width n : Nat) :
    IsDigits (Decimal.padZeros width (Decimal.natText n)).toList := by
  rw [Decimal.padZeros, String.toList_append, String.toList_ofList, Decimal.natText,
    String.toList_ofList]
  exact (isDigits_toDigits n).append_left (all_replicate_zero _)

theorem unsigned_positional {digits : Decimal.Digits} (h : digits.Normal) :
    Unsigned (Decimal.positional digits).toList := by
  have hds := isDigits_toDigits digits.value
  rw [Decimal.positional]
  split
  · next e he =>
    split_ifs with hlength
    · have hwhole : Whole (Nat.toDigits 10 digits.value ++
          List.replicate (e + 1 - (Nat.toDigits 10 digits.value).length) '0') := by
        rcases h with hvalue | hexponent
        · refine .digits (hds.append_right (all_replicate_zero _)) ?_
          rw [List.head?_append_of_ne_nil _ hds.ne_nil]
          exact head?_toDigits hvalue
        · obtain rfl : e = 0 := Int.ofNat.inj (he.symm.trans hexponent)
          have hlength' : 0 < (Nat.toDigits 10 digits.value).length :=
            List.length_pos_of_ne_nil hds.ne_nil
          rw [Nat.sub_eq_zero_of_le hlength', List.replicate_zero, List.append_nil]
          exact whole_toDigits digits.value
      simpa using Unsigned.mk hwhole .none .none
    · have hlt : e + 1 < (Nat.toDigits 10 digits.value).length := by omega
      simpa using Unsigned.mk ((whole_toDigits digits.value).take e)
        (.digits (hds.drop hlt)) .none
  · next e he =>
    simpa using Unsigned.mk .zero (.digits (hds.append_left (all_replicate_zero e))) .none

theorem unsigned_mantissa (n : Nat) {exponent : List Char} (h : Exponent exponent) :
    Unsigned ((if (Nat.toDigits 10 n).length ≤ 1 then String.ofList (Nat.toDigits 10 n)
      else String.ofList ((Nat.toDigits 10 n).take 1) ++ "." ++
        String.ofList ((Nat.toDigits 10 n).drop 1)).toList ++ exponent) := by
  split_ifs with hlength
  · simpa using Unsigned.mk (whole_toDigits n) .none h
  · have hdrop := (isDigits_toDigits n).drop (Nat.not_le.mp hlength)
    simpa using Unsigned.mk ((whole_toDigits n).take 0) (.digits hdrop) h

theorem unsigned_scientific (style : Decimal.Style) (digits : Decimal.Digits) :
    Unsigned (Decimal.scientific style digits).toList := by
  rw [Decimal.scientific, String.append_assoc, String.toList_append]
  refine unsigned_mantissa digits.value ?_
  cases digits.exponent with
  | ofNat e =>
    simpa using Exponent.signed (.inl rfl) (.inl rfl) (isDigits_padZeros style.exponentWidth e)
  | negSucc e =>
    simpa using Exponent.signed (.inl rfl) (.inr rfl)
      (isDigits_padZeros style.exponentWidth (e + 1))

theorem unsigned_text (style : Decimal.Style) {digits : Decimal.Digits}
    (h : digits.Normal) : Unsigned (digits.text style).toList := by
  rw [Decimal.Digits.text]
  split_ifs
  · exact unsigned_positional h
  · exact unsigned_scientific style digits

theorem Unsigned.literal {text : String} (h : Unsigned text.toList) (negative : Bool) :
    Literal ((if negative then "-" else "") ++ text).toList := by
  cases negative with
  | true => simpa using Literal.negative h
  | false => simpa using Literal.unsigned h

/-- The text of a finite number is a literal in every style. -/
theorem literal_text (style : Decimal.Style) {x : Float} (hx : Binary64.isFinite x = true) :
    Literal (style.text x).toList := by
  rw [Binary64.isFinite] at hx
  rw [Decimal.Style.text]
  cases hdecode : Binary64.decode x with
  | nan => rw [hdecode] at hx; cases hx
  | infinite negative => rw [hdecode] at hx; cases hx
  | finite negative mantissa exponent =>
    by_cases hzero : mantissa = 0
    · have hunsigned : Unsigned "0".toList := by simpa using Unsigned.mk .zero .none .none
      simpa [hzero] using hunsigned.literal negative
    · simpa [hzero] using (unsigned_text style (Decimal.normal_shortest hzero exponent)).literal
        negative

end Json

end QuantumCompiler
