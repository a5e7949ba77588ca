import QuantumCompiler.Json.Writer
import QuantumCompiler.Proofs.Json.Literal

/-!
# Texts that are read back

`Json.read?_compact`: the compact text of a value is read as that value, if its
numbers are literals and its nesting is not too deep (`Json.Printable`).

* `stringBody_quoted`: every character of a string is read back, also an escaped one
  (`exists_escape`).
* `Printable.readBy`: the text of a value is read together with whatever follows it,
  as long as this does not go on with a number.  The induction is over the nesting.
* `items_compactItems` and `members_compactMembers` go through the lists.  An item is
  followed by a comma or by what closes the list, and neither goes on with a number.
-/

namespace QuantumCompiler.Json

/-! ## Strings -/

theorem hexDigit?_hexChar {n : Nat} (h : n < 16) : hexDigit? (hexChar n) = some n := by
  revert n
  decide

theorem hex4_digits {n : Nat} (h : n < 65536) (rest : List Char) :
    hex4 (hexChar (n / 4096 % 16) :: hexChar (n / 256 % 16) :: hexChar (n / 16 % 16) ::
      hexChar (n % 16) :: rest) =
      some (n, rest) := by
  simp only [hex4, hexDigit?_hexChar (Nat.mod_lt _ (by decide : 16 > 0))]
  congr 2
  omega

theorem unicodeEscape_of_lt {n : Nat} (h : n < 0xD800) (rest : List Char) :
    unicodeEscape n rest = (Char.ofNat n, rest) := by
  have h1 : ¬ 0xD800 ≤ n := by omega
  have h2 : ¬ 0xDC00 ≤ n := by omega
  simp [unicodeEscape, h1, h2]

/-- The characters that do not stand for themselves are below the surrogates. -/
theorem toNat_lt_of_not_isPlain {c : Char} (h : isPlain c = false) : c.toNat < 0xD800 := by
  simp only [isPlain, Bool.and_eq_false_iff, decide_eq_false_iff_not, Bool.not_eq_false',
    List.contains_iff_mem, List.mem_cons, List.not_mem_nil, or_false] at h
  rcases h with h | rfl | rfl | rfl | rfl | rfl | rfl | rfl
  · omega
  all_goals decide

/-- A character that does not stand for itself has an escape, which is read as that
character. -/
theorem exists_escape {c : Char} (h : isPlain c = false) :
    ∃ code, quotedChar c = '\\' :: code ∧ ∀ rest, escape (code ++ rest) = some (c, rest) := by
  have hlt := toNat_lt_of_not_isPlain h
  simp only [quotedChar, h, Bool.false_eq_true, if_false, beq_iff_eq]
  split_ifs with hquote hbackslash hnewline hreturn htab hbackspace hformfeed
  · exact ⟨_, rfl, fun rest => by rw [hquote]; rfl⟩
  · exact ⟨_, rfl, fun rest => by rw [hbackslash]; rfl⟩
  · exact ⟨_, rfl, fun rest => by rw [hnewline]; rfl⟩
  · exact ⟨_, rfl, fun rest => by rw [hreturn]; rfl⟩
  · exact ⟨_, rfl, fun rest => by rw [htab]; rfl⟩
  · exact ⟨_, rfl, fun rest => by rw [← Char.ofNat_toNat c, hbackspace]; rfl⟩
  · exact ⟨_, rfl, fun rest => by rw [← Char.ofNat_toNat c, hformfeed]; rfl⟩
  · refine ⟨_, rfl, fun rest => ?_⟩
    simp [escape, hex4_digits (Nat.lt_trans hlt (by decide : 0xD800 < 65536)),
      unicodeEscape_of_lt hlt]

/-- A quoted character is read in one step. -/
theorem stringBody_quotedChar (c : Char) (fuel : Nat) (read rest : List Char) :
    stringBody (fuel + 1) read (quotedChar c ++ rest) = stringBody fuel (c :: read) rest := by
  cases hplain : isPlain c with
  | true =>
    have hc : 0x20 ≤ c.toNat ∧ c ≠ '"' ∧ c ≠ '\\' := by simp_all [isPlain]
    obtain ⟨hcontrol, hquote, hbackslash⟩ := hc
    simp [quotedChar, hplain, stringBody, Nat.not_lt.mpr hcontrol]
  | false =>
    obtain ⟨code, hcode, hescape⟩ := exists_escape hplain
    rw [hcode, List.cons_append, stringBody, hescape]

theorem stringBody_flatMap {cs : List Char} {fuel : Nat} (hfuel : cs.length < fuel)
    (read rest : List Char) :
    stringBody fuel read (cs.flatMap quotedChar ++ '"' :: rest) =
      some (String.ofList (read.reverse ++ cs), rest) := by
  induction cs generalizing fuel read with
  | nil =>
    obtain ⟨fuel, rfl⟩ := Nat.exists_eq_succ_of_ne_zero (Nat.ne_zero_of_lt hfuel)
    simp [stringBody]
  | cons c cs ih =>
    obtain ⟨fuel, rfl⟩ := Nat.exists_eq_succ_of_ne_zero (Nat.ne_zero_of_lt hfuel)
    rw [List.flatMap_cons, List.append_assoc, stringBody_quotedChar,
      ih (Nat.lt_of_succ_lt_succ hfuel)]
    simp

theorem quotedChar_ne_nil (c : Char) : quotedChar c ≠ [] := by
  cases hplain : isPlain c with
  | true => simp [quotedChar, hplain]
  | false =>
    obtain ⟨code, hcode, -⟩ := exists_escape hplain
    rw [hcode]
    exact List.cons_ne_nil _ _

theorem length_le_length_flatMap (cs : List Char) :
    cs.length ≤ (cs.flatMap quotedChar).length := by
  induction cs with
  | nil => exact Nat.le_refl 0
  | cons c cs ih =>
    have hpos := List.length_pos_of_ne_nil (quotedChar_ne_nil c)
    rw [List.flatMap_cons, List.length_append, List.length_cons]
    omega

/-- The text of a string after its first quote is read as the string. -/
theorem stringBody_quoted (s : String) (rest : List Char) :
    ∃ body, (quoted s).toList ++ rest = '"' :: body ∧
      stringBody (body.length + 1) [] body = some (s, rest) := by
  refine ⟨s.toList.flatMap quotedChar ++ '"' :: rest, by simp [quoted], ?_⟩
  have hlength := length_le_length_flatMap s.toList
  rw [stringBody_flatMap (by simp only [List.length_append]; omega), List.reverse_nil,
    List.nil_append, String.ofList_toList]

/-! ## Values -/

/-- The values whose texts are read back: their numbers are literals, and they are
nested at most so deep. -/
inductive Printable : Nat → Json → Prop where
  | null {depth : Nat} : Printable depth null
  | bool {depth : Nat} (b : Bool) : Printable depth (bool b)
  | number {depth : Nat} {literal : String} :
      Literal literal.toList → Printable depth (number literal)
  | string {depth : Nat} (s : String) : Printable depth (string s)
  | array {depth : Nat} {items : List Json} :
      (∀ v ∈ items, Printable depth v) → Printable (depth + 1) (array items)
  | object {depth : Nat} {members : List (String × Json)} :
      (∀ m ∈ members, Printable depth m.2) → Printable (depth + 1) (object members)

theorem Printable.ofNats {depth : Nat} (ns : List Nat) : Printable (depth + 1) (ofNats ns) := by
  refine .array fun v hv => ?_
  obtain ⟨n, -, rfl⟩ := List.mem_map.mp hv
  exact .number (literal_natText n)

/-- A text starts with a character that is neither blank nor closes a list. -/
def Opens (cs : List Char) : Prop :=
  ∃ c tail, cs = c :: tail ∧ isBlank c = false ∧ c ≠ ']' ∧ c ≠ '}'

/-- The text of a value is read as that value, whatever follows. -/
def ReadBy (read : List Char → Reading Json) (v : Json) : Prop :=
  ∀ rest, Stops isNumeral rest → read (skipBlanks ((compact v).toList ++ rest)) = some (v, rest)

theorem skipBlanks_cons {c : Char} (hc : isBlank c = false) (cs : List Char) :
    skipBlanks (c :: cs) = c :: cs :=
  Stops.dropWhile_eq_self (by simpa [Stops] using hc)

theorem Opens.append {cs : List Char} (h : Opens cs) (rest : List Char) : Opens (cs ++ rest) := by
  obtain ⟨c, tail, rfl, hc⟩ := h
  exact ⟨c, tail ++ rest, rfl, hc⟩

theorem Opens.ne_cons {cs : List Char} (h : Opens cs) {close : Char}
    (hclose : close = ']' ∨ close = '}') (after : List Char) : cs ≠ close :: after := by
  obtain ⟨c, tail, rfl, -, hne⟩ := h
  intro heq
  obtain ⟨rfl, -⟩ := List.cons.inj heq
  exact hclose.elim hne.1 hne.2

theorem Opens.skipBlanks_eq {cs : List Char} (h : Opens cs) : skipBlanks cs = cs := by
  obtain ⟨c, tail, rfl, hc, -⟩ := h
  exact skipBlanks_cons hc tail

theorem opens_of_isDigit {d : Char} (hd : isDigit d = true) (tail : List Char) :
    Opens (d :: tail) := by
  refine ⟨d, tail, rfl, ?_, ne_of_isDigit hd rfl, ne_of_isDigit hd rfl⟩
  simp [isBlank, ne_of_isDigit hd (c := ' ') rfl, ne_of_isDigit hd (c := '\t') rfl,
    ne_of_isDigit hd (c := '\n') rfl, ne_of_isDigit hd (c := '\r') rfl]

theorem Literal.opens {cs : List Char} (h : Literal cs) : Opens cs := by
  cases h with
  | negative h => exact ⟨'-', _, rfl, rfl, by decide, by decide⟩
  | unsigned h =>
    obtain ⟨d, tail, rfl, hd⟩ := h.exists_cons
    exact opens_of_isDigit hd tail

theorem opens_quoted (s : String) : Opens (quoted s).toList :=
  ⟨'"', s.toList.flatMap quotedChar ++ ['"'], by simp [quoted], rfl, by decide, by decide⟩

theorem Printable.opens {depth : Nat} {v : Json} (h : Printable depth v) :
    Opens (compact v).toList := by
  cases h with
  | null => exact ⟨'n', ['u', 'l', 'l'], by simp [compact], rfl, by decide, by decide⟩
  | bool b =>
    cases b with
    | true => exact ⟨'t', ['r', 'u', 'e'], by simp [compact], rfl, by decide, by decide⟩
    | false => exact ⟨'f', ['a', 'l', 's', 'e'], by simp [compact], rfl, by decide, by decide⟩
  | number h =>
    rw [compact]
    exact h.opens
  | string s =>
    rw [compact]
    exact opens_quoted s
  | array h => exact ⟨'[', _, by simp [compact]; rfl, rfl, by decide, by decide⟩
  | object h => exact ⟨'{', _, by simp [compact]; rfl, rfl, by decide, by decide⟩

theorem ReadBy.of_value {depth : Nat} {v : Json} (hopens : Opens (compact v).toList)
    (h : ∀ rest, Stops isNumeral rest →
      value depth ((compact v).toList ++ rest) = some (v, rest)) : ReadBy (value depth) v := by
  intro rest hrest
  rw [(hopens.append rest).skipBlanks_eq, h rest hrest]

/-! ### Numbers and strings -/

theorem value_of_numberLiteral {depth : Nat} {c : Char} {tail rest : List Char} {literal : String}
    (hc : c = '-' ∨ isDigit c = true) (h : numberLiteral (c :: tail) = some (literal, rest)) :
    value depth (c :: tail) = some (number literal, rest) := by
  have hother {a : Char} (ha : (a == '-' || isDigit a) = false) {after : List Char} :
      c :: tail ≠ a :: after := by
    rintro heq
    obtain ⟨rfl, -⟩ := List.cons.inj heq
    simp_all
  rw [value, h]
  · rw [Option.map_some]
  all_goals exact fun _ => hother rfl

theorem value_literal {literal : String} (h : Literal literal.toList) (depth : Nat)
    {rest : List Char} (hrest : Stops isNumeral rest) :
    value depth (literal.toList ++ rest) = some (number literal, rest) := by
  have hread := numberLiteral_append h hrest
  rw [String.ofList_toList] at hread
  generalize literal.toList = cs at h hread
  cases h with
  | negative h => exact value_of_numberLiteral (.inl rfl) hread
  | unsigned h =>
    obtain ⟨d, tail, rfl, hd⟩ := h.exists_cons
    exact value_of_numberLiteral (.inr hd) hread

theorem value_quoted (s : String) (depth : Nat) (rest : List Char) :
    value depth ((quoted s).toList ++ rest) = some (string s, rest) := by
  obtain ⟨body, hbody, hread⟩ := stringBody_quoted s rest
  rw [hbody, value, hread, Option.map_some]

theorem memberKey_quoted (key : String) (rest : List Char) :
    memberKey ((quoted key).toList ++ ':' :: rest) = some (key, rest) := by
  obtain ⟨body, hbody, hread⟩ := stringBody_quoted key (':' :: rest)
  simp only [memberKey, hbody, skipBlanks_cons (c := '"') rfl, hread,
    skipBlanks_cons (c := ':') rfl]

/-! ### Lists -/

/-- Each separator takes up a character. -/
theorem length_le_intercalate (t : String) (ts : List String) :
    ts.length ≤ (",".intercalate (t :: ts)).toList.length := by
  induction ts generalizing t with
  | nil => exact Nat.zero_le _
  | cons u ts ih =>
    have := ih u
    rw [String.intercalate_cons_cons]
    simp only [String.toList_append, List.length_append, List.length_cons] at *
    have hcomma : ",".toList.length = 1 := rfl
    omega

theorem opens_intercalate {t : String} (h : Opens t.toList) (ts : List String) :
    Opens (",".intercalate (t :: ts)).toList := by
  cases ts with
  | nil => rwa [String.intercalate_singleton]
  | cons u ts =>
    rw [String.intercalate_cons_cons, String.append_assoc, String.toList_append]
    exact h.append _

theorem length_compactItems (vs : List Json) : (compactItems vs).length = vs.length := by
  induction vs with
  | nil => rfl
  | cons v vs ih => rw [compactItems, List.length_cons, List.length_cons, ih]

theorem length_compactMembers (ms : List (String × Json)) :
    (compactMembers ms).length = ms.length := by
  induction ms with
  | nil => rfl
  | cons m ms ih => rw [compactMembers, List.length_cons, List.length_cons, ih]

theorem stops_separator {c : Char} (hc : c = ',' ∨ c = ']' ∨ c = '}') (cs : List Char) :
    Stops isNumeral (c :: cs) := by
  rcases hc with rfl | rfl | rfl <;> simp [Stops, isNumeral, isDigit]

theorem items_compactItems {read : List Char → Reading Json} {v : Json} {vs : List Json}
    (hread : ∀ w ∈ v :: vs, ReadBy read w) {fuel : Nat} (hfuel : vs.length < fuel)
    (rest : List Char) :
    items read fuel ((",".intercalate (compactItems (v :: vs))).toList ++ ']' :: rest) =
      some (v :: vs, rest) := by
  induction vs generalizing v fuel with
  | nil =>
    obtain ⟨fuel, rfl⟩ := Nat.exists_eq_succ_of_ne_zero (Nat.ne_zero_of_lt hfuel)
    have hv := hread v List.mem_cons_self (']' :: rest) (stops_separator (by simp) _)
    simp only [compactItems, String.intercalate_singleton, items, hv,
      skipBlanks_cons (c := ']') rfl]
  | cons w vs ih =>
    obtain ⟨fuel, rfl⟩ := Nat.exists_eq_succ_of_ne_zero (Nat.ne_zero_of_lt hfuel)
    obtain ⟨hv, hvs⟩ := List.forall_mem_cons.mp hread
    have htext : (",".intercalate (compactItems (v :: w :: vs))).toList ++ ']' :: rest =
        (compact v).toList ++
        ',' :: ((",".intercalate (compactItems (w :: vs))).toList ++ ']' :: rest) := by
      simp [compactItems, String.intercalate_cons_cons]
    simp only [htext, items, hv _ (stops_separator (.inl rfl) _), skipBlanks_cons (c := ',') rfl,
      ih hvs (Nat.lt_of_succ_lt_succ hfuel), Option.map_some]

theorem members_compactMembers {read : List Char → Reading Json} {m : String × Json}
    {ms : List (String × Json)} (hread : ∀ k ∈ m :: ms, ReadBy read k.2) {fuel : Nat}
    (hfuel : ms.length < fuel) (rest : List Char) :
    members read fuel ((",".intercalate (compactMembers (m :: ms))).toList ++ '}' :: rest) =
      some (m :: ms, rest) := by
  induction ms generalizing m fuel with
  | nil =>
    obtain ⟨fuel, rfl⟩ := Nat.exists_eq_succ_of_ne_zero (Nat.ne_zero_of_lt hfuel)
    have htext : (",".intercalate (compactMembers [m])).toList ++ '}' :: rest =
        (quoted m.1).toList ++ ':' :: ((compact m.2).toList ++ '}' :: rest) := by
      simp [compactMembers]
    have hm := hread m List.mem_cons_self ('}' :: rest) (stops_separator (by simp) _)
    simp only [htext, members, memberKey_quoted, hm, skipBlanks_cons (c := '}') rfl]
  | cons k ms ih =>
    obtain ⟨fuel, rfl⟩ := Nat.exists_eq_succ_of_ne_zero (Nat.ne_zero_of_lt hfuel)
    obtain ⟨hm, hms⟩ := List.forall_mem_cons.mp hread
    have htext : (",".intercalate (compactMembers (m :: k :: ms))).toList ++ '}' :: rest =
        (quoted m.1).toList ++ ':' :: ((compact m.2).toList ++
          ',' :: ((",".intercalate (compactMembers (k :: ms))).toList ++ '}' :: rest)) := by
      simp [compactMembers, String.intercalate_cons_cons]
    simp only [htext, members, memberKey_quoted, hm _ (stops_separator (.inl rfl) _),
      skipBlanks_cons (c := ',') rfl, ih hms (Nat.lt_of_succ_lt_succ hfuel), Option.map_some]

theorem readBy_array {depth : Nat} {items : List Json}
    (hread : ∀ v ∈ items, ReadBy (value depth) v)
    (hopens : ∀ v ∈ items, Opens (compact v).toList) :
    ReadBy (value (depth + 1)) (array items) := by
  intro rest _
  have htext : (compact (array items)).toList ++ rest =
      '[' :: ((",".intercalate (compactItems items)).toList ++ ']' :: rest) := by
    simp [compact]
  rw [htext, skipBlanks_cons rfl, value]
  cases items with
  | nil => simp [compactItems, skipBlanks_cons (c := ']') rfl]
  | cons v vs =>
    have hlength := length_le_intercalate (compact v) (compactItems vs)
    have hfirst :=
      (opens_intercalate (hopens v List.mem_cons_self) (compactItems vs)).append (']' :: rest)
    rw [length_compactItems, ← compactItems] at hlength
    rw [← compactItems] at hfirst
    rw [hfirst.skipBlanks_eq]
    split
    · next heq => exact absurd heq (hfirst.ne_cons (.inl rfl) _)
    · rw [items_compactItems hread (by simp only [List.length_append]; omega), Option.map_some]

theorem readBy_object {depth : Nat} {members : List (String × Json)}
    (hread : ∀ m ∈ members, ReadBy (value depth) m.2) :
    ReadBy (value (depth + 1)) (object members) := by
  intro rest _
  have htext : (compact (object members)).toList ++ rest =
      '{' :: ((",".intercalate (compactMembers members)).toList ++ '}' :: rest) := by
    simp [compact]
  rw [htext, skipBlanks_cons rfl, value]
  cases members with
  | nil => simp [compactMembers, skipBlanks_cons (c := '}') rfl]
  | cons m ms =>
    have hopens : Opens (quoted m.1 ++ ":" ++ compact m.2).toList := by
      rw [String.append_assoc, String.toList_append]
      exact (opens_quoted m.1).append _
    have hlength := length_le_intercalate (quoted m.1 ++ ":" ++ compact m.2) (compactMembers ms)
    have hfirst := (opens_intercalate hopens (compactMembers ms)).append ('}' :: rest)
    rw [length_compactMembers, ← compactMembers] at hlength
    rw [← compactMembers] at hfirst
    rw [hfirst.skipBlanks_eq]
    split
    · next heq => exact absurd heq (hfirst.ne_cons (.inr rfl) _)
    · rw [members_compactMembers hread (by simp only [List.length_append]; omega),
        Option.map_some]

/-! ### All values -/

theorem Printable.readBy {depth : Nat} {v : Json} (h : Printable depth v) :
    ReadBy (value depth) v := by
  induction h with
  | @null depth =>
    refine .of_value (null : Printable depth _).opens fun rest _ => ?_
    simp [compact, value]
  | @bool depth b =>
    refine .of_value (bool b : Printable depth _).opens fun rest _ => ?_
    cases b <;> simp [compact, value]
  | @number depth literal h =>
    refine .of_value (number h : Printable depth _).opens fun rest hrest => ?_
    rw [compact]
    exact value_literal h depth hrest
  | @string depth s =>
    refine .of_value (string s : Printable depth _).opens fun rest _ => ?_
    rw [compact]
    exact value_quoted s depth rest
  | array h ih => exact readBy_array ih fun v hv => (h v hv).opens
  | object h ih => exact readBy_object ih

/-- The compact text of a value is read as that value. -/
theorem read?_compact {v : Json} (h : Printable maxDepth v) : read? v.compact = some v := by
  have hread := h.readBy [] (by simp [Stops])
  rw [List.append_nil] at hread
  rw [read?, hread]
  rfl

end QuantumCompiler.Json
