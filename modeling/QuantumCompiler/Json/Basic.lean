import QuantumCompiler.Numeric.Decimal

/-!
# JSON values

Members of an object keep their order and may repeat, because a reader takes them one after the
other.  A number keeps its literal, because the same literal can be read as an unsigned integer or
as a floating point number.
-/

namespace QuantumCompiler

/-- A JSON value. -/
inductive Json where
  | null
  | bool (value : Bool)
  | number (literal : String)
  | string (value : String)
  | array (items : List Json)
  | object (members : List (String × Json))
  deriving Repr, Inhabited

namespace Json

/-- Numbers in JSON texts: an exponent below `1e-6` and from `1e21` on. -/
def numberStyle : Decimal.Style := ⟨-6, 21, 1⟩

/-- The value of a natural number. -/
def ofNat (n : Nat) : Json := number (Decimal.natText n)

/-- The value of an integer. -/
def ofInt (n : Int) : Json := number (Decimal.intText n)

/-- The value of a finite floating point number.  Other numbers have none. -/
def ofFloat? (x : Float) : Option Json :=
  if Binary64.isFinite x then some (number (numberStyle.text x)) else none

/-- A list of natural numbers. -/
def ofNats (ns : List Nat) : Json := array (ns.map ofNat)

/-- The last member with a given key. -/
def get? : Json → String → Option Json
  | object members, key => (members.reverse.find? (·.1 == key)).map (·.2)
  | _, _ => none

end Json

end QuantumCompiler
