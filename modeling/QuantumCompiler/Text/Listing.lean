/-!
# Lists of numbers in texts

Numbers in brackets, divided by blanks.
-/

namespace QuantumCompiler.Text

/-- Items in brackets. -/
def bracket (items : List String) : String := "[" ++ " ".intercalate items ++ "]"

/-- Numbers in brackets. -/
def listing (ns : List Nat) : String := bracket (ns.map toString)

end QuantumCompiler.Text
