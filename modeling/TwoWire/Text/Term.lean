/-!
# Terms

The structured text of a value: a bare word, a constructor around one term, or a constructor with
named numbers. A term is written piece by piece, and its text is those pieces joined.
-/
namespace TwoWire.Text

inductive Term
  | word (name : String)
  | number (n : Nat)
  | applied (name : String) (argument : Term)
  | record (name : String) (fields : List (String × Nat))

namespace Term

/-- Named numbers, with a comma before each but the first. -/
def fieldPieces : List (String × Nat) → List String
  | [] => []
  | [(name, n)] => [name, ": ", toString n]
  | (name, n) :: rest => [name, ": ", toString n, ", "] ++ fieldPieces rest

/-- The pieces of a term, in the order in which they are written. -/
def pieces : Term → List String
  | word name => [name]
  | number n => [toString n]
  | applied name argument => [name, "("] ++ argument.pieces ++ [")"]
  | record name fields => [name, " \x7b "] ++ fieldPieces fields ++ [" \x7d"]

def text (t : Term) : String := String.join t.pieces

end Term
end TwoWire.Text
