import SugaredLambda.Text.Quoted

/-! What can go wrong with a program, and how it is said. -/
namespace SugaredLambda

inductive Error where
  /-- The character that fits nothing, or the end of the text, and where it stands. -/
  | unexpected (found : Option Char) (position line column : Nat)
  | unbound (name : String)
  | recordPrinting
  | recordReading
  | stepLimit (limit : Nat)
  | emptyApplication
  deriving DecidableEq

def Error.message : Error → String
  | .unexpected found _ line column =>
    let shown := match found with
      | some c => String.ofList (Text.quoted [c])
      | none => "end of input"
    s!"Unexpected {shown} (line {line}, column {column})"
  | .unbound name => s!"undefined variable \x60{name}\x60"
  | .recordPrinting => "pretty-printing tagged records is not supported"
  | .recordReading => "decoding tagged records is not supported"
  | .stepLimit limit => s!"normalization did not finish within {limit} steps"
  | .emptyApplication => "Cannot encode an empty application"

end SugaredLambda
