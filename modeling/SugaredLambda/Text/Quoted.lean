import SugaredLambda.Text.Printable

/-! Text between quotes, on one line and in printable characters. -/
namespace SugaredLambda.Text

/-- The low digits of a number to the base sixteen, exactly `width` of them. -/
def hexDigits : Nat → Nat → List Char
  | 0, _ => []
  | width+1, n => hexDigits width (n / 16) ++ [Nat.digitChar (n % 16)]

/-- Single quotes, unless the text holds one and no double quote. -/
def quoteFor (text : List Char) : Char := if '\'' ∈ text ∧ '"' ∉ text then '"' else '\''

def escaped (quote c : Char) : List Char :=
  if c = quote ∨ c = '\\' then ['\\', c]
  else if c = '\n' then ['\\', 'n']
  else if c = '\r' then ['\\', 'r']
  else if c = '\t' then ['\\', 't']
  else if isPrintable c then [c]
  else if c.toNat < 0x100 then '\\' :: 'x' :: hexDigits 2 c.toNat
  else if c.toNat < 0x10000 then '\\' :: 'u' :: hexDigits 4 c.toNat
  else '\\' :: 'U' :: hexDigits 8 c.toNat

def quoted (text : List Char) : List Char :=
  let quote := quoteFor text
  quote :: text.flatMap (escaped quote) ++ [quote]

end SugaredLambda.Text
