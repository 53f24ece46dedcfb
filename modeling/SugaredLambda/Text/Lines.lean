import SugaredLambda.Text.Blank

/-! Lines of a source text. A line ends at any of the controls and separators that end one, a
comment runs from two hyphens to the end of its line, and `clean` keeps what is left of the lines
that are not blank. -/
namespace SugaredLambda.Text

def endsLine (c : Char) : Bool :=
  inRanges c.toNat [(0xa, 0xd), (0x1c, 0x1e), (0x85, 0x85), (0x2028, 0x2029)]

/-- A carriage return and the line feed after it end one line together. The last line needs no end,
and nothing follows the last end. -/
def lines : List Char → List (List Char)
  | [] => []
  | '\r' :: '\n' :: rest => [] :: lines rest
  | c :: rest =>
    if endsLine c then [] :: lines rest else
      match lines rest with
      | [] => [[c]]
      | line :: more => (c :: line) :: more

def beforeComment : List Char → List Char
  | [] => []
  | '-' :: '-' :: _ => []
  | c :: rest => c :: beforeComment rest

def trimEnd (line : List Char) : List Char := (line.reverse.dropWhile (· == ' ')).reverse

/-- What a line says, and none when that is blank. -/
def statement? (line : List Char) : Option (List Char) :=
  let said := trimEnd (beforeComment line)
  if said.all isBlank then none else some said

/-- A source without comments, blanks at line ends, and blank lines. -/
def clean (source : List Char) : List Char :=
  ['\n'].intercalate ((lines source).filterMap statement?)

/-- The line and the column of a position, both counted from one. -/
def location (text : List Char) (position : Nat) : Nat × Nat :=
  let before := text.take position
  let column := (before.reverse.takeWhile (· != '\n')).length
  (before.count '\n' + 1, position - (before.length - column) + 1)

end SugaredLambda.Text
