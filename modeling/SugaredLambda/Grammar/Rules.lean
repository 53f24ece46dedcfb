import SugaredLambda.Bits
import SugaredLambda.Parser.Character
import SugaredLambda.Parser.Repetition
import SugaredLambda.Term.Printer
import SugaredLambda.Text.Alphanumeric
import SugaredLambda.Text.Blank

/-! The rules of the grammar, each given a parser for the terms inside. Words and numbers may stop
at any of their characters, and blanks are taken whole. -/
namespace SugaredLambda.Grammar
open SugaredLambda.Parser

/-- Results of terms are remembered by their depth. -/
abbrev Rule := Parser Nat Term

def wordPunctuation : List Char := "_.@:?$!^&|*-+<>~=/".toList

def isWordChar (c : Char) : Bool := Text.isAlphanumeric c || wordPunctuation.contains c

def blank : Rule (List Char) := longest Text.isBlank

def spaced {α : Type} (p : Rule α) : Rule α := between blank blank p

def word : Rule String := String.ofList <$> runs isWordChar

def number : Rule Nat := (Nat.ofDigitChars 10 · 0) <$> runs Char.isDigit

def stringLiteral : Rule Term := do
  let s ← between (char '"') (char '"') (longest (· != '"'))
  return .str (String.ofList s)

def charLiteral : Rule Term := do
  let c ← between (char '\'') (char '\'') (satisfy fun _ => true)
  return .char (String.singleton c)

def wordLiteral : Rule Term := do
  let n ← char '#' *> number
  return .word (Bits.truncate n Bits.wordWidth)

def natural : Rule Term := .nat <$> number

def variableName : Rule String := anyOf [word, String.ofList <$> many1 (char '#')]

def opening (c : Char) : Rule Char := do
  let o ← char c
  let _ ← blank
  return o

def closing (c : Char) : Rule Char := blank *> char c

variable (term : Rule Term)

def abstraction : Rule Term := do
  let _ ← char '('
  let params ← sepBy word (char ' ')
  let _ ← spaced (string "->".toList)
  let body ← term
  let _ ← char ')'
  return .abs params body

def definition : Rule (Binding Term) := do
  let name ← word
  let params ← many (opening ' ' *> word)
  let _ ← spaced (char '=')
  let body ← term
  return ⟨name, params, body⟩

def letBlock : Rule Term := do
  let _ ← opening '\x7b'
  let bindings ← sepBy (definition term) (opening ';')
  let _ ← spaced (char ';')
  let body ← term
  let _ ← closing '\x7d'
  return .letIn bindings body

def items (left right : Char) : Rule (List Term) :=
  between (opening left) (closing right) (sepBy term (spaced (char ',')))

def application : Rule Term :=
  .app <$> between (opening '(') (closing ')') (sepBy term (char ' '))

def field : Rule (Field Term) := between (char '(') (char ')') do
  let name ← word
  let _ ← blank
  let body ← term
  return ⟨name, body⟩

def constructor : Rule (Constructor Term) := do
  let name ← word
  let _ ← blank
  let fields ← sepBy (field term) (opening ' ')
  return ⟨name, fields⟩

def record : Rule Term :=
  .record <$> between (string "#(".toList) (char ')') (sepBy (constructor term) (spaced (char '|')))

/-- The first class that reads anything wins; within the class in the middle all readings count. -/
def sugar : Rule Term := firstOf [
  abstraction term,
  letBlock term,
  .tuple <$> items term '(' ')',
  anyOf [letBlock term, application term, stringLiteral, charLiteral, .list <$> items term '[' ']',
    record term],
  wordLiteral,
  natural,
  .var <$> variableName]

/-- A term at a depth, and below it any definitions, indented one level deeper. -/
def termRule (term : Nat → Rule Term) (d : Nat) : Rule Term := do
  let t ← sugar (term d)
  let bindings ← many (string (Term.indentation d) *> definition (term (d + 1)))
  return if bindings.isEmpty then t else .letIn bindings t

end SugaredLambda.Grammar
