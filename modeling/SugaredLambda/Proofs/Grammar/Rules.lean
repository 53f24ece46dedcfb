import SugaredLambda.Grammar.Source
import SugaredLambda.Proofs.Parser.Reading

/-! The rules over different parsers for the inner terms follow one another when these do at all
later positions. -/
namespace SugaredLambda.Grammar
open SugaredLambda.Parser
variable {σ : Pairing Nat Term} {low : Nat} {α : Type}

theorem follows_blank (low : Nat) : Follows σ low 0 blank blank := .longest low _

theorem follows_spaced {p q : Rule α} (h : Follows σ low 0 p q) :
    Follows σ low 0 (spaced p) (spaced q) :=
  (follows_blank low).between h (follows_blank low)

theorem follows_word (low : Nat) : Follows σ low 1 word word := (Follows.runs low _).map _

theorem follows_number (low : Nat) : Follows σ low 1 number number := (Follows.runs low _).map _

theorem follows_char (low : Nat) (c : Char) : Follows σ low 0 (char c : Rule Char) (char c) :=
  (Follows.char low c).mono (Nat.le_refl low) (Nat.zero_le 1)

theorem follows_opening (low : Nat) (c : Char) : Follows σ low 1 (opening c) (opening c) :=
  (Follows.char low c).andThen fun o => (follows_blank _).bind fun _ => .pure _ o

theorem follows_closing (low : Nat) (c : Char) : Follows σ low 0 (closing c) (closing c) :=
  (follows_blank low).seqRight (follows_char low c)

theorem follows_stringLiteral (low : Nat) : Follows σ low 1 stringLiteral stringLiteral :=
  ((Follows.char low '"').between (.longest _ _) (follows_char _ '"')).bind fun _ => .pure _ _

theorem follows_charLiteral (low : Nat) : Follows σ low 1 charLiteral charLiteral :=
  ((Follows.char low '\'').between ((Follows.satisfy _ _).mono (Nat.le_refl _) (Nat.zero_le 1))
    (follows_char _ '\'')).bind fun _ => .pure _ _

theorem follows_wordLiteral (low : Nat) : Follows σ low 1 wordLiteral wordLiteral :=
  (((Follows.char low '#').seqRight (follows_number _)).mono (Nat.le_refl low) (by decide)).bind
    fun _ => .pure _ _

theorem follows_natural (low : Nat) : Follows σ low 1 natural natural := (follows_number low).map _

theorem follows_variableName (low : Nat) : Follows σ low 1 variableName variableName :=
  .anyOf (.cons (follows_word low) (.cons ((Follows.char low '#').many1.map _) .nil))

section
variable {t u : Rule Term} (h : Follows σ (low + 1) 1 t u)
include h

theorem follows_abstraction : Follows σ low 1 (abstraction t) (abstraction u) :=
  (Follows.char low '(').andThen fun _ =>
    ((follows_word _).sepBy (follows_char _ ' ')).bind fun _ =>
      (follows_spaced ((Follows.string _ _).mono (Nat.le_refl _) (Nat.zero_le _))).bind fun _ =>
        (h.mono (Nat.le_refl _) (Nat.zero_le 1)).bind fun _ =>
          (follows_char _ ')').bind fun _ => .pure _ _

theorem follows_definition : Follows σ low 1 (definition t) (definition u) :=
  (follows_word low).andThen fun _ =>
    ((((follows_opening _ ' ').seqRight (follows_word _)).mono (Nat.le_refl _)
      (Nat.zero_le _)).many).bind fun _ =>
        (follows_spaced (follows_char _ '=')).bind fun _ =>
          (h.mono (Nat.le_refl _) (Nat.zero_le 1)).bind fun _ => .pure _ _

theorem follows_letBlock : Follows σ low 1 (letBlock t) (letBlock u) :=
  (follows_opening low _).andThen fun _ =>
    ((follows_definition (h.mono (Nat.le_succ _) (Nat.le_refl 1))).sepBy
      ((follows_opening _ ';').mono (Nat.le_refl _) (Nat.zero_le 1))).bind fun _ =>
      (follows_spaced (follows_char _ ';')).bind fun _ =>
        (h.mono (Nat.le_refl _) (Nat.zero_le 1)).bind fun _ =>
          (follows_closing _ _).bind fun _ => .pure _ _

theorem follows_items (left right : Char) :
    Follows σ low 1 (items t left right) (items u left right) :=
  (follows_opening low left).between (h.sepBy (follows_spaced (follows_char _ ',')))
    (follows_closing _ right)

theorem follows_application : Follows σ low 1 (application t) (application u) :=
  ((follows_opening low '(').between (h.sepBy (follows_char _ ' ')) (follows_closing _ ')')).map _

theorem follows_field : Follows σ low 1 (field t) (field u) :=
  (Follows.char low '(').between
    ((((follows_word _).mono (Nat.le_refl _) (Nat.zero_le 1)).bind fun _ =>
      (follows_blank _).bind fun _ =>
        (h.mono (Nat.le_refl _) (Nat.zero_le 1)).bind fun _ => .pure _ _))
    (follows_char _ ')')

theorem follows_constructor : Follows σ low 1 (constructor t) (constructor u) :=
  (follows_word low).andThen fun _ =>
    (follows_blank _).bind fun _ =>
      ((follows_field (h.mono (Nat.le_succ _) (Nat.le_refl 1))).sepBy
        ((follows_opening _ ' ').mono (Nat.le_refl _) (Nat.zero_le 1))).bind fun _ => .pure _ _

theorem follows_record : Follows σ low 1 (record t) (record u) :=
  (((Follows.string low _).mono (Nat.le_refl low) (by decide)).between
    ((follows_constructor (h.mono (Nat.le_succ _) (Nat.le_refl 1))).sepBy
      (follows_spaced (follows_char _ '|')))
    (follows_char _ ')')).map _

theorem follows_sugar : Follows σ low 1 (sugar t) (sugar u) :=
  .firstOf (.cons (follows_abstraction h) (.cons (follows_letBlock h)
    (.cons ((follows_items h '(' ')').map _)
    (.cons (.anyOf (.cons (follows_letBlock h) (.cons (follows_application h)
      (.cons (follows_stringLiteral low) (.cons (follows_charLiteral low)
      (.cons ((follows_items h '[' ']').map _) (.cons (follows_record h) .nil)))))))
    (.cons (follows_wordLiteral low) (.cons (follows_natural low)
      (.cons ((follows_variableName low).map _) .nil)))))))

end

theorem follows_termRule {t u : Nat → Rule Term}
    (h : ∀ d, Follows σ (low + 1) 1 (t d) (u d)) (d : Nat) :
    Follows σ low 1 (termRule t d) (termRule u d) :=
  (follows_sugar (h d)).andThen fun _ =>
    (Follows.many (((Follows.string _ _).seqRight
      (follows_definition ((h (d + 1)).mono (by omega) (Nat.le_refl 1)))).mono
        (Nat.le_refl _) (Nat.zero_le _))).bind fun _ => .pure _ _

end SugaredLambda.Grammar
