import SugaredLambda.Proofs.Grammar.Lexical

/-! Terms by their first character, which decides between the classes of rules. -/
namespace SugaredLambda.Grammar
open SugaredLambda.Parser

def StartsWith {α : Type} (c : Char) (p : Rule α) : Prop :=
  ∀ text, text.head? ≠ some c → p.read text = []

section
variable {α β : Type} {c : Char} {p : Rule α}

theorem StartsWith.bind [Local p] (h : StartsWith c p) (f : α → Rule β) [∀ v, Local (f v)] :
    StartsWith c (p >>= f) := by
  intro text hc
  rw [read_bind, h text hc]
  rfl

theorem StartsWith.map [Local p] (h : StartsWith c p) (f : α → β) : StartsWith c (f <$> p) := by
  intro text hc
  rw [read_map, h text hc]
  rfl

theorem StartsWith.eq_of_mem (h : StartsWith c p) {d : Char} {text : List Char} {x : α × List Char}
    (hx : x ∈ p.read (d :: text)) : d = c := by
  by_contra hne
  rw [h (d :: text) (by simpa using hne)] at hx
  exact absurd hx List.not_mem_nil

theorem startsWith_char (c : Char) : StartsWith c (char c : Rule Char) := by
  intro text hc
  cases text with
  | nil => rfl
  | cons d text => rw [read_char_cons, if_neg (by simpa using hc)]

theorem startsWith_string (c : Char) (word : List Char) :
    StartsWith c (string (c :: word) : Rule (List Char)) := by
  intro text hc
  rw [read_string, if_neg fun h => hc ?_]
  obtain ⟨rest, rfl⟩ := h
  rfl

end

theorem startsWith_opening (c : Char) : StartsWith c (opening c) := (startsWith_char c).bind _

theorem startsWith_stringLiteral : StartsWith '"' stringLiteral :=
  ((startsWith_char _).bind _).bind _

theorem startsWith_charLiteral : StartsWith '\'' charLiteral := ((startsWith_char _).bind _).bind _

theorem startsWith_wordLiteral : StartsWith '#' wordLiteral := ((startsWith_char _).bind _).bind _

section
variable (t : Rule Term) [Local t]

theorem startsWith_abstraction : StartsWith '(' (abstraction t) := (startsWith_char _).bind _

theorem startsWith_letBlock : StartsWith '\x7b' (letBlock t) := (startsWith_opening _).bind _

theorem startsWith_items (left right : Char) : StartsWith left (items t left right) :=
  (startsWith_opening _).bind _

theorem startsWith_application : StartsWith '(' (application t) :=
  ((startsWith_opening _).bind _).map _

theorem startsWith_record : StartsWith '#' (record t) := ((startsWith_string '#' _).bind _).map _

variable (ok : List Char → Bool)

/-- Where no bracket, quote or `#` stands, there can only be a number or a name. -/
theorem ends_sugar_of_token {text : List Char}
    (h : ∀ c ∈ ['(', '\x7b', '[', '"', '\'', '#'], text.head? ≠ some c) :
    (sugar t).ends ok text = (firstOf [natural, .var <$> variableName]).ends ok text := by
  simp only [List.forall_mem_cons] at h
  obtain ⟨hparen, hbrace, hbracket, hdouble, hsingle, hhash, -⟩ := h
  rw [sugar, ends_firstOf_of_nil (startsWith_abstraction t _ hparen),
    ends_firstOf_of_nil (startsWith_letBlock t _ hbrace),
    ends_firstOf_of_nil ((startsWith_items t _ _).map _ _ hparen),
    ends_firstOf_of_nil ?_, ends_firstOf_of_nil (startsWith_wordLiteral _ hhash)]
  simp only [read_anyOf_cons, read_anyOf_nil, startsWith_letBlock t _ hbrace,
    startsWith_application t _ hparen, startsWith_stringLiteral _ hdouble,
    startsWith_charLiteral _ hsingle, (startsWith_items t _ _).map _ _ hbracket,
    startsWith_record t _ hhash, List.append_nil]

theorem ends_sugar_of_abstraction {text : List Char} (h : (abstraction t).ends ok text ≠ []) :
    (sugar t).ends ok text = (abstraction t).ends ok text :=
  ends_firstOf_of_ne_nil (read_ne_nil_of_ends ok h) ok

theorem ends_sugar_of_letBlock {text : List Char} (h : (letBlock t).ends ok ('\x7b' :: text) ≠ []) :
    (sugar t).ends ok ('\x7b' :: text) = (letBlock t).ends ok ('\x7b' :: text) := by
  rw [sugar, ends_firstOf_of_nil (startsWith_abstraction t _ (by simp)),
    ends_firstOf_of_ne_nil (read_ne_nil_of_ends ok h)]

theorem ends_sugar_of_tuple {text : List Char} (habs : (abstraction t).read ('(' :: text) = [])
    (h : (items t '(' ')').ends ok ('(' :: text) ≠ []) :
    (sugar t).ends ok ('(' :: text) = (Term.tuple <$> items t '(' ')').ends ok ('(' :: text) := by
  rw [sugar, ends_firstOf_of_nil habs,
    ends_firstOf_of_nil (startsWith_letBlock t _ (by simp)),
    ends_firstOf_of_ne_nil (read_ne_nil_of_ends ok (by simpa [ends_map] using h))]

theorem ends_sugar_of_fourth {c : Char} (hparen : c ≠ '(') (hbrace : c ≠ '\x7b') {text : List Char}
    {found : List (Term × List Char)} (hfound : found ≠ [])
    (h : stringLiteral.ends ok (c :: text) ++ (charLiteral.ends ok (c :: text) ++
      ((Term.list <$> items t '[' ']').ends ok (c :: text) ++ (record t).ends ok (c :: text))) =
        found) :
    (sugar t).ends ok (c :: text) = found := by
  have hclass :
      (anyOf [letBlock t, application t, stringLiteral, charLiteral, .list <$> items t '[' ']',
      record t]).ends ok (c :: text) = found := by
    simp only [ends_anyOf_cons, ends_anyOf_nil,
      ends_eq_nil (startsWith_letBlock t (c :: text) (by simpa)),
      ends_eq_nil (startsWith_application t (c :: text) (by simpa)), List.nil_append,
      List.append_nil, h]
  rw [sugar, ends_firstOf_of_nil (startsWith_abstraction t _ (by simpa)),
    ends_firstOf_of_nil (startsWith_letBlock t (c :: text) (by simpa)),
    ends_firstOf_of_nil ((startsWith_items t '(' ')').map Term.tuple _ (by simpa)),
    ends_firstOf_of_ne_nil (read_ne_nil_of_ends ok (by rwa [hclass])), hclass]

theorem ends_sugar_of_application {text : List Char}
    (habs : (abstraction t).read ('(' :: text) = [])
    (htuple : (items t '(' ')').read ('(' :: text) = [])
    (h : (application t).ends ok ('(' :: text) ≠ []) :
    (sugar t).ends ok ('(' :: text) = (application t).ends ok ('(' :: text) := by
  have hclass :
      (anyOf [letBlock t, application t, stringLiteral, charLiteral, .list <$> items t '[' ']',
      record t]).ends ok ('(' :: text) = (application t).ends ok ('(' :: text) := by
    simp only [ends_anyOf_cons, ends_anyOf_nil, List.nil_append, List.append_nil,
      ends_eq_nil (startsWith_letBlock t ('(' :: text) (by simp)),
      ends_eq_nil (startsWith_stringLiteral ('(' :: text) (by simp)),
      ends_eq_nil (startsWith_charLiteral ('(' :: text) (by simp)),
      ends_eq_nil ((startsWith_items t '[' ']').map Term.list ('(' :: text) (by simp)),
      ends_eq_nil (startsWith_record t ('(' :: text) (by simp))]
  rw [sugar, ends_firstOf_of_nil habs, ends_firstOf_of_nil (startsWith_letBlock t _ (by simp)),
    ends_firstOf_of_nil (by rw [read_map, htuple]; rfl),
    ends_firstOf_of_ne_nil (read_ne_nil_of_ends ok (by rwa [hclass])), hclass]

theorem read_record_of_ne {text : List Char} (h : text.head? ≠ some '(') :
    (record t).read ('#' :: text) = [] := by
  have hword : (string "#(".toList : Rule (List Char)).read ('#' :: text) = [] := by
    rw [read_string, if_neg fun hstart => h ?_]
    obtain ⟨rest, hrest⟩ := hstart
    obtain rfl := (List.cons.inj hrest).2
    rfl
  rw [record, read_map, between, read_bind, hword]
  rfl

/-- Behind `#` there is a number or another `#`, or a record begins. -/
theorem ends_sugar_of_hash {text : List Char} (h : text.head? ≠ some '(') :
    (sugar t).ends ok ('#' :: text) =
      (firstOf [wordLiteral, natural, .var <$> variableName]).ends ok ('#' :: text) := by
  rw [sugar, ends_firstOf_of_nil (startsWith_abstraction t _ (by simp)),
    ends_firstOf_of_nil (startsWith_letBlock t _ (by simp)),
    ends_firstOf_of_nil ((startsWith_items t '(' ')').map Term.tuple _ (by simp)),
    ends_firstOf_of_nil ?_]
  simp only [read_anyOf_cons, read_anyOf_nil, List.append_nil, read_record_of_ne t h,
    startsWith_letBlock t ('#' :: text) (by simp), startsWith_application t ('#' :: text) (by simp),
    startsWith_stringLiteral ('#' :: text) (by simp),
    startsWith_charLiteral ('#' :: text) (by simp),
    (startsWith_items t '[' ']').map Term.list ('#' :: text) (by simp)]

end

end SugaredLambda.Grammar
