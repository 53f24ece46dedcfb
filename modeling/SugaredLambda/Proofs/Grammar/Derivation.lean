import Mathlib
import SugaredLambda.Proofs.Grammar.Lexical
import SugaredLambda.Proofs.Parser.Derivation

/-! The productions of the grammar as relations. The terms inside a term stand further on, which
makes them a definition. -/
namespace SugaredLambda.Grammar

namespace Production
open SugaredLambda.Derivation

def sp : Derivation (List Char) := longest Text.isBlank

def spaced {α : Type} (P : Derivation α) : Derivation α := between sp sp P

def word : Derivation String := String.ofList <$> runs isWordChar

def digits : Derivation Nat := (Nat.ofDigitChars 10 · 0) <$> runs Char.isDigit

/-- `'"' <any chars up to the first '"'> '"'` -/
def str : Derivation Term := do
  let s ← between (char '"') (char '"') (longest (· != '"'))
  return .str (String.ofList s)

/-- `"'" <any char> "'"` -/
def chr : Derivation Term := do
  let c ← between (char '\'') (char '\'') (satisfy fun _ => true)
  return .char (String.singleton c)

/-- `"#" digits` -/
def wrd : Derivation Term := do
  let n ← char '#' *> digits
  return .word (Bits.truncate n Bits.wordWidth)

def num : Derivation Term := .nat <$> digits

/-- `word | "#"+` -/
def var : Derivation String := anyOf [word, String.ofList <$> many1 (char '#')]

def opening (c : Char) : Derivation Char := do
  let o ← char c
  let _ ← sp
  return o

def closing (c : Char) : Derivation Char := sp *> char c

variable (T : Derivation Term)

/-- `"(" sepBy(word, " ") sp "->" sp term d ")"` -/
def lam : Derivation Term := do
  let _ ← char '('
  let params ← sepBy word (char ' ')
  let _ ← spaced (string "->".toList)
  let body ← T
  let _ ← char ')'
  return .abs params body

/-- `sepBy1(word, " " sp) sp "=" sp term d` -/
def definition : Derivation (Binding Term) := do
  let name ← word
  let params ← many (opening ' ' *> word)
  let _ ← spaced (char '=')
  let body ← T
  return ⟨name, params, body⟩

/-- An opening brace, `sp sepBy(def d, ";" sp) sp ";" sp term d sp` and a closing one. -/
def block : Derivation Term := do
  let _ ← opening '\x7b'
  let bindings ← sepBy (definition T) (opening ';')
  let _ ← spaced (char ';')
  let body ← T
  let _ ← closing '\x7d'
  return .letIn bindings body

/-- `left sp sepBy(term d, sp "," sp) sp right` -/
def items (left right : Char) : Derivation (List Term) :=
  between (opening left) (closing right) (sepBy T (spaced (char ',')))

/-- `"(" sp sepBy(term d, " ") sp ")"` -/
def app : Derivation Term := .app <$> between (opening '(') (closing ')') (sepBy T (char ' '))

/-- `"(" word sp term d ")"` -/
def field : Derivation (Field Term) := between (char '(') (char ')') do
  let name ← word
  let _ ← sp
  let body ← T
  return ⟨name, body⟩

/-- `word sp sepBy(field, " " sp)` -/
def ctor : Derivation (Constructor Term) := do
  let name ← word
  let _ ← sp
  let fields ← sepBy (field T) (opening ' ')
  return ⟨name, fields⟩

/-- `"#(" sepBy(ctor, sp "|" sp) ")"` -/
def adt : Derivation Term :=
  .record <$> between (string "#(".toList) (char ')') (sepBy (ctor T) (spaced (char '|')))

def sugar : Derivation Term := firstOf [
  lam T,
  block T,
  .tuple <$> items T '(' ')',
  anyOf [block T, app T, str, chr, .list <$> items T '[' ']', adt T],
  wrd,
  num,
  .var <$> var]

/-- A term at depth `d`, and below it `many("\n" + 4*(d+1) spaces, def (d+1))`. -/
def term (T : Nat → Derivation Term) (d : Nat) : Derivation Term := do
  let t ← sugar (T d)
  let bindings ← many (string ('\n' :: List.replicate (4 * (d + 1)) ' ') *> definition (T (d + 1)))
  return if bindings.isEmpty then t else .letIn bindings t

end Production

/-- The grammar derives a term at a depth from the beginning of a text and leaves a rest. -/
def Derives (d : Nat) (text : List Char) (t : Term) (rest : List Char) : Prop :=
  Production.term (fun d next t rest => ∃ _h : next.length < text.length,
    Derives d next t rest) d text t rest
termination_by text.length

open SugaredLambda.Parser

section
variable {n : Nat} {α : Type} {p : Rule α} {P : Derivation α}

theorem describes_blank (n : Nat) : Describes n 0 blank Production.sp := .longest n _

theorem describes_spaced (h : Describes n 0 p P) : Describes n 0 (spaced p) (Production.spaced P) :=
  (describes_blank n).next fun _ => h.next fun v => (describes_blank n).next fun _ => .pure n v

theorem describes_word (n : Nat) : Describes n 1 word Production.word := (Describes.runs n _).map _

theorem describes_number (n : Nat) : Describes n 1 number Production.digits :=
  (Describes.runs n _).map _

theorem describes_char (n : Nat) (c : Char) : Describes n 0 (char c : Rule Char) (.char c) :=
  (Describes.char n c).forget

theorem describes_opening (n : Nat) (c : Char) : Describes n 1 (opening c) (Production.opening c) :=
  (Describes.char n c).bind fun o => (describes_blank _).next fun _ => .pure _ o

theorem describes_closing (n : Nat) (c : Char) : Describes n 0 (closing c) (Production.closing c) :=
  (describes_blank n).next fun _ => describes_char n c

theorem describes_stringLiteral (n : Nat) : Describes (n + 1) 1 stringLiteral Production.str :=
  ((Describes.char _ '"').between (.longest n _) (describes_char n '"')).bind fun _ => .pure _ _

theorem describes_charLiteral (n : Nat) : Describes (n + 1) 1 charLiteral Production.chr :=
  ((Describes.char _ '\'').between (Describes.satisfy n _).forget (describes_char n '\'')).bind
    fun _ => .pure _ _

theorem describes_wordLiteral (n : Nat) : Describes n 1 wordLiteral Production.wrd :=
  ((Describes.char n '#').bind fun _ => (describes_number _).forget).bind fun _ => .pure _ _

theorem describes_natural (n : Nat) : Describes n 1 natural Production.num :=
  (describes_number n).map _

theorem describes_variableName (n : Nat) : Describes (n + 1) 1 variableName Production.var :=
  .anyOf (.cons (describes_word _) (.cons ((Describes.char _ '#').many1.map _) .nil))

variable {t : Rule Term} {T : Derivation Term} (h : Describes n 1 t T)
include h

theorem describes_abstraction : Describes (n + 1) 1 (abstraction t) (Production.lam T) :=
  (Describes.char _ '(').andThen fun _ =>
    ((describes_word n).sepBy (describes_char n ' ')).next fun _ =>
      (describes_spaced (Describes.string n _).forget).next fun _ =>
        h.next fun _ => (describes_char n ')').next fun _ => .pure n _

theorem describes_definition : Describes (n + 1) 1 (definition t) (Production.definition T) :=
  (describes_word _).andThen fun _ =>
    (Describes.many ((describes_opening n ' ').bind fun _ => (describes_word _).forget)).next
        fun _ =>
      (describes_spaced (describes_char n '=')).next fun _ => h.next fun _ => .pure n _

theorem describes_letBlock : Describes (n + 1) 1 (letBlock t) (Production.block T) :=
  (describes_opening _ _).andThen fun _ =>
    (((describes_definition h).mono (Nat.le_succ n) (Nat.le_refl 1)).sepBy
        (describes_opening n ';')).next fun _ =>
      (describes_spaced (describes_char n ';')).next fun _ =>
        h.next fun _ => (describes_closing n _).next fun _ => .pure n _

theorem describes_items (left right : Char) :
    Describes (n + 1) 1 (items t left right) (Production.items T left right) :=
  (describes_opening _ left).between (h.sepBy (describes_spaced (describes_char n ',')))
    (describes_closing n right)

theorem describes_application : Describes (n + 1) 1 (application t) (Production.app T) :=
  ((describes_opening _ '(').between (h.sepBy (describes_char n ' '))
    (describes_closing n ')')).map _

theorem describes_field : Describes (n + 1) 1 (field t) (Production.field T) :=
  (Describes.char _ '(').between
    ((describes_word n).next fun _ => (describes_blank n).next fun _ => h.next fun _ => .pure n _)
    (describes_char n ')')

theorem describes_constructor : Describes (n + 1) 1 (constructor t) (Production.ctor T) :=
  (describes_word _).andThen fun _ => (describes_blank n).next fun _ =>
    (((describes_field h).mono (Nat.le_succ n) (Nat.le_refl 1)).sepBy
      (describes_opening n ' ')).next fun _ => .pure n _

theorem describes_record : Describes (n + 1) 1 (record t) (Production.adt T) :=
  (((Describes.string _ _).mono (Nat.le_refl _) (by decide)).between
    (((describes_constructor h).mono (Nat.le_succ n) (Nat.le_refl 1)).sepBy
      (describes_spaced (describes_char n '|'))) (describes_char n ')')).map _

theorem describes_sugar : Describes (n + 1) 1 (sugar t) (Production.sugar T) :=
  .firstOf (.cons (describes_abstraction h) (.cons (describes_letBlock h)
    (.cons ((describes_items h '(' ')').map _)
    (.cons (.anyOf (.cons (describes_letBlock h) (.cons (describes_application h)
      (.cons (describes_stringLiteral n) (.cons (describes_charLiteral n)
      (.cons ((describes_items h '[' ']').map _) (.cons (describes_record h) .nil)))))))
    (.cons (describes_wordLiteral _) (.cons (describes_natural _)
      (.cons ((describes_variableName n).map _) .nil)))))))

end

theorem indentation_eq (d : Nat) :
    Term.indentation d = '\n' :: List.replicate (4 * (d + 1)) ' ' := by
  rw [Nat.mul_comm]
  rfl

theorem describes_termRule {n : Nat} {t : Nat → Rule Term} {T : Nat → Derivation Term}
    (h : ∀ d, Describes n 1 (t d) (T d)) (d : Nat) :
    Describes (n + 1) 1 (termRule t d) (Production.term T d) := by
  have hbelow : Describes n 1 (string (Term.indentation d) *> definition (t (d + 1)))
      (Derivation.string ('\n' :: List.replicate (4 * (d + 1)) ' ') *>
        Production.definition (T (d + 1))) := by
    rw [← indentation_eq]
    exact (Describes.string n _).next fun _ => (describes_definition (h (d + 1))).mono
      (Nat.le_succ n) (Nat.le_refl 1)
  exact (describes_sugar (h d)).andThen fun _ => hbelow.many.next fun _ => .pure n _

theorem describes_bare (n d : Nat) : Describes n 1 (bare d) (Derives d) := by
  induction n generalizing d with
  | zero => exact .zero 1 (bare d) (Derives d)
  | succ n ih =>
    -- the terms inside a term stand where the text is shorter, and there the hypothesis knows them
    have hrule (text : List Char) (ht : text.length < n + 1) :=
      describes_termRule (fun d => ((ih d).mono (Nat.le_of_lt_succ ht) (Nat.le_refl 1)).guarded) d
    refine ⟨inferInstance, fun {text} ht v rest => ?_, fun {text} ht {v rest} hv => ?_⟩
    · rw [read_bare, Derives]
      exact (hrule text ht).mem_iff (Nat.lt_succ_self _) v rest
    · rw [Derives] at hv
      exact (hrule text ht).gains (Nat.lt_succ_self _) hv

/-- What is read of a term is what the grammar derives. -/
theorem mem_read_bare {d : Nat} {text rest : List Char} {t : Term} :
    (t, rest) ∈ (bare d).read text ↔ Derives d text t rest :=
  (describes_bare (text.length + 1) d).mem_iff (Nat.lt_succ_self _) t rest

/-- Nothing need be said of the length of the rest: the terms inside a term are derivations wherever
they stand. -/
theorem derives_eq (d : Nat) : Derives d = Production.term Derives d := by
  funext text t rest
  refine propext (mem_read_bare.symm.trans ?_)
  rw [read_bare]
  exact (describes_termRule (fun d => describes_bare text.length d) d).mem_iff
    (Nat.lt_succ_self _) t rest

/-- The productions have this meaning only, although an alternative may depend on others that
derive nothing. -/
theorem eq_derives {T : Nat → Derivation Term} (hT : ∀ d, T d = Production.term T d) (d : Nat) :
    T d = Derives d := by
  have hdescribes (n d : Nat) : Describes n 1 (bare d) (T d) := by
    induction n generalizing d with
    | zero => exact .zero 1 (bare d) (T d)
    | succ n ih =>
      have hrule := describes_termRule ih d
      rw [hT d]
      refine ⟨inferInstance, fun ht v rest => ?_, hrule.gains⟩
      rw [read_bare]
      exact hrule.mem_iff ht v rest
  funext text t rest
  have hread := (hdescribes (text.length + 1) d).mem_iff (Nat.lt_succ_self _) t rest
  exact propext (hread.symm.trans mem_read_bare)

theorem mem_run_term {text : Array Char} {s : Progress Nat Term} (hs : Remembers text s)
    (d : Nat) {i : Nat} (h : i ≤ text.size) (t : Term) (last : Nat) :
    (t, last) ∈ ((term d text i).run s).1 ↔
      last ≤ text.size ∧ Derives d (text.toList.drop i) t (text.toList.drop last) := by
  obtain ⟨hfound, -, hbounds⟩ := agree_term text d h s s ⟨hs, rfl⟩
  rw [hfound.trans (moved_zero _), ← mem_read_bare, ← tails_run (bare d) h s, tails]
  constructor
  · exact fun hx => ⟨(hbounds _ hx).2, List.mem_map_of_mem hx⟩
  · rintro ⟨hlast, hx⟩
    obtain ⟨y, hy, heq⟩ := List.mem_map.1 hx
    obtain ⟨rfl, hdrop⟩ := Prod.mk.inj heq
    have hsame := congrArg List.length hdrop
    rw [List.length_drop, List.length_drop, Array.length_toList] at hsame
    have hle : y.2 ≤ text.size := (hbounds y hy).2
    obtain rfl : y.2 = last := by omega
    exact hy

theorem mem_complete {source : String} {t : Term} :
    t ∈ (parsed source).complete ↔ Derives 0 (Text.clean source.toList) t [] := by
  rw [parsed, complete_parseClean, List.mem_map, ← mem_read_bare]
  constructor
  · rintro ⟨⟨t, rest⟩, hx, rfl⟩
    obtain ⟨hx, hrest⟩ := List.mem_filter.1 hx
    obtain rfl : rest = [] := List.isEmpty_iff.1 hrest
    exact hx
  · exact fun hx => ⟨_, List.mem_filter.2 ⟨hx, rfl⟩, rfl⟩

theorem parseAll_eq_ok_iff {source : String} {ts : List Term} :
    parseAll source = .ok ts ↔ (parsed source).complete ≠ [] ∧ (parsed source).complete = ts := by
  rw [parseAll, Parse.all]
  cases (parsed source).complete with
  | nil => exact ⟨fun h => (by cases h), fun h => absurd rfl h.1⟩
  | cons t more =>
    exact ⟨fun h => ⟨List.cons_ne_nil t more, Except.ok.inj h⟩, fun h => congrArg Except.ok h.2⟩

/-- The results of a term are the derivations of the grammar, whatever earlier readings of the
text have left to remember, and a program has the readings that the grammar derives from all of
its text. -/
theorem term_reads_derivations :
    (∀ (text : Array Char) (s : Progress Nat Term) (d i : Nat), Remembers text s → i ≤ text.size →
      Remembers text ((term d text i).run s).2 ∧ ∀ t last, (t, last) ∈ ((term d text i).run s).1 ↔
        last ≤ text.size ∧ Derives d (text.toList.drop i) t (text.toList.drop last)) ∧
    ∀ source : String,
      ((∃ ts, parseAll source = .ok ts) ↔ ∃ t, Derives 0 (Text.clean source.toList) t []) ∧
      ∀ ts, parseAll source = .ok ts → ∀ t, t ∈ ts ↔ Derives 0 (Text.clean source.toList) t [] := by
  refine ⟨fun text s d i hs h => ⟨(agree_term text d h s s ⟨hs, rfl⟩).2.1.1, mem_run_term hs d h⟩,
    fun source => ⟨?_, ?_⟩⟩
  · constructor
    · rintro ⟨ts, hts⟩
      obtain ⟨t, ht⟩ := List.exists_mem_of_ne_nil _ (parseAll_eq_ok_iff.1 hts).1
      exact ⟨t, mem_complete.1 ht⟩
    · rintro ⟨t, ht⟩
      exact ⟨_, parseAll_eq_ok_iff.2 ⟨List.ne_nil_of_mem (mem_complete.2 ht), rfl⟩⟩
  · rintro ts hts t
    obtain ⟨-, rfl⟩ := parseAll_eq_ok_iff.1 hts
    exact mem_complete

/-- A word may stop anywhere. -/
theorem term_reads_derivations_ab : Remembers "ab".toList.toArray {} ∧
    (∀ t last, (t, last) ∈ [(Term.var "a", 1), (Term.var "ab", 2)] ↔
      last ≤ 2 ∧ Derives 0 "ab".toList t ("ab".toList.drop last)) := by
  have hrun : ((term 0 "ab".toList.toArray 0).run {}).1 = [(.var "a", 1), (.var "ab", 2)] := by cbv
  have h :=
    (term_reads_derivations.1 "ab".toList.toArray {} 0 0 (remembers_empty _) (Nat.zero_le _)).2
  rw [hrun] at h
  exact ⟨remembers_empty _, h⟩

end SugaredLambda.Grammar
