import SugaredLambda.Proofs.Grammar.Definitions

/-! A written term is the one reading of its text that does not stop within a token
(`ends_sugar_chars`). -/
namespace SugaredLambda
open SugaredLambda.Parser SugaredLambda.Grammar

/-- No sign can be taken from a name that stands alone behind the head of an abstraction or a
definition, or that could itself be part of such a head. -/
inductive Term.Clear : Term → Prop
  | abs {ps : List String} {b : Term} (alone : ¬b.Hides arrow) (body : b.Clear) : Clear (.abs ps b)
  | app {ts : List Term} (alone : ∀ t ∈ ts, ¬t.Hides arrow) (terms : ∀ t ∈ ts, t.Clear) :
      Clear (.app ts)
  | var (x : String) : Clear (.var x)
  | nat (n : Nat) : Clear (.nat n)
  | list {ts : List Term} (terms : ∀ t ∈ ts, t.Clear) : Clear (.list ts)
  | tuple {ts : List Term} (alone : ∀ t, ts = [t] → ¬t.Hides arrow) (terms : ∀ t ∈ ts, t.Clear) :
      Clear (.tuple ts)
  | char (s : String) : Clear (.char s)
  | str (s : String) : Clear (.str s)
  | word (n : Nat) : Clear (.word n)
  | letIn {bs : List (Binding Term)} {b : Term} (alone : ∀ x ∈ bs, ¬x.body.Hides equals)
    (bodies : ∀ x ∈ bs, x.body.Clear) (body : b.Clear) : Clear (.letIn bs b)

namespace Grammar

section
variable (t : Rule Term) [Local t]

theorem ends_sugar_of_beginning (ok : List Char → Bool) {text : List Char}
    (h : text.head?.any isBeginning = false) : (sugar t).ends ok text = [] := by
  have hhead {c : Char} (hc : isBeginning c) : text.head? ≠ some c := by
    intro htext
    simp [htext, hc] at h
  have hdigit : ∀ c ∈ text.head?, c.isDigit = false := fun c hc => by
    by_contra hdigit
    have hword := isWordChar_of_isDigit (Bool.of_not_eq_false hdigit)
    exact hhead (isBeginning_of_isToken (isToken_of_isWordChar hword)) hc
  have hword : word.read text = [] := by
    cases text with
    | nil => rw [word, read_map, read_runs_nil]; rfl
    | cons c text =>
      refine read_word_of_head ?_ text
      by_contra hword
      exact hhead (isBeginning_of_isToken (isToken_of_isWordChar (Bool.of_not_eq_false hword))) rfl
  have hname : variableName.read text = [] := by
    rw [variableName, read_anyOf_cons, read_anyOf_cons, hword, read_map,
      startsWith_many1_char '#' text (hhead (by decide))]
    rfl
  have hall : ∀ c ∈ ['(', '\x7b', '[', '"', '\'', '#'], isBeginning c :=
    List.all_eq_true.1 (by decide)
  rw [ends_sugar_of_token t ok fun c hc => hhead (hall c hc),
    ends_firstOf_of_nil (read_natural_of_head hdigit), ends_eq_nil]
  rw [read_firstOf_cons, read_map, hname]
  rfl

theorem needsBeginning_of_endsTerm {text : List Char} (h : EndsTerm text) :
    text.head?.any isBeginning = false := by
  cases text with
  | nil => rfl
  | cons c text =>
    rcases h c rfl with rfl | hc
    · rfl
    · simp [hc.facts]

theorem rest_of_mem_sugar {w text : List Char} (hw : ∀ c ∈ w, isWordChar c) (htext : EndsTerm text)
    {x : Term × List Char} (hx : x ∈ (sugar t).read (w ++ text)) :
    x.2 = text ∨ stops x.2 = false := by
  cases w with
  | nil =>
    rw [← ends_true, List.nil_append,
      ends_sugar_of_beginning t _ (needsBeginning_of_endsTerm htext)] at hx
    exact absurd hx List.not_mem_nil
  | cons c w =>
    have hc := hw c List.mem_cons_self
    have hrest {u : List Char} (hu : ∀ c ∈ u, isWordChar c) (heq : c :: w ++ text = u ++ x.2) :
        x.2 = text ∨ stops x.2 = false := by
      rcases rest_of_append heq hu hw (isWordChar_of_endsTerm htext) with h | ⟨d, l, h, hd⟩
      · exact .inl h
      · exact .inr (by rw [h]; simp [isToken_of_isWordChar hd])
    rw [← ends_true, List.cons_append, ends_sugar_of_word t _ hc, ends_true] at hx
    rcases mem_read_firstOf_cons hx with hx | ⟨-, hx⟩
    · rw [natural, read_map] at hx
      obtain ⟨y, hy, rfl⟩ := List.mem_map.1 hx
      obtain ⟨u, heq, -, hu⟩ := mem_read_number hy
      exact hrest (fun d hd => isWordChar_of_isDigit (hu d hd)) heq
    · rcases mem_read_firstOf_cons hx with hx | ⟨-, hx⟩
      · rw [read_map] at hx
        obtain ⟨y, hy, rfl⟩ := List.mem_map.1 hx
        obtain ⟨heq, hword | ⟨n, hhash⟩⟩ := mem_read_variableName hy
        · exact hrest hword.2 heq
        · rw [hhash] at heq
          exact absurd (List.cons.inj heq).1 (ne_of_isWordChar hc (by decide))
      · exact absurd hx List.not_mem_nil

end

/-- The definitions below a term, of which there can only be some behind the end of a line. -/
def below (d : Nat) (t : Term) : Rule Term := do
  let bindings ← many (string (Term.indentation d) *> definition (bare (d + 1)))
  return if bindings.isEmpty then t else .letIn bindings t

instance (d : Nat) (t : Term) : Local (below d t) := inferInstanceAs (Local (_ >>= _))

theorem read_below {text : List Char} (h : text.head? ≠ some '\n') (d : Nat) (t : Term) :
    (below d t).read text = [(t, text)] := by
  have hnone : (string (Term.indentation d) *> definition (bare (d + 1))).read text = [] := by
    have hline : (string (Term.indentation d) : Rule (List Char)).read text = [] :=
      startsWith_string '\n' _ text h
    rw [read_seqRight, hline]
    rfl
  rw [← ends_true, below, ends_many_bind_of_nil hnone, ends_true]
  rfl

theorem read_bare_eq (d : Nat) (text : List Char) :
    (bare d).read text = (sugar (bare d) >>= below d).read text := read_bare d text

theorem ends_bare_eq (d : Nat) (ok : List Char → Bool) (text : List Char) :
    (bare d).ends ok text = (sugar (bare d) >>= below d).ends ok text := by
  rw [ends, read_bare_eq]
  rfl

theorem inner_bare (d : Nat) : Inner (bare d) where
  needs text h := by
    rw [read_bare_eq, read_bind, ← ends_true, ends_sugar_of_beginning _ _ h]
    rfl
  onWord w text hw htext x hx := by
    rw [read_bare_eq] at hx
    obtain ⟨y, hy, hx⟩ := mem_read_bind.1 hx
    have hrest := rest_of_mem_sugar _ hw htext hy
    have hhead : y.2.head? ≠ some '\n' := by
      rcases hrest with h | h
      · rw [h]
        intro hline
        have := htext '\n' hline
        exact absurd this (by decide)
      · exact head_ne_of_stops h (by decide)
    rw [read_below hhead] at hx
    rw [List.mem_singleton.1 hx]
    exact hrest

/-- What may stand behind a term before its definitions: what may stand behind an inner term, or the
end of a line. -/
def EndsSugar (rest : List Char) : Prop := ∀ c ∈ rest.head?, c = ' ' ∨ IsMark c ∨ c = '\n'

theorem EndsTerm.endsSugar {rest : List Char} (h : EndsTerm rest) : EndsSugar rest :=
  fun c hc => (h c hc).imp_right .inl

theorem EndsSugar.stops {rest : List Char} (h : EndsSugar rest) : stops rest := by
  cases rest with
  | nil => rfl
  | cons c rest =>
    rcases h c rfl with rfl | hc | rfl
    · rfl
    · simp [hc.facts]
    · rfl

theorem EndsSugar.head_ne {rest : List Char} (h : EndsSugar rest) : rest.head? ≠ some '(' := by
  intro hhead
  exact absurd (h '(' hhead) (by decide)

theorem reads_bare {t : Term} (ht : t.Written) (d : Nat)
    (h : ∀ rest, EndsSugar rest → (sugar (bare d)).ends stops (t.chars ++ rest) = [(t, rest)]) :
    Reads (bare d) t where
  once rest hrest := by
    have hline : rest.head? ≠ some '\n' := fun hhead => absurd (hrest '\n' hhead) (by decide)
    rw [ends_bare_eq, ends_bind_of stops fun x _ hx => ?_, h rest hrest.endsSugar,
      List.flatMap_singleton, ends, read_below hline]
    · simp [hrest.endsSugar.stops]
    · rw [ends, read_below (head_ne_of_stops hx (by decide))]
      simp [hx]
  head := isBeginning_head ht

theorem ends_of_read {α : Type} {p : Rule α} {text rest : List Char} {v : α}
    (h : p.read text = [(v, rest)]) {ok : List Char → Bool} (hok : ok rest) :
    p.ends ok text = [(v, rest)] := by
  rw [ends, h]
  simp [hok]

section
variable {p : Rule Term} [Local p] (hp : Inner p) {rest : List Char}
include hp

theorem ends_sugar_abs {ps : List String} {b : Term} (hps : ∀ x ∈ ps, IsWord x) (hb : Reads p b)
    (hw : b.Written) (alone : ¬b.Hides arrow) (hrest : stops rest) :
    (sugar p).ends stops ((Term.abs ps b).chars ++ rest) = [(.abs ps b, rest)] := by
  have hreach := not_reaches_term isSign_arrow hw alone (endsTerm_cons (.inr (by decide)) rest)
    (not_reaches_mark isSign_arrow (c := ')') (by decide) rest)
  have hread := ends_of_read (read_abstraction hp hps hb hreach) hrest
  have htext : (Term.abs ps b).chars ++ rest =
      '(' :: ([' '].intercalate (ps.map (·.toList)) ++
        ' ' :: (arrow ++ ' ' :: (b.chars ++ ')' :: rest))) := by
    rw [Term.chars_abs]
    simp [arrow]
  rw [htext, ends_sugar_of_abstraction _ _ (by rw [hread]; simp), hread]

theorem ends_sugar_app {ts : List Term} (several : 2 ≤ ts.length) (hts : ∀ t ∈ ts, Reads p t)
    (alone : ∀ t ∈ ts, t.Written ∧ ¬t.Hides arrow) (hrest : stops rest) :
    (sugar p).ends stops ((Term.app ts).chars ++ rest) = [(.app ts, rest)] := by
  have hread := ends_of_read (read_application hts hp.needs rest) hrest
  have htext : (Term.app ts).chars ++ rest =
      '(' :: ([' '].intercalate (ts.map Term.chars) ++ ')' :: rest) := by
    rw [Term.chars_app]
    simp
  have habs :
      (abstraction p).read ('(' :: ([' '].intercalate (ts.map Term.chars) ++ ')' :: rest)) = [] :=
    read_abstraction_eq_nil fun before rest' heq hbefore => absurd ⟨before, rest', heq, hbefore⟩
      (not_reaches_row isSign_arrow alone (by decide) rest)
  rw [htext, ends_sugar_of_application _ _ habs (read_items_of_application hts several rest) (by
    rw [hread]; simp), hread]

theorem ends_sugar_list {ts : List Term} (hts : ∀ t ∈ ts, Reads p t) (hrest : stops rest) :
    (sugar p).ends stops ((Term.list ts).chars ++ rest) = [(.list ts, rest)] := by
  have hitems := read_items hts hp.needs '[' ']' (by decide) (by decide) rest
  have htext : (Term.list ts).chars ++ rest =
      '[' :: ([','].intercalate (ts.map Term.chars) ++ ']' :: rest) := by
    rw [Term.chars_list]
    simp
  rw [htext]
  refine ends_sugar_of_fourth _ _ (by decide) (by decide) (by simp) ?_
  rw [ends_eq_nil (startsWith_stringLiteral _ (by simp)),
    ends_eq_nil (startsWith_charLiteral _ (by simp)), ends_eq_nil (startsWith_record _ _ (by simp)),
    ends_map, ends_of_read hitems hrest]
  rfl

theorem ends_sugar_tuple {ts : List Term} (hts : ∀ t ∈ ts, Reads p t) (terms : ∀ t ∈ ts, t.Written)
    (alone : ∀ t, ts = [t] → ¬t.Hides arrow) (hrest : stops rest) :
    (sugar p).ends stops ((Term.tuple ts).chars ++ rest) = [(.tuple ts, rest)] := by
  have hitems := ends_of_read (read_items hts hp.needs '(' ')' (by decide) (by decide) rest) hrest
  have htext : (Term.tuple ts).chars ++ rest =
      '(' :: ([','].intercalate (ts.map Term.chars) ++ ')' :: rest) := by
    rw [Term.chars_tuple]
    simp
  rw [htext, ends_sugar_of_tuple _ _ (read_abstraction_tuple hp terms alone rest)
    (by rw [hitems]; simp), ends_map, hitems]
  rfl

theorem ends_sugar_letIn {bs : List (Binding Term)} {b : Term} (hb : Reads p b) (hw : b.Written)
    (hbs : ∀ x ∈ bs, (IsWord x.name ∧ ∀ y ∈ x.params, IsWord y) ∧ x.body.Written ∧ Reads p x.body ∧
      ¬x.body.Hides equals) (hrest : stops rest) :
    (sugar p).ends stops ((Term.letIn bs b).chars ++ rest) = [(.letIn bs b, rest)] := by
  have hread := ends_of_read (read_letBlock hp hb hw hbs rest) hrest
  rw [Term.chars_letIn, List.cons_append] at hread ⊢
  rw [ends_sugar_of_letBlock _ _ (by rw [hread]; simp), hread]

end

theorem ends_sugar_chars {t : Term} (ht : t.Written) (hclear : t.Clear) (d : Nat) {rest : List Char}
    (hrest : EndsSugar rest) : (sugar (bare d)).ends stops (t.chars ++ rest) = [(t, rest)] := by
  have hin := inner_bare d
  have hreads {t : Term} (ht : t.Written) (ih : t.Clear → ∀ {rest : List Char}, EndsSugar rest →
      (sugar (bare d)).ends stops (t.chars ++ rest) = [(t, rest)])
    (hclear : t.Clear) : Reads (bare d) t :=
    reads_bare ht d fun rest hrest => ih hclear hrest
  induction ht generalizing rest with
  | nat n => exact ends_sugar_nat _ n hrest.stops
  | var name => exact ends_sugar_name _ name hrest.stops hrest.head_ne
  | char c =>
    rw [Term.chars_char]
    exact ends_sugar_char _ c hrest.stops
  | @str s content =>
    have hread := ends_sugar_str (bare d) content hrest.stops
    rw [Term.chars_str, List.cons_append, List.append_assoc]
    exact hread
  | word fits =>
    rw [Term.chars_word]
    exact ends_sugar_word _ fits hrest.stops
  | abs params body ih =>
    cases hclear with | abs alone hbody
    exact ends_sugar_abs hin params (hreads body ih hbody) body alone hrest.stops
  | @app ts several terms ih =>
    cases hclear with | app alone hterms
    have hts : ∀ t ∈ ts, Reads (bare d) t := fun t ht => hreads (terms t ht) (ih t ht) (hterms t ht)
    exact ends_sugar_app hin several hts (fun t ht => ⟨terms t ht, alone t ht⟩) hrest.stops
  | list terms ih =>
    cases hclear with | list hterms
    exact ends_sugar_list hin (fun t ht => hreads (terms t ht) (ih t ht) (hterms t ht)) hrest.stops
  | tuple terms ih =>
    cases hclear with | tuple alone hterms
    exact ends_sugar_tuple hin (fun t ht => hreads (terms t ht) (ih t ht) (hterms t ht)) terms
      alone hrest.stops
  | letIn names bodies body ihs ih =>
    cases hclear with | letIn alone hbodies hbody
    exact ends_sugar_letIn hin (hreads body ih hbody) body (fun x hx => ⟨names x hx, bodies x hx,
      hreads (bodies x hx) (ihs x hx) (hbodies x hx), alone x hx⟩) hrest.stops

end Grammar
end SugaredLambda
