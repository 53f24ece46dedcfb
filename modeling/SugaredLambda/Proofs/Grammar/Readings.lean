import SugaredLambda.Term.Equality
import SugaredLambda.Proofs.Grammar.Printed

/-! A term that is read from a text is made of names and literals that stand there, and has a
written form (`found_of_mem_bare`). -/
namespace SugaredLambda.Grammar
open SugaredLambda.Parser

/-- A term with a written form, its names and literals taken from a text. -/
structure FoundIn (text : List Char) (t : Term) : Prop where
  written : t.Written
  atoms : ∀ a ∈ t.atoms, a <:+: text

def WordIn (text : List Char) (x : String) : Prop := IsWord x ∧ x.toList <:+: text

/-- What a rule reads behind a place of a text, tagged records apart, is found in the text. -/
def Finds (p : Rule Term) (text rest : List Char) : Prop :=
  ∀ part, part <:+ rest → ∀ x ∈ p.read part, x.1.hasRecord = false → FoundIn text x.1

theorem Finds.suffix {p : Rule Term} {text rest part : List Char} (h : Finds p text rest)
    (hpart : part <:+ rest) :
    Finds p text part := fun part' hpart' => h part' (hpart'.trans hpart)

theorem wordIn_of_mem {text : List Char} {x : String × List Char} (h : x ∈ word.read text) :
    WordIn text x.1 := by
  obtain ⟨hword, htext⟩ := mem_read_word h
  exact ⟨hword, [], x.2, htext.symm⟩

theorem WordIn.suffix {text part : List Char} {x : String} (h : WordIn part x)
    (hpart : part <:+ text) : WordIn text x :=
  ⟨h.1, h.2.trans hpart.isInfix⟩

theorem found_natural {text : List Char} {x : Term × List Char} (h : x ∈ natural.read text) :
    FoundIn text x.1 := by
  obtain ⟨y, -, rfl⟩ := mem_read_map.1 h
  exact ⟨.nat y.1, fun a ha => absurd ha List.not_mem_nil⟩

theorem found_wordLiteral {text : List Char} {x : Term × List Char}
    (h : x ∈ wordLiteral.read text) : FoundIn text x.1 := by
  obtain ⟨y, -, h⟩ := mem_read_bind.1 h
  obtain rfl := mem_read_pure.1 h
  exact ⟨.word (Bits.truncate_lt _ _), fun a ha => absurd ha List.not_mem_nil⟩

theorem found_stringLiteral {text : List Char} {x : Term × List Char}
    (h : x ∈ stringLiteral.read text) : FoundIn text x.1 := by
  obtain ⟨y, hy, h⟩ := mem_read_bind.1 h
  obtain ⟨⟨c, rest⟩, hc, hy⟩ := mem_read_bind.1 hy
  obtain ⟨z, hz, hy⟩ := mem_read_bind.1 hy
  obtain ⟨w, -, hy⟩ := mem_read_bind.1 hy
  obtain rfl := mem_read_pure.1 h
  obtain rfl := mem_read_pure.1 hy
  rw [read_longest] at hz
  obtain rfl := List.mem_singleton.1 hz
  refine ⟨.str ?_, fun a ha => ?_⟩
  · simp only [String.toList_ofList]
    exact fun hmem => absurd (List.all_eq_true.1 List.all_takeWhile _ hmem) (by decide)
  · obtain rfl := List.mem_singleton.1 ha
    rw [String.toList_ofList]
    exact (List.takeWhile_prefix _).isInfix.trans (suffix_of_mem_read hc).isInfix

theorem found_charLiteral {text : List Char} {x : Term × List Char}
    (h : x ∈ charLiteral.read text) : FoundIn text x.1 := by
  obtain ⟨y, hy, h⟩ := mem_read_bind.1 h
  obtain ⟨⟨c, rest⟩, hc, hy⟩ := mem_read_bind.1 hy
  obtain ⟨z, hz, hy⟩ := mem_read_bind.1 hy
  obtain ⟨w, -, hy⟩ := mem_read_bind.1 hy
  obtain rfl := mem_read_pure.1 h
  obtain rfl := mem_read_pure.1 hy
  refine ⟨.char _, fun a ha => ?_⟩
  obtain rfl := List.mem_singleton.1 ha
  cases rest with
  | nil => exact absurd hz List.not_mem_nil
  | cons d rest =>
    rw [read_satisfy_cons, if_pos rfl] at hz
    obtain rfl := List.mem_singleton.1 hz
    rw [String.toList_singleton]
    exact (List.prefix_append [d] rest).isInfix.trans (suffix_of_mem_read hc).isInfix

/-- A name is no number, as numbers come first. -/
theorem found_variable {text : List Char} {x : String × List Char} (h : x ∈ variableName.read text)
    (hnumber : natural.read text = []) : FoundIn text (.var x.1) := by
  obtain ⟨htext, hkind⟩ := mem_read_variableName h
  refine ⟨.var (hkind.imp_left fun hword => ⟨hword, fun c hc => ?_⟩), fun a ha => ?_⟩
  · by_contra hdigit
    obtain ⟨l, hx⟩ := List.head?_eq_some_iff.1 hc
    rw [natural, read_map, number, read_map, htext, hx, List.cons_append, read_runs_cons,
      if_pos (Bool.of_not_eq_false hdigit)] at hnumber
    simp at hnumber
  · obtain rfl := List.mem_singleton.1 ha
    exact ⟨[], x.2, htext.symm⟩

section
variable {p : Rule Term} [Local p] {text rest : List Char}
  (hrest : rest <:+ text) (hp : Finds p text rest)
include hrest hp

theorem found_abstraction {x : Term × List Char} (h : x ∈ (abstraction p).read ('(' :: rest))
    (hrecord : x.1.hasRecord = false) : FoundIn text x.1 := by
  obtain ⟨y, hy, h⟩ := mem_read_bind.1 h
  obtain ⟨⟨ps, behind⟩, hps, h⟩ := mem_read_bind.1 h
  obtain ⟨z, hz, h⟩ := mem_read_bind.1 h
  obtain ⟨w, hw, h⟩ := mem_read_bind.1 h
  obtain ⟨v, -, h⟩ := mem_read_bind.1 h
  obtain rfl := mem_read_pure.1 h
  obtain rfl := (List.cons.inj (mem_read_char hy).1).2
  have hbody := hp z.2 ((suffix_of_mem_read hz).trans (suffix_of_mem_read hps)) w hw hrecord
  have hparams : ∀ q ∈ ps, WordIn text q := fun q hq => by
    obtain ⟨part, hpart, last, hread⟩ := exists_of_mem_sepBy hps q hq
    exact (wordIn_of_mem hread).suffix (hpart.trans hrest)
  refine ⟨.abs (fun q hq => (hparams q hq).1) hbody.written, fun a ha => ?_⟩
  rcases List.mem_append.1 ha with ha | ha
  · obtain ⟨q, hq, rfl⟩ := List.mem_map.1 ha
    exact (hparams q hq).2
  · exact hbody.atoms a ha

omit hrest in
theorem found_row {α : Type} {sep : Rule α} [Local sep] {part : List Char} (hpart : part <:+ rest)
    {x : List Term × List Char} (h : x ∈ (sepBy p sep).read part)
    (hrecord : ∀ t ∈ x.1, t.hasRecord = false) : ∀ t ∈ x.1, FoundIn text t := by
  intro t ht
  obtain ⟨part', hpart', last, hread⟩ := exists_of_mem_sepBy h t ht
  exact hp part' (hpart'.trans hpart) _ hread (hrecord t ht)

omit hrest in
theorem found_items {left right : Char} {x : List Term × List Char}
    (h : x ∈ (items p left right).read (left :: rest)) (hrecord : ∀ t ∈ x.1, t.hasRecord = false) :
    ∀ t ∈ x.1, FoundIn text t := by
  obtain ⟨y, hy, h⟩ := mem_read_bind.1 h
  obtain ⟨z, hz, h⟩ := mem_read_bind.1 h
  obtain ⟨w, -, h⟩ := mem_read_bind.1 h
  obtain rfl := mem_read_pure.1 h
  rw [read_opening] at hy
  obtain rfl := List.mem_singleton.1 hy
  exact found_row (x := z) hp (List.dropWhile_suffix Text.isBlank) hz hrecord

omit hp in
theorem wordsIn_of_mem_namesBy {x : (String × List String) × List Char}
    (h : x ∈ (namesBy (opening ' ')).read rest) : ∀ y ∈ x.1.1 :: x.1.2, WordIn text y := by
  obtain ⟨y, hy, h⟩ := mem_read_bind.1 h
  obtain ⟨z, hz, h⟩ := mem_read_bind.1 h
  obtain rfl := mem_read_pure.1 h
  refine List.forall_mem_cons.2 ⟨(wordIn_of_mem hy).suffix hrest, fun v hv => ?_⟩
  obtain ⟨part, hpart, last, hread⟩ := exists_of_mem_many hz v hv
  obtain ⟨w, hw, hread⟩ := mem_read_bind.1 hread
  exact (wordIn_of_mem hread).suffix
    ((suffix_of_mem_read hw).trans (hpart.trans ((suffix_of_mem_read hy).trans hrest)))

def BindingIn (text : List Char) (x : Binding Term) : Prop :=
  (∀ y ∈ x.name :: x.params, WordIn text y) ∧ (x.body.hasRecord = false → FoundIn text x.body)

theorem found_definition {x : Binding Term × List Char} (h : x ∈ (definition p).read rest) :
    BindingIn text x.1 := by
  rw [← ends_true, ends_definition, ends_true] at h
  obtain ⟨y, hy, h⟩ := mem_read_bind.1 h
  obtain ⟨z, hz, h⟩ := mem_read_bind.1 h
  obtain ⟨w, hw, h⟩ := mem_read_bind.1 h
  obtain rfl := mem_read_pure.1 h
  exact ⟨wordsIn_of_mem_namesBy hrest hy,
    hp z.2 ((suffix_of_mem_read hz).trans (suffix_of_mem_read hy)) w hw⟩

end

theorem found_letIn {text : List Char} {bs : List (Binding Term)} {b : Term}
    (hbs : ∀ x ∈ bs, BindingIn text x) (hb : b.hasRecord = false → FoundIn text b)
    (hrecord : (Term.letIn bs b).hasRecord = false) : FoundIn text (.letIn bs b) := by
  obtain ⟨hrecords, hlast⟩ := Term.hasRecord_letIn_eq_false.1 hrecord
  have hbodies := fun x hx => (hbs x hx).2 (hrecords x hx)
  have hnames := fun x hx => List.forall_mem_cons.1 (hbs x hx).1
  have hbody := hb hlast
  refine ⟨.letIn (fun x hx => ⟨(hnames x hx).1.1, fun y hy => ((hnames x hx).2 y hy).1⟩)
    (fun x hx => (hbodies x hx).written) hbody.written, fun a ha => ?_⟩
  rw [Term.atoms_letIn] at ha
  rcases List.mem_append.1 ha with ha | ha
  · obtain ⟨x, hx, ha⟩ := List.mem_flatMap.1 ha
    rcases List.mem_cons.1 ha with rfl | ha
    · exact (hnames x hx).1.2
    · rcases List.mem_append.1 ha with ha | ha
      · obtain ⟨y, hy, rfl⟩ := List.mem_map.1 ha
        exact ((hnames x hx).2 y hy).2
      · exact (hbodies x hx).atoms a ha
  · exact hbody.atoms a ha

section
variable {p : Rule Term} [Local p] {text rest : List Char}

theorem found_letBlock (hrest : rest <:+ text) (hp : Finds p text rest) {x : Term × List Char}
    (h : x ∈ (letBlock p).read ('\x7b' :: rest)) (hrecord : x.1.hasRecord = false) :
    FoundIn text x.1 := by
  obtain ⟨y, hy, h⟩ := mem_read_bind.1 h
  obtain ⟨⟨bs, behind⟩, hbs, h⟩ := mem_read_bind.1 h
  obtain ⟨z, hz, h⟩ := mem_read_bind.1 h
  obtain ⟨w, hw, h⟩ := mem_read_bind.1 h
  obtain ⟨v, -, h⟩ := mem_read_bind.1 h
  obtain rfl := mem_read_pure.1 h
  rw [read_opening] at hy
  obtain rfl := List.mem_singleton.1 hy
  have hdrop : rest.dropWhile Text.isBlank <:+ rest := List.dropWhile_suffix _
  have hlast : z.2 <:+ rest := (suffix_of_mem_read hz).trans ((suffix_of_mem_read hbs).trans hdrop)
  refine found_letIn (fun b hb => ?_) (hp z.2 hlast w hw) hrecord
  obtain ⟨part, hpart, last, hread⟩ := exists_of_mem_sepBy hbs b hb
  exact found_definition ((hpart.trans hdrop).trans hrest) (hp.suffix (hpart.trans hdrop)) hread

/-- With one term or none, an application would be a tuple. -/
theorem items_ne_nil_of_application {x : Term × List Char} (h : x ∈ (application p).read text) :
    ∃ ts, x.1 = .app ts ∧ (ts.length ≤ 1 → (items p '(' ')').read text ≠ []) := by
  obtain ⟨y, hy, rfl⟩ := mem_read_map.1 h
  refine ⟨y.1, rfl, fun hle => ?_⟩
  obtain ⟨z, hz, hy⟩ := mem_read_bind.1 hy
  obtain ⟨w, hw, hy⟩ := mem_read_bind.1 hy
  obtain ⟨v, hv, hy⟩ := mem_read_bind.1 hy
  obtain rfl := mem_read_pure.1 hy
  exact List.ne_nil_of_mem (mem_read_bind.2 ⟨z, hz, mem_read_bind.2
    ⟨w, mem_read_sepBy_of_le_one hw hle, mem_read_bind.2 ⟨v, hv, mem_read_pure.2 rfl⟩⟩⟩)

end

theorem hasRecord_of_mem_record {p : Rule Term} [Local p] {text : List Char} {x : Term × List Char}
    (h : x ∈ (record p).read text) : x.1.hasRecord := by
  obtain ⟨y, -, rfl⟩ := mem_read_map.1 h
  rfl

theorem isInfix_of_mem_atoms {text : List Char} {ts : List Term} (hts : ∀ t ∈ ts, FoundIn text t) :
    ∀ a ∈ ts.flatMap Term.atoms, a <:+: text := by
  intro a ha
  obtain ⟨t, ht, ha⟩ := List.mem_flatMap.1 ha
  exact (hts t ht).atoms a ha

section
variable {p : Rule Term} [Local p] {c : Char} {rest : List Char} (hp : Finds p (c :: rest) rest)
include hp

theorem found_list {x : Term × List Char} (h : x ∈ (Term.list <$> items p '[' ']').read (c :: rest))
    (hrecord : x.1.hasRecord = false) : FoundIn (c :: rest) x.1 := by
  obtain rfl := ((startsWith_items p _ _).map _).eq_of_mem h
  obtain ⟨y, hy, rfl⟩ := mem_read_map.1 h
  rw [Term.hasRecord_list, Term.any_hasRecord] at hrecord
  have hts := found_items hp hy hrecord
  exact ⟨.list fun t ht => (hts t ht).written, Term.atoms_list y.1 ▸ isInfix_of_mem_atoms hts⟩

theorem found_tuple {x : Term × List Char}
    (h : x ∈ (Term.tuple <$> items p '(' ')').read (c :: rest)) (hrecord : x.1.hasRecord = false) :
    FoundIn (c :: rest) x.1 := by
  obtain rfl := ((startsWith_items p _ _).map _).eq_of_mem h
  obtain ⟨y, hy, rfl⟩ := mem_read_map.1 h
  rw [Term.hasRecord_tuple, Term.any_hasRecord] at hrecord
  have hts := found_items hp hy hrecord
  exact ⟨.tuple fun t ht => (hts t ht).written, Term.atoms_tuple y.1 ▸ isInfix_of_mem_atoms hts⟩

theorem found_application (hitems : (items p '(' ')').read (c :: rest) = []) {x : Term × List Char}
    (h : x ∈ (application p).read (c :: rest)) (hrecord : x.1.hasRecord = false) :
    FoundIn (c :: rest) x.1 := by
  obtain rfl := (startsWith_application p).eq_of_mem h
  obtain ⟨ts, hts, hseveral⟩ := items_ne_nil_of_application h
  obtain ⟨y, hy, rfl⟩ := mem_read_map.1 h
  obtain rfl := Term.app.inj hts
  rw [Term.hasRecord_app, Term.any_hasRecord] at hrecord
  obtain ⟨z, hz, hy⟩ := mem_read_bind.1 hy
  obtain ⟨w, hw, hy⟩ := mem_read_bind.1 hy
  obtain ⟨v, -, hy⟩ := mem_read_bind.1 hy
  obtain rfl := mem_read_pure.1 hy
  rw [read_opening] at hz
  obtain rfl := List.mem_singleton.1 hz
  have hts := found_row (x := w) hp (List.dropWhile_suffix Text.isBlank) hw hrecord
  refine ⟨.app ?_ fun t ht => (hts t ht).written, Term.atoms_app w.1 ▸ isInfix_of_mem_atoms hts⟩
  by_contra hle
  exact hseveral (Nat.le_of_lt_succ (Nat.lt_of_not_le hle)) hitems

theorem found_sugar {x : Term × List Char} (h : x ∈ (sugar p).read (c :: rest))
    (hrecord : x.1.hasRecord = false) : FoundIn (c :: rest) x.1 := by
  have hrest : rest <:+ c :: rest := List.suffix_cons c rest
  have hletBlock (h : x ∈ (letBlock p).read (c :: rest)) : FoundIn (c :: rest) x.1 := by
    obtain rfl := (startsWith_letBlock p).eq_of_mem h
    exact found_letBlock hrest hp h hrecord
  rcases mem_read_firstOf_cons h with h | ⟨-, h⟩
  · obtain rfl := (startsWith_abstraction p).eq_of_mem h
    exact found_abstraction hrest hp h hrecord
  rcases mem_read_firstOf_cons h with h | ⟨-, h⟩
  · exact hletBlock h
  rcases mem_read_firstOf_cons h with h | ⟨htuple, h⟩
  · exact found_tuple hp h hrecord
  rcases mem_read_firstOf_cons h with h | ⟨-, h⟩
  · have hitems : (items p '(' ')').read (c :: rest) = [] := by
      rw [read_map] at htuple
      exact List.map_eq_nil_iff.1 htuple
    simp only [mem_read_anyOf_cons] at h
    rcases h with h | h | h | h | h | h | h
    · exact hletBlock h
    · exact found_application hp hitems h hrecord
    · exact found_stringLiteral h
    · exact found_charLiteral h
    · exact found_list hp h hrecord
    · simp [hasRecord_of_mem_record h] at hrecord
    · exact absurd h List.not_mem_nil
  rcases mem_read_firstOf_cons h with h | ⟨-, h⟩
  · exact found_wordLiteral h
  rcases mem_read_firstOf_cons h with h | ⟨hnumber, h⟩
  · exact found_natural h
  rcases mem_read_firstOf_cons h with h | ⟨-, h⟩
  · obtain ⟨y, hy, rfl⟩ := mem_read_map.1 h
    exact found_variable hy hnumber
  · exact absurd h List.not_mem_nil

end

/-- The definitions below a term stand on lines of their own, further on in the text. -/
theorem found_below {d : Nat} {text rest : List Char} {t : Term} (hrest : rest <:+ text)
    (hp : ∀ part, part <:+ text → part.length < text.length → Finds (bare (d + 1)) text part)
    (ht : t.hasRecord = false → FoundIn text t) {x : Term × List Char}
    (h : x ∈ (below d t).read rest) (hrecord : x.1.hasRecord = false) : FoundIn text x.1 := by
  obtain ⟨⟨bs, behind⟩, hbs, h⟩ := mem_read_bind.1 h
  obtain rfl := mem_read_pure.1 h
  cases bs with
  | nil => exact ht hrecord
  | cons b bs =>
    refine found_letIn (fun x hx => ?_) ht hrecord
    obtain ⟨part, hpart, last, hread⟩ := exists_of_mem_many hbs x hx
    rw [read_seqRight] at hread
    obtain ⟨y, hy, hread⟩ := List.mem_flatMap.1 hread
    rw [read_string] at hy
    split at hy
    case isFalse => exact absurd hy List.not_mem_nil
    case isTrue hline =>
      obtain rfl := List.mem_singleton.1 hy
      have hdrop : part.drop (Term.indentation d).length <:+ text :=
        (List.drop_suffix _ _).trans (hpart.trans hrest)
      have hshorter : (part.drop (Term.indentation d).length).length < text.length := by
        have hpos : 0 < (Term.indentation d).length := by simp [Term.indentation]
        have hlen := hline.length_le
        have hle := (hpart.trans hrest).length_le
        rw [List.length_drop]
        omega
      exact found_definition hdrop (hp _ hdrop hshorter) hread

theorem FoundIn.within {text part : List Char} {t : Term} (h : FoundIn part t)
    (hpart : part <:+: text) : FoundIn text t :=
  ⟨h.written, fun a ha => (h.atoms a ha).trans hpart⟩

/-- By induction on the text: the terms inside a term, and the definitions below it, stand
further on. -/
theorem found_of_mem_bare (d : Nat) {text : List Char} {x : Term × List Char}
    (h : x ∈ (bare d).read text) (hrecord : x.1.hasRecord = false) : FoundIn text x.1 := by
  induction hn : text.length using Nat.strong_induction_on generalizing d text x with
  | _ n ih =>
    subst hn
    have hshorter (d' : Nat) (part : List Char) (hpart : part <:+ text)
        (hlt : part.length < text.length) :
        Finds (bare d') text part := fun part' hpart' y hy hy' =>
      (ih part'.length (hpart'.length_le.trans_lt hlt) d' hy hy' rfl).within
        (hpart'.trans hpart).isInfix
    rw [read_bare_eq] at h
    obtain ⟨⟨t, rest⟩, ht, h⟩ := mem_read_bind.1 h
    refine found_below (suffix_of_mem_read ht) (hshorter (d + 1)) (fun ht' => ?_) h hrecord
    cases text with
    | nil =>
      rw [← ends_true, ends_sugar_of_beginning (bare d) _ rfl] at ht
      exact absurd ht List.not_mem_nil
    | cons c text => exact found_sugar (hshorter d text (List.suffix_cons c text) (by simp)) ht ht'

theorem complete_parsed (source : String) :
    (parsed source).complete = ((bare 0).ends List.isEmpty (Text.clean source.toList)).map (·.1) :=
  complete_parseClean _

theorem mem_complete_of_parse {source : String} {t : Term} (h : parse source = .ok t) :
    t ∈ (parsed source).complete := by
  simp only [parse] at h
  split at h
  next u hlast =>
    obtain rfl : u = t := Except.ok.inj h
    exact List.mem_of_getLast? hlast
  next => exact absurd h (by rintro ⟨⟩)

theorem found_of_parse {source : String} {t : Term} (h : parse source = .ok t)
    (hrecord : t.hasRecord = false) : FoundIn (Text.clean source.toList) t := by
  have hmem := mem_complete_of_parse h
  rw [complete_parsed] at hmem
  obtain ⟨x, hx, rfl⟩ := List.mem_map.1 hmem
  exact found_of_mem_bare 0 (List.mem_of_mem_filter hx) hrecord

/-- What a program without tagged records is read as prints, and the printed program is read as
the same. -/
theorem parse_print_of_clear {source : String} {t : Term} (h : parse source = .ok t)
    (hrecord : t.hasRecord = false) (hclear : t.Clear) :
    ∃ text, t.print = .ok text ∧ parse text = .ok t := by
  have hfound := found_of_parse h hrecord
  refine ⟨String.ofList t.chars, ?_, parse_chars hfound.written hclear fun a ha =>
    (Text.smooth_clean source.toList).part (hfound.atoms a ha)⟩
  rw [Term.print, hrecord]
  rfl

theorem parse_of_complete {source : String} {t : Term}
    (h : ((bare 0).ends List.isEmpty (Text.clean source.toList)).map (·.1) = [t]) :
    parse source = .ok t := by
  rw [parse, complete_parsed, h]
  rfl

/-- Blanks around commas, a leading zero, a comment, and a definition on a line of its own. -/
theorem parse_print_of_clear_layout :
    ∃ t text, parse "(f , (g 012 )) -- twice\n    f = ->" = .ok t ∧
    t = .letIn [⟨"f", [], .var "->"⟩] (.tuple [.var "f", .app [.var "g", .nat 12]]) ∧
    t.print = .ok text ∧ parse text = .ok t := by
  have h : parse "(f , (g 012 )) -- twice\n    f = ->" =
      .ok (.letIn [⟨"f", [], .var "->"⟩] (.tuple [.var "f", .app [.var "g", .nat 12]])) :=
    parse_of_complete (by decide +kernel)
  have happ : (Term.app [.var "g", .nat 12]).Clear := by
    refine .app (fun t ht => ?_) fun t ht => ?_ <;> rcases List.mem_pair.1 ht with rfl | rfl
    · rintro ⟨x, hx, hsign⟩
      cases hx
      revert hsign
      decide
    · rintro ⟨x, hx, -⟩
      cases hx
    · exact .var "g"
    · exact .nat 12
  have htuple : (Term.tuple [.var "f", .app [.var "g", .nat 12]]).Clear := by
    refine .tuple (fun t ht => by simp at ht) fun t ht => ?_
    rcases List.mem_pair.1 ht with rfl | rfl
    · exact .var "f"
    · exact happ
  have hclear :
      (Term.letIn [⟨"f", [], .var "->"⟩] (.tuple [.var "f", .app [.var "g", .nat 12]])).Clear := by
    refine .letIn (fun x hx => ?_) (fun x hx => ?_) htuple <;> obtain rfl := List.mem_singleton.1 hx
    · rintro ⟨y, hy, hsign⟩
      cases hy
      revert hsign
      decide
    · exact .var "->"
  obtain ⟨text, hprint, hparse⟩ := parse_print_of_clear h rfl hclear
  exact ⟨_, text, h, rfl, hprint, hparse⟩

/-- A blank keeps `->x` from opening the body of an abstraction; the printed program has no
such blank. -/
theorem parse_print_arrow :
    parse "(a ->x )" = .ok (.app [.var "a", .var "->x"]) ∧
      (Term.app [.var "a", .var "->x"]).print = .ok "(a ->x)" ∧
      parse "(a ->x)" = .ok (.abs ["a"] (.var "x")) :=
  ⟨parse_of_complete (by decide +kernel), rfl, parse_of_complete (by decide +kernel)⟩

end SugaredLambda.Grammar
