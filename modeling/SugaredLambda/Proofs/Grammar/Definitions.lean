import SugaredLambda.Proofs.Grammar.Heads

/-! Abstractions, definitions and blocks as they are written are read in one way, if their inner
terms are. -/
namespace SugaredLambda.Grammar
open SugaredLambda.Parser

/-- What a rule for inner terms has to keep to: nothing is read where no term begins, and a run of
word characters is read as a token. -/
structure Inner (p : Rule Term) : Prop where
  needs : NeedsBeginning p
  onWord : ∀ w text, (∀ c ∈ w, isWordChar c) → EndsTerm text →
    ∀ x ∈ p.read (w ++ text), x.2 = text ∨ stops x.2 = false

theorem endsTerm_cons {c : Char} (h : c = ' ' ∨ IsMark c) (text : List Char) :
    EndsTerm (c :: text) := by
  rintro d ⟨⟩
  exact h

theorem dropWhile_of_stops {text : List Char} (h : stops text = false) :
    text.dropWhile Text.isBlank = text := by
  cases text with
  | nil => rfl
  | cons c text => exact dropWhile_isBlank_cons (isBeginning_of_isToken (by simpa using h)) text

theorem head_ne_of_stops {text : List Char} (h : stops text = false) {c : Char}
    (hc : isToken c = false) : text.head? ≠ some c := by
  cases text with
  | nil => simp
  | cons d text =>
    rintro ⟨⟩
    simp [hc] at h

section
variable {p : Rule Term} [Local p]

def abstractionBody (p : Rule Term) (params : List String) : Rule Term := do
  let body ← p
  let _ ← char ')'
  return .abs params body

instance (params : List String) : Local (abstractionBody p params) :=
  inferInstanceAs (Local (_ >>= _))

theorem ends_abstraction (text : List Char) (ok : List Char → Bool) :
    (abstraction p).ends ok ('(' :: text) =
    (sepBy word (char ' ') >>= fun params => spaced (string arrow) >>= fun _ =>
      abstractionBody p params).ends ok text := by
  rw [abstraction, ends_char_bind, if_pos rfl]
  rfl

/-- A term that is read up to something else than a parenthesis is not the body. -/
theorem read_abstractionBody_eq_nil {text : List Char} (h : ∀ x ∈ p.read text, x.2.head? ≠ some ')')
    (params : List String) : (abstractionBody p params).read text = [] := by
  rw [abstractionBody, read_bind, List.flatMap_eq_nil_iff]
  intro x hx
  rw [read_bind, startsWith_char ')' _ (h x hx)]
  rfl

omit [Local p] in
theorem head_ne_of_onWord (hp : Inner p) {w text : List Char} (hw : ∀ c ∈ w, isWordChar c)
    (htext : EndsTerm text) {c : Char} (hc : isToken c = false) (hhead : text.head? ≠ some c) :
    ∀ x ∈ p.read (w ++ text), x.2.head? ≠ some c := by
  intro x hx
  rcases hp.onWord w text hw htext x hx with rfl | hstop
  · exact hhead
  · exact head_ne_of_stops hstop hc

theorem read_abstraction (hp : Inner p) {ps : List String} (hps : ∀ y ∈ ps, IsWord y) {b : Term}
    (hb : Reads p b) {rest : List Char} (hreach : ¬Reaches arrow (b.chars ++ ')' :: rest)) :
    (abstraction p).read
      ('(' :: ([' '].intercalate (ps.map (·.toList)) ++
        ' ' :: (arrow ++ ' ' :: (b.chars ++ ')' :: rest)))) = [(.abs ps b, rest)] := by
  obtain ⟨c, l, hchars, hc⟩ := hb.head
  have hbody : (abstractionBody p ps).read (b.chars ++ ')' :: rest) = [(.abs ps b, rest)] := by
    rw [← ends_true, abstractionBody, ends_bind_of stops fun x _ hx => ?_,
      hb.once _ (endsTerm_cons (.inr (by decide)) _), List.flatMap_singleton,
      ends_char_bind, if_pos rfl]
    · rfl
    · rw [ends_eq_nil]
      rw [read_bind, startsWith_char ')' _ (head_ne_of_stops hx (by decide))]
      rfl
  rw [← hbody, ← ends_true, ends_abstraction]
  rw [hchars] at hreach ⊢
  rw [← ends_true (abstractionBody p ps)]
  refine ends_headed readsSign_arrow (fun text x hx => mem_read_sepBy_word hx)
    isSign_arrow (isHead_names hps)
    (spaces_names hps) hc (ends_sepBy_word_once hps _) (fun v w m d n _ hw _ _ => ?_) hreach
  exact ends_eq_nil (read_abstractionBody_eq_nil
    (head_ne_of_onWord hp hw (endsTerm_cons (.inl rfl) _) (by decide) (by simp)) v) _

theorem read_abstraction_eq_nil {text : List Char}
    (h : ∀ before rest, text = before ++ (arrow ++ rest) →
      (∀ c ∈ before, isLoose c) →
      ∀ ps, (abstractionBody p ps).read (rest.dropWhile Text.isBlank) = []) :
    (abstraction p).read ('(' :: text) = [] := by
  rw [← ends_true, ends_abstraction]
  exact ends_headed_eq_nil readsSign_arrow (fun text x hx => mem_read_sepBy_word hx)
    fun before rest htext hbefore ps => ends_eq_nil (h before rest htext hbefore ps) _

end

section
variable {sign : List Char} (hsign : IsSign sign)
include hsign

theorem not_reaches_mark {c : Char} (hc : IsMark c) (rest : List Char) :
    ¬Reaches sign (c :: rest) := by
  rintro ⟨before, text, heq, hbefore⟩
  have hall : ∀ c ∈ [',', ';', ')', ']', '\x7d'], isLoose c = false :=
    List.all_iff_forall_prop.1 (by decide)
  exact before_ne_cons hsign (hall c hc) heq hbefore

theorem not_reaches_space {rest : List Char} (h : ¬Reaches sign rest) :
    ¬Reaches sign (' ' :: rest) := by
  rintro ⟨before, text, heq, hbefore⟩
  cases before with
  | nil =>
    obtain ⟨c, l, rfl⟩ := List.exists_cons_of_ne_nil hsign.ne_nil
    obtain ⟨rfl, -⟩ := List.cons.inj heq
    exact absurd (hsign.wordChars ' ' List.mem_cons_self) (by decide)
  | cons c before =>
    exact h ⟨before, text, (List.cons.inj heq).2, fun c hc => hbefore c (List.mem_cons_of_mem _ hc)⟩

theorem not_reaches_term {t : Term} (ht : t.Written) (hclear : ¬t.Hides sign) {text : List Char}
    (htext : EndsTerm text) (h : ¬Reaches sign text) : ¬Reaches sign (t.chars ++ text) := by
  rintro ⟨before, rest, heq, hbefore⟩
  rcases cut_term hsign ht (isWordChar_of_endsTerm htext) heq
    hbefore with ⟨later, hhides, -⟩ | ⟨more, hmore, hloose⟩
  · exact hclear hhides
  · exact h ⟨more, rest, hmore, hloose⟩

theorem not_reaches_row {ts : List Term} (hts : ∀ t ∈ ts, t.Written ∧ ¬t.Hides sign) {right : Char}
    (hright : IsMark right)
    (rest : List Char) :
    ¬Reaches sign ([' '].intercalate (ts.map Term.chars) ++ right :: rest) := by
  have hlast := not_reaches_mark hsign hright rest
  cases ts with
  | nil => exact hlast
  | cons t ts =>
    obtain ⟨⟨ht, hclear⟩, hts⟩ := List.forall_mem_cons.1 hts
    rw [List.map_cons, Text.intercalate_cons, List.flatMap_map, List.append_assoc]
    have hbehind : EndsTerm (ts.flatMap (' ' :: ·.chars) ++ right :: rest) ∧
        ¬Reaches sign (ts.flatMap (' ' :: ·.chars) ++ right :: rest) :=
      flatMap_append_of (V := fun text => EndsTerm text ∧ ¬Reaches sign text)
        (fun u hu text htext => ⟨endsTerm_cons (.inl rfl) _,
          not_reaches_space hsign
            (not_reaches_term hsign (hts u hu).1 (hts u hu).2 htext.1 htext.2)⟩)
        ⟨endsTerm_cons (.inr hright) _, hlast⟩
    exact not_reaches_term hsign ht hclear hbehind.1 hbehind.2

end

section
variable {p : Rule Term} [Local p] (hp : Inner p)
include hp

omit [Local p] in
theorem onWord_dropWhile {later text : List Char} (hlater : ∀ c ∈ later, isWordChar c) {c : Char}
    (hc : IsMark c) :
    ∀ x ∈ p.read ((later ++ c :: text).dropWhile Text.isBlank), x.2 = c :: text ∨
    stops x.2 = false := by
  have hdrop : (later ++ c :: text).dropWhile Text.isBlank = later ++ c :: text := by
    cases later with
    | nil => exact List.dropWhile_cons_of_neg (by simp [hc.facts])
    | cons d later =>
      exact dropWhile_isBlank_cons
        (isBeginning_of_isToken (isToken_of_isWordChar (hlater d List.mem_cons_self))) _
  rw [hdrop]
  exact hp.onWord later (c :: text) hlater (endsTerm_cons (.inr hc) _)

/-- Only a single item can be taken for the body of an abstraction. -/
theorem read_abstraction_tuple {ts : List Term} (hts : ∀ t ∈ ts, t.Written)
    (hclear : ∀ t, ts = [t] → ¬t.Hides arrow) (rest : List Char) :
    (abstraction p).read ('(' :: ([','].intercalate (ts.map Term.chars) ++ ')' :: rest)) = [] := by
  refine read_abstraction_eq_nil fun before rest' htext hbefore ps => ?_
  match ts, hclear with
  | [], _ =>
    exact absurd ⟨before, rest', htext, hbefore⟩ (not_reaches_mark isSign_arrow (by decide) _)
  | [t], hclear =>
    have hend : IsMark ')' := by decide
    refine absurd ⟨before, rest', ?_, hbefore⟩
      (not_reaches_term isSign_arrow (hts t (by simp)) (hclear t rfl)
      (endsTerm_cons (.inr hend) rest) (not_reaches_mark isSign_arrow hend rest))
    simpa using htext
  | t :: u :: us, _ =>
    rw [List.map_cons, Text.intercalate_cons, List.map_cons, List.flatMap_cons,
      List.append_assoc] at htext
    rcases cut_term isSign_arrow (hts t (by simp))
      (isWordChar_of_endsTerm (endsTerm_cons (.inr (by decide)) _)) htext
      hbefore with ⟨later, -, hlater, rfl⟩ | ⟨more, hmore, hloose⟩
    · refine read_abstractionBody_eq_nil (fun x hx => ?_) ps
      rcases onWord_dropWhile (c := ',') hp hlater (by decide) x hx with hx | hx
      · simp [hx]
      · exact head_ne_of_stops hx (by decide)
    · exact absurd ⟨more, rest', hmore, hloose⟩ (not_reaches_mark isSign_arrow (by decide) _)

end

def semicolonFollows (rest : List Char) : Bool := (rest.dropWhile Text.isBlank).head? == some ';'

def definitionBody (p : Rule Term) (names : String × List String) : Rule (Binding Term) := do
  let body ← p
  return ⟨names.1, names.2, body⟩

section
variable {p : Rule Term} [Local p]

instance (names : String × List String) : Local (definitionBody p names) :=
  inferInstanceAs (Local (_ >>= _))

theorem ends_definition (ok : List Char → Bool) (text : List Char) : (definition p).ends ok text =
    (namesBy (opening ' ') >>= fun v => spaced (char '=') >>=
      fun _ => definitionBody p v).ends ok text := by
  rw [namesBy, ends_bind_assoc, definition, ends_bind, ends_bind]
  refine List.flatMap_congr fun x _ => ?_
  simp only [definitionBody, ends_bind, read_bind, read_pure, List.flatMap_assoc,
    List.flatMap_singleton]
  rfl

theorem ends_definitionBody_eq_nil {ok : List Char → Bool} {text : List Char}
    (h : ∀ x ∈ p.read text, ok x.2 = false) (names : String × List String) :
    (definitionBody p names).ends ok text = [] := by
  rw [definitionBody, ends_bind, List.flatMap_eq_nil_iff]
  intro x hx
  simpa [ends] using h x hx

theorem semicolonFollows_of_stops {rest : List Char} (h : stops rest = false) :
    semicolonFollows rest = false := by
  rw [semicolonFollows, dropWhile_of_stops h]
  simpa using head_ne_of_stops h (by decide)

theorem ends_definition_written (hp : Inner p) {x : Binding Term}
    (hx : IsWord x.name ∧ ∀ y ∈ x.params, IsWord y) (hb : Reads p x.body) {rest : List Char}
    (hreach : ¬Reaches equals (x.body.chars ++ ';' :: rest)) :
    (definition p).ends semicolonFollows ([' '].intercalate ((x.name :: x.params).map (·.toList)) ++
      ' ' :: (equals ++ ' ' :: (x.body.chars ++ ';' :: rest))) = [(x, ';' :: rest)] := by
  obtain ⟨c, l, hchars, hc⟩ := hb.head
  have hnames : ∀ y ∈ x.name :: x.params, IsWord y := List.forall_mem_cons.2 hx
  have hbody :
      (definitionBody p (x.name, x.params)).ends semicolonFollows (x.body.chars ++ ';' :: rest) =
      [(x, ';' :: rest)] := by
    rw [definitionBody, ends_bind_of stops fun y _ hy => ?_,
      hb.once _ (endsTerm_cons (.inr (by decide)) _), List.flatMap_singleton]
    · rfl
    · simpa [ends] using semicolonFollows_of_stops hy
  rw [← hbody, ends_definition]
  rw [hchars] at hreach ⊢
  refine ends_headed readsSign_equals
    (fun text y hy => mem_read_namesBy takesBlanks_opening hy) isSign_equals
    (isHead_names hnames) (spaces_names hnames) hc
    (ends_namesBy (separates_opening ' ') takesBlanks_opening hx.1 hx.2 _)
    (fun v w m d n _ hw hm hd => ?_) hreach
  refine ends_definitionBody_eq_nil (fun y hy => ?_) v
  rcases hp.onWord w (' ' :: m) hw (endsTerm_cons (.inl rfl) _) y hy with hy | hy
  · have hne : d ≠ ';' := by rintro rfl; exact absurd hd (by decide)
    rw [semicolonFollows, hy, List.dropWhile_cons_of_pos (by decide), hm]
    simpa using hne
  · exact semicolonFollows_of_stops hy

theorem ends_definition_eq_nil (hp : Inner p) {b : Term} (hb : b.Written) (rest : List Char) :
    (definition p).ends semicolonFollows (b.chars ++ '\x7d' :: rest) = [] := by
  rw [ends_definition]
  refine ends_headed_eq_nil readsSign_equals
    (fun text y hy => mem_read_namesBy takesBlanks_opening hy)
    fun before rest' htext hbefore v => ?_
  rcases cut_term isSign_equals hb (isWordChar_of_endsTerm (endsTerm_cons (.inr (by decide)) _))
      htext hbefore with
    ⟨later, -, hlater, rfl⟩ | ⟨more, hmore, hloose⟩
  · refine ends_definitionBody_eq_nil (fun x hx => ?_) v
    rcases onWord_dropWhile (c := '\x7d') hp hlater (by decide) x hx with hx | hx
    · rw [hx]
      rfl
    · exact semicolonFollows_of_stops hx
  · exact absurd ⟨more, rest', hmore, hloose⟩ (not_reaches_mark isSign_equals (by decide) _)

end

def headed (x : Binding Term) : List Char :=
  [' '].intercalate ((x.name :: x.params).map (·.toList)) ++ ' ' :: (equals ++ ' ' :: x.body.chars)

def blockBody (p : Rule Term) (bs : List (Binding Term)) : Rule Term := do
  let _ ← spaced (char ';')
  let body ← p
  let _ ← closing '\x7d'
  return .letIn bs body

section
variable {p : Rule Term} [Local p]

instance (bs : List (Binding Term)) : Local (blockBody p bs) := inferInstanceAs (Local (_ >>= _))

theorem head_headed {x : Binding Term} (hx : IsWord x.name) :
    ∃ c l, headed x = c :: l ∧ isWordChar c := by
  obtain ⟨c, l, hchars, hc⟩ := exists_cons_of_isWord hx
  exact ⟨c, _, by rw [headed, List.map_cons, Text.intercalate_cons, hchars]; rfl, hc⟩

theorem ends_definition_headed (hp : Inner p) {x : Binding Term}
    (hx : IsWord x.name ∧ ∀ y ∈ x.params, IsWord y) (hb : Reads p x.body) {rest : List Char}
    (hreach : ¬Reaches equals (x.body.chars ++ ';' :: rest)) :
    (definition p).ends semicolonFollows (headed x ++ ';' :: rest) = [(x, ';' :: rest)] := by
  rw [← ends_definition_written hp hx hb hreach, headed]
  simp only [List.append_assoc, List.cons_append]

theorem read_blockBody {b : Term} (hb : Reads p b) (bs : List (Binding Term)) (rest : List Char) :
    (blockBody p bs).read (';' :: ' ' :: (b.chars ++ '\x7d' :: rest)) = [(.letIn bs b, rest)] := by
  obtain ⟨c, l, hchars, hc⟩ := hb.head
  have hspaced : (spaced (char ';')).read (';' :: ' ' :: (b.chars ++ '\x7d' :: rest)) =
      [(';', b.chars ++ '\x7d' :: rest)] := by
    rw [read_spaced, List.dropWhile_cons_of_neg (by decide), read_char_cons, if_pos rfl,
      List.map_singleton, List.dropWhile_cons_of_pos (by decide), hchars, List.cons_append,
      dropWhile_isBlank_cons hc]
  rw [← ends_true, blockBody, ends_bind, hspaced, List.flatMap_singleton,
    ends_bind_of stops fun x _ hx => ?_, hb.once _ (endsTerm_cons (.inr (by decide)) _),
    List.flatMap_singleton, ends_bind, read_closing, List.dropWhile_cons_of_neg (by decide),
    read_char_cons, if_pos rfl]
  · rfl
  · rw [ends_eq_nil]
    rw [read_bind, read_closing, dropWhile_of_stops hx,
      startsWith_char _ _ (head_ne_of_stops hx (by decide))]
    rfl

theorem read_blockBody_of_not_semicolon {text : List Char} (h : semicolonFollows text = false)
    (bs : List (Binding Term)) : (blockBody p bs).read text = [] := by
  rw [blockBody, read_bind, read_spaced,
    startsWith_char ';' _ (by simpa [semicolonFollows] using h)]
  rfl

theorem read_blockBody_of_headed (hp : Inner p) {x : Binding Term}
    (hx : IsWord x.name ∧ ∀ y ∈ x.params, IsWord y) (hb : Reads p x.body) (bs : List (Binding Term))
    (rest : List Char) : (blockBody p bs).read (';' :: ' ' :: (headed x ++ rest)) = [] := by
  obtain ⟨c, l, hchars, hc⟩ := hb.head
  obtain ⟨w, m, hw, -, hword, d, n, hm, hd⟩ := within_head isSign_equals (l ++ rest) hc
    (spaces_names (List.forall_mem_cons.2 hx))
  have htext : (headed x ++ rest).dropWhile Text.isBlank = w ++ ' ' :: m := by
    rw [← hw, headed, hchars]
    simp only [List.append_assoc, List.cons_append]
  rw [blockBody, read_bind, read_spaced, List.dropWhile_cons_of_neg (by decide),
    read_char_cons, if_pos rfl, List.map_singleton, List.dropWhile_cons_of_pos (by decide), htext,
    List.flatMap_singleton, read_bind, List.flatMap_eq_nil_iff]
  intro y hy
  rw [read_bind, read_closing]
  rcases hp.onWord w (' ' :: m) hword (endsTerm_cons (.inl rfl) _) y hy with hy | hy
  · have hne : d ≠ '\x7d' := by rintro rfl; exact absurd hd (by decide)
    rw [hy, List.dropWhile_cons_of_pos (by decide), hm, read_char_cons, if_neg hne]
    rfl
  · rw [dropWhile_of_stops hy, startsWith_char _ _ (head_ne_of_stops hy (by decide))]
    rfl

theorem flatMap_rotate {α : Type} (g : α → List Char) (s text : List Char) (x : α) (xs : List α) :
    (x :: xs).flatMap (fun y => g y ++ s) ++ text =
      g x ++ (xs.flatMap (fun y => s ++ g y) ++ (s ++ text)) := by
  induction xs generalizing x with
  | nil => simp
  | cons y ys ih =>
    rw [List.flatMap_cons, List.append_assoc, List.append_assoc, ih y, List.flatMap_cons]
    simp only [List.append_assoc]

theorem defined_eq (x : Binding Term) :
    Term.defined (x.map Term.chars) = headed x ++ [';', ' '] := by
  have hsign : " = ".toList = ' ' :: (equals ++ [' ']) := rfl
  rw [Term.defined, Term.heading, hsign, headed]
  simp only [Binding.map, List.append_assoc, List.cons_append, List.nil_append]
  rfl

/-- The text of a block with definitions, each of which ends with a semicolon that separates it from
the next one or from the body. -/
theorem chars_letIn_cons (x : Binding Term) (xs : List (Binding Term)) (b : Term)
    (rest : List Char) :
    (Term.letIn (x :: xs) b).chars ++ rest = '\x7b' :: (headed x ++
      (xs.flatMap (fun y => ';' :: ' ' :: headed y) ++
        ';' :: ' ' :: (b.chars ++ '\x7d' :: rest))) := by
  rw [Term.chars_letIn, if_neg (by simp)]
  simp only [defined_eq, List.cons_append, List.append_assoc, List.nil_append]
  rw [flatMap_rotate]
  rfl

section
variable (hp : Inner p) {b : Term} (hb : Reads p b) (hbw : b.Written)

theorem read_opening_of_not_semicolon {text : List Char} (h : semicolonFollows text = false) :
    (opening ';' >>= fun _ => definition p).read text = [] := by
  have hhead : text.head? ≠ some ';' := by
    intro hhead
    obtain ⟨l, rfl⟩ := List.head?_eq_some_iff.1 hhead
    exact absurd h (by rw [semicolonFollows, List.dropWhile_cons_of_neg (by decide)]; simp)
  rw [read_bind, startsWith_opening ';' text hhead]
  rfl

theorem ends_semicolon_definition {c : Char} (hc : isBeginning c) (text : List Char)
    (ok : List Char → Bool) :
    (opening ';' >>= fun _ => definition p).ends ok (';' :: ' ' :: c :: text) =
      (definition p).ends ok (c :: text) := by
  rw [ends_bind, read_opening, List.flatMap_singleton, List.dropWhile_cons_of_pos (by decide),
    dropWhile_isBlank_cons hc]

theorem not_reaches_semicolon {t : Term} (hw : t.Written) (hclear : ¬t.Hides equals)
    (text : List Char) : ¬Reaches equals (t.chars ++ ';' :: text) :=
  not_reaches_term isSign_equals hw hclear (endsTerm_cons (.inr (by decide)) _)
    (not_reaches_mark isSign_equals (by decide) _)

theorem read_blockBody_of_name {x : Binding Term} (hx : IsWord x.name) (bs : List (Binding Term))
    (text : List Char) : (blockBody p bs).read (headed x ++ text) = [] := by
  obtain ⟨c, l, hchars, hc⟩ := head_headed hx
  refine read_blockBody_of_not_semicolon ?_ bs
  rw [hchars, semicolonFollows, List.cons_append,
    dropWhile_isBlank_cons (isBeginning_of_isToken (isToken_of_isWordChar hc))]
  simpa using ne_of_isWordChar hc (by decide)

theorem ends_further_eq_nil (bs : List (Binding Term)) {text : List Char}
    (h : semicolonFollows text = false) :
    (many (opening ';' >>= fun _ => definition p) >>= fun more => blockBody p (bs ++ more)).ends
      (fun _ => true) text = [] := by
  rw [ends_many_bind_of_nil (read_opening_of_not_semicolon h),
    ends_eq_nil (read_blockBody_of_not_semicolon h _)]

include hp hb hbw in
theorem read_further (x : Binding Term) {xs : List (Binding Term)}
    (hxs : ∀ y ∈ xs, (IsWord y.name ∧ ∀ z ∈ y.params, IsWord z) ∧ y.body.Written ∧ Reads p y.body ∧
      ¬y.body.Hides equals) (rest : List Char) :
    (many (opening ';' >>= fun _ => definition p) >>= fun more => blockBody p (x :: more)).read
      (xs.flatMap (fun y => ';' :: ' ' :: headed y) ++ ';' :: ' ' :: (b.chars ++ '\x7d' :: rest)) =
      [(.letIn (x :: xs) b, rest)] := by
  have hrow := ends_many_row (opening ';' >>= fun _ => definition p)
    (fun more => blockBody p (x :: more))
    (fun _ => true) semicolonFollows (fun text => ∃ l, text = ';' :: l)
    (fun y => ';' :: ' ' :: headed y) xs
    (';' :: ' ' :: (b.chars ++ '\x7d' :: rest)) (fun us _ => ends_further_eq_nil (x :: us))
    (fun y hy text htext => ?_) ⟨_, rfl⟩ ?_
  · rw [ends_true, ends_true, read_blockBody hb] at hrow
    exact List.perm_singleton.1 hrow
  · obtain ⟨text, rfl⟩ := htext
    obtain ⟨hy, hyw, hyb, hyc⟩ := hxs y hy
    obtain ⟨d, m, hd, hword⟩ := head_headed (x := y) hy.1
    refine ⟨List.cons_ne_nil _ _, ⟨_, rfl⟩, ?_,
      fun us => ends_eq_nil (read_blockBody_of_headed hp hy hyb _ _) _⟩
    rw [← ends_definition_headed hp hy hyb (not_reaches_semicolon hyw hyc text), hd]
    exact ends_semicolon_definition (isBeginning_of_isToken (isToken_of_isWordChar hword)) _ _
  · obtain ⟨d, m, hd, hbegin⟩ := hb.head
    rw [← ends_definition_eq_nil hp hbw rest, hd]
    exact ends_semicolon_definition hbegin _ _

include hb in
theorem read_letBlock_nil (rest : List Char) :
    (letBlock p).read ((Term.letIn [] b).chars ++ rest) = [(.letIn [] b, rest)] := by
  change (opening '\x7b' >>= fun _ => sepBy (definition p) (opening ';') >>= blockBody p).read _ = _
  have htext :
      (Term.letIn [] b).chars ++ rest = '\x7b' :: ';' :: ' ' :: (b.chars ++ '\x7d' :: rest) := by
    rw [Term.chars_letIn]
    simp
  have hnone : (definition p).read (';' :: ' ' :: (b.chars ++ '\x7d' :: rest)) = [] := by
    rw [definition, read_bind, read_word_of_head (by decide)]
    rfl
  rw [htext, read_bind, read_opening, List.dropWhile_cons_of_neg (by decide),
    List.flatMap_singleton, ← ends_true, ends_sepBy_bind, ends_true, read_blockBody hb,
    ends_bind, hnone]
  rfl

include hp hb hbw in
/-- A block of definitions is read in one way. -/
theorem read_letBlock {bs : List (Binding Term)}
    (hbs : ∀ x ∈ bs, (IsWord x.name ∧ ∀ y ∈ x.params, IsWord y) ∧ x.body.Written ∧ Reads p x.body ∧
      ¬x.body.Hides equals) (rest : List Char) :
    (letBlock p).read ((Term.letIn bs b).chars ++ rest) = [(.letIn bs b, rest)] := by
  cases bs with
  | nil => exact read_letBlock_nil hb rest
  | cons x xs =>
    change (opening '\x7b' >>= fun _ => sepBy (definition p) (opening ';') >>=
      blockBody p).read _ = _
    obtain ⟨⟨hx, hxw, hxb, hxc⟩, hxs⟩ := List.forall_mem_cons.1 hbs
    obtain ⟨c, l, hchars, hc⟩ := head_headed (x := x) hx.1
    have hbegin := isBeginning_of_isToken (isToken_of_isWordChar hc)
    obtain ⟨text, htext⟩ : ∃ text,
        xs.flatMap (fun y => ';' :: ' ' :: headed y) ++ ';' :: ' ' :: (b.chars ++ '\x7d' :: rest) =
          ';' :: text := by
      cases xs with
      | nil => exact ⟨_, rfl⟩
      | cons y ys => exact ⟨_, rfl⟩
    rw [chars_letIn_cons, read_bind, read_opening, List.flatMap_singleton, hchars, List.cons_append,
      dropWhile_isBlank_cons hbegin, ← List.cons_append, ← hchars, ← ends_true, ends_sepBy_bind,
      ends_eq_nil (read_blockBody_of_name hx.1 [] _), List.nil_append,
      ends_bind_of semicolonFollows fun y _ hy => ends_further_eq_nil [y.1] hy, htext,
      ends_definition_headed hp hx hxb (not_reaches_semicolon hxw hxc text), List.flatMap_singleton,
      ends_true, ← htext]
    exact read_further hp hb hbw x hxs rest

end

end

end SugaredLambda.Grammar
