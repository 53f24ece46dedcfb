import Mathlib.Data.List.TakeWhile
import SugaredLambda.Proofs.Grammar.Printable

/-! Definitions on lines of their own. What is indented deeper is no definition, and what is
indented less ends the term. -/
namespace SugaredLambda
open SugaredLambda.Parser SugaredLambda.Grammar SugaredLambda.Text

namespace Term

/-- What stands above the definitions of a layout. -/
def above : Term → Term
  | .letIn (_ :: _) b => b
  | t => t

def laid : Term → List (Binding Term)
  | .letIn (x :: bs) _ => x :: bs
  | _ => []

def line (d : Nat) (x : Binding Term) : List Char :=
  indentation d ++ (heading x.name x.params ++ x.body.layout (d + 1))

theorem layoutBindings_eq (d : Nat) (bs : List (Binding Term)) :
    layoutBindings d bs = bs.flatMap (line d) := by
  induction bs with
  | nil => rfl
  | cons x bs ih =>
    obtain ⟨y, ps, t⟩ := x
    rw [layoutBindings, ih, List.flatMap_cons, line]
    simp only [List.append_assoc]

theorem layout_eq (d : Nat) (t : Term) : t.layout d = t.above.chars ++ t.laid.flatMap (line d) := by
  unfold layout
  split
  · rw [layoutBindings_eq]
    simp only [above, laid, line, List.flatMap_cons, List.append_assoc]
  next hother =>
    have hplain : t.above = t ∧ t.laid = [] := by
      unfold above laid
      split
      next x bs b => exact absurd rfl (hother x.name x.params x.body bs b)
      · exact ⟨rfl, rfl⟩
    rw [hplain.1, hplain.2, List.flatMap_nil, List.append_nil]

/-- Below a term, its definitions make it the whole again. -/
theorem letIn_laid (t : Term) :
    (if t.laid.isEmpty then t.above else .letIn t.laid t.above) = t := by
  unfold above laid
  split <;> rfl

theorem laid_induction {motive : Term → Prop}
    (h : ∀ t, (∀ x ∈ t.laid, motive x.body) → motive t) (t : Term) : motive t := by
  induction t using Term.induction with
  | letIn bs b ihs =>
    refine h _ fun x hx => ihs x ?_
    cases bs with
    | nil => exact absurd hx List.not_mem_nil
    | cons => exact hx
  | _ => exact h _ fun x hx => absurd hx List.not_mem_nil

theorem isPrintable_parts {t : Term} (h : t.isPrintable) : t.above.isPrintable ∧
    ∀ x ∈ t.laid, (∀ y ∈ x.name :: x.params, isPlainName y) ∧ x.body.isPrintable := by
  unfold above laid
  split
  · exact ((isPlainWith_letIn _ _).1 h).symm
  · exact ⟨h, by simp⟩

end Term

namespace Grammar

/-- Whether a line ends here, and what comes is not indented for the definitions of a term at
a depth. -/
def outdented (d : Nat) (rest : List Char) : Bool :=
  rest.head?.all (· == '\n') && !(Term.indentation d).isPrefixOf rest

theorem outdented_iff {d : Nat} {rest : List Char} :
    outdented d rest ↔ (∀ c ∈ rest.head?, c = '\n') ∧ ¬Term.indentation d <+: rest := by
  rw [outdented, Bool.and_eq_true, Bool.not_eq_true', ← Bool.not_eq_true,
    List.isPrefixOf_iff_prefix]
  cases rest <;> simp

theorem indentation_succ (d : Nat) :
    Term.indentation (d + 1) = Term.indentation d ++ List.replicate Term.indentWidth ' ' := by
  rw [Term.indentation, Term.indentation, Nat.add_mul (d + 1), Nat.one_mul, List.replicate_add]
  rfl

theorem outdented_nil (d : Nat) : outdented d [] := rfl

theorem outdented_succ {d : Nat} {rest : List Char} (h : outdented d rest) :
    outdented (d + 1) rest := by
  obtain ⟨hline, hprefix⟩ := outdented_iff.1 h
  refine outdented_iff.2 ⟨hline, fun hdeeper => hprefix ?_⟩
  rw [indentation_succ] at hdeeper
  exact (List.prefix_append _ _).trans hdeeper

theorem endsSugar_of_newline {rest : List Char} (h : ∀ c ∈ rest.head?, c = '\n') : EndsSugar rest :=
  fun c hc => .inr (.inr (h c hc))

theorem not_outdented_of_stops {rest : List Char} (h : stops rest = false) (d : Nat) :
    outdented d rest = false := by
  by_contra hout
  have hstops := (endsSugar_of_newline (outdented_iff.1 (Bool.of_not_eq_false hout)).1).stops
  rw [h] at hstops
  exact absurd hstops (by decide)

theorem not_outdented_cons {c : Char} (h : c ≠ '\n') (rest : List Char) (d : Nat) :
    outdented d (c :: rest) = false := by
  simp [outdented, h]

theorem not_outdented_indentation (d : Nat) (rest : List Char) :
    outdented d (Term.indentation d ++ rest) = false := by
  simp [outdented]

theorem outdented_indentation (d : Nat) {c : Char} (h : c ≠ ' ') (rest : List Char) :
    outdented (d + 1) (Term.indentation d ++ c :: rest) := by
  refine outdented_iff.2 ⟨by simp [Term.indentation], fun hdeeper => ?_⟩
  rw [indentation_succ, List.prefix_append_right_inj] at hdeeper
  exact h (List.cons_prefix_cons.1 hdeeper).1.symm

def signless (rest : List Char) : Prop := (rest.dropWhile isBlank).head? ≠ some '='

theorem isBlank_of_mem_indentation {d : Nat} {c : Char} (h : c ∈ Term.indentation d) :
    isBlank c := by
  rcases List.mem_cons.1 h with rfl | h
  · decide
  · rw [List.eq_of_mem_replicate h]
    decide

theorem exists_line {x : Binding Term} (hx : isPlainName x.name) (d : Nat) :
    ∃ c l, Term.line d x = Term.indentation d ++ c :: l ∧ isPlainChar c := by
  obtain ⟨c, l, hchars, -⟩ := exists_cons_of_isWord (Term.isWord_of_isPlainName hx)
  have hplain : isPlainChar c := by
    by_contra hc
    exact Term.not_mem_of_isPlainName hx (Bool.of_not_eq_true hc) (by simp [hchars])
  rw [Term.line, Term.heading, List.map_cons, intercalate_cons, hchars]
  exact ⟨c, _, rfl, hplain⟩

theorem signless_line {x : Binding Term} (hx : isPlainName x.name) (d : Nat) (rest : List Char) :
    signless (Term.line d x ++ rest) := by
  obtain ⟨c, l, hline, hc⟩ := exists_line hx d
  have hblank : isBlank c = false := isBlank_of_isWordChar (Term.isWordChar_of_isPlainChar hc)
  rw [signless, hline, List.append_assoc,
    List.dropWhile_append_of_pos fun c hc => isBlank_of_mem_indentation hc, List.cons_append,
    List.dropWhile_cons_of_neg (by simp [hblank]), List.head?_cons]
  rintro ⟨⟩
  exact absurd hc (by decide)

theorem outdented_line {x : Binding Term} (hx : isPlainName x.name) (d : Nat) (rest : List Char) :
    outdented (d + 1) (Term.line d x ++ rest) := by
  obtain ⟨c, l, hline, hc⟩ := exists_line hx d
  rw [hline, List.append_assoc]
  refine outdented_indentation d ?_ (l ++ rest)
  rintro rfl
  exact absurd hc (by decide)

/-- A rule that does not read over a line feed, unless a blank stands before that. -/
def Stays {α : Type} (p : Rule α) : Prop := ∀ u v, (∀ c ∈ u.getLast?, isBlank c = false) →
  ∀ x ∈ p.read (u ++ '\n' :: v), ∃ u', u' <:+ u ∧ x.2 = u' ++ '\n' :: v

theorem last_of_suffix {u u' : List Char} (h : u' <:+ u)
    (hlast : ∀ c ∈ u.getLast?, isBlank c = false) : ∀ c ∈ u'.getLast?, isBlank c = false := by
  obtain ⟨w, rfl⟩ := h
  intro c hc
  exact hlast c (by rw [List.getLast?_append, Option.mem_def.1 hc]; rfl)

theorem stays_pure {α : Type} (v : α) : Stays (pure v : Rule α) := by
  intro u w _ x hx
  rw [mem_read_pure.1 hx]
  exact ⟨u, List.suffix_rfl, rfl⟩

section
variable {α β : Type} {p : Rule α} [Local p] (hp : Stays p)
include hp

theorem Stays.bind {f : α → Rule β} [∀ v, Local (f v)] (hf : ∀ v, Stays (f v)) :
    Stays (p >>= f) := by
  intro u v hu x hx
  obtain ⟨y, hy, hx⟩ := mem_read_bind.1 hx
  obtain ⟨u₁, hfirst, hrest⟩ := hp u v hu y hy
  rw [hrest] at hx
  obtain ⟨u₂, hsecond, hrest⟩ := hf y.1 u₁ v (last_of_suffix hfirst hu) x hx
  exact ⟨u₂, hsecond.trans hfirst, hrest⟩

theorem Stays.many : Stays (many p) := by
  intro u v hu x hx
  refine many_induction (motive := fun text _ last => ∀ u, (∀ c ∈ u.getLast?, isBlank c = false) →
    text = u ++ '\n' :: v → ∃ u', u' <:+ u ∧ last = u' ++ '\n' :: v) (fun text u _ htext => ?_)
    (fun text y rest ys last hy ih u hu htext => ?_) hx u hu rfl
  · exact ⟨u, List.suffix_rfl, htext⟩
  · rw [htext] at hy
    obtain ⟨u₁, hfirst, hrest⟩ := hp u v hu _ hy
    obtain ⟨u₂, hsecond, hlast⟩ := ih u₁ (last_of_suffix hfirst hu) hrest
    exact ⟨u₂, hsecond.trans hfirst, hlast⟩

end

theorem stays_word : Stays word := by
  intro u v hu x hx
  obtain ⟨hword, htext⟩ := mem_read_word hx
  rcases List.append_eq_append_iff.1 htext with ⟨w, hname, hrest⟩ | ⟨w, rfl, hrest⟩
  · cases w with
    | nil => exact ⟨[], List.nil_suffix, hrest.symm⟩
    | cons c w =>
      obtain ⟨rfl, -⟩ := List.cons.inj hrest
      exact absurd (hword.2 '\n' (by simp [hname])) (by decide)
  · exact ⟨w, List.suffix_append _ _, hrest⟩

theorem stays_opening : Stays (opening ' ') := by
  intro u v hu x hx
  cases u with
  | nil =>
    rw [List.nil_append, startsWith_opening ' ' _ (by simp)] at hx
    exact absurd hx List.not_mem_nil
  | cons c u =>
    obtain rfl := (startsWith_opening ' ').eq_of_mem hx
    rw [List.cons_append, read_opening] at hx
    rw [List.mem_singleton.1 hx]
    have hne : u.dropWhile isBlank ≠ [] := by
      intro hall
      rw [List.dropWhile_eq_nil_iff] at hall
      cases hlast : u.getLast? with
      | none =>
        rw [List.getLast?_eq_none_iff.1 hlast] at hu
        exact absurd (hu ' ' rfl) (by decide)
      | some c =>
        have hblank := hu c (by rw [List.getLast?_cons, hlast]; rfl)
        rw [hall c (List.mem_of_getLast? hlast)] at hblank
        exact absurd hblank (by decide)
    refine ⟨u.dropWhile isBlank, (List.dropWhile_suffix _).trans (List.suffix_cons _ _), ?_⟩
    rw [List.dropWhile_append, if_neg (by simpa using hne)]

theorem stays_namesBy : Stays (namesBy (opening ' ')) :=
  stays_word.bind fun x => (stays_opening.bind fun _ => stays_word).many.bind fun xs =>
    stays_pure (x, xs)

/-- A sign on a line behind blanks would have to follow names on the line before. -/
theorem ne_of_mem_namesBy {u v : List Char} (hu : ∀ c ∈ u.getLast?, isBlank c = false)
    (hv : signless ('\n' :: v)) {x : (String × List String) × List Char}
    (hx : x ∈ (namesBy (opening ' ')).read (u ++ '\n' :: v)) {blanks more rest : List Char}
    (hblanks : ∀ c ∈ blanks, isBlank c) (hsigned : x.2 = blanks ++ (equals ++ rest)) :
    '\n' :: v ≠ more ++ (equals ++ rest) := by
  intro hmore
  obtain ⟨u', -, hrest⟩ := stays_namesBy u v hu x hx
  have hcut : u' ++ more ++ (equals ++ rest) = blanks ++ (equals ++ rest) := by
    rw [← hsigned, hrest, hmore, List.append_assoc]
  have hall : ∀ c ∈ more, isBlank c := fun c hc =>
    hblanks c (List.append_cancel_right hcut ▸ List.mem_append_right u' hc)
  rw [signless, hmore, List.dropWhile_append_of_pos hall] at hv
  exact hv rfl

theorem heading_append (x : String) (ps : List String) (text : List Char) :
    Term.heading x ps ++ text =
    [' '].intercalate ((x :: ps).map (·.toList)) ++ ' ' :: (equals ++ ' ' :: text) := by
  have hsign : " = ".toList = ' ' :: (equals ++ [' ']) := rfl
  rw [Term.heading, hsign]
  simp only [List.append_assoc, List.cons_append, List.nil_append]

/-- What stands behind the names and the sign of a definition that is laid out: a term, and then the
end of the text or of a line, and no sign on the next one. -/
theorem ends_definition_laid {d : Nat} {x : Binding Term}
    (hx : ∀ y ∈ x.name :: x.params, isPlainName y) {b : Term} (hb : b.isPrintable)
    {more : List Char} (hline : ∀ c ∈ more.head?, c = '\n') (hmore : signless more) :
    (definition (bare d)).ends (outdented d) (Term.heading x.name x.params ++ (b.chars ++ more)) =
      (definitionBody (bare d) (x.name, x.params)).ends (outdented d) (b.chars ++ more) := by
  have hprints := Term.prints_of_isPrintable hb
  have hneat := neat_chars hprints.written hprints.smooth
  have hnames : ∀ y ∈ x.name :: x.params, IsWord y :=
    fun y hy => Term.isWord_of_isPlainName (hx y hy)
  obtain ⟨hname, hparams⟩ := List.forall_mem_cons.1 hnames
  obtain ⟨c, l, hchars, hc⟩ := isBeginning_head hprints.written
  have hbegin : b.chars ++ more = c :: (l ++ more) := by rw [hchars, List.cons_append]
  rw [heading_append, ends_definition, hbegin]
  refine ends_headed_of_names readsSign_equals
    (fun text y hy => mem_read_namesBy takesBlanks_opening hy)
    isSign_equals (isHead_names hnames) (spaces_names hnames) hc
    (ends_namesBy (separates_opening ' ') takesBlanks_opening hname hparams _)
    (fun v w m e n _ hw _ _ => ?_) fun y hy blanks later rest hblanks hsigned hlater hbehind => ?_
  · -- a body that begins among the names has more of them behind it, and not the end of a line
    refine ends_definitionBody_eq_nil (fun y hy => ?_) v
    rcases (inner_bare d).onWord w (' ' :: m) hw (endsTerm_cons (.inl rfl) m) y hy with hy | hy
    · rw [hy]
      exact not_outdented_cons (by decide) m d
    · exact not_outdented_of_stops hy d
  · -- another sign could only stand below the body, and names before it would go over a line feed
    rw [← hbegin] at hy hbehind
    have hword : ∀ c ∈ more.head?, isWordChar c = false := fun c hc => by rw [hline c hc]; decide
    rcases cut_term isSign_equals hprints.written hword hbehind
      hlater with ⟨_, hhides, -⟩ | ⟨more', rfl, -⟩
    · exact Term.not_hides_of_isPlainWith hb (.inr rfl) hhides
    · obtain ⟨v, hv⟩ : ∃ v, more' ++ (equals ++ rest) = '\n' :: v := by
        obtain ⟨e, v, he⟩ :=
          List.exists_cons_of_ne_nil (show more' ++ (equals ++ rest) ≠ [] by simp [equals])
        exact ⟨v, by rw [he, hline e (by simp [he])]⟩
      rw [hv] at hy hmore
      refine ne_of_mem_namesBy (u := [' '].intercalate ((x.name :: x.params).map (·.toList)) ++
        ' ' :: (equals ++ ' ' :: b.chars)) (fun e he => hneat.last e ?_) hmore
          ?_ hblanks hsigned hv.symm
      · rw [List.getLast?_append_of_ne_nil _ (by simp),
          List.getLast?_cons_of_ne_nil (by simp [equals])] at he
        simpa [equals, List.getLast?_cons, hchars] using he
      · simpa only [List.append_assoc, List.cons_append] using hy

theorem behind_lines {d : Nat} {bs : List (Binding Term)} (hbs : ∀ x ∈ bs, isPlainName x.name)
    {rest : List Char} (hout : outdented d rest) (hrest : signless rest) :
    (∀ c ∈ (bs.flatMap (Term.line d) ++ rest).head?, c = '\n') ∧
    signless (bs.flatMap (Term.line d) ++ rest) := by
  cases bs with
  | nil => exact ⟨(outdented_iff.1 hout).1, hrest⟩
  | cons x bs =>
    rw [List.flatMap_cons, List.append_assoc]
    refine ⟨?_, signless_line (hbs x List.mem_cons_self) d _⟩
    rintro c ⟨⟩
    rfl

theorem ends_definitionBody {p : Rule Term} [Local p] (ok : List Char → Bool)
    (names : String × List String) (text : List Char) : (definitionBody p names).ends ok text =
      (p.ends ok text).map fun x => (⟨names.1, names.2, x.1⟩, x.2) :=
  ends_map (fun b => (⟨names.1, names.2, b⟩ : Binding Term)) p ok text

/-- A term and lines below it that read well. -/
structure Laid (d : Nat) (t : Term) : Prop where
  printable : t.isPrintable
  once : ∀ rest, outdented d rest → signless rest →
    (bare d).ends (outdented d) (t.layout d ++ rest) = [(t, rest)]

theorem ends_line {d : Nat} {x : Binding Term} (hx : ∀ y ∈ x.name :: x.params, isPlainName y)
    (hb : Laid (d + 1) x.body) {rest : List Char} (hout : outdented (d + 1) rest)
    (hrest : signless rest) :
    (string (Term.indentation d) *> definition (bare (d + 1))).ends (outdented (d + 1))
    (Term.line d x ++ rest) = [(x, rest)] := by
  obtain ⟨habove, hlaid⟩ := Term.isPrintable_parts hb.printable
  obtain ⟨hline, hmore⟩ :=
    behind_lines (fun y hy => (hlaid y hy).1 y.name List.mem_cons_self) hout hrest
  have hread := hb.once rest hout hrest
  rw [Term.layout_eq, List.append_assoc] at hread
  change (string (Term.indentation d) >>= fun _ => definition (bare (d + 1))).ends _ _ = _
  rw [ends_bind, Term.line, List.append_assoc, read_string, if_pos (List.prefix_append _ _),
    List.drop_left, List.flatMap_singleton, List.append_assoc, Term.layout_eq, List.append_assoc,
    ends_definition_laid hx habove hline hmore, ends_definitionBody, hread]
  rfl

theorem read_line_of_outdented {d : Nat} {text : List Char} (h : outdented d text) :
    (string (Term.indentation d) *> definition (bare (d + 1))).read text = [] := by
  rw [read_seqRight, read_string, if_neg (outdented_iff.1 h).2]
  rfl

/-- What is indented deeper is no definition. -/
theorem read_line_of_deeper {d : Nat} {text : List Char} (h : outdented (d + 1) text = false) :
    (string (Term.indentation d) *> definition (bare (d + 1))).read text = [] := by
  rw [read_seqRight, read_string]
  split
  next hprefix =>
    have hdeeper : Term.indentation (d + 1) <+: text := by
      by_contra hnot
      refine absurd (outdented_iff.2 ⟨?_, hnot⟩) (by simp [h])
      obtain ⟨rest, rfl⟩ := hprefix
      rintro c ⟨⟩
      rfl
    obtain ⟨rest, rfl⟩ := hdeeper
    rw [indentation_succ, List.append_assoc, List.drop_left, List.flatMap_singleton,
      definition, read_bind]
    change (word.read (' ' :: _)).flatMap _ = []
    rw [read_word_of_head (by decide)]
    rfl
  next => rfl

theorem ends_lines {d : Nat} (b : Term) {bs : List (Binding Term)}
    (hbs : ∀ x ∈ bs, (∀ y ∈ x.name :: x.params, isPlainName y) ∧ Laid (d + 1) x.body)
    {rest : List Char} (hout : outdented d rest) (hrest : signless rest) :
    (below d b).ends (outdented d) (bs.flatMap (Term.line d) ++ rest) =
      [(if bs.isEmpty then b else .letIn bs b, rest)] := by
  have hrow := ends_many_row (string (Term.indentation d) *> definition (bare (d + 1)))
    (fun bs => pure (if bs.isEmpty then b else .letIn bs b)) (outdented d) (outdented (d + 1))
    (fun rest => outdented (d + 1) rest ∧ signless rest) (Term.line d) bs rest
    (fun vs text htext => ?_) (fun x hx text htext => ?_) ⟨outdented_succ hout, hrest⟩ ?_
  · refine List.perm_singleton.1 (hrow.trans (.of_eq ?_))
    simp [ends, hout]
  · have hout' : outdented d text = false := by
      by_contra hout'
      simp [outdented_succ (Bool.of_not_eq_false hout')] at htext
    rw [ends_many_bind_of_nil (read_line_of_deeper htext)]
    simp [ends, hout']
  · obtain ⟨hnames, hbody⟩ := hbs x hx
    have hname := hnames x.name List.mem_cons_self
    refine ⟨List.cons_ne_nil _ _, ⟨outdented_line hname d text, signless_line hname d text⟩,
      ends_line hnames hbody htext.1 htext.2, fun vs => ?_⟩
    have hline : outdented d (Term.line d x ++ text) = false := by
      rw [Term.line, List.append_assoc]
      exact not_outdented_indentation d _
    rw [ends, read_pure, List.filter_cons_of_neg (by simp [hline])]
    rfl
  · exact ends_eq_nil (read_line_of_outdented hout) _

/-- The layout of a printable term is read in one way up to the end of a line that is no part
of it. -/
theorem laid_of_isPrintable {t : Term} (h : t.isPrintable) (d : Nat) : Laid d t := by
  induction t using Term.laid_induction generalizing d with
  | h t ih =>
    obtain ⟨habove, hlaid⟩ := Term.isPrintable_parts h
    have hprints := Term.prints_of_isPrintable habove
    refine ⟨h, fun rest hout hrest => ?_⟩
    have hline := (behind_lines (fun x hx => (hlaid x hx).1 x.name List.mem_cons_self) hout hrest).1
    rw [Term.layout_eq, List.append_assoc, ends_bare_eq, ends_bind_of stops fun x _ hx => ?_,
      ends_sugar_chars hprints.written hprints.clear d (endsSugar_of_newline hline),
      List.flatMap_singleton, ends_lines t.above
        (fun x hx => ⟨(hlaid x hx).1, ih x hx (hlaid x hx).2 (d + 1)⟩) hout hrest, Term.letIn_laid]
    rw [ends, read_below (head_ne_of_stops hx (by decide))]
    simp [not_outdented_of_stops hx d]

theorem smooth_indentation (d : Nat) : Smooth (Term.indentation d) := by
  have hspaces : '\n' ∉ List.replicate ((d + 1) * Term.indentWidth) ' ' := by simp
  intro bad hbad hforbidden
  cases hforbidden with
  | line ends other =>
    rcases List.mem_cons.1 (hbad.subset (List.mem_singleton_self _)) with rfl | hmem
    · exact other rfl
    · rw [List.eq_of_mem_replicate hmem] at ends
      exact absurd ends (by decide)
  | comment =>
    have hmem : '-' ∈ Term.indentation d := hbad.subset (by simp)
    simp [Term.indentation] at hmem
  | trailing =>
    rcases List.infix_cons_iff.1 hbad with hstart | hlater
    · exact absurd (List.cons_prefix_cons.1 hstart).1 (by decide)
    · exact hspaces (hlater.subset (by simp))
  | blank =>
    rcases List.infix_cons_iff.1 hbad with hstart | hlater
    · exact hspaces ((List.cons_prefix_cons.1 hstart).2.subset (by simp))
    · exact hspaces (hlater.subset (by simp))

theorem neat_line {u v : List Char} (hu : Neat u) (hv : Neat v) (d : Nat) :
    Neat (u ++ (Term.indentation d ++ v)) := by
  have hlast : (Term.indentation d).getLast? ≠ some '-' := fun h => by
    have hmem := List.mem_of_getLast? h
    simp [Term.indentation] at hmem
  have hline := (smooth_indentation d).append hv.smooth (.inr hv.first) (.inl hlast)
  refine ⟨hu.smooth.append hline (.inl hu.last) (.inr (by simp [Term.indentation])), by
    simp [hu.ne_nil], ?_, ?_⟩
  · rw [List.head?_append_of_ne_nil _ hu.ne_nil]
    exact hu.first
  · rw [← List.append_assoc, List.getLast?_append_of_ne_nil _ hv.ne_nil]
    exact hv.last

theorem neat_lines {d : Nat} {bs : List (Binding Term)}
    (hbs : ∀ x ∈ bs, Neat (Term.heading x.name x.params ++ x.body.layout (d + 1))) {u : List Char}
    (hu : Neat u) : Neat (u ++ bs.flatMap (Term.line d)) := by
  induction bs generalizing u with
  | nil => rwa [List.flatMap_nil, List.append_nil]
  | cons x bs ih =>
    obtain ⟨hx, hbs⟩ := List.forall_mem_cons.1 hbs
    rw [List.flatMap_cons, ← List.append_assoc]
    exact ih hbs (neat_line hu hx d)

theorem neat_layout {t : Term} (h : t.isPrintable) (d : Nat) : Neat (t.layout d) := by
  induction t using Term.laid_induction generalizing d with
  | h t ih =>
    obtain ⟨habove, hlaid⟩ := Term.isPrintable_parts h
    have hprints := Term.prints_of_isPrintable habove
    rw [Term.layout_eq]
    refine neat_lines (fun x hx => ?_) (neat_chars hprints.written hprints.smooth)
    obtain ⟨hnames, hbody⟩ := hlaid x hx
    rw [heading_append]
    refine neat_signed (.inr rfl) (neat_intercalate (.inl rfl) (by decide) (by simp) fun y hy => ?_)
      (ih x hx hbody (d + 1))
    obtain ⟨z, hz, rfl⟩ := List.mem_map.1 hy
    exact neat_word (Term.isWord_of_isPlainName (hnames z hz))
      (Term.smooth_of_isPlainName (hnames z hz))

theorem complete_layout {t : Term} (h : t.isPrintable) :
    (parsed (String.ofList (t.layout 0))).complete = [t] := by
  have hends := (laid_of_isPrintable h 0).once [] (outdented_nil 0) (by simp [signless])
  rw [List.append_nil] at hends
  exact complete_of_ends (neat_layout h 0) (outdented_nil 0) hends

end Grammar

/-- Definitions below a term, each on an indented line of its own, mean the same as definitions in
braces. The layout of a printable term, at any depth of nesting, has that term for its only reading,
and the program that prints the term is read as the same one. -/
theorem Grammar.parseAll_layout {t : Term} (h : t.isPrintable) :
    parseAll (String.ofList (t.layout 0)) = .ok [t] ∧ ∃ s, t.print = .ok s ∧ parse s = .ok t := by
  have hprints := Term.prints_of_isPrintable h
  exact ⟨by rw [parseAll, Parse.all, complete_layout h]; rfl, String.ofList t.chars,
    Term.print_of_isPlainWith h, parse_chars hprints.written hprints.clear hprints.smooth⟩

/-- Definitions at three depths, one of which ends two levels at once. -/
def Term.terraced : Term :=
  .letIn [⟨"f", ["x"],
    .letIn [⟨"g", [], .letIn [⟨"h", ["y"], .var "y"⟩] (.app [.var "h", .var "x"])⟩] (.var "g")⟩,
    ⟨"a", [], .letIn [⟨"b", [], .str "c = d"⟩] (.var "b")⟩] (.app [.var "f", .var "a"])

theorem Grammar.parseAll_layout_terraced : Term.terraced.isPrintable ∧
    parseAll (String.ofList (Term.terraced.layout 0)) = .ok [Term.terraced] ∧
      ∃ s, Term.terraced.print = .ok s ∧ parse s = .ok Term.terraced :=
  ⟨by decide, parseAll_layout (by decide)⟩

example :
    Term.terraced.layout 0 = ("(f a)\n    f x = g\n        g = (h x)\n            h y = y\n" ++
    "    a = b\n        b = \"c = d\"").toList := by decide

end SugaredLambda
