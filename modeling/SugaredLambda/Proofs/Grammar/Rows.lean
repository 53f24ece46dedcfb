import SugaredLambda.Proofs.Grammar.Written
import SugaredLambda.Proofs.Text.Lines

/-! If each of several terms is read in one way, so is a row of them. -/
namespace SugaredLambda.Grammar
open SugaredLambda.Parser

def IsMark (c : Char) : Prop := c ∈ [',', ';', ')', ']', '\x7d']

instance : DecidablePred IsMark := fun c => inferInstanceAs (Decidable (c ∈ _))

/-- What may stand behind an inner term of a program in its written form. -/
def EndsTerm (rest : List Char) : Prop := ∀ c ∈ rest.head?, c = ' ' ∨ IsMark c

theorem isBlank_of_isBeginning {c : Char} (h : isBeginning c) : Text.isBlank c = false := by
  by_contra hblank
  have hblank := Bool.of_not_eq_false hblank
  have hword := isWordChar_of_isBlank hblank
  have hnot : ∀ d ∈ ['#', '(', '\x7b', '[', '"', '\''], Text.isBlank d = false :=
    List.all_iff_forall_prop.1 (by decide)
  have hcase : c = '#' ∨ c ∈ ['(', '\x7b', '[', '"', '\''] := by
    simpa [isBeginning, isToken, hword] using h
  simp [hnot c (List.mem_cons.2 hcase)] at hblank

theorem isBeginning_of_isToken {c : Char} (h : isToken c) : isBeginning c := by
  simp [isBeginning, h]

theorem IsMark.facts {c : Char} (h : IsMark c) :
    Text.isBlank c = false ∧ isBeginning c = false ∧ isToken c = false ∧ c ≠ ' ' := by
  have hall : ∀ c ∈ [',', ';', ')', ']', '\x7d'],
      Text.isBlank c = false ∧ isBeginning c = false ∧ isToken c = false ∧ c ≠ ' ' :=
    List.all_iff_forall_prop.1 (by decide)
  exact hall c h

theorem dropWhile_isBlank_cons {c : Char} (h : isBeginning c) (text : List Char) :
    (c :: text).dropWhile Text.isBlank = c :: text :=
  List.dropWhile_cons_of_neg (by simp [isBlank_of_isBeginning h])

/-- A rule reads a term in one way, whatever comes behind it. -/
structure Reads (p : Rule Term) (t : Term) : Prop where
  once : ∀ rest, EndsTerm rest → p.ends stops (t.chars ++ rest) = [(t, rest)]
  head : ∃ c l, t.chars = c :: l ∧ isBeginning c

def NeedsBeginning (p : Rule Term) : Prop :=
  ∀ text, text.head?.any isBeginning = false → p.read text = []

structure Separates {α : Type} (sep : Rule α) (g : Char) : Prop where
  between : ∀ c text, isBeginning c → ∃ v, sep.read (g :: c :: text) = [(v, c :: text)]
  apart : ∀ text, (∀ c ∈ text.head?, Text.isBlank c = false ∧ c ≠ g) → sep.read text = []

theorem separates_char (g : Char) : Separates (char g : Rule Char) g where
  between c text _ := ⟨g, by rw [read_char_cons, if_pos rfl]⟩
  apart text h := startsWith_char g text fun hg => (h g hg).2 rfl

theorem separates_spaced {g : Char} (hg : Text.isBlank g = false) :
    Separates (spaced (char g)) g where
  between c text hc := ⟨g, by
    rw [read_spaced, List.dropWhile_cons_of_neg (by simp [hg]), read_char_cons, if_pos rfl,
      List.map_singleton, dropWhile_isBlank_cons hc]⟩
  apart text h := by
    have hdrop : text.dropWhile Text.isBlank = text := by
      cases text with
      | nil => rfl
      | cons c text => exact List.dropWhile_cons_of_neg (by simp [(h c rfl).1])
    rw [read_spaced, hdrop, startsWith_char g text fun hg => (h g hg).2 rfl]
    rfl

def close (right : Char) (ts : List Term) : Rule (List Term) := do
  let _ ← closing right
  return ts

instance (right : Char) (ts : List Term) : Local (close right ts) :=
  inferInstanceAs (Local (_ >>= _))

theorem read_close_eq_nil {right : Char} {text : List Char}
    (h : (text.dropWhile Text.isBlank).head? ≠ some right) (ts : List Term) :
    (close right ts).read text = [] := by
  rw [close, read_bind, read_closing, startsWith_char right _ h]
  rfl

theorem read_close {right : Char} (hblank : Text.isBlank right = false) (ts : List Term)
    (rest : List Char) : (close right ts).read (right :: rest) = [(ts, rest)] := by
  rw [close, read_bind, read_closing, List.dropWhile_cons_of_neg (by simp [hblank]),
    read_char_cons, if_pos rfl]
  rfl

theorem read_close_of_beginning {right c : Char} (hright : IsMark right) (hc : isBeginning c)
    (ts : List Term) (text : List Char) : (close right ts).read (c :: text) = [] := by
  refine read_close_eq_nil ?_ ts
  rw [dropWhile_isBlank_cons hc, List.head?_cons]
  rintro ⟨⟩
  simp [hright.facts] at hc

section
variable {α : Type} {sep : Rule α} {p : Rule Term} [Local sep] [Local p] {g right : Char}
  (hsep : Separates sep g)
include hsep

theorem ends_link {t : Term} (ht : Reads p t) {rest : List Char} (hrest : EndsTerm rest) :
    (sep >>= fun _ => p).ends stops (g :: t.chars ++ rest) = [(t, rest)] := by
  obtain ⟨c, l, hchars, hc⟩ := ht.head
  obtain ⟨v, hread⟩ := hsep.between c (l ++ rest) hc
  rw [ends_bind, hchars, List.cons_append, List.cons_append, hread, List.flatMap_singleton,
    ← List.cons_append, ← hchars, ht.once rest hrest]

theorem read_link_eq_nil {β : Type} {q : Rule β} [Local q] {text : List Char}
    (h : ∀ c ∈ text.head?, Text.isBlank c = false ∧ c ≠ g) :
    (sep >>= fun _ => q).read text = [] := by
  rw [read_bind, hsep.apart text h]
  rfl

variable (hg : g = ' ' ∨ IsMark g) (hright : IsMark right) (hne : g ≠ right)
include hg hright hne

omit [Local sep] hsep in
theorem read_close_of_separator (ts : List Term) {c : Char} (hc : isBeginning c)
    (text : List Char) : (close right ts).read (g :: c :: text) = [] := by
  refine read_close_eq_nil ?_ ts
  rcases hg with rfl | hg
  · rw [List.dropWhile_cons_of_pos (by decide), dropWhile_isBlank_cons hc, List.head?_cons]
    rintro ⟨⟩
    simp [hright.facts] at hc
  · rw [List.dropWhile_cons_of_neg (by simp [hg.facts])]
    simpa using hne

/-- Neither another term nor the end of the row follows within a token. -/
theorem ends_row_of_token (us : List Term) {rest : List Char} (h : stops rest = false) :
    (many (sep >>= fun _ => p) >>= fun ts => close right (us ++ ts)).ends (fun _ =>
      true) rest = [] := by
  obtain ⟨c, text, rfl⟩ : ∃ c text, rest = c :: text := by
    cases rest with
    | nil => simp at h
    | cons c text => exact ⟨c, text, rfl⟩
  have hc : isToken c := by simpa using h
  have hmark : c ≠ g := by
    rintro rfl
    rcases hg with rfl | hg
    · exact absurd hc (by decide)
    · simp [hg.facts] at hc
  have hblank : Text.isBlank c = false := isBlank_of_isBeginning (isBeginning_of_isToken hc)
  rw [ends_many_bind_of_nil (read_link_eq_nil hsep (by simpa using ⟨hblank, hmark⟩)),
    ends_eq_nil (read_close_of_beginning hright (isBeginning_of_isToken hc) _ text)]

theorem read_row_behind (v : Term) {ts : List Term} (hts : ∀ t ∈ ts, Reads p t) (rest : List Char) :
    (many (sep >>= fun _ => p) >>= fun more => close right (v :: more)).read
      (ts.flatMap (g :: ·.chars) ++ right :: rest) = [(v :: ts, rest)] := by
  have hlast : (sep >>= fun _ => p).read (right :: rest) = [] :=
    read_link_eq_nil hsep (by simpa using ⟨hright.facts.1, hne.symm⟩)
  have hrow := ends_many_row (sep >>= fun _ => p) (fun more => close right (v :: more))
    (fun _ => true) stops EndsTerm
    (g :: ·.chars) ts (right :: rest)
    (fun us text => ends_row_of_token hsep hg hright hne (v :: us)) ?_ ?_ (ends_eq_nil hlast stops)
  · rw [ends_true, ends_true, read_close hright.facts.1] at hrow
    exact List.perm_singleton.1 hrow
  · intro t ht text htext
    obtain ⟨c, l, hchars, hc⟩ := (hts t ht).head
    refine ⟨List.cons_ne_nil _ _, ?_, ends_link hsep (hts t ht) htext, fun us => ends_eq_nil ?_ _⟩
    · rintro d ⟨⟩
      exact hg
    · rw [hchars]
      exact read_close_of_separator hg hright hne _ hc _
  · rintro d ⟨⟩
    exact .inr hright

theorem read_row (hp : NeedsBeginning p) {ts : List Term} (hts : ∀ t ∈ ts, Reads p t)
    (rest : List Char) :
    (sepBy p sep >>= close right).read ([g].intercalate (ts.map Term.chars) ++ right :: rest) =
      [(ts, rest)] := by
  rw [← ends_true, ends_sepBy_bind]
  cases ts with
  | nil =>
    have hnone : p.read (right :: rest) = [] := hp _ (by simp [hright.facts])
    rw [List.map_nil, List.intercalate_nil, List.nil_append, ends_true, read_close hright.facts.1,
      ends_bind, hnone]
    rfl
  | cons t ts =>
    obtain ⟨ht, hts⟩ := List.forall_mem_cons.1 hts
    obtain ⟨c, l, hchars, hc⟩ := ht.head
    have htext : [g].intercalate ((t :: ts).map Term.chars) ++ right :: rest =
        t.chars ++ (ts.flatMap (g :: ·.chars) ++ right :: rest) := by
      rw [List.map_cons, Text.intercalate_cons, List.flatMap_map, List.append_assoc]
    have hbehind : EndsTerm (ts.flatMap (g :: ·.chars) ++ right :: rest) := by
      cases ts with
      | nil => rintro d ⟨⟩; exact .inr hright
      | cons u us => rintro d ⟨⟩; exact hg
    have hnone :
        (close right []).read (t.chars ++ (ts.flatMap (g :: ·.chars) ++ right :: rest)) = [] := by
      rw [hchars]
      exact read_close_of_beginning hright hc _ _
    rw [htext, ends_eq_nil hnone, List.nil_append, ends_bind_of stops fun x _ hx =>
      ends_row_of_token hsep hg hright hne [x.1] hx, ht.once _ hbehind,
        List.flatMap_singleton, ends_true]
    exact read_row_behind hsep hg hright hne t hts rest

end

section
variable {p : Rule Term} [Local p] {ts : List Term} (hts : ∀ t ∈ ts, Reads p t)
include hts

omit [Local p] in
theorem dropWhile_isBlank_row {right : Char} (hright : IsMark right) (g : Char) (rest : List Char) :
    ([g].intercalate (ts.map Term.chars) ++ right :: rest).dropWhile Text.isBlank =
      [g].intercalate (ts.map Term.chars) ++ right :: rest := by
  cases ts with
  | nil => exact List.dropWhile_cons_of_neg (by simp [hright.facts])
  | cons t ts =>
    obtain ⟨c, l, hchars, hc⟩ := (hts t List.mem_cons_self).head
    rw [List.map_cons, Text.intercalate_cons, hchars]
    exact dropWhile_isBlank_cons hc _

theorem read_items (hp : NeedsBeginning p) (left right : Char) (hright : IsMark right)
    (hne : ',' ≠ right) (rest : List Char) : (items p left right).read
      (left :: ([','].intercalate (ts.map Term.chars) ++ right :: rest)) = [(ts, rest)] := by
  change (opening left >>= fun _ => sepBy p (spaced (char ',')) >>= close right).read _ = _
  rw [read_bind, read_opening, List.flatMap_singleton, dropWhile_isBlank_row hts hright,
    read_row (separates_spaced (by decide)) (.inr (by decide)) hright hne hp hts]

theorem read_application (hp : NeedsBeginning p) (rest : List Char) : (application p).read
    ('(' :: ([' '].intercalate (ts.map Term.chars) ++ ')' :: rest)) = [(.app ts, rest)] := by
  change (Term.app <$> (opening '(' >>= fun _ => sepBy p (char ' ') >>= close ')')).read _ = _
  rw [read_map, read_bind, read_opening, List.flatMap_singleton,
    dropWhile_isBlank_row hts (by decide),
    read_row (separates_char ' ') (.inl rfl) (by decide) (by decide) hp hts]
  rfl

/-- Several terms with blanks between them are no tuple. -/
theorem read_items_of_application (hseveral : 2 ≤ ts.length) (rest : List Char) :
    (items p '(' ')').read ('(' :: ([' '].intercalate (ts.map Term.chars) ++ ')' :: rest)) =
      [] := by
  match ts, hseveral with
  | t :: u :: us, _ =>
    obtain ⟨ht, hu, -⟩ : Reads p t ∧ Reads p u ∧ _ := by simpa using hts
    obtain ⟨c, l, hchars, hc⟩ := ht.head
    obtain ⟨d, m, hdchars, hd⟩ := hu.head
    have htext : ∃ text, [' '].intercalate ((t :: u :: us).map Term.chars) ++ ')' :: rest =
        t.chars ++ ' ' :: d :: text := by
      refine ⟨m ++ (us.flatMap (' ' :: ·.chars) ++ ')' :: rest), ?_⟩
      rw [List.map_cons, Text.intercalate_cons, List.map_cons, List.flatMap_cons, hdchars,
        List.flatMap_map]
      simp only [List.cons_append, List.append_assoc]
    obtain ⟨text, htext⟩ := htext
    have hclose : (close ')' []).read (t.chars ++ ' ' :: d :: text) = [] := by
      rw [hchars]
      exact read_close_of_beginning (by decide) hc _ _
    have hcomma : (spaced (char ',') >>= fun _ => p).read (' ' :: d :: text) = [] := by
      rw [read_bind, read_spaced, List.dropWhile_cons_of_pos (by decide), dropWhile_isBlank_cons hd,
        read_char_cons, if_neg (by rintro rfl; exact absurd hd (by decide))]
      rfl
    have hend : (close ')' [t]).read (' ' :: d :: text) = [] :=
      read_close_of_separator (.inl rfl) (by decide) (by decide) _ hd _
    have hspace : EndsTerm (' ' :: d :: text) := by
      rintro e ⟨⟩
      exact .inl rfl
    change (opening '(' >>= fun _ => sepBy p (spaced (char ',')) >>= close ')').read _ = _
    rw [read_bind, read_opening, List.flatMap_singleton,
      dropWhile_isBlank_row hts (by decide), htext, ← ends_true, ends_sepBy_bind,
      ends_eq_nil hclose, List.nil_append, ends_bind_of stops fun x _ hx => ?_, ht.once _ hspace,
      List.flatMap_singleton, ends_many_bind_of_nil hcomma]
    · exact ends_eq_nil hend _
    · exact ends_row_of_token (separates_spaced (by decide)) (.inr (by decide))
        (by decide) (by decide) [x.1] hx

end

end SugaredLambda.Grammar
