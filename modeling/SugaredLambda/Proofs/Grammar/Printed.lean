import SugaredLambda.Proofs.Grammar.Unambiguous
import SugaredLambda.Proofs.Text.Smooth

/-! The text of a term is clean if its names and literals are pieces of clean texts. -/
namespace SugaredLambda
open SugaredLambda.Parser SugaredLambda.Grammar

namespace Text

/-- A smooth text with no blanks at its ends. -/
structure Neat (text : List Char) : Prop where
  smooth : Smooth text
  ne_nil : text ≠ []
  first : ∀ c ∈ text.head?, isBlank c = false
  last : ∀ c ∈ text.getLast?, isBlank c = false

theorem Neat.clean {text : List Char} (h : Neat text) : clean text = text :=
  clean_eq_self h.smooth h.first h.last h.ne_nil

theorem Neat.append {left right : List Char} (hleft : Neat left) (hright : Neat right)
    (hdash : left.getLast? ≠ some '-' ∨ right.head? ≠ some '-') : Neat (left ++ right) where
  smooth := hleft.smooth.append hright.smooth (.inl hleft.last) hdash
  ne_nil := by simp [hleft.ne_nil]
  first := by rw [List.head?_append_of_ne_nil _ hleft.ne_nil]; exact hleft.first
  last := by rw [List.getLast?_append_of_ne_nil _ hright.ne_nil]; exact hright.last

theorem smooth_singleton {c : Char} (h : endsLine c = false) : Smooth [c] := by
  intro bad hbad hforbidden
  have hlength := hbad.length_le
  cases hforbidden with
  | line ends => simp [List.singleton_sublist.1 hbad.sublist |> List.mem_singleton.1, h] at ends
  | blank => simp at hlength
  | _ => simp at hlength

theorem endsLine_of_not_isBlank {c : Char} (h : isBlank c = false) : endsLine c = false := by
  by_contra hends
  simp [isBlank_of_endsLine (Bool.of_not_eq_false hends)] at h

theorem neat_singleton {c : Char} (h : isBlank c = false) : Neat [c] where
  smooth := smooth_singleton (endsLine_of_not_isBlank h)
  ne_nil := by simp
  first := by simpa using h
  last := by simpa using h

theorem Neat.separated {left right : List Char} (hleft : Neat left) (hright : Neat right) {g : Char}
    (hg : g = ' ' ∨ isBlank g = false) (hdash : g ≠ '-') : Neat (left ++ g :: right) := by
  have hend : endsLine g = false := by
    rcases hg with rfl | hg
    · decide
    · exact endsLine_of_not_isBlank hg
  have hsmooth : Smooth ([g] ++ right) :=
    (smooth_singleton hend).append hright.smooth (.inr hright.first) (.inl (by simpa using hdash))
  refine ⟨hleft.smooth.append hsmooth (.inl hleft.last) (.inr (by simpa using hdash)), by simp, ?_,
    ?_⟩
  · rw [List.head?_append_of_ne_nil _ hleft.ne_nil]
    exact hleft.first
  · rw [List.getLast?_append_of_ne_nil _ (by simp), List.getLast?_cons_of_ne_nil hright.ne_nil]
    exact hright.last

theorem neat_intercalate {g : Char} (hg : g = ' ' ∨ isBlank g = false) (hdash : g ≠ '-')
    {xs : List (List Char)} (hne : xs ≠ []) (hxs : ∀ x ∈ xs, Neat x) :
    Neat ([g].intercalate xs) := by
  induction xs with
  | nil => exact absurd rfl hne
  | cons x xs ih =>
    obtain ⟨hx, hxs⟩ := List.forall_mem_cons.1 hxs
    cases xs with
    | nil => rwa [List.intercalate_singleton]
    | cons y ys =>
      rw [List.intercalate_cons_cons, List.append_assoc]
      exact hx.separated (ih (by simp) hxs) hg hdash

theorem neat_opened {left g : Char} (hg : g = ' ' ∨ isBlank g = false) (hdash : g ≠ '-')
    (hleft : isBlank left = false ∧ left ≠ '-')
    {xs : List (List Char)} (hxs : ∀ x ∈ xs, Neat x) : Neat (left :: [g].intercalate xs) := by
  have hone := neat_singleton hleft.1
  cases xs with
  | nil => exact hone
  | cons x xs =>
    exact hone.append (neat_intercalate hg hdash (by simp) hxs) (.inl (by simpa using hleft.2))

theorem neat_bracketed {left right g : Char} (hg : g = ' ' ∨ isBlank g = false) (hdash : g ≠ '-')
    (hleft : isBlank left = false ∧ left ≠ '-') (hright : isBlank right = false ∧ right ≠ '-')
    {xs : List (List Char)} (hxs : ∀ x ∈ xs, Neat x) :
    Neat (left :: ([g].intercalate xs ++ [right])) :=
  (neat_opened hg hdash hleft hxs).append (neat_singleton hright.1) (.inr (by simpa using hright.2))

end Text

namespace Term

def atoms : Term → List (List Char) := fold
  { abs := fun ps b => ps.map (·.toList) ++ b
    app := List.flatten
    var := fun x => [x.toList]
    nat := fun _ => []
    list := List.flatten
    tuple := List.flatten
    char := fun s => [s.toList]
    str := fun s => [s.toList]
    word := fun _ => []
    record := fun cs => (fieldBodies cs).flatten
    letIn := fun bs b =>
      (bs.flatMap fun x => x.name.toList :: (x.params.map (·.toList) ++ x.body)) ++ b }

theorem atoms_app (ts : List Term) : (Term.app ts).atoms = ts.flatMap atoms := by
  rw [atoms, fold, foldAll_eq]
  rfl

theorem atoms_list (ts : List Term) : (Term.list ts).atoms = ts.flatMap atoms := by
  rw [atoms, fold, foldAll_eq]
  rfl

theorem atoms_tuple (ts : List Term) : (Term.tuple ts).atoms = ts.flatMap atoms := by
  rw [atoms, fold, foldAll_eq]
  rfl

theorem atoms_letIn (bs : List (Binding Term)) (b : Term) : (Term.letIn bs b).atoms =
    (bs.flatMap fun x => x.name.toList :: (x.params.map (·.toList) ++ x.body.atoms)) ++
      b.atoms := by
  rw [atoms, fold, foldBindings_eq]
  change (bs.map _).flatMap _ ++ _ = _
  rw [List.flatMap_map]
  rfl

theorem hasRecord_app (ts : List Term) : (Term.app ts).hasRecord = ts.any hasRecord := by
  rw [hasRecord, fold, foldAll_eq]
  exact List.any_map

theorem hasRecord_list (ts : List Term) : (Term.list ts).hasRecord = ts.any hasRecord := by
  rw [hasRecord, fold, foldAll_eq]
  exact List.any_map

theorem hasRecord_tuple (ts : List Term) : (Term.tuple ts).hasRecord = ts.any hasRecord := by
  rw [hasRecord, fold, foldAll_eq]
  exact List.any_map

theorem any_hasRecord {ts : List Term} :
    ts.any hasRecord = false ↔ ∀ t ∈ ts, t.hasRecord = false := by
  simp

theorem hasRecord_letIn_eq_false {bs : List (Binding Term)} {b : Term} :
    (Term.letIn bs b).hasRecord = false ↔
      (∀ x ∈ bs, x.body.hasRecord = false) ∧ b.hasRecord = false := by
  have h : (Term.letIn bs b).hasRecord = ((bs.any fun x => x.body.hasRecord) || b.hasRecord) := by
    rw [hasRecord, fold, foldBindings_eq]
    change (((bs.map (Binding.map _)).any fun x : Binding Bool => x.body) || _) = _
    rw [List.any_map]
    rfl
  rw [h, Bool.or_eq_false_iff, List.any_eq_false]
  simp

end Term

namespace Grammar
open Text

theorem isBlank_of_isWordChar {c : Char} (h : isWordChar c) : isBlank c = false :=
  isBlank_of_isBeginning (isBeginning_of_isToken (isToken_of_isWordChar h))

theorem neat_word {x : String} (hx : IsWord x) (hsmooth : Smooth x.toList) : Neat x.toList where
  smooth := hsmooth
  ne_nil := hx.1
  first c hc := isBlank_of_isWordChar (hx.2 c (List.mem_of_head? hc))
  last c hc := isBlank_of_isWordChar (hx.2 c (List.mem_of_getLast? hc))

theorem neat_of_forall {text : List Char} (hne : text ≠ [])
    (h : ∀ c ∈ text, isBlank c = false ∧ c ≠ '-') : Neat text := by
  induction text with
  | nil => exact absurd rfl hne
  | cons c text ih =>
    obtain ⟨⟨hblank, hdash⟩, htext⟩ := List.forall_mem_cons.1 h
    cases text with
    | nil => exact neat_singleton hblank
    | cons d text =>
      exact (neat_singleton hblank).append (ih (by simp) htext) (.inl (by simpa using hdash))

theorem neat_digits (n : Nat) : Neat (Nat.toDigits 10 n) := by
  refine neat_of_forall Nat.toDigits_ne_nil fun c hc => ?_
  have hdigit := Nat.isDigit_of_mem_toDigits (b := 10) (n := n) (by omega) (by omega) hc
  refine ⟨isBlank_of_isWordChar (isWordChar_of_isDigit hdigit), ?_⟩
  rintro rfl
  exact absurd hdigit (by decide)

theorem neat_quoted {quote : Char} (hquote : isBlank quote = false ∧ quote ≠ '-') {text : List Char}
    (h : Smooth text) : Neat (quote :: (text ++ [quote])) := by
  have hone := neat_singleton hquote.1
  have hclosed : Smooth (text ++ [quote]) :=
    h.append hone.smooth (.inr hone.first) (.inr (by simpa using hquote.2))
  have hopened : Smooth ([quote] ++ (text ++ [quote])) :=
    hone.smooth.append hclosed (.inl hone.last) (.inl (by simpa using hquote.2))
  refine ⟨hopened, by simp, by simpa using hquote.1, ?_⟩
  rw [← List.cons_append, List.getLast?_append_of_ne_nil _ (by simp)]
  exact hone.last

theorem neat_signed {sign head text : List Char} (hsign : sign = arrow ∨ sign = equals)
    (hhead : Neat head) (htext : Neat text) : Neat (head ++ ' ' :: (sign ++ ' ' :: text)) := by
  have hneat : Neat sign := by
    rcases hsign with rfl | rfl
    · have hdash : Neat ['-'] := neat_singleton (by decide)
      have hangle : Neat ['>'] := neat_singleton (by decide)
      exact hdash.append hangle (.inr (by decide))
    · exact neat_singleton (by decide)
  exact hhead.separated (hneat.separated htext (.inl rfl) (by decide)) (.inl rfl) (by decide)

theorem neat_headed {x : Binding Term} (hx : ∀ y ∈ x.name :: x.params, IsWord y ∧ Smooth y.toList)
    (hbody : Neat x.body.chars) : Neat (headed x) := by
  refine neat_signed (.inr rfl) (neat_intercalate (.inl rfl) (by decide) (by simp) ?_) hbody
  intro y hy
  obtain ⟨z, hz, rfl⟩ := List.mem_map.1 hy
  exact neat_word (hx z hz).1 (hx z hz).2

theorem neat_definitions {bs : List (Binding Term)} (hbs : ∀ x ∈ bs, Neat (headed x))
    {text : List Char} (htext : Neat text) :
    Neat ((bs.flatMap fun x => Term.defined (x.map Term.chars)) ++ text) := by
  induction bs with
  | nil => exact htext
  | cons x xs ih =>
    obtain ⟨hx, hxs⟩ := List.forall_mem_cons.1 hbs
    have hclosed := hx.append (neat_singleton (c := ';') (by decide)) (.inr (by decide))
    have hneat := hclosed.separated (ih hxs) (.inl rfl) (by decide)
    rw [List.flatMap_cons, defined_eq]
    simpa using hneat

theorem neat_abs {ps : List String} {b : Term} (hps : ∀ p ∈ ps, IsWord p ∧ Smooth p.toList)
    (hb : Neat b.chars) : Neat (Term.abs ps b).chars := by
  have hparams : Neat ('(' :: [' '].intercalate (ps.map (·.toList))) := by
    refine neat_opened (.inl rfl) (by decide) (by decide) fun x hx => ?_
    obtain ⟨p, hp, rfl⟩ := List.mem_map.1 hx
    exact neat_word (hps p hp).1 (hps p hp).2
  have hbody := hb.append (neat_singleton (c := ')') (by decide)) (.inr (by decide))
  rw [Term.chars_abs]
  simpa [arrow] using neat_signed (.inl rfl) hparams hbody

theorem neat_letIn {bs : List (Binding Term)} {b : Term} (hbs : ∀ x ∈ bs, Neat (headed x))
    (hb : Neat b.chars) : Neat (Term.letIn bs b).chars := by
  have hbody := hb.append (neat_singleton (c := '\x7d') (by decide)) (.inr (by decide))
  rw [Term.chars_letIn, List.append_assoc]
  cases bs with
  | nil =>
    have hempty : Neat ['\x7b', ';'] :=
      neat_of_forall (by simp) (List.all_iff_forall_prop.1 (by decide))
    exact hempty.separated hbody (.inl rfl) (by decide)
  | cons x xs =>
    have hopen : Neat ['\x7b'] := neat_singleton (by decide)
    exact hopen.append (neat_definitions hbs hbody) (.inl (by decide))

theorem neat_chars {t : Term} (ht : t.Written) (hatoms : ∀ a ∈ t.atoms, Smooth a) :
    Neat t.chars := by
  have hrow {ts : List Term} (ih : ∀ t ∈ ts, (∀ a ∈ t.atoms, Smooth a) → Neat t.chars)
      (hatoms : ∀ a ∈ ts.flatMap Term.atoms, Smooth a) :
      ∀ x ∈ ts.map Term.chars, Neat x := fun x hx => by
    obtain ⟨t, ht, rfl⟩ := List.mem_map.1 hx
    exact ih t ht fun a ha => hatoms a (List.mem_flatMap.2 ⟨t, ht, ha⟩)
  induction ht with
  | nat n => exact neat_digits n
  | @var x name =>
    have hx := hatoms x.toList (by exact List.mem_singleton_self _)
    rcases name with ⟨hword, -⟩ | ⟨n, hhash⟩
    · exact neat_word hword hx
    · change Neat x.toList
      rw [hhash]
      exact neat_of_forall (by simp) fun c hc => by rw [List.eq_of_mem_replicate hc]; decide
  | char c =>
    have hsmooth : Smooth [c] := by simpa using hatoms _ (List.mem_singleton_self _)
    rw [Term.chars_char]
    exact neat_quoted (by decide) hsmooth
  | @str s content =>
    exact neat_quoted (by decide) (hatoms s.toList (by exact List.mem_singleton_self _))
  | word => exact (neat_singleton (by decide)).append (neat_digits _) (.inl (by decide))
  | @app ts several terms ih =>
    rw [Term.atoms_app] at hatoms
    rw [Term.chars_app]
    exact neat_bracketed (.inl rfl) (by decide) (by decide) (by decide) (hrow ih hatoms)
  | @list ts terms ih =>
    rw [Term.atoms_list] at hatoms
    rw [Term.chars_list]
    exact neat_bracketed (.inr (by decide)) (by decide) (by decide) (by decide) (hrow ih hatoms)
  | @tuple ts terms ih =>
    rw [Term.atoms_tuple] at hatoms
    rw [Term.chars_tuple]
    exact neat_bracketed (.inr (by decide)) (by decide) (by decide) (by decide) (hrow ih hatoms)
  | @abs ps b params body ih =>
    refine neat_abs (fun p hp =>
      ⟨params p hp, hatoms _ (List.mem_append_left _ (List.mem_map_of_mem hp))⟩) ?_
    exact ih fun a ha => hatoms a (List.mem_append_right _ ha)
  | @letIn bs b names bodies body ihs ih =>
    rw [Term.atoms_letIn] at hatoms
    refine neat_letIn (fun x hx => ?_) (ih fun a ha => hatoms a (List.mem_append_right _ ha))
    have hx' : ∀ a ∈ x.name.toList :: (x.params.map (·.toList) ++ x.body.atoms), Smooth a :=
      fun a ha => hatoms a (List.mem_append_left _ (List.mem_flatMap.2 ⟨x, hx, ha⟩))
    refine neat_headed (List.forall_mem_cons.2 ⟨⟨(names x hx).1, hx' _ List.mem_cons_self⟩,
      fun y hy => ?_⟩) (ihs x hx fun a ha => hx' a (by simp [ha]))
    exact ⟨(names x hx).2 y hy, hx' _ (by simpa using .inr (.inl ⟨y, hy, rfl⟩))⟩

/-- A term that is read in one way up to some kind of rest is all that is read from its text. -/
theorem complete_of_ends {text : List Char} (htext : Neat text) {ok : List Char → Bool}
    (hok : ok []) {t : Term} (h : (bare 0).ends ok text = [(t, [])]) :
    (parsed (String.ofList text)).complete = [t] := by
  have hall :
      (bare 0).ends List.isEmpty text = ((bare 0).ends ok text).filter fun x => x.2.isEmpty := by
    rw [ends, ends, List.filter_filter]
    refine List.filter_congr fun x _ => ?_
    cases hx : x.2 with
    | nil => simp [hok]
    | cons c rest => simp
  rw [parsed, String.toList_ofList, htext.clean, complete_parseClean, hall, h]
  rfl

theorem complete_chars {t : Term} (ht : t.Written) (hclear : t.Clear)
    (hatoms : ∀ a ∈ t.atoms, Smooth a) : (parsed (String.ofList t.chars)).complete = [t] := by
  have hends := (reads_bare ht 0 fun rest hrest => ends_sugar_chars ht hclear 0 hrest).once [] (by
    simp [EndsTerm])
  rw [List.append_nil] at hends
  exact complete_of_ends (neat_chars ht hatoms) stops_nil hends

theorem parseAll_chars {t : Term} (ht : t.Written) (hclear : t.Clear)
    (hatoms : ∀ a ∈ t.atoms, Smooth a) : parseAll (String.ofList t.chars) = .ok [t] := by
  rw [parseAll, Parse.all, complete_chars ht hclear hatoms]
  rfl

theorem parse_chars {t : Term} (ht : t.Written) (hclear : t.Clear)
    (hatoms : ∀ a ∈ t.atoms, Smooth a) : parse (String.ofList t.chars) = .ok t := by
  rw [parse, complete_chars ht hclear hatoms]
  rfl

end Grammar
end SugaredLambda
