import SugaredLambda.Proofs.Grammar.Printable
import SugaredLambda.Proofs.Grammar.Readings

/-! The grammar knows no escapes, and cleaning goes on within literals: which of them can be read
back. -/
namespace SugaredLambda
open SugaredLambda.Grammar SugaredLambda.Text

/-- Whether cleaning leaves a text between quotes as it is. -/
def isKept (quote : Char) (s : String) : Bool :=
  clean (quote :: (s.toList ++ [quote])) == quote :: (s.toList ++ [quote])

namespace Term

/-- No string holds a quote, and cleaning would change no literal. -/
def isLegible : Term → Bool := fold
  { abs := fun _ b => b
    app := fun ts => ts.all id
    var := fun _ => true
    nat := fun _ => true
    list := fun ts => ts.all id
    tuple := fun ts => ts.all id
    char := isKept '\''
    str := fun s => !s.toList.contains '"' && isKept '"' s
    word := fun _ => true
    record := fun cs => (fieldBodies cs).all id
    letIn := fun bs b => (bs.all fun x => x.body) && b }

/-- Plain names, applications of several terms, no tagged records, single characters, and words
that fit. -/
def isRegular : Term → Bool := isPlainWith (fun _ => true) fun _ => true

end Term

theorem isKept_iff_smooth {quote : Char} (hquote : isBlank quote = false ∧ quote ≠ '-')
    {s : String} : isKept quote s ↔ Smooth s.toList := by
  constructor
  · intro h
    have hclean := smooth_clean (quote :: (s.toList ++ [quote]))
    rw [beq_iff_eq.1 h] at hclean
    exact hclean.part ⟨[quote], [quote], by simp⟩
  · exact fun h => beq_iff_eq.2 (neat_quoted hquote h).clean

namespace Term

theorem isLegible_app (ts : List Term) : (app ts).isLegible ↔ ∀ t ∈ ts, t.isLegible := by
  simp [isLegible, fold]

theorem isLegible_list (ts : List Term) : (list ts).isLegible ↔ ∀ t ∈ ts, t.isLegible := by
  simp [isLegible, fold]

theorem isLegible_tuple (ts : List Term) : (tuple ts).isLegible ↔ ∀ t ∈ ts, t.isLegible := by
  simp [isLegible, fold]

theorem isLegible_letIn (bs : List (Binding Term)) (b : Term) :
    (letIn bs b).isLegible ↔ (∀ x ∈ bs, x.body.isLegible) ∧ b.isLegible := by
  simp [isLegible, fold, Binding.map]

theorem isLegible_char (s : String) : (char s).isLegible ↔ Smooth s.toList :=
  isKept_iff_smooth (by decide)

theorem isLegible_str (s : String) : (str s).isLegible ↔ '"' ∉ s.toList ∧ Smooth s.toList := by
  have hkept : isKept '"' s ↔ Smooth s.toList := isKept_iff_smooth (by decide)
  change (!s.toList.contains '"' && isKept '"' s) = true ↔ _
  rw [Bool.and_eq_true, hkept]
  simp

theorem isLegible_of_written {t : Term} (ht : t.Written) (hatoms : ∀ a ∈ t.atoms, Smooth a) :
    t.isLegible := by
  induction ht with
  | @abs ps b params body ih => exact ih fun a ha => hatoms a (List.mem_append_right _ ha)
  | @app ts several terms ih =>
    rw [atoms_app] at hatoms
    exact (isLegible_app ts).2 fun t ht => ih t ht fun a ha =>
      hatoms a (List.mem_flatMap.2 ⟨t, ht, ha⟩)
  | @list ts terms ih =>
    rw [atoms_list] at hatoms
    exact (isLegible_list ts).2 fun t ht => ih t ht fun a ha =>
      hatoms a (List.mem_flatMap.2 ⟨t, ht, ha⟩)
  | @tuple ts terms ih =>
    rw [atoms_tuple] at hatoms
    exact (isLegible_tuple ts).2 fun t ht => ih t ht fun a ha =>
      hatoms a (List.mem_flatMap.2 ⟨t, ht, ha⟩)
  | char c => exact (isLegible_char _).2 (hatoms _ (List.mem_singleton_self _))
  | @str s content => exact (isLegible_str s).2 ⟨content, hatoms _ (List.mem_singleton_self _)⟩
  | @letIn bs b names bodies body ihs ih =>
    rw [atoms_letIn] at hatoms
    refine (isLegible_letIn bs b).2 ⟨fun x hx => ihs x hx fun a ha => ?_,
      ih fun a ha => hatoms a (List.mem_append_right _ ha)⟩
    exact hatoms a (List.mem_append_left _ (List.mem_flatMap.2 ⟨x, hx, by simp [ha]⟩))
  | _ => rfl

theorem isPlainWith_of_isLegible {t : Term} (h : t.isRegular) (hlegible : t.isLegible) :
    t.isPlainWith (isKept '\'') fun s => !s.toList.contains '"' && isKept '"' s := by
  induction t using Term.induction with
  | abs ps b ih =>
    obtain ⟨hps, hb⟩ := (isPlainWith_abs ps b).1 h
    exact (isPlainWith_abs ps b).2 ⟨hps, ih hb hlegible⟩
  | app ts ih =>
    obtain ⟨hseveral, hts⟩ := (isPlainWith_app ts).1 h
    exact (isPlainWith_app ts).2 ⟨hseveral,
      fun t ht => ih t ht (hts t ht) ((isLegible_app ts).1 hlegible t ht)⟩
  | list ts ih =>
    have hts := (isPlainWith_list ts).1 h
    exact (isPlainWith_list ts).2 fun t ht => ih t ht (hts t ht)
      ((isLegible_list ts).1 hlegible t ht)
  | tuple ts ih =>
    have hts := (isPlainWith_tuple ts).1 h
    exact (isPlainWith_tuple ts).2 fun t ht => ih t ht (hts t ht)
      ((isLegible_tuple ts).1 hlegible t ht)
  | char s => exact Bool.and_eq_true_iff.2 ⟨(Bool.and_eq_true_iff.1 h).1, hlegible⟩
  | str s => exact hlegible
  | letIn bs b ihs ih =>
    obtain ⟨hbs, hb⟩ := (isPlainWith_letIn bs b).1 h
    obtain ⟨hlegibles, hbody⟩ := (isLegible_letIn bs b).1 hlegible
    exact (isPlainWith_letIn bs b).2
      ⟨fun x hx => ⟨(hbs x hx).1, ihs x hx (hbs x hx).2 (hlegibles x hx)⟩, ih hb hbody⟩
  | var | nat | word | record => exact h

theorem prints_of_isLegible {t : Term} (h : t.isRegular) (hlegible : t.isLegible) : t.Prints := by
  refine prints_of_isPlainWith (fun s hs => (isKept_iff_smooth (by decide)).1 hs) (fun s hs => ?_)
    (isPlainWith_of_isLegible h hlegible)
  exact (isLegible_str s).1 hs

/-- A regular term prints, and the program that prints it is read as the term again if and only if
its literals are legible. -/
theorem parse_print_iff_legible {t : Term} (h : t.isRegular) :
    ∃ text, t.print = .ok text ∧ (parse text = .ok t ↔ t.isLegible) := by
  refine ⟨String.ofList t.chars, print_of_isPlainWith h, fun hparse => ?_, fun hlegible => ?_⟩
  · have hfound := found_of_parse hparse (hasRecord_of_isPlainWith h)
    exact isLegible_of_written hfound.written fun a ha =>
      (smooth_clean (String.ofList t.chars).toList).part (hfound.atoms a ha)
  · have hprints := prints_of_isLegible h hlegible
    exact parse_chars hprints.written hprints.clear hprints.smooth

end Term
end SugaredLambda
