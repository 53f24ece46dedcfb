import SugaredLambda.Grammar.Source
import SugaredLambda.Proofs.Text.Smooth

/-! `clean` is a projection onto the texts that are made of tidy lines. -/
namespace SugaredLambda.Text

/-- Nothing at all, or tidy lines with line feeds between them. -/
def IsClean (text : List Char) : Prop := text = [] ∨ ∀ line ∈ text.splitOn '\n', Tidy line

instance (line : List Char) : Decidable (Tidy line) :=
  decidable_of_iff (line.all (!endsLine ·) ∧ ¬['-', '-'] <:+: line ∧ line.getLast? ≠ some ' ' ∧
    line.any (!isBlank ·)) ⟨fun ⟨noEnd, noComment, noTrailing, notBlank⟩ =>
      ⟨by simpa using noEnd, noComment, noTrailing, by simpa using notBlank⟩,
      fun h => ⟨by simpa using h.noEnd, h.noComment, h.noTrailing, by simpa using h.notBlank⟩⟩

instance (text : List Char) : Decidable (IsClean text) :=
  inferInstanceAs (Decidable (text = [] ∨ ∀ line ∈ text.splitOn '\n', Tidy line))

theorem isClean_intercalate {ls : List (List Char)} (h : ∀ l ∈ ls, Tidy l) :
    IsClean (['\n'].intercalate ls) := by
  cases ls with
  | nil => exact .inl rfl
  | cons l ls =>
    have hsplit : (['\n'].intercalate (l :: ls)).splitOn '\n' = l :: ls :=
      List.splitOn_intercalate '\n' (fun m hm => newline_not_mem (h m hm)) (List.cons_ne_nil l ls)
    exact .inr (hsplit.symm ▸ h)

theorem isClean_clean (source : List Char) : IsClean (clean source) := by
  obtain ⟨ls, hclean, hls⟩ := exists_tidy_clean source
  rw [hclean]
  exact isClean_intercalate hls

theorem IsClean.clean_eq {text : List Char} (h : IsClean text) : clean text = text := by
  rcases h with rfl | h
  · rfl
  · have hclean := clean_intercalate h
    rwa [List.intercalate_splitOn] at hclean

theorem clean_eq_self_iff {text : List Char} : clean text = text ↔ IsClean text :=
  ⟨fun h => h ▸ isClean_clean text, IsClean.clean_eq⟩

theorem clean_clean (source : List Char) : clean (clean source) = clean source :=
  (isClean_clean source).clean_eq

/-- Cleaning leads to a clean text, and leaves just these alone, so that a second time it changes
nothing. A program has the readings of its clean text, or fails as that does. -/
theorem clean_projection (source : String) :
    IsClean (clean source.toList) ∧ (clean source.toList = source.toList ↔ IsClean source.toList) ∧
      clean (clean source.toList) = clean source.toList ∧
      Grammar.parseAll (String.ofList (clean source.toList)) = Grammar.parseAll source := by
  refine ⟨isClean_clean _, clean_eq_self_iff, clean_clean _, ?_⟩
  have hparsed : Grammar.parsed (String.ofList (clean source.toList)) = Grammar.parsed source := by
    rw [Grammar.parsed, String.toList_ofList, clean_clean, Grammar.parsed]
  rw [Grammar.parseAll, hparsed, Grammar.parseAll]

-- of the blanks at the end of a line only spaces are cut off
example : clean "f -- x\r\n \x85g\t --\x0b(a\u2028b)  ".toList = "f\ng\t\n(a\nb)".toList ∧
    IsClean "f\ng\t\n(a\nb)".toList ∧ ¬IsClean "f\ng \n".toList := by decide

end SugaredLambda.Text
