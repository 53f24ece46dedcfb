import Mathlib.Data.List.Infix
import SugaredLambda.Text.Lines

/-! The lines of a clean text are tidy, and `clean` leaves such lines as they are. -/
namespace SugaredLambda.Text

/-- A line that `clean` leaves as it is. -/
structure Tidy (line : List Char) : Prop where
  noEnd : ∀ c ∈ line, endsLine c = false
  noComment : ¬['-', '-'] <:+: line
  noTrailing : line.getLast? ≠ some ' '
  notBlank : ∃ c ∈ line, isBlank c = false

theorem intercalate_cons (g : Char) (x : List Char) (xs : List (List Char)) :
    [g].intercalate (x :: xs) = x ++ xs.flatMap (g :: ·) := by
  induction xs generalizing x with
  | nil => simp
  | cons y xs ih => rw [List.intercalate_cons_cons, ih, List.flatMap_cons, List.append_assoc]; rfl

theorem endsLine_of_mem_lines {source line : List Char} (h : line ∈ lines source) :
    ∀ c ∈ line, endsLine c = false := by
  fun_induction lines source generalizing line with
  | case1 => simp at h
  | case2 rest ih =>
    rcases List.mem_cons.1 h with rfl | h
    · simp
    · exact ih h
  | case3 c rest _ hc ih =>
    rcases List.mem_cons.1 h with rfl | h
    · simp
    · exact ih h
  | case4 c rest _ hc hrest ih =>
    rw [List.mem_singleton.1 h]
    simpa using hc
  | case5 c rest _ hc first more hrest ih =>
    rcases List.mem_cons.1 h with rfl | h
    · exact List.forall_mem_cons.2 ⟨by simpa using hc, ih (by simp [hrest])⟩
    · exact ih (by simp [hrest, h])

theorem lines_newline (rest : List Char) : lines ('\n' :: rest) = [] :: lines rest := by
  rw [lines]
  · rfl
  · rintro _ ⟨⟩

theorem lines_cons {c : Char} (hc : endsLine c = false) (rest : List Char) :
    lines (c :: rest) = match lines rest with
      | [] => [[c]]
      | line :: more => (c :: line) :: more := by
  rw [lines]
  · refine (if_neg (Bool.eq_false_iff.1 hc)).trans ?_
    cases lines rest <;> rfl
  · rintro _ rfl
    exact absurd hc (by decide)

theorem lines_append {line : List Char} (h : ∀ c ∈ line, endsLine c = false) (rest : List Char) :
    lines (line ++ '\n' :: rest) = line :: lines rest := by
  induction line with
  | nil => exact lines_newline rest
  | cons c line ih =>
    obtain ⟨hc, hline⟩ := List.forall_mem_cons.1 h
    rw [List.cons_append, lines_cons hc, ih hline]

theorem lines_line {line : List Char} (h : ∀ c ∈ line, endsLine c = false) (hne : line ≠ []) :
    lines line = [line] := by
  induction line with
  | nil => exact absurd rfl hne
  | cons c line ih =>
    obtain ⟨hc, hline⟩ := List.forall_mem_cons.1 h
    rw [lines_cons hc]
    cases line with
    | nil => rfl
    | cons d line => rw [ih hline (by simp)]

theorem lines_intercalate {ls : List (List Char)}
    (h : ∀ l ∈ ls, (∀ c ∈ l, endsLine c = false) ∧ l ≠ []) :
    lines (['\n'].intercalate ls) = ls := by
  induction ls with
  | nil => rfl
  | cons l ls ih =>
    obtain ⟨⟨hl, hne⟩, hls⟩ := List.forall_mem_cons.1 h
    cases ls with
    | nil => rw [List.intercalate_singleton, lines_line hl hne]
    | cons m ls =>
      rw [List.intercalate_cons_cons, List.append_assoc, List.singleton_append,
        lines_append hl, ih hls]

theorem beforeComment_isPrefix (line : List Char) : beforeComment line <+: line := by
  fun_induction beforeComment line with
  | case1 => exact List.nil_prefix
  | case2 => exact List.nil_prefix
  | case3 c rest _ ih => exact List.cons_prefix_cons.2 ⟨rfl, ih⟩

theorem not_infix_beforeComment (line : List Char) : ¬['-', '-'] <:+: beforeComment line := by
  fun_induction beforeComment line with
  | case1 => simp
  | case2 => simp
  | case3 c rest hrest ih =>
    rintro h
    rcases List.infix_cons_iff.1 h with hstart | hlater
    · obtain ⟨rfl, hsecond⟩ := List.cons_prefix_cons.1 hstart
      obtain ⟨more, hmore⟩ := hsecond.trans (beforeComment_isPrefix rest)
      exact hrest more rfl hmore.symm
    · exact ih hlater

theorem beforeComment_eq_self {line : List Char} (h : ¬['-', '-'] <:+: line) :
    beforeComment line = line := by
  fun_induction beforeComment line with
  | case1 => rfl
  | case2 rest => exact absurd (List.prefix_append ['-', '-'] rest).isInfix h
  | case3 c rest _ ih =>
    rw [ih fun hcomment => h (hcomment.trans (List.suffix_cons c rest).isInfix)]

theorem trimEnd_isPrefix (line : List Char) : trimEnd line <+: line := by
  have h := List.dropWhile_suffix (l := line.reverse) (· == ' ')
  have h := List.reverse_prefix.2 h
  rwa [List.reverse_reverse] at h

theorem getLast?_trimEnd (line : List Char) : (trimEnd line).getLast? ≠ some ' ' := by
  intro h
  rw [trimEnd, List.getLast?_reverse] at h
  have hnot := List.head?_dropWhile_not (· == ' ') line.reverse
  rw [h] at hnot
  exact absurd hnot (by decide)

theorem trimEnd_eq_self {line : List Char} (h : line.getLast? ≠ some ' ') :
    trimEnd line = line := by
  rw [trimEnd]
  cases hlast : line.reverse with
  | nil => simpa using hlast.symm
  | cons c rest =>
    have hc : c ≠ ' ' := by
      rintro rfl
      exact h (by rw [List.getLast?_eq_head?_reverse, hlast]; rfl)
    rw [List.dropWhile_cons_of_neg (by simpa using hc), ← hlast, List.reverse_reverse]

theorem statement?_eq_self {line : List Char} (h : Tidy line) : statement? line = some line := by
  have hblank : line.all isBlank = false := by
    obtain ⟨c, hc, hblank⟩ := h.notBlank
    rw [List.all_eq_false]
    exact ⟨c, hc, by simp [hblank]⟩
  simp only [statement?, beforeComment_eq_self h.noComment, trimEnd_eq_self h.noTrailing, hblank]
  rfl

theorem tidy_of_statement? {line statement : List Char} (hline : ∀ c ∈ line, endsLine c = false)
    (h : statement? line = some statement) : Tidy statement := by
  rw [statement?] at h
  split at h
  · simp at h
  next hall =>
    obtain rfl := Option.some.inj h
    have hkept := (trimEnd_isPrefix (beforeComment line)).trans (beforeComment_isPrefix line)
    refine ⟨fun c hc => hline c (hkept.subset hc), fun hcomment => ?_, getLast?_trimEnd _, ?_⟩
    · exact not_infix_beforeComment line (hcomment.trans (trimEnd_isPrefix _).isInfix)
    · simpa using hall

theorem exists_tidy_clean (source : List Char) :
    ∃ ls, clean source = ['\n'].intercalate ls ∧ ∀ l ∈ ls, Tidy l := by
  refine ⟨_, rfl, fun l hl => ?_⟩
  obtain ⟨line, hline, hsaid⟩ := List.mem_filterMap.1 hl
  exact tidy_of_statement? (endsLine_of_mem_lines hline) hsaid

theorem clean_intercalate {ls : List (List Char)} (h : ∀ l ∈ ls, Tidy l) :
    clean (['\n'].intercalate ls) = ['\n'].intercalate ls := by
  have hne : ∀ l ∈ ls, (∀ c ∈ l, endsLine c = false) ∧ l ≠ [] := fun l hl =>
    ⟨(h l hl).noEnd, by rintro rfl; simpa using (h [] hl).notBlank⟩
  rw [clean, lines_intercalate hne, List.filterMap_congr fun l hl => statement?_eq_self (h l hl),
    List.filterMap_some]

end SugaredLambda.Text
