import SugaredLambda.Proofs.Text.Lines

/-! What `clean` would change can be seen locally, so that pieces of clean texts can be put together
again. -/
namespace SugaredLambda.Text

/-- What no clean text contains, when a line feed is added at both ends. -/
inductive Forbidden : List Char → Prop
  | line {c : Char} (ends : endsLine c) (other : c ≠ '\n') : Forbidden [c]
  | comment : Forbidden ['-', '-']
  | trailing : Forbidden [' ', '\n']
  | blank {blanks : List Char} (all : ∀ c ∈ blanks, isBlank c) :
      Forbidden ('\n' :: blanks ++ ['\n'])

def Smooth (text : List Char) : Prop := ∀ bad, bad <:+: text → ¬Forbidden bad

theorem Smooth.part {part text : List Char} (h : Smooth text) (hpart : part <:+: text) :
    Smooth part :=
  fun bad hbad => h bad (hbad.trans hpart)

theorem isBlank_of_endsLine {c : Char} (h : endsLine c) : isBlank c := by
  simp only [endsLine, isBlank, blankRanges, inRanges] at h ⊢
  grind

theorem Forbidden.isBlank {bad : List Char} (h : Forbidden bad) (hne : bad ≠ ['-', '-']) :
    ∀ c ∈ bad, isBlank c := by
  cases h with
  | line ends _ => simpa using isBlank_of_endsLine ends
  | comment => exact absurd rfl hne
  | trailing => exact List.all_eq_true.1 (by decide)
  | blank all =>
    intro c hc
    rcases List.mem_append.1 hc with hc | hc
    · rcases List.mem_cons.1 hc with rfl | hc
      · decide
      · exact all c hc
    · rw [List.mem_singleton.1 hc]
      decide

/-- Smooth texts may stand side by side if one of the characters that meet is no blank, and they are
not two hyphens. -/
theorem Smooth.append {left right : List Char} (hleft : Smooth left) (hright : Smooth right)
    (hmeet : (∀ c ∈ left.getLast?, Text.isBlank c = false) ∨ ∀ c ∈ right.head?,
      Text.isBlank c = false)
    (hdash : left.getLast? ≠ some '-' ∨ right.head? ≠ some '-') : Smooth (left ++ right) := by
  intro bad hbad hforbidden
  rcases List.infix_append_iff.1 hbad with h | h | ⟨first, second, rfl, hfirst, hsecond⟩
  · exact hleft bad h hforbidden
  · exact hright bad h hforbidden
  · rcases List.eq_nil_or_concat first with rfl | ⟨first, a, rfl⟩
    · exact hright _ hsecond.isInfix hforbidden
    cases second with
    | nil => exact hleft _ (by simpa using hfirst.isInfix) hforbidden
    | cons b second =>
      obtain ⟨before, rfl⟩ := hfirst
      obtain ⟨behind, rfl⟩ := hsecond
      simp only [List.getLast?_append, List.concat_eq_append, List.getLast?_singleton,
        Option.some_or, List.cons_append, List.head?_cons] at hmeet hdash
      by_cases hne : first.concat a ++ b :: second = ['-', '-']
      · have hlength := congrArg List.length hne
        obtain rfl : first = [] := List.eq_nil_of_length_eq_zero (by simp at hlength; omega)
        obtain ⟨rfl, rfl⟩ : a = '-' ∧ b = '-' := by simp at hne; exact ⟨hne.1, hne.2.1⟩
        simp at hdash
      · have hblank := hforbidden.isBlank hne
        have ha := hblank a (by simp)
        have hb := hblank b (by simp)
        simp [ha, hb] at hmeet

theorem smooth_newline : Smooth ['\n'] := by
  intro bad hbad hforbidden
  have hlength := hbad.length_le
  cases hforbidden with
  | line ends other => exact other (by simpa using List.singleton_sublist.1 hbad.sublist)
  | blank => simp at hlength
  | _ => simp at hlength

theorem newline_not_mem {line : List Char} (h : Tidy line) : '\n' ∉ line := fun hmem =>
  absurd (h.noEnd '\n' hmem) (by decide)

theorem smooth_of_tidy {line : List Char} (h : Tidy line) : Smooth ('\n' :: line) := by
  have hnewline := newline_not_mem h
  intro bad hbad hforbidden
  rcases List.infix_cons_iff.1 hbad with hstart | hlater
  · cases hforbidden with
    | line ends other => exact other (List.cons_prefix_cons.1 hstart).1
    | comment => exact absurd (List.cons_prefix_cons.1 hstart).1 (by decide)
    | trailing => exact absurd (List.cons_prefix_cons.1 hstart).1 (by decide)
    | blank => exact hnewline ((List.cons_prefix_cons.1 hstart).2.subset (by simp))
  · cases hforbidden with
    | @line c ends other => simp [h.noEnd c (hlater.subset (by simp))] at ends
    | comment => exact h.noComment hlater
    | trailing => exact hnewline (hlater.subset (by simp))
    | blank => exact hnewline (hlater.subset (by simp))

/-- Nothing forbidden begins in a tidy line, or with the line feed before it, and goes on with the
next line feed. -/
theorem not_forbidden_across {line first second : List Char} {a : Char} (hline : Tidy line)
    (hfirst : a :: first <:+ '\n' :: line) : ¬Forbidden (a :: first ++ '\n' :: second) := by
  intro hforbidden
  generalize heq : a :: first ++ '\n' :: second = bad at hforbidden
  have hmem : '\n' ∈ bad := heq ▸ by simp
  cases hforbidden with
  | line => simp at heq
  | comment => exact absurd hmem (by decide)
  | trailing =>
    have hlength := congrArg List.length heq
    obtain rfl : first = [] := List.eq_nil_of_length_eq_zero (by simp at hlength; omega)
    obtain rfl := (List.cons.inj heq).1
    obtain ⟨before, hbefore⟩ := hfirst
    cases before with
    | nil => exact absurd (List.cons.inj hbefore).1 (by decide)
    | cons c before =>
      obtain ⟨-, rfl⟩ := List.cons.inj hbefore
      exact hline.noTrailing (by simp)
  | blank all =>
    obtain ⟨rfl, hrest⟩ := List.cons.inj heq
    change first ++ '\n' :: second = _ ++ ['\n'] at hrest
    rcases List.suffix_cons_iff.1 hfirst with heq | hsuffix
    · obtain ⟨-, rfl⟩ := List.cons.inj heq
      obtain ⟨c, hc, hblank⟩ := hline.notBlank
      have hmem := List.mem_append_left ('\n' :: second) hc
      rw [hrest] at hmem
      rcases List.mem_append.1 hmem with hmem | hmem
      · simp [all c hmem] at hblank
      · rw [List.mem_singleton.1 hmem] at hblank
        exact absurd hblank (by decide)
    · exact newline_not_mem hline (hsuffix.subset List.mem_cons_self)

theorem Smooth.cons_line {line rest : List Char} (hline : Tidy line)
    (hrest : Smooth ('\n' :: rest)) : Smooth (('\n' :: line) ++ '\n' :: rest) := by
  intro bad hbad hforbidden
  rcases List.infix_append_iff.1 hbad with h | h | ⟨first, second, rfl, hfirst, hsecond⟩
  · exact smooth_of_tidy hline bad h hforbidden
  · exact hrest bad h hforbidden
  · cases second with
    | nil => exact smooth_of_tidy hline _ (by simpa using hfirst.isInfix) hforbidden
    | cons b second =>
      obtain rfl := (List.cons_prefix_cons.1 hsecond).1
      cases first with
      | nil => exact hrest _ hsecond.isInfix hforbidden
      | cons a first => exact not_forbidden_across hline hfirst hforbidden

theorem exists_newline (ls : List (List Char)) :
    ∃ rest, ls.flatMap ('\n' :: ·) ++ ['\n'] = '\n' :: rest := by
  cases ls with
  | nil => exact ⟨_, rfl⟩
  | cons l ls => exact ⟨_, rfl⟩

theorem smooth_lines {ls : List (List Char)} (h : ∀ l ∈ ls, Tidy l) :
    Smooth (ls.flatMap ('\n' :: ·) ++ ['\n']) := by
  induction ls with
  | nil => exact smooth_newline
  | cons l ls ih =>
    obtain ⟨hl, hls⟩ := List.forall_mem_cons.1 h
    obtain ⟨rest, hrest⟩ := exists_newline ls
    have hsmooth := ih hls
    rw [hrest] at hsmooth
    rw [List.flatMap_cons, List.append_assoc, hrest]
    exact hsmooth.cons_line hl

/-- Pieces of a clean text are smooth. -/
theorem smooth_clean (source : List Char) : Smooth (clean source) := by
  obtain ⟨ls, hclean, hls⟩ := exists_tidy_clean source
  have hsmooth := smooth_lines hls
  rw [hclean]
  cases ls with
  | nil => exact hsmooth.part (List.nil_infix)
  | cons l ls =>
    refine hsmooth.part ⟨['\n'], ['\n'], ?_⟩
    rw [intercalate_cons, List.flatMap_cons]
    rfl

theorem exists_split (text : List Char) :
    ∃ l ls, text = ['\n'].intercalate (l :: ls) ∧ ∀ m ∈ l :: ls, '\n' ∉ m := by
  induction text with
  | nil => exact ⟨[], [], by simp⟩
  | cons c text ih =>
    obtain ⟨l, ls, rfl, hls⟩ := ih
    by_cases hc : c = '\n'
    · refine ⟨[], l :: ls, by rw [List.intercalate_cons_cons, hc]; rfl, ?_⟩
      exact List.forall_mem_cons.2 ⟨by simp, hls⟩
    · obtain ⟨hl, hls⟩ := List.forall_mem_cons.1 hls
      refine ⟨c :: l, ls, by rw [intercalate_cons, intercalate_cons]; rfl,
        List.forall_mem_cons.2 ⟨?_, hls⟩⟩
      simpa [Ne.symm hc] using hl

/-- A line between line feeds in a smooth text is tidy. -/
theorem tidy_of_smooth {line : List Char} (h : Smooth ('\n' :: line ++ ['\n']))
    (hline : '\n' ∉ line) : Tidy line where
  noEnd c hc := by
    by_contra hends
    obtain ⟨first, last, rfl⟩ := List.append_of_mem hc
    refine h [c] ⟨'\n' :: first, last ++ ['\n'], by simp⟩ (.line (Bool.of_not_eq_false hends) ?_)
    rintro rfl
    exact hline hc
  noComment hcomment := h _ (hcomment.trans ⟨['\n'], ['\n'], rfl⟩) .comment
  noTrailing hlast := by
    obtain ⟨first, rfl⟩ := List.getLast?_eq_some_iff.1 hlast
    exact h _ ⟨'\n' :: first, [], by simp⟩ .trailing
  notBlank := by
    by_contra hall
    exact h _ List.infix_rfl (.blank fun c hc => by
      by_contra hblank
      exact hall ⟨c, hc, Bool.of_not_eq_true hblank⟩)

theorem clean_eq_self {text : List Char} (h : Smooth text)
    (hfirst : ∀ c ∈ text.head?, isBlank c = false) (hlast : ∀ c ∈ text.getLast?, isBlank c = false)
    (hne : text ≠ []) : clean text = text := by
  have hframed : Smooth ('\n' :: text ++ ['\n']) := by
    have hopened := smooth_newline.append h (.inr hfirst) (.inl (by decide))
    refine hopened.append smooth_newline (.inl fun c hc => hlast c ?_)
      (.inr (by decide))
    rwa [List.getLast?_append_of_ne_nil _ hne] at hc
  obtain ⟨l, ls, rfl, hls⟩ := exists_split text
  refine clean_intercalate fun m hm => tidy_of_smooth (hframed.part ?_) (hls m hm)
  obtain ⟨first, last, hsplit⟩ := List.append_of_mem hm
  have htext : '\n' :: ['\n'].intercalate (l :: ls) ++ ['\n'] =
      first.flatMap ('\n' :: ·) ++ ('\n' :: m ++ (last.flatMap ('\n' :: ·) ++ ['\n'])) := by
    have hflat : '\n' :: ['\n'].intercalate (l :: ls) = (l :: ls).flatMap ('\n' :: ·) := by
      rw [intercalate_cons, List.flatMap_cons]
      rfl
    rw [hflat, hsplit, List.flatMap_append, List.flatMap_cons]
    simp
  obtain ⟨rest, hrest⟩ := exists_newline last
  rw [htext, hrest]
  exact ⟨first.flatMap ('\n' :: ·), rest, by simp⟩

end SugaredLambda.Text
