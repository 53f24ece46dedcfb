import SugaredLambda.Proofs.Grammar.Rows

/-! A name may contain `->` or `=`, so that a text can be cut at a sign in several places
(`cut_head`, `cut_term`). -/
namespace SugaredLambda
open SugaredLambda.Parser

/-- A name alone, with a sign in it. -/
def Term.Hides (sign : List Char) (t : Term) : Prop := ∃ x, t = .var x ∧ sign <:+: x.toList

namespace Grammar

def arrow : List Char := "->".toList

def equals : List Char := ['=']

/-- Made of characters that a name may contain and a number may not. -/
structure IsSign (sign : List Char) : Prop where
  ne_nil : sign ≠ []
  wordChars : ∀ c ∈ sign, isWordChar c
  noDigits : ∀ c ∈ sign, c.isDigit = false

theorem isSign_arrow : IsSign arrow :=
  ⟨by decide, List.all_eq_true.1 (by decide), List.all_iff_forall_prop.1 (by decide)⟩

theorem isSign_equals : IsSign equals :=
  ⟨by decide, List.all_eq_true.1 (by decide), List.all_iff_forall_prop.1 (by decide)⟩

/-- Characters that stand before a sign in the head of an abstraction or a definition. -/
def isLoose (c : Char) : Bool := isWordChar c || Text.isBlank c

/-- A sign stands in a text behind words and blanks only. -/
def Reaches (sign text : List Char) : Prop :=
  ∃ before rest, text = before ++ (sign ++ rest) ∧ ∀ c ∈ before, isLoose c

theorem IsSign.not_mem {sign : List Char} (h : IsSign sign) {c : Char} (hc : isWordChar c = false) :
    c ∉ sign :=
  fun hmem => by simp [h.wordChars c hmem] at hc

theorem cut_space {sign rest part text : List Char} (hspace : ' ' ∉ sign)
    (h : sign ++ rest = part ++ ' ' :: text) :
    ∃ later, part = sign ++ later ∧ rest = later ++ ' ' :: text := by
  rcases List.append_eq_append_iff.1 h with ⟨later, hpart, hrest⟩ | ⟨more, hsign, hmore⟩
  · exact ⟨later, hpart, hrest⟩
  · cases more with
    | nil => exact ⟨[], by simpa using hsign.symm, hmore.symm⟩
    | cons c more =>
      obtain ⟨rfl, -⟩ := List.cons.inj hmore
      exact absurd (by simp [hsign]) hspace

/-- A sign in a text with a head is one within the head, the one behind it, or a later one. -/
theorem cut_head {sign head text before rest : List Char} (hsign : IsSign sign)
    (h : head ++ ' ' :: (sign ++ ' ' :: text) = before ++ (sign ++ rest))
    (hbefore : ∀ c ∈ before, isLoose c) :
    (∃ later, later <:+ head ∧ rest = later ++ ' ' :: (sign ++ ' ' :: text)) ∨
      (before = head ++ [' '] ∧ rest = ' ' :: text) ∨
        ∃ later, text = later ++ (sign ++ rest) ∧ ∀ c ∈ later, isLoose c := by
  have hspace : ' ' ∉ sign := hsign.not_mem (by decide)
  have hfirst {more rest text : List Char} (h : ' ' :: text = more ++ (sign ++ rest)) :
      ∃ more', more = ' ' :: more' ∧ text = more' ++ (sign ++ rest) := by
    cases more with
    | nil =>
      obtain ⟨c, l, hsign⟩ := List.exists_cons_of_ne_nil hsign.ne_nil
      rw [List.nil_append, hsign] at h
      exact absurd (by rw [hsign, (List.cons.inj h).1]; exact List.mem_cons_self) hspace
    | cons c more => exact ⟨more, by rw [(List.cons.inj h).1], (List.cons.inj h).2⟩
  rcases List.append_eq_append_iff.1 h with ⟨more, rfl, hmore⟩ | ⟨part, rfl, hpart⟩
  · obtain ⟨more, rfl, hbehind⟩ := hfirst hmore
    rcases List.append_eq_append_iff.1 hbehind with ⟨later, rfl, hlater⟩ | ⟨part, hpart, hrest⟩
    · obtain ⟨later, rfl, htext⟩ := hfirst hlater
      exact .inr (.inr ⟨later, htext, fun c hc => hbefore c (by simp [hc])⟩)
    · obtain ⟨later, rfl, rfl⟩ := cut_space hspace hrest
      have hlength := congrArg List.length hpart
      simp only [List.length_append] at hlength
      obtain rfl : more = [] := List.eq_nil_of_length_eq_zero (by omega)
      obtain rfl : later = [] := List.eq_nil_of_length_eq_zero (by omega)
      exact .inr (.inl ⟨rfl, rfl⟩)
  · obtain ⟨later, rfl, rfl⟩ := cut_space hspace hpart
    exact .inl ⟨later, ⟨before ++ sign, List.append_assoc _ _ _⟩, rfl⟩

theorem cut_word {sign w text before rest : List Char} (hsign : IsSign sign)
    (htext : ∀ c ∈ text.head?, isWordChar c = false) (h : w ++ text = before ++ (sign ++ rest)) :
    (∃ later, w = before ++ sign ++ later ∧ rest = later ++ text) ∨
      ∃ more, before = w ++ more ∧ text = more ++ (sign ++ rest) := by
  rcases List.append_eq_append_iff.1 h with ⟨more, hbefore, hmore⟩ | ⟨part, rfl, hpart⟩
  · exact .inr ⟨more, hbefore, hmore⟩
  · rcases List.append_eq_append_iff.1 hpart with ⟨later, rfl, hlater⟩ | ⟨more, hmore, hbehind⟩
    · exact .inl ⟨later, by simp, hlater⟩
    · cases more with
      | nil => exact .inl ⟨[], by simpa using hmore.symm, by simpa using hbehind.symm⟩
      | cons c more =>
        have hc := hsign.wordChars c (by simp [hmore])
        exact absurd (htext c (by simp [hbehind])) (by simp [hc])

theorem not_isLoose_of_mem {c : Char} (h : c ∈ ['#', '(', '\x7b', '[', '"', '\'']) :
    isLoose c = false := by
  have hall : ∀ d ∈ ['#', '(', '\x7b', '[', '"', '\''], isLoose d = false :=
    List.all_iff_forall_prop.1 (by decide)
  exact hall c h

theorem before_ne_cons {sign text before rest : List Char} (hsign : IsSign sign) {c : Char}
    (hc : isLoose c = false) (h : c :: text = before ++ (sign ++ rest))
    (hbefore : ∀ c ∈ before, isLoose c) : False := by
  cases before with
  | nil =>
    obtain ⟨d, l, rfl⟩ := List.exists_cons_of_ne_nil hsign.ne_nil
    obtain ⟨rfl, -⟩ := List.cons.inj h
    simp [isLoose, hsign.wordChars c List.mem_cons_self] at hc
  | cons d before =>
    obtain ⟨rfl, -⟩ := List.cons.inj h
    simp [hbefore c List.mem_cons_self] at hc

theorem isWordChar_of_endsTerm {text : List Char} (h : EndsTerm text) :
    ∀ c ∈ text.head?, isWordChar c = false := by
  intro c hc
  rcases h c hc with rfl | hmark
  · decide
  · by_contra hword
    simpa [hmark.facts] using isToken_of_isWordChar (Bool.of_not_eq_false hword)

theorem cut_term {sign text before rest : List Char} (hsign : IsSign sign) {t : Term}
    (ht : t.Written) (htext : ∀ c ∈ text.head?, isWordChar c = false)
    (h : t.chars ++ text = before ++ (sign ++ rest)) (hbefore : ∀ c ∈ before, isLoose c) :
    (∃ later, t.Hides sign ∧ (∀ c ∈ later, isWordChar c) ∧ rest = later ++ text) ∨
      ∃ more, text = more ++ (sign ++ rest) ∧ ∀ c ∈ more, isLoose c := by
  have hwords {w : List Char} (h : w ++ text = before ++ (sign ++ rest)) :=
    cut_word hsign htext h
  cases ht with
  | abs | char | str | word =>
    exact (before_ne_cons hsign (not_isLoose_of_mem (by decide)) h hbefore).elim
  | app | list | tuple | letIn =>
    simp only [Term.chars_app, Term.chars_list, Term.chars_tuple, Term.chars_letIn] at h
    exact (before_ne_cons hsign (not_isLoose_of_mem (by decide)) h hbefore).elim
  | nat n =>
    change Nat.toDigits 10 n ++ text = _ at h
    rcases hwords h with ⟨later, hdigits, -⟩ | ⟨more, rfl, hmore⟩
    · obtain ⟨c, l, rfl⟩ := List.exists_cons_of_ne_nil hsign.ne_nil
      have hc : c.isDigit :=
        Nat.isDigit_of_mem_toDigits (b := 10) (n := n) (by omega) (by omega) (by simp [hdigits])
      simp [hsign.noDigits c List.mem_cons_self] at hc
    · exact .inr ⟨more, hmore, fun c hc => hbefore c (List.mem_append_right _ hc)⟩
  | @var x name =>
    change x.toList ++ text = _ at h
    rcases name with ⟨⟨-, hword⟩, -⟩ | ⟨n, hhash⟩
    · rcases hwords h with ⟨later, hx, hrest⟩ | ⟨more, rfl, hmore⟩
      · exact .inl ⟨later, ⟨x, rfl, before, later, hx.symm⟩,
          fun c hc => hword c (by simp [hx, hc]), hrest⟩
      · exact .inr ⟨more, hmore, fun c hc => hbefore c (List.mem_append_right _ hc)⟩
    · rw [hhash] at h
      exact (before_ne_cons hsign (not_isLoose_of_mem (by decide)) h hbefore).elim

end Grammar
end SugaredLambda
