import SugaredLambda.Proofs.Grammar.Memory

/-! Words, numbers and rows of `#` may stop at any of their characters; each is read in one way up
to where no token goes on. -/
namespace SugaredLambda.Grammar
open SugaredLambda.Parser

theorem isAlphanumeric_eq (c : Char) :
    Text.isAlphanumeric c = if c.toNat < 0x30 then false else
      (c.toNat ≤ 0x39 || Text.inRanges c.toNat Text.alphanumericRanges.tail) := rfl

theorem isAlphanumeric_of_isDigit {c : Char} (h : c.isDigit) : Text.isAlphanumeric c := by
  have hc : 0x30 ≤ c.toNat ∧ c.toNat ≤ 0x39 := by
    simpa [Char.isDigit, UInt32.le_iff_toNat_le] using h
  simp [isAlphanumeric_eq, hc, Nat.not_lt.2 hc.1]

theorem isWordChar_of_isDigit {c : Char} (h : c.isDigit) : isWordChar c := by
  simp [isWordChar, isAlphanumeric_of_isDigit h]

theorem mem_of_inRanges {n : Nat} {ranges : List (Nat × Nat)} (h : Text.inRanges n ranges) :
    n ∈ ranges.flatMap fun r => List.range' r.1 (r.2 + 1 - r.1) := by
  induction ranges with
  | nil => simp [Text.inRanges] at h
  | cons r ranges ih =>
    rw [List.flatMap_cons, List.mem_append, List.mem_range'_1]
    by_cases hlow : n < r.1
    · simp [Text.inRanges, hlow] at h
    · by_cases hhigh : n ≤ r.2
      · exact .inl (by omega)
      · exact .inr (ih (by simpa [Text.inRanges, hlow, hhigh] using h))

theorem isWordChar_of_isBlank {c : Char} (h : Text.isBlank c) : isWordChar c = false := by
  have hcodes : ∀ n ∈ Text.blankRanges.flatMap fun r => List.range' r.1 (r.2 + 1 - r.1),
      isWordChar (Char.ofNat n) = false := by decide +kernel
  simpa using hcodes _ (mem_of_inRanges h)

/-- The characters that a word, a number or a row of `#` may go on with. -/
def isToken (c : Char) : Bool := isWordChar c || c == '#'

/-- Whether no token goes on with what is left. -/
def stops (rest : List Char) : Bool := !rest.head?.any isToken

@[simp] theorem stops_nil : stops [] := rfl

@[simp] theorem stops_cons (c : Char) (rest : List Char) : stops (c :: rest) = !isToken c := rfl

theorem isToken_of_isWordChar {c : Char} (h : isWordChar c) : isToken c := by
  simp [isToken, h]

section

instance : Local blank := inferInstanceAs (Local (longest _))
instance {α : Type} (p : Rule α) [Local p] : Local (spaced p) :=
  inferInstanceAs (Local (between _ _ _))
instance : Local word := inferInstanceAs (Local (_ <$> _))
instance : Local number := inferInstanceAs (Local (_ <$> _))
instance : Local stringLiteral := inferInstanceAs (Local (_ >>= _))
instance : Local charLiteral := inferInstanceAs (Local (_ >>= _))
instance : Local wordLiteral := inferInstanceAs (Local (_ >>= _))
instance : Local natural := inferInstanceAs (Local (_ <$> _))
instance : Local variableName := inferInstanceAs (Local (anyOf _))
instance (c : Char) : Local (opening c) := inferInstanceAs (Local (_ >>= _))
instance (c : Char) : Local (closing c) := inferInstanceAs (Local (_ *> _))

variable (t : Rule Term) [Local t]

instance : Local (abstraction t) := inferInstanceAs (Local (_ >>= _))
instance : Local (definition t) := inferInstanceAs (Local (_ >>= _))
instance : Local (letBlock t) := inferInstanceAs (Local (_ >>= _))
instance (left right : Char) : Local (items t left right) := inferInstanceAs (Local (between _ _ _))
instance : Local (application t) := inferInstanceAs (Local (_ <$> _))
instance : Local (field t) := inferInstanceAs (Local (between _ _ _))
instance : Local (constructor t) := inferInstanceAs (Local (_ >>= _))
instance : Local (record t) := inferInstanceAs (Local (_ <$> _))
instance : Local (sugar t) := inferInstanceAs (Local (firstOf _))

end

theorem read_char_bind {α : Type} (f : Char → Rule α) [∀ v, Local (f v)] (c d : Char)
    (text : List Char) :
    (char c >>= f).read (d :: text) = if d = c then (f d).read text else [] := by
  rw [read_bind, read_char_cons]
  split <;> simp

theorem ends_char_bind {α : Type} (f : Char → Rule α) [∀ v, Local (f v)] (c d : Char)
    (ok : List Char → Bool) (text : List Char) :
    (char c >>= f).ends ok (d :: text) = if d = c then (f d).ends ok text else [] := by
  rw [ends, read_char_bind]
  split <;> rfl

@[simp] theorem read_blank (text : List Char) :
    blank.read text = [(text.takeWhile Text.isBlank, text.dropWhile Text.isBlank)] :=
  read_longest _ text

theorem read_opening (c : Char) (text : List Char) :
    (opening c).read (c :: text) = [(c, text.dropWhile Text.isBlank)] := by
  rw [opening, read_char_bind, if_pos rfl, read_bind, read_blank]
  rfl

theorem read_closing (c : Char) (text : List Char) :
    (closing c).read text = (char c : Rule Char).read (text.dropWhile Text.isBlank) := by
  rw [closing, read_seqRight, read_blank]
  exact List.append_nil _

theorem read_spaced {α : Type} (p : Rule α) [Local p] (text : List Char) :
    (spaced p).read text =
      (p.read (text.dropWhile Text.isBlank)).map fun x => (x.1, x.2.dropWhile Text.isBlank) := by
  simp only [spaced, between, read_bind, read_blank, read_pure, List.flatMap_cons, List.flatMap_nil,
    List.append_nil, List.map_eq_flatMap]

/-- A run within a longer one stops at its end, or before another of its characters. -/
theorem rest_of_append {test : Char → Bool} {u w rest rest' : List Char}
    (h : w ++ rest = u ++ rest') (hu : ∀ c ∈ u, test c) (hw : ∀ c ∈ w, test c)
    (hrest : ∀ c ∈ rest.head?, test c = false) : rest' = rest ∨ ∃ c l, rest' = c :: l ∧ test c := by
  rcases List.append_eq_append_iff.1 h with ⟨v, rfl, rfl⟩ | ⟨v, rfl, rfl⟩
  · cases v with
    | nil => exact .inl rfl
    | cons c v =>
      have hc := hu c (by simp)
      exact absurd (hrest c rfl) (by simp [hc])
  · cases v with
    | nil => exact .inl rfl
    | cons c v => exact .inr ⟨c, v ++ rest, rfl, hw c (by simp)⟩

section
variable {w rest : List Char} (hne : w ≠ []) (hrest : stops rest)
include hne hrest

theorem ends_word (hw : ∀ c ∈ w, isWordChar c) :
    word.ends stops (w ++ rest) = [(String.ofList w, rest)] := by
  rw [word, ends_map, ends_runs hne hw (fun c l hc => by simp [isToken_of_isWordChar hc]) hrest]
  rfl

theorem ends_number (hw : ∀ c ∈ w, c.isDigit) :
    number.ends stops (w ++ rest) = [(Nat.ofDigitChars 10 w 0, rest)] := by
  rw [number, ends_map, ends_runs hne hw (fun c l hc => by
    simp [isToken_of_isWordChar (isWordChar_of_isDigit hc)]) hrest]
  rfl

end

theorem ends_number_digits (n : Nat) {rest : List Char} (hrest : stops rest) :
    number.ends stops (Nat.toDigits 10 n ++ rest) = [(n, rest)] := by
  rw [ends_number Nat.toDigits_ne_nil hrest fun c hc => Nat.isDigit_of_mem_toDigits
    (by omega) (by omega) hc, Nat.ofDigitChars_ten_toDigits]

theorem ends_hashes (n : Nat) {rest : List Char} (hrest : stops rest) :
    (many1 (char '#') : Rule (List Char)).ends stops (List.replicate (n + 1) '#' ++ rest) =
      [(List.replicate (n + 1) '#', rest)] := by
  have hnone : (char '#' : Rule Char).read rest = [] := by
    cases rest with
    | nil => rfl
    | cons c rest => rw [read_char_cons, if_neg (by rintro rfl; simp [isToken] at hrest)]
  have hrow := ends_many_row (char '#' : Rule Char) (fun vs => pure ('#' :: vs)) stops
    (fun _ => true) (fun _ => True)
    (fun c => [c]) (List.replicate n '#') rest (by simp) ?_ trivial (ends_eq_nil hnone _)
  · rw [List.replicate_succ, List.cons_append, many1, ends_char_bind, if_pos rfl]
    simpa [ends, hrest, List.flatMap_singleton'] using hrow
  · intro c hc l _
    obtain rfl := List.eq_of_mem_replicate hc
    simp [ends, isToken]

end SugaredLambda.Grammar
