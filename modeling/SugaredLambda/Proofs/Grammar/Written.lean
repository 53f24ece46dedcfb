import Mathlib.Data.Bool.AllAny
import SugaredLambda.Proofs.Grammar.Sugar

/-! The terms that have a written form of their own, and how these begin. -/
namespace SugaredLambda
open SugaredLambda.Parser

def IsWord (x : String) : Prop := x.toList ≠ [] ∧ ∀ c ∈ x.toList, Grammar.isWordChar c

/-- A name in a term: a word that is not read as a number, or a row of `#`. -/
def IsName (x : String) : Prop :=
  (IsWord x ∧ ∀ c ∈ x.toList.head?, c.isDigit = false) ∨ ∃ n, x.toList = List.replicate (n + 1) '#'

namespace Term

/-- Terms whose names and literals are what the grammar can read. -/
inductive Written : Term → Prop
  | abs {ps : List String} {b : Term} (params : ∀ p ∈ ps, IsWord p) (body : b.Written) :
      Written (.abs ps b)
  | app {ts : List Term} (several : 2 ≤ ts.length) (terms : ∀ t ∈ ts, t.Written) : Written (.app ts)
  | var {x : String} (name : IsName x) : Written (.var x)
  | nat (n : Nat) : Written (.nat n)
  | list {ts : List Term} (terms : ∀ t ∈ ts, t.Written) : Written (.list ts)
  | tuple {ts : List Term} (terms : ∀ t ∈ ts, t.Written) : Written (.tuple ts)
  | char (c : Char) : Written (.char (String.singleton c))
  | str {s : String} (content : '"' ∉ s.toList) : Written (.str s)
  | word {n : Nat} (fits : n < Bits.capacity Bits.wordWidth) : Written (.word n)
  | letIn {bs : List (Binding Term)} {b : Term}
    (names : ∀ x ∈ bs, IsWord x.name ∧ ∀ p ∈ x.params, IsWord p) (bodies : ∀ x ∈ bs, x.body.Written)
    (body : b.Written) : Written (.letIn bs b)

theorem chars_abs (ps : List String) (b : Term) :
    (Term.abs ps b).chars = '(' :: ([' '].intercalate (ps.map (·.toList)) ++ " -> ".toList ++
      b.chars ++ [')']) :=
  rfl

theorem chars_char (c : Char) : (Term.char (String.singleton c)).chars = ['\'', c, '\''] := by
  simp [chars, fold, printer]

theorem chars_str (s : String) : (Term.str s).chars = '"' :: (s.toList ++ ['"']) := rfl

theorem chars_word (n : Nat) : (Term.word n).chars = '#' :: Nat.toDigits 10 n := rfl

theorem chars_app (ts : List Term) :
    (Term.app ts).chars = '(' :: ([' '].intercalate (ts.map chars) ++ [')']) := by
  rw [chars, fold, foldAll_eq]
  rfl

theorem chars_list (ts : List Term) :
    (Term.list ts).chars = '[' :: ([','].intercalate (ts.map chars) ++ [']']) := by
  rw [chars, fold, foldAll_eq]
  rfl

theorem chars_tuple (ts : List Term) :
    (Term.tuple ts).chars = '(' :: ([','].intercalate (ts.map chars) ++ [')']) := by
  rw [chars, fold, foldAll_eq]
  rfl

theorem chars_letIn (bs : List (Binding Term)) (b : Term) :
    (Term.letIn bs b).chars = '\x7b' :: ((if bs.isEmpty then "; ".toList
      else bs.flatMap fun x => defined (x.map chars)) ++ b.chars ++ ['\x7d']) := by
  cases bs with
  | nil => rfl
  | cons x bs => rw [chars, fold, foldBindings_eq, ← List.flatMap_map]; rfl

end Term

namespace Grammar

def isBeginning (c : Char) : Bool := isToken c || ['(', '\x7b', '[', '"', '\''].contains c

theorem ne_of_isWordChar {c d : Char} (h : isWordChar c) (hd : isWordChar d = false) : c ≠ d := by
  rintro rfl
  simp [h] at hd

theorem exists_cons_of_isWord {x : String} (h : IsWord x) :
    ∃ c l, x.toList = c :: l ∧ isWordChar c := by
  obtain ⟨hne, hall⟩ := h
  obtain ⟨c, l, hx⟩ := List.exists_cons_of_ne_nil hne
  exact ⟨c, l, hx, hall c (by simp [hx])⟩

theorem exists_cons_digits (n : Nat) : ∃ c l, Nat.toDigits 10 n = c :: l ∧ c.isDigit := by
  obtain ⟨c, l, hn⟩ := List.exists_cons_of_ne_nil (Nat.toDigits_ne_nil (n := n) (b := 10))
  exact ⟨c, l, hn, Nat.isDigit_of_mem_toDigits (b := 10) (n := n) (by omega)
    (by omega) (by simp [hn])⟩

theorem isBeginning_head {t : Term} (h : t.Written) : ∃ c l, t.chars = c :: l ∧ isBeginning c := by
  cases h with
  | abs | char | str | word => exact ⟨_, _, rfl, by decide⟩
  | app => exact ⟨_, _, Term.chars_app _, by decide⟩
  | list => exact ⟨_, _, Term.chars_list _, by decide⟩
  | tuple => exact ⟨_, _, Term.chars_tuple _, by decide⟩
  | letIn => exact ⟨_, _, Term.chars_letIn _ _, by decide⟩
  | @var x name =>
    rcases name with ⟨hword, -⟩ | ⟨n, hhash⟩
    · obtain ⟨c, l, hx, hc⟩ := exists_cons_of_isWord hword
      exact ⟨c, l, hx, by simp [isBeginning, isToken, hc]⟩
    · exact ⟨'#', List.replicate n '#', hhash, by decide⟩
  | nat n =>
    obtain ⟨c, l, hn, hc⟩ := exists_cons_digits n
    exact ⟨c, l, hn, by simp [isBeginning, isToken, isWordChar_of_isDigit hc]⟩

theorem startsWith_many1_char (c : Char) : StartsWith c (many1 (char c) : Rule (List Char)) :=
  (startsWith_char c).bind _

theorem read_word_of_head {c : Char} (h : isWordChar c = false) (text : List Char) :
    word.read (c :: text) = [] := by
  rw [word, read_map, read_runs_cons, if_neg (by simp [h])]
  rfl

theorem read_number_of_head {text : List Char} (h : ∀ c ∈ text.head?, c.isDigit = false) :
    number.read text = [] := by
  rw [number, read_map]
  cases text with
  | nil => rw [read_runs_nil]; rfl
  | cons c text => rw [read_runs_cons, if_neg (by simp [h c rfl])]; rfl

theorem read_natural_of_head {text : List Char} (h : ∀ c ∈ text.head?, c.isDigit = false) :
    natural.read text = [] := by
  rw [natural, read_map, read_number_of_head h]
  rfl

theorem mem_read_word {text : List Char} {x : String × List Char} (h : x ∈ word.read text) :
    IsWord x.1 ∧ text = x.1.toList ++ x.2 := by
  rw [word, read_map] at h
  obtain ⟨y, hy, rfl⟩ := List.mem_map.1 h
  obtain ⟨htext, hne, hall⟩ := mem_read_runs hy
  exact ⟨⟨by simpa using hne, by simpa using hall⟩, by simpa using htext⟩

theorem mem_read_number {text : List Char} {x : Nat × List Char} (h : x ∈ number.read text) :
    ∃ digits, text = digits ++ x.2 ∧ digits ≠ [] ∧ ∀ c ∈ digits, c.isDigit := by
  rw [number, read_map] at h
  obtain ⟨y, hy, rfl⟩ := List.mem_map.1 h
  exact ⟨y.1, mem_read_runs hy⟩

theorem mem_read_hashes {text : List Char} {x : List Char × List Char}
    (h : x ∈ (many1 (char '#') : Rule (List Char)).read text) :
    text = x.1 ++ x.2 ∧ ∃ n, x.1 = List.replicate (n + 1) '#' := by
  obtain ⟨⟨v, rest⟩, hv, h⟩ := mem_read_bind.1 h
  obtain ⟨⟨vs, last⟩, hvs, h⟩ := mem_read_bind.1 h
  obtain rfl := mem_read_pure.1 h
  obtain ⟨rfl, rfl⟩ := mem_read_char hv
  obtain ⟨hrest, n, hn⟩ := many_induction
    (motive := fun text vs last => text = vs ++ last ∧ ∃ n, vs = List.replicate n '#')
    (fun text => ⟨rfl, 0, rfl⟩) (fun text v rest vs last hv h => by
      obtain ⟨rfl, rfl⟩ := mem_read_char hv
      obtain ⟨rfl, n, rfl⟩ := h
      exact ⟨rfl, n + 1, rfl⟩) hvs
  exact ⟨congrArg ('#' :: ·) hrest, n, congrArg ('#' :: ·) hn⟩

theorem mem_read_variableName {text : List Char} {x : String × List Char}
    (h : x ∈ variableName.read text) :
    text = x.1.toList ++ x.2 ∧ (IsWord x.1 ∨ ∃ n, x.1.toList = List.replicate (n + 1) '#') := by
  rw [variableName, read_anyOf_cons, read_anyOf_cons, read_anyOf_nil, List.append_nil] at h
  rcases List.mem_append.1 h with h | h
  · exact ⟨(mem_read_word h).2, .inl (mem_read_word h).1⟩
  · rw [read_map] at h
    obtain ⟨y, hy, rfl⟩ := List.mem_map.1 h
    obtain ⟨htext, n, hn⟩ := mem_read_hashes hy
    exact ⟨by simpa using htext, .inr ⟨n, by simpa using hn⟩⟩

theorem ends_variableName {x : String} (hx : IsName x) {rest : List Char} (hrest : stops rest) :
    variableName.ends stops (x.toList ++ rest) = [(x, rest)] := by
  rw [variableName, ends_anyOf_cons, ends_anyOf_cons, ends_anyOf_nil, List.append_nil, ends_map]
  rcases hx with ⟨hword, -⟩ | ⟨n, hhash⟩
  · obtain ⟨c, l, hx, hc⟩ := exists_cons_of_isWord hword
    have hnone := startsWith_many1_char '#' (x.toList ++ rest)
      (by simpa [hx] using ne_of_isWordChar hc (by decide))
    rw [ends_word hword.1 hrest hword.2, ends_eq_nil hnone, String.ofList_toList]
    rfl
  · have hnone : word.read (x.toList ++ rest) = [] := by
      rw [hhash]
      exact read_word_of_head (by decide) _
    rw [ends_eq_nil hnone, hhash, ends_hashes n hrest, ← hhash]
    simp

section
variable (t : Rule Term) [Local t] {rest : List Char}

theorem ends_sugar_of_word (ok : List Char → Bool) {c : Char} (hc : isWordChar c)
    (text : List Char) :
    (sugar t).ends ok (c :: text) =
      (firstOf [natural, .var <$> variableName]).ends ok (c :: text) := by
  have hall : ∀ d ∈ ['(', '\x7b', '[', '"', '\'', '#'], isWordChar d = false :=
    List.all_iff_forall_prop.1 (by decide)
  refine ends_sugar_of_token t ok fun d hd => ?_
  simpa using ne_of_isWordChar hc (hall d hd)

theorem ends_sugar_nat (n : Nat) (hrest : stops rest) :
    (sugar t).ends stops (Nat.toDigits 10 n ++ rest) = [(.nat n, rest)] := by
  have hnumber : natural.ends stops (Nat.toDigits 10 n ++ rest) = [(.nat n, rest)] := by
    rw [natural, ends_map, ends_number_digits n hrest]
    rfl
  have hfirst : (firstOf [natural, .var <$> variableName]).ends stops (Nat.toDigits 10 n ++ rest) =
      natural.ends stops (Nat.toDigits 10 n ++ rest) := ends_firstOf_of_ne_nil
    (read_ne_nil_of_ends stops (by rw [hnumber]; exact List.cons_ne_nil _ _)) stops
  obtain ⟨c, l, hn, hc⟩ := exists_cons_digits n
  rw [← hnumber, ← hfirst, hn]
  exact ends_sugar_of_word t stops (isWordChar_of_isDigit hc) _

/-- A row of `#` is neither the beginning of a word literal nor of a record. -/
theorem head_hashes (n : Nat) (hrest : stops rest) (hparen : rest.head? ≠ some '(') :
    ∀ c ∈ (List.replicate n '#' ++ rest).head?, c.isDigit = false ∧ c ≠ '(' := by
  intro c hc
  cases n with
  | zero =>
    cases rest with
    | nil => simp at hc
    | cons d rest =>
      obtain rfl : d = c := by simpa using hc
      refine ⟨?_, by simpa using hparen⟩
      by_contra h
      simp [isToken, isWordChar_of_isDigit (Bool.of_not_eq_false h)] at hrest
  | succ n =>
    obtain rfl : '#' = c := by simpa [List.replicate_succ] using hc
    decide

theorem ends_sugar_name {x : String} (hx : IsName x) (hrest : stops rest)
    (hparen : rest.head? ≠ some '(') :
    (sugar t).ends stops (x.toList ++ rest) = [(.var x, rest)] := by
  have hname : (Term.var <$> variableName).ends stops (x.toList ++ rest) = [(.var x, rest)] := by
    rw [ends_map, ends_variableName hx hrest]
    rfl
  have hlast : (firstOf [.var <$> variableName]).ends stops (x.toList ++ rest) =
      (Term.var <$> variableName).ends stops (x.toList ++ rest) := ends_firstOf_of_ne_nil
    (read_ne_nil_of_ends stops (by rw [hname]; exact List.cons_ne_nil _ _)) stops
  rw [← hname, ← hlast]
  rcases hx with ⟨hword, hdigit⟩ | ⟨n, hhash⟩
  · obtain ⟨c, l, hx, hc⟩ := exists_cons_of_isWord hword
    have hnumber : natural.read (x.toList ++ rest) = [] :=
      read_natural_of_head (by simpa [hx] using hdigit)
    rw [← ends_firstOf_of_nil hnumber, hx]
    exact ends_sugar_of_word t stops hc _
  · have hhead := head_hashes n hrest hparen
    have htext : x.toList ++ rest = '#' :: (List.replicate n '#' ++ rest) := by rw [hhash]; rfl
    have hnumber : natural.read (x.toList ++ rest) = [] := by
      rw [htext]
      exact read_natural_of_head fun c hc => by obtain rfl : '#' = c := by simpa using hc
                                                decide
    have hword : wordLiteral.read (x.toList ++ rest) = [] := by
      rw [htext, wordLiteral, read_bind, read_seqRight, read_char_cons, if_pos rfl,
        List.flatMap_cons, read_number_of_head fun c hc => (hhead c hc).1]
      rfl
    rw [← ends_firstOf_of_nil hnumber, ← ends_firstOf_of_nil hword, htext]
    exact ends_sugar_of_hash t stops fun h => (hhead '(' h).2 rfl

theorem ends_sugar_word {n : Nat} (hn : n < Bits.capacity Bits.wordWidth) (hrest : stops rest) :
    (sugar t).ends stops ('#' :: Nat.toDigits 10 n ++ rest) = [(.word n, rest)] := by
  obtain ⟨c, l, hdigits, hc⟩ := exists_cons_digits n
  have hparen : c ≠ '(' := ne_of_isWordChar (isWordChar_of_isDigit hc) (by decide)
  have hword : wordLiteral.ends stops ('#' :: Nat.toDigits 10 n ++ rest) = [(.word n, rest)] := by
    have htruncate : Bits.truncate (n : Int) Bits.wordWidth = n := by
      rw [Bits.truncate, Int.emod_eq_of_lt (by omega) (by omega)]
      rfl
    have hmap : wordLiteral = (fun n : Nat => Term.word (Bits.truncate n Bits.wordWidth)) <$>
        (char '#' *> number) :=
      rfl
    rw [hmap, ends_map]
    change ((char '#' >>= fun _ => number).ends stops _).map _ = _
    rw [List.cons_append, ends_char_bind, if_pos rfl, ends_number_digits n hrest,
      List.map_singleton, htruncate]
  rw [← hword, List.cons_append, ends_sugar_of_hash t stops (by simp [hdigits, hparen]),
    ends_firstOf_of_ne_nil (read_ne_nil_of_ends stops ?_)]
  rw [← List.cons_append, hword]
  exact List.cons_ne_nil _ _

theorem ends_sugar_str {s : String} (hs : '"' ∉ s.toList) (hrest : stops rest) :
    (sugar t).ends stops ('"' :: s.toList ++ '"' :: rest) = [(.str s, rest)] := by
  have hall : ∀ c ∈ s.toList, (c != '"') = true := fun c hc => bne_iff_ne.2 fun h => hs (h ▸ hc)
  have hread : stringLiteral.read ('"' :: s.toList ++ '"' :: rest) = [(.str s, rest)] := by
    rw [stringLiteral, read_bind, between, List.cons_append, read_char_bind, if_pos rfl,
      read_bind, read_longest, List.takeWhile_append_of_pos hall, List.dropWhile_append_of_pos hall,
      List.takeWhile_cons_of_neg (by decide), List.dropWhile_cons_of_neg (by decide),
      List.flatMap_singleton, read_char_bind, if_pos rfl]
    simp
  refine ends_sugar_of_fourth t stops (by decide) (by decide) (by simp) ?_
  rw [ends_eq_nil (startsWith_charLiteral _ (by simp)),
    ends_eq_nil ((startsWith_items t '[' ']').map Term.list _ (by simp)),
    ends_eq_nil (startsWith_record t _ (by simp))]
  change (stringLiteral.read ('"' :: s.toList ++ '"' :: rest)).filter _ ++ [] = _
  rw [hread]
  simp [hrest]

theorem ends_sugar_char (c : Char) (hrest : stops rest) :
    (sugar t).ends stops ('\'' :: c :: '\'' :: rest) = [(.char (String.singleton c), rest)] := by
  have hread :
      charLiteral.read ('\'' :: c :: '\'' :: rest) = [(.char (String.singleton c), rest)] := by
    rw [charLiteral, read_bind, between, read_char_bind, if_pos rfl, read_bind,
      read_satisfy_cons, if_pos rfl, List.flatMap_singleton, read_char_bind, if_pos rfl]
    rfl
  refine ends_sugar_of_fourth t stops (by decide) (by decide) (by simp) ?_
  rw [ends_eq_nil (startsWith_stringLiteral _ (by simp)),
    ends_eq_nil ((startsWith_items t '[' ']').map Term.list _ (by simp)),
    ends_eq_nil (startsWith_record t _ (by simp)), List.append_nil, ends, hread]
  simp [hrest]

end

end Grammar
end SugaredLambda
