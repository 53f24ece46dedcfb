import SugaredLambda.Lambda.Printer

/-! No written term is a beginning of another one, unless an index goes on. -/
namespace SugaredLambda.Lambda
variable {p q : Lambda} {u v : List Char} {c : Char}

/-- What is left to write: characters as they are, or a term that is still to be opened. -/
inductive Piece where
  | chars (cs : List Char)
  | term (t : Lambda)

namespace Piece

def text : Piece → List Char
  | .chars cs => cs
  | .term t => t.charsBefore []

def weight : List Piece → Nat
  | [] => 0
  | .chars _ :: todo => weight todo + 1
  | .term t :: todo => 3 * t.size + weight todo

end Piece

/-- Writes the pieces from the top of the stack on; the parts of a term that is opened go on top of
the others. -/
def write : List Piece → List (List Char) → List (List Char)
  | [], out => out
  | .chars cs :: todo, out => write todo (out ++ [cs])
  | .term (.var i) :: todo, out => write todo (out ++ [indexChars i])
  | .term (.abs b) :: todo, out =>
    write (.term b :: .chars [')'] :: todo) (out ++ [['(', 'λ', ' ']])
  | .term (.app f a) :: todo, out =>
    write (.term f :: .chars [' '] :: .term a :: .chars [')'] :: todo) (out ++ [['(']])
termination_by todo => Piece.weight todo
decreasing_by
  · simp [Piece.weight]
  · simp [Piece.weight, size]
  · simp [Piece.weight, size]; omega
  · simp [Piece.weight, size]; omega

theorem charsBefore_eq (t : Lambda) (rest : List Char) :
    t.charsBefore rest = t.charsBefore [] ++ rest :=
  charsBefore_append t [] rest

theorem flatten_write (todo : List Piece) (out : List (List Char)) :
    (write todo out).flatten = out.flatten ++ todo.flatMap Piece.text := by
  fun_induction write todo out with
  | case1 out => simp
  | case2 cs todo out ih => simp [ih, Piece.text]
  | case3 i todo out ih => simp [ih, Piece.text, charsBefore]
  | case4 b todo out ih => simp [ih, Piece.text, charsBefore, charsBefore_eq b [')']]
  | case5 f a todo out ih =>
    simp [ih, Piece.text, charsBefore, charsBefore_eq a [')'], charsBefore_eq f (' ' :: _)]

theorem text_eq_write (t : Lambda) : t.text = String.ofList (write [.term t] []).flatten := by
  rw [flatten_write, text]
  simp [Piece.text]

/-- A text that continues no index: empty, or with a blank or a closing bracket in front. -/
def Stops (rest : List Char) : Prop := rest.head? ∈ [none, some ' ', some ')']

def isIndexChar (c : Char) : Bool := c == '-' || c.isDigit

theorem indexChars_ne_nil (i : Int) : indexChars i ≠ [] := by
  cases i with
  | ofNat n => exact Nat.toDigits_ne_nil
  | negSucc n => exact List.cons_ne_nil _ _

theorem isIndexChar_of_mem {i : Int} (h : c ∈ indexChars i) : isIndexChar c := by
  cases i with
  | ofNat n => simp [isIndexChar, Nat.isDigit_of_mem_toDigits (by decide) (by decide) h]
  | negSucc n =>
    obtain rfl | h := List.mem_cons.1 h
    · rfl
    · simp [isIndexChar, Nat.isDigit_of_mem_toDigits (by decide) (by decide) h]

theorem indexChars_inj {i j : Int} (h : indexChars i = indexChars j) : i = j := by
  have hminus (m n : Nat) : '-' :: Nat.toDigits 10 m ≠ Nat.toDigits 10 n := by
    intro h
    have hmem : '-' ∈ Nat.toDigits 10 n := h ▸ List.mem_cons_self
    exact absurd (Nat.isDigit_of_mem_toDigits (by decide) (by decide) hmem) (by decide)
  cases i with
  | ofNat m =>
    cases j with
    | ofNat n => exact congrArg Int.ofNat (toDigits_inj h)
    | negSucc n => exact absurd h.symm (hminus _ _)
  | negSucc m =>
    cases j with
    | ofNat n => exact absurd h (hminus _ _)
    | negSucc n => exact congrArg Int.negSucc (Nat.succ.inj (toDigits_inj (List.cons.inj h).2))

theorem not_isIndexChar_head (hu : Stops u) (h : u.head? = some c) : isIndexChar c = false := by
  rw [Stops, h] at hu
  simp only [List.mem_cons, reduceCtorEq, Option.some.injEq, false_or, List.not_mem_nil,
    or_false] at hu
  obtain rfl | rfl := hu <;> rfl

theorem eq_nil_of_stops {cs : List Char} (hcs : ∀ c ∈ cs, isIndexChar c) (h : Stops (cs ++ u)) :
    cs = [] := by
  cases cs with
  | nil => rfl
  | cons c cs =>
    have hc := not_isIndexChar_head h rfl
    rw [hcs c List.mem_cons_self] at hc
    exact absurd hc (by decide)

/-- Of two indices in front of one text, the longer would go on where the shorter one ends. -/
theorem indexChars_append_inj {i j : Int} (hu : Stops u) (hv : Stops v)
    (h : indexChars i ++ u = indexChars j ++ v) : i = j ∧ u = v := by
  rcases List.append_eq_append_iff.1 h with ⟨cs, hj, rfl⟩ | ⟨cs, hi, rfl⟩
  · obtain rfl := eq_nil_of_stops
      (fun c hc => isIndexChar_of_mem (hj ▸ List.mem_append_right _ hc)) hu
    rw [List.append_nil] at hj
    exact ⟨indexChars_inj hj.symm, rfl⟩
  · obtain rfl := eq_nil_of_stops
      (fun c hc => isIndexChar_of_mem (hi ▸ List.mem_append_right _ hc)) hv
    rw [List.append_nil] at hi
    exact ⟨indexChars_inj hi, rfl⟩

theorem head?_charsBefore_var (i : Int) (rest : List Char) :
    ∃ c, isIndexChar c ∧ ((var i).charsBefore rest).head? = some c := by
  obtain ⟨c, cs, hcs⟩ := List.exists_cons_of_ne_nil (indexChars_ne_nil i)
  refine ⟨c, isIndexChar_of_mem (i := i) (hcs ▸ List.mem_cons_self), ?_⟩
  rw [charsBefore, hcs]
  rfl

theorem head?_charsBefore_ne (t : Lambda) (rest : List Char) :
    (t.charsBefore rest).head? ≠ some 'λ' := by
  cases t with
  | var i =>
    obtain ⟨c, hc, hhead⟩ := head?_charsBefore_var i rest
    rw [hhead]
    rintro ⟨⟩
    exact absurd hc (by decide)
  | abs b => simp [charsBefore]
  | app f a => simp [charsBefore]

theorem var_of_charsBefore {i : Int} (h : (var i).charsBefore u = q.charsBefore v) :
    ∃ j, q = var j := by
  obtain ⟨c, hc, hhead⟩ := head?_charsBefore_var i u
  rw [h] at hhead
  cases q with
  | var j => exact ⟨j, rfl⟩
  | abs b =>
    obtain rfl : '(' = c := Option.some.inj hhead
    exact absurd hc (by decide)
  | app f a =>
    obtain rfl : '(' = c := Option.some.inj hhead
    exact absurd hc (by decide)

theorem stops_space (rest : List Char) : Stops (' ' :: rest) := by simp [Stops]

theorem stops_close (rest : List Char) : Stops (')' :: rest) := by simp [Stops]

theorem charsBefore_inj (hu : Stops u) (hv : Stops v) (h : p.charsBefore u = q.charsBefore v) :
    p = q ∧ u = v := by
  induction p generalizing q u v with
  | var i =>
    obtain ⟨j, rfl⟩ := var_of_charsBefore h
    obtain ⟨rfl, huv⟩ := indexChars_append_inj hu hv h
    exact ⟨rfl, huv⟩
  | abs b ih =>
    cases q with
    | var j => exact absurd (var_of_charsBefore h.symm) (by simp)
    | abs c =>
      simp only [charsBefore, List.cons.injEq, true_and] at h
      obtain ⟨rfl, hrest⟩ := ih (stops_close _) (stops_close _) h
      exact ⟨rfl, (List.cons.inj hrest).2⟩
    | app g x =>
      have hhead := congrArg List.head? (List.cons.inj h).2
      exact absurd hhead.symm (head?_charsBefore_ne g _)
  | app f a ihf iha =>
    cases q with
    | var j => exact absurd (var_of_charsBefore h.symm) (by simp)
    | abs c =>
      have hhead := congrArg List.head? (List.cons.inj h).2
      exact absurd hhead (head?_charsBefore_ne f _)
    | app g x =>
      simp only [charsBefore, List.cons.injEq, true_and] at h
      obtain ⟨rfl, harg⟩ := ihf (stops_space _) (stops_space _) h
      obtain ⟨rfl, hrest⟩ := iha (stops_close _) (stops_close _) (List.cons.inj harg).2
      exact ⟨rfl, (List.cons.inj hrest).2⟩

theorem toList_text_append (t : Lambda) (s : String) :
    (t.text ++ s).toList = t.charsBefore s.toList := by
  rw [text, String.toList_append, String.toList_ofList, ← charsBefore_eq]

/-- A text of a term is no beginning of another one, as long as what follows continues no index. -/
theorem text_append_inj {p q : Lambda} {u v : String} (hu : Stops u.toList) (hv : Stops v.toList) :
    (p.text ++ u = q.text ++ v ↔ p = q ∧ u = v) ∧ (p.text = q.text ↔ p = q) ∧
      p.text = String.ofList (write [.term p] []).flatten := by
  refine ⟨⟨fun h => ?behind, ?_⟩, ⟨fun h => ?alone, ?_⟩, text_eq_write p⟩
  case behind =>
    have hchars := congrArg String.toList h
    rw [toList_text_append, toList_text_append] at hchars
    obtain ⟨hpq, huv⟩ := charsBefore_inj hu hv hchars
    exact ⟨hpq, String.toList_inj.1 huv⟩
  case alone =>
    exact (charsBefore_inj (by simp [Stops]) (by simp [Stops]) (String.ofList_inj.1 h)).1
  · rintro ⟨rfl, rfl⟩
    rfl
  · exact congrArg text

theorem text_append_inj_index : Stops " 2)".toList ∧ Stops ")".toList ∧
    (var 1).text ++ " 2)" ≠ (var 12).text ++ ")" := by
  have hspace : Stops " 2)".toList := stops_space _
  have hclose : Stops ")".toList := stops_close _
  refine ⟨hspace, hclose, fun h => ?_⟩
  have hvar := ((text_append_inj hspace hclose).1.1 h).1
  exact absurd hvar (by decide)

end SugaredLambda.Lambda
