import SugaredLambda.Proofs.Grammar.Memory

/-! Readings of one text, each with what those before it have remembered, find what is found without
memory. -/
namespace SugaredLambda.Parser
variable {κ ω α β γ : Type} [BEq κ] [Hashable κ]

theorem run_bind (p : Parser κ ω α) (f : α → Parser κ ω β) (text : Array Char) (i : Nat)
    (s : Progress κ ω) :
    ((p >>= f) text i).run s =
      (after (fun v j => f v text j) ((p text i).run s).1).run ((p text i).run s).2 := rfl

theorem run_anyOf_cons (p : Parser κ ω α) (ps : List (Parser κ ω α)) (text : Array Char) (i : Nat)
    (s : Progress κ ω) : (anyOf (p :: ps) text i).run s =
      let found := (p text i).run s
      let others := (anyOf ps text i).run found.2
      (found.1 ++ others.1, others.2) := rfl

theorem run_firstOf_of_nil {p : Parser κ ω α} {text : Array Char} {i : Nat} {s later : Progress κ ω}
    (h : (p text i).run s = ([], later)) (ps : List (Parser κ ω α)) :
    (firstOf (p :: ps) text i).run s = (firstOf ps text i).run later := by
  rw [firstOf, StateT.run_bind, h]
  rfl

/-- A parser that behind the end of a text reads nothing, and looks no further. -/
class Idle (p : Parser κ ω α) : Prop where
  run_eq : ∀ {text : Array Char} {i : Nat}, text.size < i → ∀ s,
    (p text i).run s = ([], { s with farthest := max s.farthest i })

instance (p : Parser κ ω α) (f : α → Parser κ ω β) [Idle p] : Idle (p >>= f) where
  run_eq h s := by
    rw [run_bind, Idle.run_eq h]
    rfl

instance (f : α → β) (p : Parser κ ω α) [Idle p] : Idle (f <$> p) :=
  inferInstanceAs (Idle (p >>= _))

instance (p : Parser κ ω α) (q : Parser κ ω β) [Idle p] : Idle (p *> q) :=
  inferInstanceAs (Idle (p >>= _))

instance (left : Parser κ ω α) (right : Parser κ ω β) (p : Parser κ ω γ) [Idle left] :
    Idle (between left right p) := inferInstanceAs (Idle (left >>= _))

instance (test : Char → Bool) : Idle (satisfy test : Parser κ ω Char) where
  run_eq h s := by
    simp only [satisfy, Array.getElem?_eq_none (Nat.le_of_lt h)]
    rfl

instance (c : Char) : Idle (char c : Parser κ ω Char) := inferInstanceAs (Idle (satisfy _))

instance (c : Char) (word : List Char) : Idle (string (c :: word) : Parser κ ω (List Char)) where
  run_eq {text i} h s := by
    have hshared : sharedLength text i (c :: word) = 0 := by
      simp [sharedLength, Array.getElem?_eq_none (Nat.le_of_lt h)]
    simp only [string, hshared, Nat.not_le.2 h, and_false, if_false]
    rfl

instance (test : Char → Bool) : Idle (runs test : Parser κ ω (List Char)) where
  run_eq {text i} h s := by
    have hend : runEnd test text i = i := by
      rw [Follows.runEnd_eq, Array.getElem?_eq_none (Nat.le_of_lt h)]
    simp only [runs, hend, Nat.sub_self]
    rfl

theorem farthest_twice (s : Progress κ ω) (i : Nat) :
    ({ s with farthest := max (max s.farthest i) i } : Progress κ ω) =
      { s with farthest := max s.farthest i } := by
  rw [Nat.max_assoc, Nat.max_self]

instance (p : Parser κ ω α) [Idle p] : Idle (anyOf [p]) where
  run_eq h s := by
    rw [run_anyOf_cons, Idle.run_eq h]
    rfl

instance (p q : Parser κ ω α) (ps : List (Parser κ ω α)) [Idle p] [Idle (anyOf (q :: ps))] :
    Idle (anyOf (p :: q :: ps)) where
  run_eq h s := by
    simp only [run_anyOf_cons p, Idle.run_eq h, farthest_twice, List.nil_append]

instance (p : Parser κ ω α) [Idle p] : Idle (firstOf [p]) where
  run_eq h s := by
    rw [run_firstOf_of_nil (Idle.run_eq h s)]
    rfl

instance (p q : Parser κ ω α) (ps : List (Parser κ ω α)) [Idle p] [Idle (firstOf (q :: ps))] :
    Idle (firstOf (p :: q :: ps)) where
  run_eq h s := by
    rw [run_firstOf_of_nil (Idle.run_eq h s), Idle.run_eq h, farthest_twice]

end SugaredLambda.Parser

namespace SugaredLambda.Grammar
open SugaredLambda.Parser

section
variable (t : Rule Term)

instance : Idle word := inferInstanceAs (Idle (_ <$> _))
instance : Idle number := inferInstanceAs (Idle (_ <$> _))
instance (c : Char) : Idle (opening c) := inferInstanceAs (Idle (_ >>= _))
instance : Idle (abstraction t) := inferInstanceAs (Idle (_ >>= _))
instance : Idle (letBlock t) := inferInstanceAs (Idle (_ >>= _))
instance (left right : Char) : Idle (items t left right) := inferInstanceAs (Idle (between _ _ _))
instance : Idle (application t) := inferInstanceAs (Idle (_ <$> _))
instance : Idle stringLiteral := inferInstanceAs (Idle (_ >>= _))
instance : Idle charLiteral := inferInstanceAs (Idle (_ >>= _))
instance : Idle (record t) := inferInstanceAs (Idle (_ <$> between (string ['#', '(']) _ _))
instance : Idle wordLiteral := inferInstanceAs (Idle (_ >>= _))
instance : Idle natural := inferInstanceAs (Idle (_ <$> _))
instance : Idle variableName := inferInstanceAs (Idle (anyOf [_, _ <$> (_ >>= _)]))
instance : Idle (sugar t) := inferInstanceAs (Idle (firstOf _))
instance (t : Nat → Rule Term) (d : Nat) : Idle (termRule t d) := inferInstanceAs (Idle (_ >>= _))

end

variable {text : Array Char} {i : Nat}

theorem run_bare_behind (h : text.size < i) (d : Nat) (s : Progress Nat Term) :
    (bare d text i).run s = ([], { s with farthest := max s.farthest i }) := by
  rw [bare_eq]
  exact Idle.run_eq h s

/-- The grammar without memory is the rule for terms over itself, with nothing left out. -/
theorem bare_eq_termRule : bare = termRule bare := by
  funext d text i s
  rcases Nat.lt_or_ge text.size i with h | h
  · exact (run_bare_behind h d s).trans (Idle.run_eq h s).symm
  · obtain ⟨hfound, hprogress, -⟩ := agree_termRule_bare Pairing.kept_eq d h s s rfl
    exact Prod.ext (hfound.trans (moved_zero _)) hprogress

theorem run_bare_eq (d : Nat) (text : Array Char) (i : Nat) (s : Progress Nat Term) :
    ((bare d text i).run s).1 = (outcome d text i).1 ∧
      ((bare d text i).run s).2.farthest = max s.farthest (outcome d text i).2 := by
  rcases Nat.lt_or_ge text.size i with h | h
  · simp only [outcome, run_bare_behind h, Nat.zero_max, and_self]
  · exact run_bare d h s

theorem run_term (d i : Nat) {s s' : Progress Nat Term} (hs : Remembers text s)
    (hfar : s.farthest = s'.farthest) :
    ((term d text i).run s).1 = ((bare d text i).run s').1 ∧
      Remembers text ((term d text i).run s).2 ∧
      ((term d text i).run s).2.farthest = ((bare d text i).run s').2.farthest := by
  rcases Nat.lt_or_ge text.size i with h | h
  · have hfound : [] = (outcome d text i).1 ∧ (outcome d text i).2 = i := by
      simp only [outcome, run_bare_behind h, Nat.zero_max, and_self]
    rw [term, termWith_eq, run_remember, run_bare_behind h]
    cases hknown : s.remembered[(d, i)]? with
    | some found =>
      obtain ⟨hsame, hle⟩ := hs d i found hknown
      exact ⟨hsame.trans hfound.1.symm, hs, by rw [← hfar, Nat.max_eq_left (hfound.2 ▸ hle)]⟩
    | none =>
      rw [Idle.run_eq h]
      obtain ⟨hlooked, -⟩ := kept_remembers text s s i ⟨hs, rfl⟩
      have hle := Nat.le_trans (Nat.le_of_eq hfound.2) (Nat.le_max_right s.farthest i)
      exact ⟨rfl, hlooked.insert hfound.1 hle, by rw [hfar]⟩
  · obtain ⟨hfound, ⟨hremembers, hsame⟩, -⟩ := agree_term text d h s s' ⟨hs, hfar⟩
    exact ⟨hfound.trans (moved_zero _), hremembers, hsame⟩

def readings (t : Nat → Rule Term) (text : Array Char) (calls : List (Nat × Nat)) :
    StateM (Progress Nat Term) (List (Results Term)) := calls.mapM fun c => t c.1 text c.2

theorem run_readings_cons (t : Nat → Rule Term) (text : Array Char) (c : Nat × Nat)
    (calls : List (Nat × Nat)) (s : Progress Nat Term) : (readings t text (c :: calls)).run s =
      let first := (t c.1 text c.2).run s
      let others := (readings t text calls).run first.2
      (first.1 :: others.1, others.2) := by
  rw [readings, List.mapM_cons]
  rfl

theorem run_readings (text : Array Char) (calls : List (Nat × Nat)) {s s' : Progress Nat Term}
    (hs : Remembers text s) (hfar : s.farthest = s'.farthest) :
    ((readings term text calls).run s).1 = ((readings bare text calls).run s').1 ∧
      Remembers text ((readings term text calls).run s).2 ∧
      ((readings term text calls).run s).2.farthest =
        ((readings bare text calls).run s').2.farthest := by
  induction calls generalizing s s' with
  | nil => exact ⟨rfl, hs, hfar⟩
  | cons c calls ih =>
    obtain ⟨hfirst, hs, hfar⟩ := run_term c.1 c.2 hs hfar
    obtain ⟨hothers, hs, hfar⟩ := ih hs hfar
    simp only [run_readings_cons]
    exact ⟨congrArg₂ _ hfirst hothers, hs, hfar⟩

theorem run_readings_bare (text : Array Char) (calls : List (Nat × Nat)) (s : Progress Nat Term) :
    ((readings bare text calls).run s).1 = calls.map fun c => ((bare c.1 text c.2).run {}).1 := by
  induction calls generalizing s with
  | nil => rfl
  | cons c calls ih =>
    rw [run_readings_cons, List.map_cons]
    exact congrArg₂ _ (run_bare_eq c.1 text c.2 s).1 (ih _)

/-- Memory makes no difference. From a fresh start, each of any readings of a text, at any depths
and positions, finds what the grammar without memory finds there, in the same order; as much of the
text is looked at; and what is remembered of a term is what is read of it without memory. That
grammar is the rule for terms tied to itself, and each of its readings is what it would be alone. -/
theorem readings_term (text : Array Char) (calls : List (Nat × Nat)) :
    let kept := (readings term text calls).run {}
    let anew := (readings bare text calls).run {}
    (kept.1 = anew.1 ∧ kept.2.farthest = anew.2.farthest ∧
      ∀ d i found, kept.2.remembered[(d, i)]? = some found → found = ((bare d text i).run {}).1) ∧
    bare = termRule bare ∧ anew.1 = calls.map fun c => ((bare c.1 text c.2).run {}).1 := by
  obtain ⟨hfound, hremembers, hfar⟩ := run_readings text calls (remembers_empty text)
    (Eq.refl (Progress.farthest {}))
  exact ⟨⟨hfound, hfar, fun d i found hknown => (hremembers d i found hknown).1⟩, bare_eq_termRule,
    run_readings_bare text calls {}⟩

end SugaredLambda.Grammar
