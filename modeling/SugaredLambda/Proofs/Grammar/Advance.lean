import SugaredLambda.Proofs.Grammar.Failure
import SugaredLambda.Proofs.Parser.Loop
import SugaredLambda.Term.Equality

/-! The rules move forward, so that the rule for terms can be tied to itself without any bound. -/
namespace SugaredLambda.Grammar
open SugaredLambda.Parser

/-- The terms that are remembered of a text end behind where they begin, within the text. -/
def Forward (text : Array Char) (s : Progress Nat Term) : Prop :=
  ∀ (d i : Nat) (found : Results Term), s.remembered[(d, i)]? = some found →
    ∀ x ∈ found, i < x.2 ∧ x.2 ≤ text.size

theorem forward_empty (text : Array Char) : Forward text {} := by
  intro d i found h
  simp at h

structure Onward (text : Array Char) (low : Nat) (before s : Progress Nat Term) : Prop where
  forward : Forward text s
  added : ∀ d i : Nat, s.remembered[(d, i)]? ≠ before.remembered[(d, i)]? → low ≤ i ∧ i ≤ text.size

section
variable {text : Array Char} {low : Nat} {before s : Progress Nat Term}

theorem Onward.start (h : Forward text s) : Onward text low s s :=
  ⟨h, fun _ _ hne => absurd rfl hne⟩

theorem Onward.insert (h : Onward text low before s) {d i : Nat} (hlow : low ≤ i)
    (hi : i ≤ text.size) {found : Results Term} (hfound : ∀ x ∈ found, i < x.2 ∧ x.2 ≤ text.size) :
    Onward text low before { s with remembered := s.remembered.insert (d, i) found } := by
  have hget (e j : Nat) : (s.remembered.insert (d, i) found)[(e, j)]? =
      if (d, i) = (e, j) then some found else s.remembered[(e, j)]? := by
    simp [Std.HashMap.getElem?_insert]
  constructor
  · intro e j found' hknown
    rw [hget] at hknown
    split at hknown
    next heq =>
      obtain ⟨rfl, rfl⟩ := Prod.mk.inj heq
      exact Option.some.inj hknown ▸ hfound
    next => exact h.forward e j found' hknown
  · intro e j hne
    rw [hget] at hne
    split at hne
    next heq =>
      obtain ⟨rfl, rfl⟩ := Prod.mk.inj heq
      exact ⟨hlow, hi⟩
    next => exact h.added e j hne

theorem kept_onward (text : Array Char) (low : Nat) (before : Progress Nat Term) :
    Pairing.Kept fun s s' : Progress Nat Term => s = s' ∧ Onward text low before s := by
  rintro s _ i ⟨rfl, h⟩
  exact ⟨rfl, h.forward, h.added⟩

end

def alone (text : Array Char) (low : Nat) (before : Progress Nat Term) : Pairing Nat Term :=
  .same text _ (kept_onward text low before)

section
variable {text : Array Char}

theorem follows_term (low : Nat) (before : Progress Nat Term) (d : Nat) :
    Follows (alone text low before) low 1 (term d) (term d) := by
  refine follows_same_iff.2 fun i hlow hi => ?_
  -- on what is left of the text, whatever the depth: the terms inside begin behind this one
  induction hn : text.size - i using Nat.strongRecOn generalizing i d with
  | ind n ih =>
    have hrule := agree_termRule (kept_onward text low before) (f := remember) (u := term) (i := i)
      (fun d j hj hsize => ih (text.size - j) (by omega) d j (by omega) hsize rfl) d hi
    rintro s _ ⟨rfl, hs⟩
    rw [term, termWith_eq, run_remember]
    cases hknown : s.remembered[(d, i)]? with
    | some found => exact ⟨(moved_zero found).symm, ⟨rfl, hs⟩, hs.forward d i found hknown⟩
    | none =>
      obtain ⟨hfound, ⟨hsame, hafter⟩, hbounds⟩ := hrule s s ⟨rfl, hs⟩
      rw [← hfound.trans (moved_zero _)] at hbounds
      exact ⟨(moved_zero _).symm, ⟨rfl, hafter.insert hlow hi hbounds⟩, hbounds⟩

/-- Only terms that begin behind it are used in reading a term: others could be anything. -/
theorem run_termRule_inside {i : Nat} (hi : i ≤ text.size) {u : Nat → Rule Term}
    (hu : ∀ d j s, Forward text s → i < j → j ≤ text.size →
      (u d text j).run s = (term d text j).run s)
    (d : Nat) {s : Progress Nat Term} (hs : Forward text s) :
    (termRule (inside remember text i) d text i).run s = (termRule u d text i).run s ∧
      Onward text (i + 1) s ((termRule u d text i).run s).2 := by
  have hrule := agree_termRule (kept_onward text (i + 1) s) (f := remember) (u := u) (i := i)
    (fun d j hj hsize => ?_) d hi
  · obtain ⟨hfound, ⟨hsame, hafter⟩, -⟩ := hrule s s ⟨rfl, .start hs⟩
    rw [hsame] at hafter
    exact ⟨Prod.ext (hfound.trans (moved_zero _)) hsame, hafter⟩
  · rintro s' _ ⟨rfl, hs'⟩
    rw [hu d j s' hs'.forward hj hsize]
    exact follows_same_iff.1 (follows_term (i + 1) s d) j hj hsize s' s' ⟨rfl, hs'⟩

/-- Terms that hold others at most so many levels deep, remembered as they are read; below, there
is anything. -/
def nested (bottom : Nat → Rule Term) : Nat → Nat → Rule Term
  | 0 => bottom
  | levels+1 => fun d => remember d (termRule (nested bottom levels) d)

/-- A term at a position is the rule for terms over the terms behind it, so that the rule may be
tied to itself. -/
structure Tied (text : Array Char) (i d : Nat) (s : Progress Nat Term) : Prop where
  /-- Of the terms inside, only those behind the position are used: others could be anything. -/
  uses : ∀ u : Nat → Rule Term, (∀ d' j s', Forward text s' → i < j → j ≤ text.size →
    (u d' text j).run s' = (term d' text j).run s') →
    (term d text i).run s = (remember d (termRule u d) text i).run s
  remembered : ((term d text i).run s).2.remembered[(d, i)]? = some ((term d text i).run s).1
  /-- All that comes to be remembered inside the term begins behind it. -/
  added : ∀ d' j : Nat, ((termRule term d text i).run s).2.remembered[(d', j)]? ≠
    s.remembered[(d', j)]? → i < j ∧ j ≤ text.size
  /-- There are no more levels than characters left: what is below could be anything. -/
  levels : ∀ bottom n, text.size - i < n → (nested bottom n d text i).run s = (term d text i).run s

section
variable {i : Nat} (hi : i ≤ text.size) {s : Progress Nat Term} (hs : Forward text s)
include hi hs

theorem run_term_eq {u : Nat → Rule Term} (hu : ∀ d' j s', Forward text s' → i < j → j ≤ text.size →
    (u d' text j).run s' = (term d' text j).run s') (d : Nat) :
    (term d text i).run s = (remember d (termRule u d) text i).run s := by
  rw [term, termWith_eq, run_remember, run_remember, (run_termRule_inside hi hu d hs).1]

theorem run_nested (bottom : Nat → Rule Term) {n : Nat} (hn : text.size - i < n) (d : Nat) :
    (nested bottom n d text i).run s = (term d text i).run s := by
  induction n generalizing i d s with
  | zero => omega
  | succ n ih =>
    exact (run_term_eq hi hs (fun d' j s' hs' hj hsize => ih hsize hs' (by omega) d') d).symm

theorem tied_term (d : Nat) : Tied text i d s where
  uses u hu := run_term_eq hi hs hu d
  remembered := by
    rw [term, termWith_eq, run_remember]
    cases hknown : s.remembered[(d, i)]? with
    | some found => exact hknown
    | none => simp
  added := (run_termRule_inside hi (fun _ _ _ _ _ _ => rfl) d hs).2.added
  levels bottom _ hn := run_nested hi hs bottom hn d

end

end

inductive IsRule : {α : Type} → Rule α → Prop
  | blank : IsRule blank
  | char (c : Char) : IsRule (char c)
  | string (w : List Char) : IsRule (string w)
  | spaced {α : Type} {p : Rule α} (h : IsRule p) : IsRule (spaced p)
  | opening (c : Char) : IsRule (opening c)
  | closing (c : Char) : IsRule (closing c)
  | word : IsRule word
  | number : IsRule number
  | stringLiteral : IsRule stringLiteral
  | charLiteral : IsRule charLiteral
  | wordLiteral : IsRule wordLiteral
  | natural : IsRule natural
  | variableName : IsRule variableName
  | abstraction (d : Nat) : IsRule (abstraction (term d))
  | definition (d : Nat) : IsRule (definition (term d))
  | letBlock (d : Nat) : IsRule (letBlock (term d))
  | items (d : Nat) (left right : Char) : IsRule (items (term d) left right)
  | application (d : Nat) : IsRule (application (term d))
  | field (d : Nat) : IsRule (field (term d))
  | constructor (d : Nat) : IsRule (constructor (term d))
  | record (d : Nat) : IsRule (record (term d))
  | sugar (d : Nat) : IsRule (sugar (term d))
  | termRule (d : Nat) : IsRule (termRule term d)
  | term (d : Nat) : IsRule (term d)

inductive IsRepeated : {α : Type} → Rule α → Prop
  | hash : IsRepeated (char '#')
  | parameter : IsRepeated (do let _ ← char ' '; word)
  | name : IsRepeated (opening ' ' *> word)
  | definition (d : Nat) : IsRepeated (do let _ ← opening ';'; definition (term d))
  | item (d : Nat) : IsRepeated (do let _ ← spaced (char ','); term d)
  | argument (d : Nat) : IsRepeated (do let _ ← char ' '; term d)
  | field (d : Nat) : IsRepeated (do let _ ← opening ' '; field (term d))
  | constructor (d : Nat) : IsRepeated (do let _ ← spaced (char '|'); constructor (term d))
  | indented (d : Nat) : IsRepeated (string (Term.indentation d) *> definition (term (d + 1)))

section
variable {text : Array Char} (low : Nat) (before : Progress Nat Term) {α : Type} {p : Rule α}

theorem IsRule.follows (h : IsRule p) : Follows (alone text low before) low 0 p p := by
  have hterm (d : Nat) :
      Follows (alone text low before) (low + 1) 1 (Grammar.term d) (Grammar.term d) :=
    (follows_term low before d).mono (Nat.le_succ low) (Nat.le_refl 1)
  have forget {β : Type} {q : Rule β} {gain : Nat}
      (hq : Follows (alone text low before) low gain q q) :
      Follows (alone text low before) low 0 q q := hq.mono (Nat.le_refl low) (Nat.zero_le gain)
  induction h with
  | blank => exact follows_blank low
  | char c => exact follows_char low c
  | string w => exact forget (.string low w)
  | spaced _ ih => exact follows_spaced ih
  | opening c => exact forget (follows_opening low c)
  | closing c => exact follows_closing low c
  | word => exact forget (follows_word low)
  | number => exact forget (follows_number low)
  | stringLiteral => exact forget (follows_stringLiteral low)
  | charLiteral => exact forget (follows_charLiteral low)
  | wordLiteral => exact forget (follows_wordLiteral low)
  | natural => exact forget (follows_natural low)
  | variableName => exact forget (follows_variableName low)
  | abstraction d => exact forget (follows_abstraction (hterm d))
  | definition d => exact forget (follows_definition (hterm d))
  | letBlock d => exact forget (follows_letBlock (hterm d))
  | items d left right => exact forget (follows_items (hterm d) left right)
  | application d => exact forget (follows_application (hterm d))
  | field d => exact forget (follows_field (hterm d))
  | constructor d => exact forget (follows_constructor (hterm d))
  | record d => exact forget (follows_record (hterm d))
  | sugar d => exact forget (follows_sugar (hterm d))
  | termRule d => exact forget (follows_termRule hterm d)
  | term d => exact forget (follows_term low before d)

theorem IsRepeated.follows (h : IsRepeated p) : Follows (alone text low before) low 0 p p := by
  have andThen {β γ : Type} {q : Rule β} {r : Rule γ} (hq : IsRule q) (hr : IsRule r) :
      Follows (alone text low before) low 0 (q >>= fun _ => r) (q >>= fun _ => r) :=
    (hq.follows low before).bind fun _ => hr.follows low before
  cases h with
  | hash => exact (IsRule.char '#').follows low before
  | parameter => exact andThen (.char ' ') .word
  | name => exact andThen (.opening ' ') .word
  | definition d => exact andThen (.opening ';') (.definition d)
  | item d => exact andThen (.spaced (.char ',')) (.term d)
  | argument d => exact andThen (.char ' ') (.term d)
  | field d => exact andThen (.opening ' ') (.field d)
  | constructor d => exact andThen (.spaced (.char '|')) (.constructor d)
  | indented d => exact andThen (.string _) (.definition (d + 1))

end

theorem parseAll_eq_ok_or (source : String) : (∃ ts, ts ≠ [] ∧ parseAll source = .ok ts) ∨
    ∃ found position line column,
      parseAll source = .error (.unexpected found position line column) := by
  rw [parseAll, Parse.all]
  cases hcomplete : (parsed source).complete with
  | nil => exact .inr ⟨_, _, _, _, rfl⟩
  | cons t more => exact .inl ⟨_, List.cons_ne_nil t more, rfl⟩

/-- The parser moves forward and comes to an end. Whatever was read of a text before, at any
position in it: a result of a rule ends between there and the end of the text, and that of a term
further on; the loop that repeats a rule ends; and the terms inside a term, at any depths, begin
behind it. So a program has readings, or fails to be read. -/
theorem rules_move_forward :
    (∀ (text : Array Char) (s : Progress Nat Term) (i : Nat), Forward text s → i ≤ text.size →
      (∀ {α : Type} (p : Rule α), IsRule p →
        (∀ x ∈ ((p text i).run s).1, i ≤ x.2 ∧ x.2 ≤ text.size) ∧
        Forward text ((p text i).run s).2) ∧
      (∀ {α : Type} (p : Rule α), IsRepeated p → ∃ n ≤ text.size - i + 1,
        Loop.EndsAfter p text n (.start i s)
        ⟨((many p text i).run s).1, [], ((many p text i).run s).2⟩) ∧
      ∀ d, (∀ x ∈ ((term d text i).run s).1, i < x.2) ∧ Tied text i d s) ∧
    (∀ text, Forward text {}) ∧
    ∀ source, (∃ ts, ts ≠ [] ∧ parseAll source = .ok ts) ∨
      ∃ found position line column,
        parseAll source = .error (.unexpected found position line column) := by
  refine ⟨fun text s i hs hi => ⟨fun p hp => ?_, fun p hp => ?_, fun d => ⟨?_, tied_term hi hs d⟩⟩,
    forward_empty, parseAll_eq_ok_or⟩
  · obtain ⟨-, ⟨-, hafter⟩, hbounds⟩ :=
      follows_same_iff.1 (hp.follows i s) i (Nat.le_refl i) hi s s ⟨rfl, .start hs⟩
    exact ⟨hbounds, hafter.forward⟩
  · exact Loop.exists_rounds (hp.follows i s) (Nat.le_refl i) hi ⟨rfl, .start hs⟩
  · obtain ⟨-, -, hbounds⟩ :=
      follows_same_iff.1 (follows_term i s d) i (Nat.le_refl i) hi s s ⟨rfl, .start hs⟩
    exact fun x hx => (hbounds x hx).1

theorem rules_move_forward_call :
    let text := #['(', 'f', ' ', 'x', ')']
    let rest : Rule Term := do let _ ← char ' '; term 0
    Forward text {} ∧ ((term 0 text 0).run {}).1 = [(.app [.var "f", .var "x"], 5)] ∧
      (∀ x ∈ ((term 0 text 0).run {}).1, 0 < x.2) ∧ Tied text 0 0 {} ∧
      ∃ n ≤ 4, Loop.EndsAfter rest text n (.start 2 {}) ⟨((many rest text 2).run {}).1, [],
        ((many rest text 2).run {}).2⟩ := by
  intro text rest
  have hforward : Forward text {} := rules_move_forward.2.1 text
  obtain ⟨-, -, hterm⟩ := rules_move_forward.1 text {} 0 hforward (Nat.zero_le _)
  obtain ⟨-, hloop, -⟩ := rules_move_forward.1 text {} 2 hforward (by decide)
  obtain ⟨hforwards, htied⟩ := hterm 0
  have hread : ((unrolled 6 0 text 0).run {}).1 = [(.app [.var "f", .var "x"], 5)] := by
    decide +kernel
  have hsame : ((term 0 text 0).run {}).1 = ((unrolled 6 0 text 0).run {}).1 :=
    congrArg Parse.results (parseClean_eq 6 (by decide))
  exact ⟨hforward, hsame.trans hread, hforwards, htied, hloop rest (.argument 0)⟩

end SugaredLambda.Grammar
