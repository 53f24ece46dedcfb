import SugaredLambda.Proofs.Grammar.Memory
import SugaredLambda.Proofs.Parser.Attention

/-! The rules report whatever they look at, so that what stands behind a failure has no part in it.
-/
namespace SugaredLambda.Grammar
open SugaredLambda.Parser

section
variable (t : Rule Term) [Attentive t]

instance : Attentive blank := inferInstanceAs (Attentive (longest _))
instance {α : Type} (p : Rule α) [Attentive p] : Attentive (spaced p) :=
  inferInstanceAs (Attentive (between _ _ _))
instance : Attentive word := inferInstanceAs (Attentive (_ <$> _))
instance : Attentive number := inferInstanceAs (Attentive (_ <$> _))
instance : Attentive stringLiteral := inferInstanceAs (Attentive (_ >>= _))
instance : Attentive charLiteral := inferInstanceAs (Attentive (_ >>= _))
instance : Attentive wordLiteral := inferInstanceAs (Attentive (_ >>= _))
instance : Attentive natural := inferInstanceAs (Attentive (_ <$> _))
instance : Attentive variableName := inferInstanceAs (Attentive (anyOf _))
instance (c : Char) : Attentive (opening c) := inferInstanceAs (Attentive (_ >>= _))
instance (c : Char) : Attentive (closing c) := inferInstanceAs (Attentive (_ *> _))
instance : Attentive (abstraction t) := inferInstanceAs (Attentive (_ >>= _))
instance : Attentive (definition t) := inferInstanceAs (Attentive (_ >>= _))
instance : Attentive (letBlock t) := inferInstanceAs (Attentive (_ >>= _))
instance (left right : Char) : Attentive (items t left right) :=
  inferInstanceAs (Attentive (between _ _ _))
instance : Attentive (application t) := inferInstanceAs (Attentive (_ <$> _))
instance : Attentive (field t) := inferInstanceAs (Attentive (between _ _ _))
instance : Attentive (constructor t) := inferInstanceAs (Attentive (_ >>= _))
instance : Attentive (record t) := inferInstanceAs (Attentive (_ <$> _))
instance : Attentive (sugar t) := inferInstanceAs (Attentive (firstOf _))

end

instance (t : Nat → Rule Term) [∀ d, Attentive (t d)] (d : Nat) : Attentive (termRule t d) :=
  inferInstanceAs (Attentive (_ >>= _))

/-- Terms that hold others at most so many levels deep; the rest are not read. -/
def unrolled : Nat → Nat → Rule Term
  | 0, _ => fail
  | levels+1, d => termRule (unrolled levels) d

instance (levels d : Nat) : Attentive (unrolled levels d) := by
  induction levels generalizing d with
  | zero => exact inferInstanceAs (Attentive fail)
  | succ levels ih => exact inferInstanceAs (Attentive (termRule (unrolled levels) d))

theorem run_unrolled {text : Array Char} {levels i : Nat} (hi : i ≤ text.size)
    (hlevels : text.size - i < levels) (d : Nat) (s : Progress Nat Term) :
    (bare d text i).run s = (unrolled levels d text i).run s := by
  have hagree : Agree (.same text Eq Pairing.kept_eq) (i + 1) (bare d text i)
      (unrolled levels d text i) := by
    induction levels generalizing i d with
    | zero => omega
    | succ levels ih =>
      rw [bare_eq]
      exact agree_termRule Pairing.kept_eq (fun d j hj hsize => ih hsize (by omega) d) d hi
  obtain ⟨hfound, hprogress, -⟩ := hagree s s rfl
  exact Prod.ext (hfound.trans (moved_zero _)) hprogress

theorem settled_termRule (t : Nat → Rule Term) [∀ d, Attentive (t d)] (d : Nat) :
    Settled (termRule t d) := by
  refine .bind _ fun _ => .map _ (settled_many fun text i s hi => ?_)
  have hlook : i ≤ ((string (Term.indentation d) text i).run s).2.farthest :=
    Nat.le_trans (Nat.le_add_right i _) (Nat.le_max_right s.farthest _)
  exact Nat.le_trans hlook (le_farthest_seqRight _ _ hi)

theorem parseClean_farthest (text : Array Char) :
    (parseClean text).farthest = ((bare 0 text 0).run {}).2.farthest :=
  (agree_term text 0 (Nat.zero_le _) {} {} ⟨remembers_empty text, rfl⟩).2.1.2

theorem parseClean_eq (levels : Nat) {text : Array Char} (h : text.size < levels) :
    let run := (unrolled levels 0 text 0).run {}
    parseClean text = ⟨text, run.1, run.2.farthest⟩ := by
  intro run
  have hrun := run_unrolled (Nat.zero_le text.size) h 0 {}
  change Parse.mk text (parseClean text).results (parseClean text).farthest = _
  rw [parseClean_results, parseClean_farthest, hrun]

/-- As much of a text as was looked at says how it is read, and no reading ends further on. -/
theorem parseClean_of_shares {text text' : Array Char}
    (h : Shares ((parseClean text).farthest + 1) text text') :
    (parseClean text').farthest = (parseClean text).farthest ∧
      ∀ x ∈ (parseClean text').results, x.2 ≤ (parseClean text).farthest := by
  have hle : text.size < max text.size text'.size + 1 := by omega
  have hle' : text'.size < max text.size text'.size + 1 := by omega
  have hlt := h.le
  rw [parseClean_eq _ hle] at h hlt ⊢
  have hsame := (Attentive.watched h 0 {} (Nat.zero_le _)).same (Nat.lt_succ_self _)
  rw [parseClean_eq _ hle', hsame]
  exact ⟨rfl, settled_termRule (unrolled _) 0 text 0 {} (Nat.zero_le _) hlt⟩

theorem failure_of_shares {text text' : Array Char}
    (h : Shares ((parseClean text).farthest + 1) text text') :
    (parseClean text').failure = (parseClean text).failure := by
  have hget := h.get_eq (Nat.lt_succ_self _)
  have htake := congrArg (List.take (parseClean text).farthest) h.take_eq
  simp only [List.take_take, Nat.min_eq_left (Nat.le_succ _)] at htake
  have htext (text : Array Char) : (parseClean text).text = text := rfl
  rw [Parse.failure, Parse.failure, htext, htext, (parseClean_of_shares h).1, ← hget, Text.location,
    Text.location, htake]

theorem complete_of_shares {text text' : Array Char}
    (h : Shares ((parseClean text).farthest + 1) text text') :
    (parseClean text').complete = [] := by
  refine List.filterMap_eq_nil_iff.2 fun x hx => if_neg fun hend => ?_
  have hlast := (parseClean_of_shares h).2 x hx
  have hle' : (parseClean text).farthest + 1 ≤ text'.size := h.le'
  have hend : x.2 = text'.size := hend
  omega

theorem parse_eq_error_iff {source : String} {e : Error} :
    parse source = .error e ↔ (parsed source).complete = [] ∧ e = (parsed source).failure := by
  rw [parse]
  split
  next t ht =>
    refine ⟨fun h => (by cases h), fun h => ?_⟩
    rw [h.1] at ht
    exact nomatch ht
  next ht =>
    refine ⟨fun h => ⟨List.getLast?_eq_none_iff.1 ht, (Except.error.inj h).symm⟩,
      fun h => by rw [h.2]; rfl⟩

/-- A program that fails at a character fails in the same way, with the same message for the
same place, whatever stands behind that character: nothing there was looked at, and nothing
there can help. -/
theorem parse_of_failure {source source' : String} {found : Option Char}
    {position line column : Nat}
    (h : parse source = .error (.unexpected found position line column))
    (hin : position < (Text.clean source.toList).length)
    (hshared : (Text.clean source.toList).take (position + 1) <+: Text.clean source'.toList) :
    parse source' = .error (.unexpected found position line column) ∧
      parseAll source' = .error (.unexpected found position line column) := by
  obtain ⟨-, hfailure⟩ := parse_eq_error_iff.1 h
  obtain rfl : position = (parsed source).farthest := (Error.unexpected.inj hfailure).2.1
  have hshares : Shares ((parsed source).farthest + 1) (Text.clean source.toList).toArray
      (Text.clean source'.toList).toArray := by
    have hlength := hshared.length_le
    rw [List.length_take, Nat.min_eq_left hin] at hlength
    refine ⟨by simpa using Nat.succ_le_of_lt hin, by simpa using hlength, ?_⟩
    have htake := List.prefix_iff_eq_take.1 hshared
    rwa [List.length_take, Nat.min_eq_left hin] at htake
  have hcomplete : (parsed source').complete = [] := complete_of_shares hshares
  have hfailure' := hfailure.trans (failure_of_shares hshares).symm
  refine ⟨parse_eq_error_iff.2 ⟨hcomplete, hfailure'⟩, ?_⟩
  rw [parseAll, Parse.all, hcomplete, hfailure']
  rfl

theorem parse_of_failure_bracket :
    parse "(f x] -- not a list" = .error (.unexpected (some ']') 4 1 5) ∧
      parse "(f x] y)\n    f z = z" = .error (.unexpected (some ']') 4 1 5) := by
  have hclean : Text.clean "(f x] -- not a list".toList = "(f x]".toList := by decide
  have hrun : ((unrolled 6 0 "(f x]".toList.toArray 0).run {}).1 = [] ∧
      ((unrolled 6 0 "(f x]".toList.toArray 0).run {}).2.farthest = 4 := by decide +kernel
  have hparsed : parsed "(f x] -- not a list" = ⟨"(f x]".toList.toArray, [], 4⟩ := by
    rw [parsed, hclean, parseClean_eq 6 (by decide), hrun.1, hrun.2]
  have h : parse "(f x] -- not a list" = .error (.unexpected (some ']') 4 1 5) :=
    parse_eq_error_iff.2 ⟨by rw [hparsed]; rfl, by rw [hparsed]; decide⟩
  exact ⟨h, (parse_of_failure h (by decide) (by decide)).1⟩

end SugaredLambda.Grammar
