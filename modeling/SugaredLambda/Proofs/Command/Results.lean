import SugaredLambda.Proofs.Church.Evaluation
import SugaredLambda.Proofs.Church.Regular
import SugaredLambda.Proofs.Command.Run

/-! What a run evaluates to prints, and the printed result is a program for it just when its
literals are legible. -/
namespace SugaredLambda.Command

theorem isRegular_of_evaluate {t r : Term} {limit : Nat} (h : t.evaluate limit = .ok r) :
    r.isRegular := by
  obtain ⟨l, n, -, -, rfl⟩ := Term.evaluate_eq_ok_iff.1 h
  exact Church.isRegular_decode n

theorem isRegular_of_outcome {o : Options} {limit : Nat} {source : String} {r : Term}
    (heval : o.evaluate) (h : outcome o limit source = .ok r) : r.isRegular := by
  obtain ⟨t, -, h⟩ := Church.bind_eq_ok_iff.1 h
  exact isRegular_of_evaluate ((if_pos heval).symm.trans h)

/-- What a run with evaluation returns prints, and the printed result is read as the result if and
only if no string in it holds a quote and cleaning leaves each of its literals as it is. -/
theorem parse_print_run {σ : Type} {host : Host (StateM σ)} {o : Options} {limit : Nat}
    {source : String} {s : σ} {r : Term}
    (h : ((run host { o with evaluate := true, limit := some limit } source).run.run s).1 = .ok r) :
    ∃ text, r.print = .ok text ∧ (Grammar.parse text = .ok r ↔ r.isLegible) := by
  rw [run_eq_outcome host (fun _ => rfl)] at h
  exact Term.parse_print_iff_legible (isRegular_of_outcome rfl h)

/-- A host that keeps the lines it is told, for runs with a limit that read no file. -/
def transcript : Host (StateM (List String)) where
  say line := modify (line :: ·)
  milliseconds := pure 0
  absolutePath path := pure path
  contents path := pure (.error path)
  normal t := pure (t, 0)

/-- One string from a string and a list of characters. -/
theorem parse_print_run_append :
    ((run transcript { library := true, evaluate := true, limit := some 20 }
      "(append \"a-\" ['b'])").run.run []).1 = .ok (.str "a-b") ∧
    ∃ text, (Term.str "a-b").print = .ok text ∧ Grammar.parse text = .ok (.str "a-b") := by
  have hparse : Grammar.parse "(append \"a-\" ['b'])" =
      .ok (.app [.var "append", .str "a-", .list [.char "b"]]) :=
    Grammar.parse_of_complete (by decide +kernel)
  have hsort :
      Definitions.sort (Library.supply (.app [.var "append", .str "a-", .list [.char "b"]])) =
      .letIn [⟨"append", ["a", "b", "c", "n"],
        .app [.var "a", .var "c", .app [.var "b", .var "c", .var "n"]]⟩]
        (.app [.var "append", .str "a-", .list [.char "b"]]) := by decide +kernel
  have hrun : ((run transcript { library := true, evaluate := true, limit := some 20 }
      "(append \"a-\" ['b'])").run.run []).1 = .ok (.str "a-b") := by
    rw [run_eq_outcome transcript (fun _ => rfl), outcome_of_parse hparse]
    dsimp only
    rw [if_pos rfl, if_pos rfl, hsort]
    exact Term.evaluate_eq_ok_iff.2
      ⟨_, _, rfl, Lambda.normalize_eq_ok_iff.2 ⟨rfl, 7, by decide, rfl⟩, by cbv⟩
  obtain ⟨text, hprint, hiff⟩ := parse_print_run (o := { library := true }) hrun
  exact ⟨hrun, text, hprint, hiff.2 (by decide)⟩

/-- A quote in a string ends it, and nothing in the language says otherwise. -/
theorem parse_print_run_quote :
    ((run transcript { evaluate := true, limit := some 1 } "['\"']").run.run []).1 =
      .ok (.str "\"") ∧ (Term.str "\"").print = .ok "\"\"\"" ∧
      Grammar.parse "\"\"\"" ≠ .ok (.str "\"") := by
  have hparse : Grammar.parse "['\"']" = .ok (.list [.char "\""]) :=
    Grammar.parse_of_complete (by decide +kernel)
  have hsort : Definitions.sort (.list [.char "\""]) = .list [.char "\""] := by decide +kernel
  refine ⟨?_, rfl, fun h => ?_⟩
  · rw [run_eq_outcome transcript (fun _ => rfl), outcome_of_parse hparse]
    dsimp only
    rw [if_neg Bool.false_ne_true, if_pos rfl, hsort]
    exact Term.evaluate_eq_ok_iff.2
      ⟨_, _, rfl, Lambda.normalize_eq_ok_iff.2 ⟨rfl, 0, by decide, rfl⟩, by cbv⟩
  · obtain ⟨text, hprint, hiff⟩ := Term.parse_print_iff_legible (t := .str "\"") rfl
    obtain rfl : "\"\"\"" = text := Except.ok.inj hprint
    exact absurd (hiff.1 h) (by decide)

end SugaredLambda.Command
