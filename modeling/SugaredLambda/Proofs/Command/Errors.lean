import SugaredLambda.Proofs.Command.Results
import SugaredLambda.Proofs.Grammar.Applications
import SugaredLambda.Proofs.Library.Selection

/-! Whatever goes wrong in a run is foreseen, so that the command line ends with a result or a
report. -/
namespace SugaredLambda

/-- The errors that the command line has a report for, an empty application apart. -/
inductive Error.Foreseen : Error → Prop
  | unexpected (found : Option Char) (position line column : Nat) :
      Foreseen (.unexpected found position line column)
  | unbound (name : String) : Foreseen (.unbound name)
  | recordPrinting : Foreseen .recordPrinting
  | recordReading : Foreseen .recordReading
  | stepLimit (limit : Nat) : Foreseen (.stepLimit limit)

namespace Term
variable {t : Term} {e : Error} {N : Nat}

theorem print_eq_ok_or (t : Term) :
    (∃ text, t.print = .ok text) ∨ t.print = .error .recordPrinting := by
  rw [print]
  cases t.hasRecord with
  | true => exact .inr rfl
  | false => exact .inl ⟨_, rfl⟩

theorem encoded_eq_ok_or (happ : t.hasEmptyApplication = false) :
    (∃ l, t.encoded = .ok l) ∨ ∃ x, t.encoded = .error (.unbound x) := by
  have hanswers := (Church.asks_place happ).answers [] 0
  rw [encoded, Church.encode, happ]
  change (∃ l, Church.place t [] 0 = .ok l) ∨ ∃ x, Church.place t [] 0 = .error (.unbound x)
  generalize Church.place t [] 0 = r at hanswers
  cases hanswers with
  | found l _ => exact .inl ⟨l, rfl⟩
  | unbound x _ => exact .inr ⟨x, rfl⟩

theorem foreseen_of_evaluate (happ : t.hasEmptyApplication = false) (h : t.evaluate N = .error e) :
    e.Foreseen := by
  rcases encoded_eq_ok_or happ with ⟨l, hl⟩ | ⟨x, hx⟩
  · rcases evaluate_eq_ok_or hl N with ⟨r, hr⟩ | hlimit
    · cases hr.symm.trans h
    · obtain rfl := Except.error.inj (hlimit.symm.trans h)
      exact .stepLimit N
  · obtain rfl := Except.error.inj ((evaluate_of_error hx).symm.trans h)
    exact .unbound x

end Term

namespace Grammar
variable {source : String}

theorem foreseen_of_parse {e : Error} (h : parse source = .error e) : e.Foreseen := by
  rw [parse] at h
  split at h
  · cases h
  · obtain rfl := Except.error.inj h
    exact .unexpected _ _ _ _

theorem saturated_of_parse {t : Term} (h : parse source = .ok t) : t.Saturated :=
  saturated_of_derives (mem_complete.1 (mem_complete_of_parse h))

end Grammar

namespace Command
variable {σ : Type} {o : Options} {limit : Nat} {source : String}

theorem hasEmptyApplication_of_parse {t : Term} (h : Grammar.parse source = .ok t) :
    (Definitions.sort (if o.library then Library.supply t else t)).hasEmptyApplication = false := by
  have ht := (Grammar.saturated_of_parse h).hasEmptyApplication
  rw [Definitions.hasEmptyApplication_sort]
  split
  · exact (Library.hasEmptyApplication_supply t).trans ht
  · exact ht

theorem foreseen_of_outcome {e : Error} (h : outcome o limit source = .error e) : e.Foreseen := by
  cases hparse : Grammar.parse source with
  | error e' =>
    rw [outcome, hparse] at h
    obtain rfl := Except.error.inj h
    exact Grammar.foreseen_of_parse hparse
  | ok t =>
    rw [outcome_of_parse hparse] at h
    dsimp only at h
    split at h
    · exact Term.foreseen_of_evaluate (hasEmptyApplication_of_parse hparse) h
    · cases h

variable (host : Host (StateM σ))

/-- The end of a run on a host: a result and all is well, or the report of an error and it
is not. -/
def Ends (x : StateM σ Bool) (s : σ) (r : Except Error String) : Prop := ∃ s', x.run s =
  match r with
  | .ok _ => (true, s')
  | .error e => (do host.say (report e); return false : StateM σ Bool).run s'

variable {host}

theorem ends_of_run {α : Type} {r : Except Error String} {x : StateM σ α} {f : α → StateM σ Bool}
    {s s' : σ} {a : α} (hx : x.run s = (a, s')) (hf : Ends host (f a) s' r) :
    Ends host (x >>= f) s r := by
  rw [Ends, StateT.run_bind, hx]
  exact hf

theorem ends_after {α : Type} {r : Except Error String} (x : StateM σ α) {f : α → StateM σ Bool}
    (hf : ∀ a s, Ends host (f a) s r) (s : σ) : Ends host (x >>= f) s r := ends_of_run rfl (hf _ _)

theorem ends_ite {b : Bool} {x y : StateM σ Bool} {r : Except Error String} {s : σ}
    (hx : Ends host x s r) (hy : Ends host y s r) : Ends host (if b then x else y) s r := by
  cases b
  · exact hy
  · exact hx

theorem ends_true (text : String) (s : σ) : Ends host (pure true) s (.ok text) := ⟨s, rfl⟩

theorem ends_report (e : Error) (s : σ) :
    Ends host (do host.say (report e); return false) s (.error e) := ⟨s, rfl⟩

variable (host)

theorem ends_sayResult (h : o.evaluate → o.limit = some limit) (source : String) (s : σ) :
    Ends host (sayResult host o source) s (outcome o limit source >>= Term.print) := by
  refine ends_after _ (fun start s => ?_) s
  have hprinted : Yields (do
      let t ← run host o source
      let text ← liftExcept t.print
      host.say s!"Result: {text}") ((outcome o limit source >>= Term.print) >>=
        fun _ => .ok ()) := by
    rw [bind_assoc]
    exact (yields_run host h source).bind fun t => (yields_liftExcept t.print).bind
      fun text => yields_lift _
  generalize outcome o limit source >>= Term.print = r at hprinted
  obtain ⟨s', hrun⟩ := hprinted.exists_run s
  cases r with
  | error e => exact ends_of_run hrun (ends_report e s')
  | ok text =>
    refine ends_of_run hrun (ends_ite ?_ (ends_true text s'))
    exact ends_after _ (fun _ => ends_after _ fun _ => ends_after _ fun _ => ends_true text) s'

theorem ends_execute {file : String} {args : List String} (hargs : (Options.ofArgs args).1 = o)
    (h : o.evaluate → o.limit = some limit)
    (hfile : ∀ path s, ((host.contents path).run s).1 = .ok source) (s : σ) :
    Ends host (execute host (file :: args)) s (outcome o limit source >>= Term.print) := by
  subst hargs
  refine ends_after _ (fun path => ends_after _ fun _ s => ?_) s
  refine ends_ite (ends_after _ (fun _ s => ?_) s) ?_
  all_goals exact ends_of_run (Prod.ext (hfile path _) rfl) (ends_sayResult host h source _)

/-- With a limit on the steps, or without evaluation: every reading of a program has several terms
in each application; whatever the host, the run comes to one result, which is a term or a foreseen
error; a term prints, or holds a record; and the command line, given a file that can be read, ends
with a result or with the report of the error. -/
theorem execute_foreseen (h : o.evaluate → o.limit ≠ none) (source : String) :
    (∀ ts, Grammar.parseAll source = .ok ts → ∀ t ∈ ts, t.Saturated) ∧
    ∃ r : Except Error Term, (∀ s, ((run host o source).run.run s).1 = r) ∧
      (∀ e, r = .error e → e.Foreseen) ∧
      (∀ t, r = .ok t → (∃ text, t.print = .ok text) ∨ t.print = .error .recordPrinting) ∧
      ∀ file args, (Options.ofArgs args).1 = o →
        (∀ path s, ((host.contents path).run s).1 = .ok source) →
        ∀ s, Ends host (execute host (file :: args)) s (r >>= Term.print) := by
  obtain ⟨limit, hlimit⟩ : ∃ limit, o.evaluate → o.limit = some limit := by
    cases hl : o.limit with
    | none => exact ⟨0, fun heval => absurd hl (h heval)⟩
    | some limit => exact ⟨limit, fun _ => rfl⟩
  refine ⟨fun ts hts t ht => Grammar.saturated_of_parseAll hts ht, outcome o limit source,
    run_eq_outcome host hlimit source, fun e he => foreseen_of_outcome he,
    fun t _ => t.print_eq_ok_or, ?_⟩
  exact fun file args hargs hfile => ends_execute host hargs hlimit hfile

theorem execute_foreseen_unbound :
    let host : Host (StateM (List String)) :=
      { transcript with contents := fun _ => pure (.ok "(f x)") }
    let o : Options := { evaluate := true, limit := some 5 }
    o.limit ≠ none ∧ (Options.ofArgs ["eval", "steps:5"]).1 = o ∧
      ((run host o "(f x)").run.run []).1 = .error (.unbound "f") ∧
      ∃ said, (execute host ["free.caramel", "eval", "steps:5"]).run [] =
        (false, report (.unbound "f") :: said) := by
  intro host o
  have hparse : Grammar.parse "(f x)" = .ok (.app [.var "f", .var "x"]) :=
    Grammar.parse_of_complete (by decide +kernel)
  have hsort : Definitions.sort (.app [.var "f", .var "x"]) = .app [.var "f", .var "x"] := by
    decide +kernel
  have hlimit : o.limit ≠ none := Option.some_ne_none 5
  have hargs : (Options.ofArgs ["eval", "steps:5"]).1 = o := by decide +kernel
  have hrun : ((run host o "(f x)").run.run []).1 = .error (.unbound "f") := by
    rw [run_eq_outcome host (fun _ => rfl), outcome_of_parse hparse]
    dsimp only
    rw [if_neg Bool.false_ne_true, if_pos rfl, hsort]
    exact Term.evaluate_of_error rfl
  obtain ⟨-, r, hr, -, -, hexecute⟩ := execute_foreseen host (fun _ => hlimit) "(f x)"
  obtain rfl : r = .error (.unbound "f") := (hr []).symm.trans hrun
  obtain ⟨said, hsaid⟩ := hexecute "free.caramel" ["eval", "steps:5"] hargs (fun _ _ => rfl) []
  exact ⟨hlimit, hargs, hrun, said, hsaid⟩

end Command
end SugaredLambda
