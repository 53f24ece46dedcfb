import SugaredLambda.Command.Run

/-! With a limit on the steps, or without evaluation, a run comes to the same on every host
(`run_eq_outcome`). -/
namespace SugaredLambda.Command
variable {σ α β : Type}

/-- From every state of the host, a program comes to this result. -/
def Yields (x : ExceptT Error (StateM σ) α) (e : Except Error α) : Prop := ∀ s, (x.run.run s).1 = e

theorem yields_pure (a : α) : Yields (σ := σ) (pure a) (.ok a) := fun _ => rfl

theorem yields_liftExcept (e : Except Error α) : Yields (σ := σ) (liftExcept e) e := fun _ => by
  cases e <;> rfl

theorem Yields.exists_run {x : ExceptT Error (StateM σ) α} {e : Except Error α}
    (hx : Yields x e) (s : σ) : ∃ s', x.run.run s = (e, s') :=
  ⟨_, Prod.ext (hx s) rfl⟩

theorem Yields.bind {x : ExceptT Error (StateM σ) α} {e : Except Error α} (hx : Yields x e)
    {f : α → ExceptT Error (StateM σ) β} {g : α → Except Error β} (hf : ∀ a, Yields (f a) (g a)) :
    Yields (x >>= f) (e >>= g) := by
  intro s
  obtain ⟨s', hrun⟩ := hx.exists_run s
  rw [ExceptT.run_bind, StateT.run_bind, hrun]
  cases e with
  | error e => rfl
  | ok a => exact hf a s'

theorem Yields.after {x : ExceptT Error (StateM σ) α} {a : α} (hx : Yields x (.ok a))
    {f : α → ExceptT Error (StateM σ) β} {e : Except Error β} (hf : Yields (f a) e) :
    Yields (x >>= f) e := by
  intro s
  obtain ⟨s', hrun⟩ := hx.exists_run s
  rw [ExceptT.run_bind, StateT.run_bind, hrun]
  exact hf s'

theorem yields_after_lift (x : StateM σ α) {f : α → ExceptT Error (StateM σ) β} {e : Except Error β}
    (hf : ∀ a, Yields (f a) e) : Yields (liftM x >>= f) e := by
  intro s
  rw [ExceptT.run_bind, StateT.run_bind]
  exact hf _ _

theorem yields_lift (x : StateM σ Unit) : Yields (σ := σ) (liftM x) (.ok ()) := fun _ => rfl

theorem yields_ite {b : Bool} {x y : ExceptT Error (StateM σ) α} {e : Except Error α}
    (hx : Yields x e) (hy : Yields y e) : Yields (if b then x else y) e := by
  cases b
  · exact hy
  · exact hx

theorem yields_after_note {b : Bool} (x : StateM σ α) {y : ExceptT Error (StateM σ) β}
    {e : Except Error β} (hy : Yields y e) : Yields (if b then liftM x >>= fun _ => y else y) e :=
  yields_ite (yields_after_lift x fun _ => hy) hy

theorem yields_lines {γ : Type} (say : γ → StateM σ Unit) (xs : List γ) :
    Yields (σ := σ) (forIn xs () fun x _ => do say x; pure (ForInStep.yield ())) (.ok ()) := by
  induction xs with
  | nil => exact yields_pure ()
  | cons x xs ih =>
    rw [List.forIn_cons]
    exact Yields.after (a := ForInStep.yield ()) (yields_after_lift _ fun _ => yields_pure _) ih

variable (host : Host (StateM σ)) (o : Options)

theorem yields_sayTime (start : Nat) : Yields (sayTime host start) (.ok ()) :=
  yields_after_lift _ fun _ => yields_lift _

theorem yields_sayReadings (start : Nat) (readings : List Term) :
    Yields (sayReadings host o start readings) (.ok ()) := by
  have htime : Yields (σ := σ) (do
      sayTime host start
      host.say s!"  Found {readings.length} parse trees"
      host.say "") (.ok ()) :=
    (yields_sayTime host start).after (yields_after_lift _ fun _ => yields_lift _)
  exact yields_after_lift _ fun _ => yields_ite ((yields_lines _ _).after htime) htime

theorem parse_eq_all (source : String) :
    Grammar.parse source = (Grammar.parsed source).all >>=
      fun readings => .ok (readings.getLastD default) := by
  rw [Grammar.parse, Grammar.Parse.all]
  cases hlast : (Grammar.parsed source).complete.getLast? with
  | none => rw [List.getLast?_eq_none_iff.1 hlast]; rfl
  | some t =>
    obtain ⟨ts, hts⟩ := List.getLast?_eq_some_iff.1 hlast
    simp [hts]
    rfl

theorem yields_read (source : String) : Yields (read host o source) (Grammar.parse source) := by
  rw [parse_eq_all]
  refine yields_after_lift _ fun start => ?_
  dsimp only
  refine yields_after_note _ ((yields_liftExcept _).bind fun readings => yields_after_note _ ?_)
  exact yields_ite ((yields_sayReadings host o start readings).after (yields_pure _))
    (yields_pure _)

theorem yields_supply (t : Term) : Yields (supply host o t) (.ok (Library.supply t)) :=
  yields_ite ((yields_lines _ _).after (yields_pure _)) (yields_pure _)

theorem yields_sort (t : Term) : Yields (sort host o t) (.ok (Definitions.sort t)) :=
  yields_ite ((yields_lines _ _).after (yields_pure _)) (yields_pure _)

variable {o} {limit : Nat}

/-- The normal form and the number of contractions, or that the limit is too low. -/
def limited (limit : Nat) (t : Lambda) : Except Error (Lambda × Nat) :=
  match t.normal limit with
  | some found => return found
  | none => throw (.stepLimit limit)

theorem normalize_eq_limited (limit : Nat) (t : Lambda) :
    t.normalize limit = (·.1) <$> limited limit t := by
  rw [Lambda.normalize, limited]
  cases t.normal limit <;> rfl

theorem yields_normalize (h : o.limit = some limit) (t : Lambda) :
    Yields (normalize host o t) (limited limit t) := by
  rw [normalize, h, limited]
  dsimp only
  cases t.normal limit with
  | none => exact fun _ => rfl
  | some found => exact yields_pure found

theorem yields_evaluate (h : o.limit = some limit) (t : Term) :
    Yields (evaluate host o t) (t.evaluate limit) := by
  have hresult (start : Nat) (t : Term) : Yields (σ := σ) (do
      if o.debug then
        host.say "== Evaluation =="
        sayTime host start
        host.say ""
      return t) (.ok t) :=
    yields_ite (yields_after_lift _ fun _ => (yields_sayTime host start).after
        (yields_after_lift _ fun _ =>
      yields_pure _)) (yields_pure _)
  refine yields_after_lift _ fun start => (yields_liftExcept _).bind fun encoded => ?_
  dsimp only
  rw [normalize_eq_limited, bind_map_left]
  refine yields_after_note _ ((yields_normalize host h encoded).bind fun found => ?_)
  exact yields_ite (yields_after_lift _ fun _ => yields_after_lift _ fun _ => hresult start _)
    (hresult start _)

def outcome (o : Options) (limit : Nat) (source : String) : Except Error Term := do
  let t ← Grammar.parse source
  let t := Definitions.sort (if o.library then Library.supply t else t)
  if o.evaluate then t.evaluate limit else return t

theorem outcome_of_parse {source : String} {t : Term} (h : Grammar.parse source = .ok t) :
    outcome o limit source =
      let t := Definitions.sort (if o.library then Library.supply t else t)
      if o.evaluate then t.evaluate limit else .ok t := by
  rw [outcome, h]
  rfl

theorem yields_run (h : o.evaluate → o.limit = some limit) (source : String) :
    Yields (run host o source) (outcome o limit source) := by
  refine (yields_read host o source).bind fun t => ?_
  have hrest (t : Term) : Yields (σ := σ) (do
      let t ← sort host o t
      if o.evaluate then evaluate host o t else pure t)
      (if o.evaluate then (Definitions.sort t).evaluate limit else .ok (Definitions.sort t)) := by
    refine (yields_sort host o t).after ?_
    by_cases heval : o.evaluate
    · rw [if_pos heval, if_pos heval]
      exact yields_evaluate host (h heval) _
    · rw [if_neg heval, if_neg heval]
      exact yields_pure _
  dsimp only
  by_cases hlibrary : o.library
  · rw [if_pos hlibrary, if_pos hlibrary]
    exact (yields_supply host o t).after (hrest _)
  · rw [if_neg hlibrary, if_neg hlibrary]
    exact hrest t

/-- With a limit on the steps, or without evaluation, the host does not matter. -/
theorem run_eq_outcome (h : o.evaluate → o.limit = some limit) (source : String) (s : σ) :
    ((run host o source).run.run s).1 = outcome o limit source :=
  yields_run host h source s

end SugaredLambda.Command
