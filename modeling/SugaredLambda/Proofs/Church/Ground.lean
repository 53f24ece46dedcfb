import SugaredLambda.Proofs.Church.Context
import SugaredLambda.Proofs.Church.Environment
import SugaredLambda.Proofs.Lambda.Calls

/-! What terms are worth in an environment, by their parts. -/
namespace SugaredLambda
open Lambda

namespace Church
variable {env : Env} {t f b : Term} {ts : List Term} {l c v : Lambda}
  {ls vs : List Lambda} {x : String}
  {ps : List String}

theorem Env.fill_apply (env : Env) (k : Nat) (f : Lambda) (args : List Lambda) :
    env.fill k (f.apply args) = (env.fill k f).apply (args.map (env.fill k)) := by
  induction args generalizing f with
  | nil => rfl
  | cons a args ih => exact (ih (.app f a)).trans (congrArg (Lambda.apply · _) (env.fill_app k f a))

theorem ground_var (hclosed : env.Closed) (h : env.lookup x = some v) :
    ground env (.var x) = .ok v := by
  obtain ⟨i, -, hplace, hfill⟩ := Env.reference_of_lookup hclosed h
  exact ground_eq_ok_iff.2 ⟨_, hplace, hfill⟩

theorem exists_ground (happ : t.hasEmptyApplication = false) (hclosed : env.Closed)
    (h : ∀ x ∈ t.demanded, ∃ v, env.lookup x = some v) : ∃ l, ground env t = .ok l := by
  obtain ⟨l, hl⟩ := ((asks_place happ).answers env.scope env.length).exists_ok
      fun x ⟨hx, hnone⟩ => by
    obtain ⟨v, hv⟩ := h x hx
    obtain ⟨i, -, href, -⟩ := Env.reference_of_lookup hclosed hv
    cases (reference_of_none hnone).symm.trans href
  exact ⟨env.fill 0 l, ground_eq_ok_iff.2 ⟨l, hl, rfl⟩⟩

/-- A program is worth the same everywhere. -/
theorem ground_of_encoded (env : Env) (h : t.encoded = .ok l) : ground env t = .ok l :=
  ground_eq_ok_iff.2 ⟨l, place_of_encoded h _ _,
    Env.fill_of_within env 0 (Term.within_of_place (Term.encoded_eq_ok_iff.1 h).2)⟩

theorem ground_app (hf : ground env f = .ok c)
    (hts : List.Forall₂ (fun t l => ground env t = .ok l) ts ls) :
    ground env (.app (f :: ts)) = .ok (c.apply ls) := by
  obtain ⟨g, hg, rfl⟩ := ground_eq_ok_iff.1 hf
  have hargs :
      ∃ args, ts.mapM (place · env.scope env.length) = .ok args ∧ args.map (env.fill 0) = ls := by
    induction hts with
    | nil => exact ⟨[], rfl, rfl⟩
    | cons ht _ ih =>
      obtain ⟨a, ha, rfl⟩ := ground_eq_ok_iff.1 ht
      obtain ⟨args, hargs, rfl⟩ := ih
      refine ⟨a :: args, ?_, rfl⟩
      rw [List.mapM_cons, ha, hargs]
      rfl
  obtain ⟨args, hargs, rfl⟩ := hargs
  refine ground_eq_ok_iff.2 ⟨g.apply args, ?_, env.fill_apply 0 g args⟩
  rw [place_app_cons, hg, hargs]
  rfl

theorem encoded_app (hf : f.encoded = .ok c)
    (hts : List.Forall₂ (fun t l => t.encoded = .ok l) ts ls) :
    (Term.app (f :: ts)).encoded = .ok (c.apply ls) := by
  obtain ⟨happ, -⟩ :=
    (List.forall₂_and_left (p := fun t : Term => t.hasEmptyApplication = false) ts ls).1
    (hts.imp fun _ _ h => ⟨(Term.encoded_eq_ok_iff.1 h).1, h⟩)
  have hargs : ts.any Term.hasEmptyApplication = false :=
    List.any_eq_false.2 fun t ht => Bool.not_eq_true _ ▸ happ t ht
  obtain ⟨l, hl, rfl⟩ := ground_eq_ok_iff.1
    (ground_app (ground_of_encoded [] hf) (hts.imp fun _ _ h => ground_of_encoded [] h))
  refine Term.encoded_eq_ok_iff.2 ⟨?_, hl⟩
  rw [Term.hasEmptyApplication_app, List.any_cons, (Term.encoded_eq_ok_iff.1 hf).1, hargs]
  rfl

theorem place_abs_nil (b : Term) (scope : Scope) (depth : Int) :
    place (.abs [] b) scope depth = place b scope depth := by
  rw [place_abs, function, enter, List.length_nil, Int.natCast_zero, Int.add_zero]
  cases place b scope depth <;> rfl

theorem place_abs_cons (p : String) (ps : List String) (b : Term) (scope : Scope) (depth : Int) :
    place (.abs (p :: ps) b) scope depth =
      Lambda.abs <$> place (.abs ps b) ((p, depth) :: scope) (depth + 1) := by
  have hdepth : depth + (p :: ps).length = depth + 1 + ps.length := by
    rw [List.length_cons]
    omega
  rw [place_abs, place_abs, function, function, hdepth, enter]
  cases place b (enter ps ((p, depth) :: scope) (depth + 1)) (depth + 1 + ps.length) <;> rfl

theorem contracts_ground_abs {p : String} (hv : v.Within 0)
    (h : ground env (.abs (p :: ps) b) = .ok c) :
    ∃ w, ground ((p, v) :: env) (.abs ps b) = .ok w ∧ Contracts (.app c v) w := by
  obtain ⟨l, hl, rfl⟩ := ground_eq_ok_iff.1 h
  rw [place_abs_cons] at hl
  obtain ⟨body, hbody, rfl⟩ := map_eq_ok_iff.1 hl
  refine ⟨env.fill 0 (subst 0 v body), ground_eq_ok_iff.2 ⟨body, hbody, rfl⟩, ?_⟩
  rw [Env.fill_abs, Env.fill_subst env hv]
  exact .beta _ _

/-- A call puts the parameters to what they are worth, the last one first. -/
theorem reduces_call_ground (hvs : ∀ v ∈ vs, v.Within 0) (hlen : ps.length = vs.length)
    (h : ground env (.abs ps b) = .ok c) :
    ∃ w, ground ((ps.zip vs).reverse ++ env) b = .ok w ∧ Reduces (c.apply vs) w := by
  induction ps generalizing env vs c with
  | nil =>
    obtain rfl := List.length_eq_zero_iff.1 hlen.symm
    rw [ground, place_abs_nil] at h
    exact ⟨c, h, .refl⟩
  | cons p ps ih =>
    obtain ⟨v, vs, rfl⟩ := List.exists_cons_of_length_eq_add_one hlen.symm
    obtain ⟨hv, hvs⟩ := List.forall_mem_cons.1 hvs
    obtain ⟨w, hw, hcontracts⟩ := contracts_ground_abs hv h
    obtain ⟨r, hr, hreduces⟩ := ih hvs (Nat.succ.inj hlen) hw
    refine ⟨r, ?_,
      (Reduces.apply (.single hcontracts) (List.forall₂_same.2 fun _ _ => .refl)).trans hreduces⟩
    rwa [List.zip_cons_cons, List.reverse_cons, List.append_assoc]

end Church
end SugaredLambda
