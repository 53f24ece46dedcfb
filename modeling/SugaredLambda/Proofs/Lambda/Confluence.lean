import SugaredLambda.Proofs.Lambda.Standard

/-! Parallel contractions lead on to one term (`develop`); so any two reductions of a term can be
brought together. -/
namespace SugaredLambda.Lambda
open Relation
variable {t u v w f f' a a' b b' r : Lambda} {d : Int}

theorem Reduces.abs (h : Reduces b b') : Reduces (.abs b) (.abs b') := h.lift _ fun _ _ => .abs

theorem Reduces.app (hf : Reduces f f') (ha : Reduces a a') : Reduces (.app f a) (.app f' a') :=
  (hf.lift (Lambda.app · a) fun _ _ => .fn a).trans (ha.lift (Lambda.app f') fun _ _ => .arg f')

theorem eq_of_reduces_var {i : Int} (h : Reduces (.var i) t) : t = .var i := by
  rcases ReflTransGen.cases_head h with rfl | ⟨u, hu, -⟩
  · rfl
  · cases hu

/-- Some of the redexes of a term are contracted, those inside others first. -/
inductive Parallel : Lambda → Lambda → Prop where
  | var (i : Int) : Parallel (.var i) (.var i)
  | abs {b b' : Lambda} : Parallel b b' → Parallel (.abs b) (.abs b')
  | app {f f' a a' : Lambda} : Parallel f f' → Parallel a a' → Parallel (.app f a) (.app f' a')
  | beta {b b' a a' : Lambda} :
      Parallel b b' → Parallel a a' → Parallel (.app (.abs b) a) (b'.beta a')

namespace Parallel

theorem refl (t : Lambda) : Parallel t t := by
  induction t with
  | var i => exact .var i
  | abs b ih => exact .abs ih
  | app f a ihf iha => exact .app ihf iha

theorem of_contracts (h : Contracts t u) : Parallel t u := by
  induction h with
  | beta b a => exact .beta (refl b) (refl a)
  | abs _ ih => exact .abs ih
  | fn a _ ih => exact .app ih (refl a)
  | arg f _ ih => exact .app (refl f) ih

theorem reduces (h : Parallel t u) : Reduces t u := by
  induction h with
  | var i => exact .refl
  | abs _ ih => exact ih.abs
  | app _ _ ihf iha => exact ihf.app iha
  | beta _ _ ihb iha => exact (ihb.abs.app iha).tail (.beta _ _)

theorem shift {n c : Int} (hn : 0 ≤ n) (hc : 0 ≤ c) (h : Parallel t u) :
    Parallel (t.shift n c) (u.shift n c) := by
  induction h generalizing c with
  | var i => exact refl _
  | abs _ ih => exact .abs (ih (by omega))
  | app _ _ ihf iha => exact .app (ihf hc) (iha hc)
  | @beta b b' a a' _ _ ihb iha =>
    rw [shift_beta b' a' hn hc]
    exact .beta (ihb (by omega)) (iha hc)

theorem subst (hd : 0 ≤ d) (ht : Parallel t u) (hv : Parallel v w) :
    Parallel (Lambda.subst d v t) (Lambda.subst d w u) := by
  induction ht generalizing d with
  | var i =>
    by_cases hi : i = d
    · subst hi
      rw [subst_var_self, subst_var_self]
      exact hv.shift hd (Int.le_refl 0)
    · simp only [Lambda.subst, hi, if_false]
      exact refl _
  | abs _ ih => exact .abs (ih (by omega))
  | app _ _ ihf iha => exact .app (ihf hd) (iha hd)
  | @beta b b' a a' _ _ ihb iha =>
    rw [subst_beta b' a' w hd]
    exact .beta (ihb (by omega)) (iha hd)

end Parallel

/-- Every redex of a term is contracted. -/
def develop : Lambda → Lambda
  | .var i => .var i
  | .abs b => .abs b.develop
  | .app (.abs b) a => b.develop.beta a.develop
  | .app f a => .app f.develop a.develop

theorem develop_app (hf : ¬ f.IsAbs) : (Lambda.app f a).develop = .app f.develop a.develop := by
  cases f with
  | abs b => exact absurd trivial hf
  | _ => simp only [develop]

/-- Whichever redexes were contracted, contracting the others gives the same term. -/
theorem Parallel.develop (h : Parallel t u) : Parallel u t.develop := by
  induction h with
  | var i => exact .var i
  | abs _ ih => exact .abs ih
  | beta _ _ ihb iha => exact ihb.subst (Int.le_refl 0) iha
  | @app f f' a a' hf _ ihf iha =>
    by_cases habs : f.IsAbs
    · cases hf with
      | abs _ =>
        cases ihf with
        | abs hb => exact .beta hb iha
      | _ => exact habs.elim
    · rw [develop_app habs]
      exact .app ihf iha

theorem reduces_eq_parallel : Reduces = ReflTransGen Parallel := by
  ext t u
  constructor
  · exact fun h => ReflTransGen.mono (fun _ _ => Parallel.of_contracts) t u h
  · intro h
    induction h with
    | refl => exact .refl
    | tail _ hs ih => exact ih.trans hs.reduces

theorem Reduces.confluent (hu : Reduces t u) (hv : Reduces t v) :
    ∃ w, Reduces u w ∧ Reduces v w := by
  rw [reduces_eq_parallel] at hu hv ⊢
  exact church_rosser (fun t _ _ hu hv => ⟨t.develop, .single hu.develop, .single hv.develop⟩) hu hv

theorem eq_of_reduces_normal (ht : Normal t) (h : Reduces t u) : u = t := by
  rcases ReflTransGen.cases_head h with rfl | ⟨v, hv, -⟩
  · rfl
  · exact absurd hv (ht v)

theorem reduces_normal_iff (h : Reduces t u) (hr : Normal r) : Reduces u r ↔ Reduces t r := by
  refine ⟨h.trans, fun ht => ?_⟩
  obtain ⟨w, hu, hrw⟩ := h.confluent ht
  obtain rfl := eq_of_reduces_normal hr hrw
  exact hu

section
variable {limit : Nat}

theorem reduces_of_leftmostAfter {n : Nat} (h : leftmostAfter n t = some r) : Reduces t r := by
  induction n generalizing t with
  | zero => exact Option.some.inj h ▸ .refl
  | succ n ih =>
    obtain ⟨u, hu, hr⟩ := Option.bind_eq_some_iff.1 h
    exact .head (contracts_of_leftmost hu) (ih hr)

theorem reduces_of_normalize (h : normalize limit t = .ok r) : Reduces t r ∧ Normal r := by
  obtain ⟨hr, n, -, hsteps⟩ := normalize_eq_ok_iff.1 h
  exact ⟨reduces_of_leftmostAfter hsteps, normal_iff.2 hr⟩

theorem normalize_of_normal (h : Normal t) (limit : Nat) : normalize limit t = .ok t :=
  normalize_eq_ok_iff.2 ⟨normal_iff.1 h, 0, Nat.zero_le limit, rfl⟩

theorem exists_normalize_iff : (∃ limit, normalize limit t = .ok r) ↔ Reduces t r ∧ Normal r := by
  constructor
  · exact fun ⟨_, h⟩ => reduces_of_normalize h
  · rintro ⟨h, hr⟩
    obtain ⟨limit, hlimit⟩ := h.endsWithin hr
    exact ⟨limit, normalize_eq_ok_iff.2 hlimit⟩

/-- Terms that come to the same after equally many leftmost steps are the same to `normalize`. -/
theorem normalize_congr {n : Nat} (ht : leftmostAfter n t = some w)
    (hu : leftmostAfter n u = some w) (limit : Nat) : normalize limit t = normalize limit u := by
  have hends {t u : Lambda} (ht : leftmostAfter n t = some w)
      (hu : leftmostAfter n u = some w) {r : Lambda} (h : EndsWithin limit t r) :
      EndsWithin limit u r := by
    obtain ⟨hr, k, hk, hsteps⟩ := h
    obtain ⟨m, rfl⟩ := Nat.exists_eq_add_of_le (leftmostAfter_unique hsteps hr ht)
    rw [leftmostAfter_add, ht] at hsteps
    exact ⟨hr, n + m, hk, leftmostAfter_trans hu hsteps⟩
  rcases normalize_eq_ok_or limit t with ⟨r, hr⟩ | herror
  · rw [hr, normalize_eq_ok_iff.2 (hends ht hu (normalize_eq_ok_iff.1 hr))]
  · rcases normalize_eq_ok_or limit u with ⟨r, hr⟩ | herror'
    · rw [hr, normalize_eq_ok_iff.2 (hends hu ht (normalize_eq_ok_iff.1 hr))]
    · rw [herror, herror']

end

end SugaredLambda.Lambda
