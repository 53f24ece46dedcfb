import Mathlib.Logic.Relation
import SugaredLambda.Proofs.Lambda.Leftmost
import SugaredLambda.Proofs.Lambda.Substitution

/-! Every reduction can be made standard, and a standard one to a normal form goes leftmost first.
-/
namespace SugaredLambda.Lambda
open Relation
variable {t u v w r f g a b : Lambda} {d : Int}

/-- One contraction at any position. -/
inductive Contracts : Lambda → Lambda → Prop where
  | beta (b a : Lambda) : Contracts (.app (.abs b) a) (b.beta a)
  | abs {b b' : Lambda} : Contracts b b' → Contracts (.abs b) (.abs b')
  | fn {f f' : Lambda} (a : Lambda) : Contracts f f' → Contracts (.app f a) (.app f' a)
  | arg (f : Lambda) {a a' : Lambda} : Contracts a a' → Contracts (.app f a) (.app f a')

def Reduces : Lambda → Lambda → Prop := ReflTransGen Contracts

def Normal (t : Lambda) : Prop := ∀ u, ¬ Contracts t u

theorem normal_var (i : Int) : Normal (.var i) := fun _ h => by cases h

theorem Normal.abs (h : Normal b) : Normal (.abs b) := fun _ hs => by
  cases hs with
  | abs hb => exact h _ hb

theorem Normal.app (habs : ¬ f.IsAbs) (hf : Normal f) (ha : Normal a) :
    Normal (.app f a) := fun _ hs => by
  cases hs with
  | beta b a => exact habs trivial
  | fn _ hs => exact hf _ hs
  | arg _ hs => exact ha _ hs

theorem Normal.abs_inv (h : Normal (.abs b)) : Normal b := fun _ hu => h _ (.abs hu)

theorem Normal.fn_inv (h : Normal (.app f a)) : Normal f := fun _ hu => h _ (.fn a hu)

theorem Normal.arg_inv (h : Normal (.app f a)) : Normal a := fun _ hu => h _ (.arg f hu)

theorem Normal.fn_not_isAbs (h : Normal (.app f a)) : ¬ f.IsAbs := by
  intro hf
  cases f with
  | abs b => exact h _ (.beta b a)
  | _ => exact hf.elim

theorem contracts_of_leftmost (h : t.leftmost = some u) : Contracts t u := by
  induction t generalizing u with
  | var i => simp [leftmost] at h
  | abs b ih =>
    obtain ⟨b', hb, rfl⟩ := Option.map_eq_some_iff.1 h
    exact .abs (ih hb)
  | app f a ihf iha =>
    by_cases hf : f.IsAbs
    · cases f with
      | abs b => exact Option.some.inj h ▸ .beta b a
      | _ => exact hf.elim
    · cases hs : f.leftmost with
      | some g =>
        obtain rfl := Option.some.inj ((leftmost_app_of_some hf hs).symm.trans h)
        exact .fn a (ihf hs)
      | none =>
        obtain ⟨a', ha, rfl⟩ := Option.map_eq_some_iff.1 ((leftmost_app_of_none hf hs).symm.trans h)
        exact .arg f (iha ha)

theorem leftmost_ne_none_of_contracts (h : Contracts t u) : t.leftmost ≠ none := by
  induction h with
  | beta b a => simp [leftmost]
  | abs _ ih => simpa [leftmost] using ih
  | @fn f f' a _ ih =>
    by_cases hf : f.IsAbs
    · cases f <;> simp_all [IsAbs, leftmost]
    · obtain ⟨g, hg⟩ := Option.ne_none_iff_exists'.1 ih
      simp [leftmost_app_of_some hf hg]
  | @arg f a a' _ ih =>
    by_cases hf : f.IsAbs
    · cases f <;> simp_all [IsAbs, leftmost]
    · cases hs : f.leftmost with
      | some g => simp [leftmost_app_of_some hf hs]
      | none => simpa [leftmost_app_of_none hf hs] using ih

theorem normal_iff : Normal t ↔ t.leftmost = none := by
  constructor
  · intro h
    cases hs : t.leftmost with
    | none => rfl
    | some u => exact absurd (contracts_of_leftmost hs) (h u)
  · exact fun h u hu => leftmost_ne_none_of_contracts hu h

/-- Any number of contractions at the head of a nest of applications. -/
def HeadReduces : Lambda → Lambda → Prop := ReflTransGen fun t u => t.contractHead = some u

theorem contractHead_fn (h : f.contractHead = some g) :
    (app f a).contractHead = some (.app g a) := by
  cases f with
  | app f' a' => simp only [contractHead, h, Option.map_some]
  | _ => contradiction

theorem HeadReduces.map {φ : Lambda → Lambda}
    (hφ : ∀ {t u}, t.contractHead = some u → (φ t).contractHead = some (φ u))
    (h : HeadReduces t u) : HeadReduces (φ t) (φ u) := by
  induction h with
  | refl => exact .refl
  | tail _ hs ih => exact ih.tail (hφ hs)

theorem HeadReduces.fn (a : Lambda) (h : HeadReduces f g) : HeadReduces (.app f a) (.app g a) :=
  h.map (φ := fun f => .app f a) contractHead_fn

theorem contractHead_map {φ ψ : Lambda → Lambda} (hfn : ∀ f a, φ (.app f a) = .app (φ f) (φ a))
    (habs : ∀ b, φ (.abs b) = .abs (ψ b)) (hbeta : ∀ b a, φ (b.beta a) = (ψ b).beta (φ a))
    (h : t.contractHead = some u) : (φ t).contractHead = some (φ u) := by
  fun_induction contractHead t generalizing u with
  | case1 b a =>
    obtain rfl := Option.some.inj h
    rw [hfn, habs, hbeta]
    rfl
  | case2 f a _ ih =>
    obtain ⟨g, hg, rfl⟩ := Option.map_eq_some_iff.1 h
    rw [hfn, hfn]
    exact contractHead_fn (ih hg)
  | case3 => contradiction

theorem HeadReduces.shift {n c : Int} (hn : 0 ≤ n) (hc : 0 ≤ c) (h : HeadReduces t u) :
    HeadReduces (t.shift n c) (u.shift n c) :=
  h.map (contractHead_map (fun _ _ => rfl) (fun _ => rfl) fun b a => shift_beta b a hn hc)

theorem HeadReduces.subst (v : Lambda) (hd : 0 ≤ d) (h : HeadReduces t u) :
    HeadReduces (Lambda.subst d v t) (Lambda.subst d v u) :=
  h.map (contractHead_map (fun _ _ => rfl) (fun _ => rfl) fun b a => subst_beta b a v hd)

theorem HeadReduces.leftmostAfter (h : HeadReduces t u) : ∃ n, leftmostAfter n t = some u := by
  induction h using ReflTransGen.head_induction_on with
  | refl => exact ⟨0, rfl⟩
  | head hs _ ih =>
    obtain ⟨n, hn⟩ := ih
    exact ⟨n + 1, by rw [leftmostAfter_succ, leftmost_of_contractHead hs, Option.bind_some, hn]⟩

/-- Head contractions up to a variable, an abstraction or an application, and then a standard
reduction of each of its parts. -/
inductive Standard : Lambda → Lambda → Prop where
  | var {t : Lambda} {i : Int} : HeadReduces t (.var i) → Standard t (.var i)
  | abs {t b b' : Lambda} : HeadReduces t (.abs b) → Standard b b' → Standard t (.abs b')
  | app {t f f' a a' : Lambda} :
    HeadReduces t (.app f a) → Standard f f' → Standard a a' → Standard t (.app f' a')

namespace Standard

theorem refl (t : Lambda) : Standard t t := by
  induction t with
  | var i => exact .var .refl
  | abs b ih => exact .abs .refl ih
  | app f a ihf iha => exact .app .refl ihf iha

theorem head (h : HeadReduces t u) (hu : Standard u r) : Standard t r := by
  cases hu with
  | var hs => exact .var (h.trans hs)
  | abs hs hb => exact .abs (h.trans hs) hb
  | app hs hf ha => exact .app (h.trans hs) hf ha

theorem shift {n c : Int} (hn : 0 ≤ n) (hc : 0 ≤ c) (h : Standard t u) :
    Standard (t.shift n c) (u.shift n c) := by
  induction h generalizing c with
  | var hs => exact head (hs.shift hn hc) (refl _)
  | abs hs _ ih => exact .abs (hs.shift hn hc) (ih (by omega))
  | app hs _ _ ihf iha => exact .app (hs.shift hn hc) (ihf hc) (iha hc)

theorem subst (hd : 0 ≤ d) (ht : Standard t u) (hv : Standard v w) :
    Standard (Lambda.subst d v t) (Lambda.subst d w u) := by
  induction ht generalizing d with
  | @var t i hs =>
    refine head (hs.subst v hd) ?_
    by_cases hi : i = d
    · subst hi
      rw [subst_var_self, subst_var_self]
      exact hv.shift hd (Int.le_refl 0)
    · simp only [Lambda.subst, hi, if_false]
      exact refl _
  | abs hs _ ih => exact .abs (hs.subst v hd) (ih (by omega))
  | app hs _ _ ihf iha => exact .app (hs.subst v hd) (ihf hd) (iha hd)

/-- A redex at the end of a standard reduction could have been contracted at the head. -/
theorem beta (h : Standard t (.app (.abs b) a)) : Standard t (b.beta a) := by
  cases h with
  | app hs hf ha =>
    cases hf with
    | abs hb hbody =>
      refine head (hs.trans ((hb.fn _).tail rfl)) ?_
      exact subst (Int.le_refl 0) hbody ha

theorem tail (h : Standard t u) (hs : Contracts u r) : Standard t r := by
  induction hs generalizing t with
  | beta b a => exact h.beta
  | abs _ ih => cases h with | abs hb hbody => exact .abs hb (ih hbody)
  | fn a _ ih => cases h with | app hs hf ha => exact .app hs (ih hf) ha
  | arg f _ ih => cases h with | app hs hf ha => exact .app hs hf (ih ha)

end Standard

/-- Every reduction can be made standard. -/
theorem Reduces.standard (h : Reduces t r) : Standard t r := by
  induction h with
  | refl => exact .refl t
  | tail _ hs ih => exact ih.tail hs

/-- A standard reduction to a normal form goes leftmost first. -/
theorem Standard.leftmostAfter (h : Standard t r) (hr : Normal r) :
    ∃ n, leftmostAfter n t = some r := by
  induction h with
  | var hs => exact hs.leftmostAfter
  | abs hs _ ih =>
    obtain ⟨m, hm⟩ := hs.leftmostAfter
    obtain ⟨n, hn⟩ := ih hr.abs_inv
    exact ⟨m + n, leftmostAfter_trans hm (leftmostAfter_abs hn)⟩
  | app hs _ _ ihf iha =>
    obtain ⟨l, hl⟩ := hs.leftmostAfter
    obtain ⟨m, hm⟩ := ihf hr.fn_inv
    obtain ⟨n, hn⟩ := iha hr.arg_inv
    have happ := leftmostAfter_app hr.fn_not_isAbs hm (normal_iff.1 hr.fn_inv) hn
    exact ⟨l + (m + n), leftmostAfter_trans hl happ⟩

theorem Reduces.endsWithin (h : Reduces t r) (hr : Normal r) : ∃ limit, EndsWithin limit t r := by
  obtain ⟨n, hn⟩ := h.standard.leftmostAfter hr
  exact ⟨n, normal_iff.1 hr, n, Nat.le_refl n, hn⟩

theorem EndsWithin.unique {m n : Nat} (h : EndsWithin m t r) (h' : EndsWithin n t u) : u = r := by
  have hr := normalize_eq_ok_iff.2 (h.mono (Nat.le_max_left m n))
  have hu := normalize_eq_ok_iff.2 (h'.mono (Nat.le_max_right m n))
  exact Except.ok.inj (hu.symm.trans hr)

/-- Whatever the order in which a term was reduced to a normal form, `normalize` gives it from some
limit on; so there is one normal form at most. -/
theorem normalize_of_reduces (h : Reduces t r) (hr : Normal r) :
    (∃ limit, ∀ more ≥ limit, normalize more t = .ok r) ∧
    ∀ s, Reduces t s → Normal s → s = r := by
  obtain ⟨limit, hlimit⟩ := h.endsWithin hr
  refine ⟨⟨limit, fun more hm => normalize_eq_ok_iff.2 (hlimit.mono hm)⟩, fun s hs hn => ?_⟩
  obtain ⟨limit', hlimit'⟩ := hs.endsWithin hn
  exact hlimit.unique hlimit'

/-- `(λ λ 0) ((λ 0) (λ 0))`, reduced in its argument first. -/
theorem normalize_of_reduces_arg :
    let id : Lambda := .abs (.var 0)
    let t : Lambda := .app (.abs id) (.app id id)
    Reduces t id ∧ Normal id ∧ ∃ limit, ∀ more ≥ limit, normalize more t = .ok id := by
  intro id t
  have h : Reduces t id := (ReflTransGen.single (.arg _ (.beta _ _))).tail (.beta _ _)
  have hn : Normal id := normal_iff.2 rfl
  exact ⟨h, hn, (normalize_of_reduces h hn).1⟩

end SugaredLambda.Lambda
