import SugaredLambda.Proofs.Church.Evaluation

/-! Blocks in environments: what the names of a block are worth in the end does not depend on the
order of its definitions (`settle_perm`). -/
namespace SugaredLambda.Church
open Lambda
variable {t : Term} {l v w : Lambda} {x : String}

/-- Names and what they are worth, the newest first. -/
abbrev Env := List (String × Lambda)

namespace Env

def scope : Env → Scope
  | [] => []
  | e :: env => (e.1, (env.length : Int)) :: scope env

/-- Puts what the names are worth for their variables, under `k` further binders. -/
def fill : Env → Nat → Lambda → Lambda
  | [], _, t => t
  | e :: env, k, t => fill env k (subst k e.2 t)

def Closed (env : Env) : Prop := ∀ e ∈ env, e.2.Within 0

variable {env : Env} {k : Nat}

theorem fill_abs (env : Env) (k : Nat) (b : Lambda) :
    env.fill k (.abs b) = .abs (env.fill (k + 1) b) := by
  induction env generalizing b with
  | nil => rfl
  | cons e env ih => exact ih _

theorem fill_app (env : Env) (k : Nat) (f a : Lambda) :
    env.fill k (.app f a) = .app (env.fill k f) (env.fill k a) := by
  induction env generalizing f a with
  | nil => rfl
  | cons e env ih => exact ih _ _

theorem fill_var_of_lt (env : Env) {i : Nat} (h : i < k) : env.fill k (.var i) = .var i := by
  induction env with
  | nil => rfl
  | cons e env ih => rw [fill, subst_var_of_lt _ (by omega), ih]

theorem fill_shift (env : Env) (k : Nat) (t : Lambda) :
    env.fill (k + 1) (t.shift 1 0) = (env.fill k t).shift 1 0 := by
  induction env generalizing t with
  | nil => rfl
  | cons e env ih =>
    rw [fill, fill, ← ih, shift_subst_of_le t e.2 (Int.le_refl 0)
      Int.one_nonneg (Int.natCast_nonneg k)]
    rfl

theorem fill_delaySelf (env : Env) (k : Nat) (t : Lambda) :
    env.fill (k + 1) (delaySelf 1 t) = delaySelf 1 (env.fill (k + 1) t) := by
  induction env generalizing t with
  | nil => rfl
  | cons e env ih => rw [fill, fill, subst_delaySelf t e.2 Int.zero_lt_one (by omega), ih]

theorem fill_of_within (env : Env) (k : Nat) (h : v.Within 0) : env.fill k v = v := by
  induction env with
  | nil => rfl
  | cons e env ih => rw [fill, h.subst_eq (by omega), ih]

theorem fill_subst (env : Env) (hv : v.Within 0) (t : Lambda) :
    env.fill 0 (subst 0 v t) = subst 0 v (env.fill 1 t) := by
  induction env generalizing t with
  | nil => rfl
  | cons e env ih =>
    have hswap := subst_subst t v e.2 (Int.le_refl 0) (Int.le_refl 0)
    rw [hv.subst_eq (by omega)] at hswap
    exact (congrArg (fill env 0) hswap).trans (ih _)

theorem within_fill (hclosed : env.Closed) (h : l.Within env.length) : (env.fill 0 l).Within 0 := by
  induction env generalizing l with
  | nil => exact h
  | cons e env ih =>
    obtain ⟨he, henv⟩ := List.forall_mem_cons.1 hclosed
    exact ih henv (Within.subst (m := 0) h (he.mono (Nat.zero_le _)))

theorem reference_succ {scope : Scope} {depth i : Int}
    (h : reference x scope depth = .ok (.var i)) :
    reference x scope (depth + 1) = .ok (.var (i + 1)) := by
  cases hs : scope.lookup x with
  | none => cases (reference_of_none hs).symm.trans h
  | some j =>
    obtain rfl := Lambda.var.inj (Except.ok.inj ((reference_of_some hs).symm.trans h))
    rw [reference_of_some hs]
    congr 2
    omega

theorem reference_of_lookup (hclosed : env.Closed) (h : env.lookup x = some v) :
    ∃ i : Nat, i < env.length ∧ reference x env.scope env.length = .ok (.var i) ∧
    env.fill 0 (.var i) = v := by
  induction env with
  | nil => cases h
  | cons e env ih =>
    obtain ⟨he, henv⟩ := List.forall_mem_cons.1 hclosed
    by_cases hx : x = e.1
    · subst hx
      obtain rfl := Option.some.inj (List.lookup_cons_self.symm.trans h)
      refine ⟨0, Nat.succ_pos _, reference_cons_self _, ?_⟩
      have hself : subst 0 e.2 (.var 0) = e.2 := (subst_var_self _).trans (shift_zero _ _)
      exact (congrArg (fill env 0) hself).trans (fill_of_within env 0 he)
    · rw [List.lookup_cons, beq_false_of_ne hx] at h
      obtain ⟨i, hi, href, hfill⟩ := ih henv h
      refine ⟨i + 1, Nat.succ_lt_succ hi, ?_, ?_⟩
      · exact (reference_cons_of_ne hx _).trans (reference_succ href)
      · rw [fill, subst_var_of_gt _ (by omega), ← hfill]
        congr 2
        omega

theorem lookup_scope_of_none (h : env.lookup x = none) : env.scope.lookup x = none := by
  induction env with
  | nil => rfl
  | cons e env ih =>
    rw [scope, List.lookup_cons]
    rw [List.lookup_cons] at h
    split at h
    · cases h
    next => exact ih h

theorem reference_of_lookup_none (h : env.lookup x = none) (depth : Int) :
    reference x env.scope depth = .error (.unbound x) := reference_of_none (lookup_scope_of_none h)

def Extends (env env' : Env) : Prop := ∀ x v, env.lookup x = some v → env'.lookup x = some v

theorem extends_cons {env' : Env} : Extends ((x, v) :: env) env' ↔
    env'.lookup x = some v ∧ ∀ y ≠ x, ∀ w, env.lookup y = some w → env'.lookup y = some w := by
  constructor
  · intro h
    refine ⟨h x v List.lookup_cons_self, fun y hy w hw => h y w ?_⟩
    rw [List.lookup_cons, beq_false_of_ne hy]
    exact hw
  · rintro ⟨hx, hrest⟩ y w hw
    by_cases hy : y = x
    · subst hy
      rw [hx]
      exact List.lookup_cons_self.symm.trans hw
    · rw [List.lookup_cons, beq_false_of_ne hy] at hw
      exact hrest y hy w hw

end Env

/-- A term at the names of an environment, with what they are worth put for them. -/
def ground (env : Env) (t : Term) : Except Error Lambda :=
  env.fill 0 <$> place t env.scope env.length

section
variable {env env' : Env} {ds ds' : List (Binding Term)}

/-- Under common binders, what is filled from two environments comes to the same. -/
structure FillAlike (env env' : Env) (k : Nat) (t u : Lambda) : Prop where
  left : t.Within (env.length + k)
  right : u.Within (env'.length + k)
  fill_eq : env.fill k t = env'.fill k u

theorem congruence_fillAlike (env env' : Env) : Congruence (FillAlike env env') where
  bound h := ⟨⟨by omega, by omega⟩,
    ⟨by omega, by omega⟩, by rw [env.fill_var_of_lt h, env'.fill_var_of_lt h]⟩
  deeper {k i j} h := by
    obtain ⟨⟨hi, hi'⟩, ⟨hj, hj'⟩, heq⟩ := h
    refine ⟨⟨by omega, by omega⟩, ⟨by omega, by omega⟩, ?_⟩
    rw [← shift_var_of_le (n := 1) hi, ← shift_var_of_le (n := 1) hj, Env.fill_shift,
      Env.fill_shift, heq]
  abs h := ⟨h.left, h.right, by rw [Env.fill_abs, Env.fill_abs, h.fill_eq]⟩
  app hf ha := ⟨⟨hf.left, ha.left⟩, ⟨hf.right, ha.right⟩, by
    rw [Env.fill_app, Env.fill_app, hf.fill_eq, ha.fill_eq]⟩
  delay h := ⟨within_delaySelf (m := 1) (by omega) (by omega) h.left,
    within_delaySelf (m := 1) (by omega) (by omega) h.right, by
      rw [Env.fill_delaySelf, Env.fill_delaySelf, h.fill_eq]⟩

theorem fillAlike_place (hclosed : env.Closed) (hclosed' : env'.Closed)
    (h : ∀ x ∈ t.demanded, env.lookup x = env'.lookup x) :
    Alike (FillAlike env env' 0) (place t env.scope env.length)
      (place t env'.scope env'.length) := by
  refine likened_self (congruence_fillAlike env env') t fun x hx => ?_
  cases hv : env.lookup x with
  | none =>
    rw [Env.reference_of_lookup_none hv, Env.reference_of_lookup_none ((h x hx).symm.trans hv)]
    exact .error _
  | some v =>
    obtain ⟨i, hi, href, hfill⟩ := Env.reference_of_lookup hclosed hv
    obtain ⟨j, hj, href', hfill'⟩ := Env.reference_of_lookup hclosed' ((h x hx).symm.trans hv)
    rw [href, href']
    exact .ok ⟨⟨by omega, by omega⟩, ⟨by omega, by omega⟩, hfill.trans hfill'.symm⟩

theorem ground_congr (hclosed : env.Closed) (hclosed' : env'.Closed)
    (h : ∀ x ∈ t.demanded, env.lookup x = env'.lookup x) : ground env t = ground env' t :=
  (fillAlike_place hclosed hclosed' h).map_eq fun _ _ h => h.fill_eq

theorem within_place (hclosed : env.Closed) (h : place t env.scope env.length = .ok l) :
    l.Within env.length := by
  have halike := fillAlike_place hclosed hclosed fun x (_ : x ∈ t.demanded) => rfl
  rw [h] at halike
  exact halike.of_ok.left

theorem ground_eq_ok_iff :
    ground env t = .ok v ↔ ∃ l, place t env.scope env.length = .ok l ∧ env.fill 0 l = v :=
  map_eq_ok_iff

theorem within_ground (hclosed : env.Closed) (h : ground env t = .ok v) : v.Within 0 := by
  obtain ⟨l, hl, rfl⟩ := ground_eq_ok_iff.1 h
  exact Env.within_fill hclosed (within_place hclosed hl)

theorem closed_cons (hclosed : env.Closed) (h : ground env t = .ok v) (x : String) :
    Env.Closed ((x, v) :: env) :=
  List.forall_mem_cons.2 ⟨within_ground hclosed h, hclosed⟩

theorem closed_nil : Env.Closed [] := fun _ he => absurd he List.not_mem_nil

/-- Definitions are settled one after the other, each where those before it are known. -/
def settle : List (Binding Term) → Env → Except Error Env
  | [], env => return env
  | d :: ds, env => do
    let v ← ground env (.abs d.params d.body)
    settle ds ((d.name, v) :: env)

theorem settle_cons_eq_ok_iff {d : Binding Term} : settle (d :: ds) env = .ok env' ↔
    ∃ v, ground env (.abs d.params d.body) = .ok v ∧ settle ds ((d.name, v) :: env) = .ok env' :=
  bind_eq_ok_iff

theorem place_letIn_cons_eq_ok_iff {d : Binding Term} {b : Term} {scope : Scope} {depth : Int} :
    place (.letIn (d :: ds) b) scope depth = .ok l ↔
      ∃ v, place (.abs d.params d.body) scope depth = .ok v ∧
      ∃ rest, place (.letIn ds b) ((d.name, depth) :: scope) (depth + 1) = .ok rest ∧
      .app (.abs rest) v = l := by
  rw [place_letIn, place_letIn]
  exact bind_eq_ok_iff.trans (exists_congr fun v => and_congr_right fun _ => map_eq_ok_iff)

/-- Each leftmost step settles a definition. -/
theorem leftmostAfter_block {b : Term} (hclosed : env.Closed)
    (h : place (.letIn ds b) env.scope env.length = .ok l) :
    ∃ env' w, settle ds env = .ok env' ∧ env'.Closed ∧ ground env' b = .ok w ∧
      leftmostAfter ds.length (env.fill 0 l) = some w := by
  induction ds generalizing env l with
  | nil => exact ⟨env, env.fill 0 l, rfl, hclosed, ground_eq_ok_iff.2 ⟨l, h, rfl⟩, rfl⟩
  | cons d ds ih =>
    obtain ⟨v, hv, rest, hrest, rfl⟩ := place_letIn_cons_eq_ok_iff.1 h
    have hvalue : ground env (.abs d.params d.body) = .ok (env.fill 0 v) :=
      ground_eq_ok_iff.2 ⟨v, hv, rfl⟩
    obtain ⟨env', w, hsettle, henv', hw, hsteps⟩ := ih (closed_cons hclosed hvalue d.name) hrest
    refine ⟨env', w, settle_cons_eq_ok_iff.2 ⟨_, hvalue, hsettle⟩, henv', hw, ?_⟩
    rw [List.length_cons, leftmostAfter_succ, Env.fill_app, Env.fill_abs, leftmost,
      Option.bind_some, beta, ← Env.fill_subst env (within_ground hclosed hvalue)]
    exact hsteps

theorem exists_lookup_of_ground (happ : t.hasEmptyApplication = false) (h : ground env t = .ok v)
    (hx : x ∈ t.demanded) : ∃ w, env.lookup x = some w := by
  obtain ⟨l, hl, -⟩ := ground_eq_ok_iff.1 h
  cases hw : env.lookup x with
  | some w => exact ⟨w, rfl⟩
  | none =>
    obtain ⟨y, hy⟩ := ((asks_place happ).answers env.scope env.length).exists_unbound
      ⟨hx, Env.lookup_scope_of_none hw⟩
    cases hl.symm.trans hy

theorem ground_extends (happ : t.hasEmptyApplication = false) (hclosed : env.Closed)
    (hclosed' : env'.Closed) (hext : env.Extends env') (h : ground env t = .ok v) :
    ground env' t = .ok v := by
  rw [← ground_congr hclosed hclosed' fun x hx => ?_, h]
  obtain ⟨w, hw⟩ := exists_lookup_of_ground happ h hx
  rw [hw, hext x w hw]

/-- Each definition is worth what its name is. -/
def Settled (env : Env) (ds : List (Binding Term)) : Prop :=
  ∀ d ∈ ds, ∃ v, ground env (.abs d.params d.body) = .ok v ∧ env.lookup d.name = some v

theorem settled_of_settle (happ : ∀ d ∈ ds, d.body.hasEmptyApplication = false)
    (hclosed : env.Closed) (hdistinct : (ds.map (·.name)).Nodup)
    (hnew : ∀ d ∈ ds, env.lookup d.name = none) (h : settle ds env = .ok env') :
    env'.Closed ∧ env.Extends env' ∧ Settled env' ds := by
  induction ds generalizing env with
  | nil =>
    obtain rfl := Except.ok.inj h
    exact ⟨hclosed, fun _ _ hv => hv, fun d hd => absurd hd List.not_mem_nil⟩
  | cons d ds ih =>
    obtain ⟨v, hv, hrest⟩ := settle_cons_eq_ok_iff.1 h
    obtain ⟨hd, hds⟩ := List.forall_mem_cons.1 happ
    obtain ⟨hnewd, hnewds⟩ := List.forall_mem_cons.1 hnew
    obtain ⟨hname, hdistinct⟩ := List.nodup_cons.1 hdistinct
    have hother : ∀ e ∈ ds, List.lookup e.name ((d.name, v) :: env) = none := fun e he => by
      have hne : e.name ≠ d.name := fun heq => hname (List.mem_map.2 ⟨e, he, heq⟩)
      rw [List.lookup_cons, beq_false_of_ne hne]
      exact hnewds e he
    obtain ⟨hend, hext, hworth⟩ := ih hds (closed_cons hclosed hv d.name) hdistinct hother hrest
    obtain ⟨hvalue, hold⟩ := Env.extends_cons.1 hext
    have hextends : env.Extends env' := fun x w hw =>
      hold x (fun heq => by rw [heq, hnewd] at hw; cases hw) w hw
    have hkept := ground_extends (t := .abs d.params d.body) hd hclosed hend hextends hv
    exact ⟨hend, hextends, List.forall_mem_cons.2 ⟨⟨v, hkept, hvalue⟩, hworth⟩⟩

theorem extends_of_settle {final : Env} (happ : ∀ d ∈ ds, d.body.hasEmptyApplication = false)
    (hclosed : env.Closed) (hfinal : final.Closed) (hext : env.Extends final)
    (hworth : Settled final ds) (h : settle ds env = .ok env') : env'.Extends final := by
  induction ds generalizing env with
  | nil => exact Except.ok.inj h ▸ hext
  | cons d ds ih =>
    obtain ⟨v, hv, hrest⟩ := settle_cons_eq_ok_iff.1 h
    obtain ⟨hd, hds⟩ := List.forall_mem_cons.1 happ
    obtain ⟨⟨w, hw, hlookup⟩, hworth⟩ := List.forall_mem_cons.1 hworth
    obtain rfl : v = w := Except.ok.inj
      ((ground_extends (t := .abs d.params d.body) hd hclosed hfinal hext hv).symm.trans hw)
    refine ih hds (closed_cons hclosed hv d.name) ?_ hworth hrest
    exact Env.extends_cons.2 ⟨hlookup, fun y _ w hw => hext y w hw⟩

theorem settle_perm {final final' : Env} (hperm : ds.Perm ds')
    (happ : ∀ d ∈ ds, d.body.hasEmptyApplication = false) (hdistinct : (ds.map (·.name)).Nodup)
    (h : settle ds [] = .ok final) (h' : settle ds' [] = .ok final') (x : String) :
    final.lookup x = final'.lookup x := by
  have happ' : ∀ d ∈ ds', d.body.hasEmptyApplication = false :=
    fun d hd => happ d (hperm.mem_iff.2 hd)
  have hdistinct' := (hperm.map (·.name)).nodup_iff.1 hdistinct
  obtain ⟨hclosed, -, hworth⟩ := settled_of_settle happ closed_nil hdistinct (fun _ _ => rfl) h
  obtain ⟨hclosed', -, hworth'⟩ := settled_of_settle happ' closed_nil hdistinct' (fun _ _ => rfl) h'
  have hleft := extends_of_settle happ closed_nil hclosed' (fun _ _ h => by cases h)
    (fun d hd => hworth' d (hperm.mem_iff.1 hd)) h
  have hright := extends_of_settle happ' closed_nil hclosed (fun _ _ h => by cases h)
    (fun d hd => hworth d (hperm.mem_iff.2 hd)) h'
  cases hx : final.lookup x with
  | some v => exact (hleft x v hx).symm
  | none =>
    cases hx' : final'.lookup x with
    | none => rfl
    | some v => exact absurd ((hright x v hx').symm.trans hx) (Option.some_ne_none v)

/-- Blocks of the same definitions come to the same term, with one leftmost step for each
of them. -/
theorem leftmostAfter_perm {b : Term} {l' : Lambda} (hperm : ds.Perm ds')
    (hdistinct : (ds.map (·.name)).Nodup) (h : (Term.letIn ds b).encoded = .ok l)
    (h' : (Term.letIn ds' b).encoded = .ok l') :
    ∃ w, leftmostAfter ds.length l = some w ∧ leftmostAfter ds.length l' = some w := by
  obtain ⟨hempty, hl⟩ := Term.encoded_eq_ok_iff.1 h
  obtain ⟨-, hl'⟩ := Term.encoded_eq_ok_iff.1 h'
  rw [Term.hasEmptyApplication_letIn, Bool.or_eq_false_iff, List.any_eq_false] at hempty
  have happ : ∀ d ∈ ds, d.body.hasEmptyApplication = false :=
    fun d hd => Bool.of_not_eq_true (hempty.1 d hd)
  obtain ⟨final, w, hsettle, hclosed, hw, hsteps⟩ := leftmostAfter_block closed_nil hl
  obtain ⟨final', w', hsettle', hclosed', hw', hsteps'⟩ := leftmostAfter_block closed_nil hl'
  have hsame : ground final b = ground final' b :=
    ground_congr hclosed hclosed' fun x _ => settle_perm hperm happ hdistinct hsettle hsettle' x
  obtain rfl := Except.ok.inj (hw.symm.trans (hsame.trans hw'))
  exact ⟨w, hsteps, hperm.length_eq ▸ hsteps'⟩

end
end SugaredLambda.Church
