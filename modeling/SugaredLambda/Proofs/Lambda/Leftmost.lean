import SugaredLambda.Evaluation

/-! The leftmost of the outermost redexes, one contraction at a time, and where `normalize` is among
these steps. -/
namespace SugaredLambda.Lambda
variable {limit left m n : Nat} {t u r f g a b : Lambda}

/-- The next step of leftmost-outermost reduction: the root when it is a redex, else a step in the
function, else one in the argument. -/
def leftmost : Lambda → Option Lambda
  | .var _ => none
  | .abs b => b.leftmost.map .abs
  | .app (.abs b) a => some (b.beta a)
  | .app f a =>
    match f.leftmost with
    | some g => some (.app g a)
    | none => a.leftmost.map (.app f)

/-- The term after exactly `n` such steps; none when there are not so many. -/
def leftmostAfter : Nat → Lambda → Option Lambda
  | 0, t => some t
  | n+1, t => t.leftmost.bind (leftmostAfter n)

def IsAbs : Lambda → Prop
  | .abs _ => True
  | _ => False

/-- Whether the head of a nest of applications is a variable. -/
def Neutral : Lambda → Prop
  | .var _ => True
  | .abs _ => False
  | .app f _ => f.Neutral

theorem Neutral.not_isAbs (h : t.Neutral) : ¬ t.IsAbs := by cases t <;> simp_all [Neutral, IsAbs]

theorem leftmost_app_of_some (hf : ¬ f.IsAbs) (h : f.leftmost = some g) :
    (app f a).leftmost = some (.app g a) := by
  cases f with
  | var i => simp [leftmost] at h
  | abs b => exact absurd trivial hf
  | app => simp only [leftmost, h]

theorem leftmost_app_of_none (hf : ¬ f.IsAbs) (h : f.leftmost = none) :
    (app f a).leftmost = a.leftmost.map (.app f) := by
  cases f with
  | var i => rfl
  | abs b => exact absurd trivial hf
  | app => simp only [leftmost, h]

theorem isAbs_of_leftmost (ht : t.IsAbs) (h : t.leftmost = some u) : u.IsAbs := by
  cases t with
  | abs b =>
    obtain ⟨b', -, rfl⟩ := Option.map_eq_some_iff.1 h
    trivial
  | _ => exact ht.elim

theorem neutral_of_leftmost (ht : t.Neutral) (h : t.leftmost = some u) : u.Neutral := by
  induction t generalizing u with
  | var i => simp [leftmost] at h
  | abs b => exact ht.elim
  | app f a ihf iha =>
    have hf : f.Neutral := ht
    cases hs : f.leftmost with
    | some g =>
      obtain rfl := Option.some.inj ((leftmost_app_of_some hf.not_isAbs hs).symm.trans h)
      have hg : g.Neutral := ihf hf hs
      exact hg
    | none =>
      rw [leftmost_app_of_none hf.not_isAbs hs, Option.map_eq_some_iff] at h
      obtain ⟨a', -, rfl⟩ := h
      exact hf

theorem leftmostAfter_succ : leftmostAfter (n+1) t = t.leftmost.bind (leftmostAfter n) := rfl

theorem leftmostAfter_add :
    leftmostAfter (m + n) t = (leftmostAfter m t).bind (leftmostAfter n) := by
  induction m generalizing t with
  | zero => simp [leftmostAfter]
  | succ m ih =>
    rw [Nat.add_right_comm, leftmostAfter_succ, leftmostAfter_succ, Option.bind_assoc]
    exact Option.bind_congr fun u _ => ih

theorem leftmostAfter_trans (h : leftmostAfter m t = some u) (hu : leftmostAfter n u = some r) :
    leftmostAfter (m + n) t = some r := by
  rw [leftmostAfter_add, h, Option.bind_some, hu]

theorem neutral_of_leftmostAfter (ht : t.Neutral) (h : leftmostAfter n t = some u) : u.Neutral := by
  induction n generalizing t with
  | zero => exact Option.some.inj h ▸ ht
  | succ n ih =>
    obtain ⟨s, hs, hu⟩ := Option.bind_eq_some_iff.1 h
    exact ih (neutral_of_leftmost ht hs) hu

theorem isAbs_of_leftmostAfter (ht : t.IsAbs) (h : leftmostAfter n t = some u) : u.IsAbs := by
  induction n generalizing t with
  | zero => exact Option.some.inj h ▸ ht
  | succ n ih =>
    obtain ⟨s, hs, hu⟩ := Option.bind_eq_some_iff.1 h
    exact ih (isAbs_of_leftmost ht hs) hu

theorem leftmostAfter_abs (h : leftmostAfter n b = some u) :
    leftmostAfter n (.abs b) = some (.abs u) := by
  induction n generalizing b with
  | zero => simpa [leftmostAfter] using h
  | succ n ih =>
    obtain ⟨s, hs, hu⟩ := Option.bind_eq_some_iff.1 h
    simp only [leftmostAfter, leftmost, hs, Option.map_some, Option.bind_some, ih hu]

/-- Steps in the function are steps of the application as long as no redex arises at the root, and
one would stay. -/
theorem leftmostAfter_fn (hg : ¬ g.IsAbs) (h : leftmostAfter n f = some g) :
    leftmostAfter n (.app f a) = some (.app g a) := by
  induction n generalizing f with
  | zero => simpa [leftmostAfter] using h
  | succ n ih =>
    have hf : ¬ f.IsAbs := fun hf => hg (isAbs_of_leftmostAfter hf h)
    obtain ⟨s, hs, hu⟩ := Option.bind_eq_some_iff.1 h
    rw [leftmostAfter, leftmost_app_of_some hf hs, Option.bind_some, ih hu]

theorem leftmostAfter_arg (hf : ¬ f.IsAbs) (hn : f.leftmost = none)
    (h : leftmostAfter n a = some u) : leftmostAfter n (.app f a) = some (.app f u) := by
  induction n generalizing a with
  | zero => simpa [leftmostAfter] using h
  | succ n ih =>
    obtain ⟨s, hs, hu⟩ := Option.bind_eq_some_iff.1 h
    rw [leftmostAfter, leftmost_app_of_none hf hn, hs, Option.map_some, Option.bind_some, ih hu]

theorem leftmostAfter_app (hg : ¬ g.IsAbs) (hf : leftmostAfter m f = some g)
    (hn : g.leftmost = none) (ha : leftmostAfter n a = some b) :
    leftmostAfter (m + n) (.app f a) = some (.app g b) :=
  leftmostAfter_trans (leftmostAfter_fn hg hf) (leftmostAfter_arg hg hn ha)

theorem leftmostAfter_unique (hm : leftmostAfter m t = some u) (hu : u.leftmost = none)
    (hn : leftmostAfter n t = some r) : n ≤ m := by
  by_cases h : n ≤ m
  · exact h
  · obtain ⟨k, rfl⟩ := Nat.exists_eq_add_of_lt (Nat.lt_of_not_le h)
    rw [Nat.add_assoc, leftmostAfter_add, hm, Option.bind_some, leftmostAfter, hu] at hn
    contradiction

theorem leftmost_of_contractHead (h : t.contractHead = some u) : t.leftmost = some u := by
  fun_induction contractHead t generalizing u with
  | case1 b a => exact h
  | case2 f a hf ih =>
    obtain ⟨g, hg, rfl⟩ := Option.map_eq_some_iff.1 h
    refine leftmost_app_of_some (fun hb => ?_) (ih hg)
    cases f <;> simp_all [IsAbs]
  | case3 => contradiction

theorem neutral_of_contractHead (h : t.contractHead = none) (ht : ¬ t.IsAbs) : t.Neutral := by
  fun_induction contractHead t with
  | case1 => contradiction
  | case2 f a hf ih =>
    refine ih (Option.map_eq_none_iff.1 h) fun hb => ?_
    cases f <;> simp_all [IsAbs]
  | case3 t _ hf => cases t <;> simp_all [IsAbs, Neutral]

theorem neutral_of_contractHead_app (h : (app f a).contractHead = none) : f.Neutral :=
  neutral_of_contractHead (t := .app f a) h id

theorem headNormal_eq_some (h : headNormal limit t = some (u, left)) :
    u.contractHead = none ∧ leftmostAfter (limit - left) t = some u := by
  fun_induction headNormal limit t with
  | case1 => contradiction
  | case2 t hc =>
    obtain ⟨rfl, rfl⟩ := Prod.mk.inj (Option.some.inj h)
    exact ⟨Option.not_isSome_iff_eq_none.1 hc, rfl⟩
  | case3 limit t hc =>
    obtain ⟨rfl, rfl⟩ := Prod.mk.inj (Option.some.inj h)
    exact ⟨hc, by rw [Nat.sub_self, leftmostAfter]⟩
  | case4 limit t s hc ih =>
    have hle := headNormal_le h
    rw [Nat.succ_sub hle, leftmostAfter, leftmost_of_contractHead hc, Option.bind_some]
    exact ih h

/-- When the limit is too low there is one step more than it allows. -/
theorem headNormal_eq_none (h : headNormal limit t = none) :
    ∃ u, leftmostAfter (limit + 1) t = some u := by
  fun_induction headNormal limit t with
  | case1 t hc =>
    obtain ⟨u, hu⟩ := Option.isSome_iff_exists.1 hc
    exact ⟨u, by simp [leftmostAfter, leftmost_of_contractHead hu]⟩
  | case2 => contradiction
  | case3 => contradiction
  | case4 limit t s hc ih =>
    obtain ⟨u, hu⟩ := ih h
    exact ⟨u, by rw [leftmostAfter, leftmost_of_contractHead hc, Option.bind_some, hu]⟩

theorem normal_eq_some {k : Nat} (h : normal limit t = some (r, k)) :
    k ≤ limit ∧ leftmostAfter k t = some r ∧ r.leftmost = none := by
  induction limit, t using normal.induct generalizing r k with
  | case1 limit t ht => cases (normal_of_headNormal_none ht).symm.trans h
  | case2 limit t i left ht =>
    obtain ⟨rfl, rfl⟩ := Prod.mk.inj (Option.some.inj ((normal_of_headNormal_var ht).symm.trans h))
    exact ⟨Nat.sub_le _ _, (headNormal_eq_some ht).2, rfl⟩
  | case3 limit t b left ht ih =>
    rw [normal_of_headNormal_abs ht, Option.map_eq_some_iff] at h
    obtain ⟨⟨b', l⟩, hb, heq⟩ := h
    obtain ⟨rfl, rfl⟩ := Prod.mk.inj heq
    obtain ⟨hle, hl, hn⟩ := ih hb
    have hleft := headNormal_le ht
    refine ⟨by omega, ?_, by simp only [leftmost, hn, Option.map_none]⟩
    exact leftmostAfter_trans (headNormal_eq_some ht).2 (leftmostAfter_abs hl)
  | case4 limit t f a left ht ihf iha =>
    rw [normal_of_headNormal_app ht, Option.bind_eq_some_iff] at h
    obtain ⟨⟨f', l⟩, hf, harg⟩ := h
    obtain ⟨⟨a', l'⟩, ha, heq⟩ := Option.map_eq_some_iff.1 harg
    obtain ⟨rfl, rfl⟩ := Prod.mk.inj heq
    obtain ⟨hle, hl, hn⟩ := ihf hf
    obtain ⟨hle', hl', hn'⟩ := iha l ha
    have hleft := headNormal_le ht
    obtain ⟨hhead, hsteps⟩ := headNormal_eq_some ht
    have hneutral : f.Neutral := neutral_of_contractHead_app hhead
    have hf' := (neutral_of_leftmostAfter hneutral hl).not_isAbs
    refine ⟨by omega, ?_, by rw [leftmost_app_of_none hf' hn, hn', Option.map_none]⟩
    rw [Nat.add_assoc]
    exact leftmostAfter_trans hsteps (leftmostAfter_app hf' hl hn hl')

theorem normal_eq_none (h : normal limit t = none) : ∃ u, leftmostAfter (limit + 1) t = some u := by
  induction limit, t using normal.induct with
  | case1 limit t ht => exact headNormal_eq_none ht
  | case2 limit t i left ht => cases (normal_of_headNormal_var ht).symm.trans h
  | case3 limit t b left ht ih =>
    rw [normal_of_headNormal_abs ht, Option.map_eq_none_iff] at h
    obtain ⟨u, hu⟩ := ih h
    have hleft := headNormal_le ht
    have hsteps := leftmostAfter_trans (headNormal_eq_some ht).2 (leftmostAfter_abs hu)
    have hcount : limit - left + (left + 1) = limit + 1 := by omega
    rw [hcount] at hsteps
    exact ⟨_, hsteps⟩
  | case4 limit t f a left ht ihf iha =>
    rw [normal_of_headNormal_app ht, Option.bind_eq_none_iff] at h
    have hleft := headNormal_le ht
    obtain ⟨hhead, hsteps⟩ := headNormal_eq_some ht
    have hneutral : f.Neutral := neutral_of_contractHead_app hhead
    cases hf : normal left f with
    | none =>
      obtain ⟨u, hu⟩ := ihf hf
      have hu' := (neutral_of_leftmostAfter hneutral hu).not_isAbs
      have hfn := leftmostAfter_trans hsteps (leftmostAfter_fn (a := a) hu' hu)
      have hcount : limit - left + (left + 1) = limit + 1 := by omega
      rw [hcount] at hfn
      exact ⟨_, hfn⟩
    | some p =>
      obtain ⟨hle, hl, hn⟩ := normal_eq_some hf
      obtain ⟨u, hu⟩ := iha p.2 (Option.map_eq_none_iff.1 (h p hf))
      have hf' := (neutral_of_leftmostAfter hneutral hl).not_isAbs
      have harg := leftmostAfter_trans hsteps (leftmostAfter_app hf' hl hn hu)
      have hcount : limit - left + (p.2 + (left - p.2 + 1)) = limit + 1 := by omega
      rw [hcount] at harg
      exact ⟨_, harg⟩

/-- The steps from `t` end at `r`, and there are no more of them than the limit. -/
def EndsWithin (limit : Nat) (t r : Lambda) : Prop :=
  r.leftmost = none ∧ ∃ k ≤ limit, leftmostAfter k t = some r

theorem EndsWithin.mono {more : Nat} (hm : limit ≤ more) (h : EndsWithin limit t r) :
    EndsWithin more t r := by
  obtain ⟨hr, k, hk, hsteps⟩ := h
  exact ⟨hr, k, Nat.le_trans hk hm, hsteps⟩

theorem normal_eq_some_of_endsWithin (h : EndsWithin limit t r) :
    ∃ k, normal limit t = some (r, k) := by
  obtain ⟨hr, k, hk, hsteps⟩ := h
  cases hn : normal limit t with
  | none =>
    obtain ⟨u, hu⟩ := normal_eq_none hn
    have hle := leftmostAfter_unique hsteps hr hu
    omega
  | some p =>
    obtain ⟨r', k'⟩ := p
    obtain ⟨-, hsteps', hr'⟩ := normal_eq_some hn
    have hk' : k' = k := Nat.le_antisymm (leftmostAfter_unique hsteps hr hsteps')
      (leftmostAfter_unique hsteps' hr' hsteps)
    subst hk'
    exact ⟨k', by rw [Option.some.inj (hsteps.symm.trans hsteps')]⟩

theorem normalize_eq_ok_iff : normalize limit t = .ok r ↔ EndsWithin limit t r := by
  constructor
  · intro h
    cases hn : normal limit t with
    | none => simp [normalize, hn, throw, throwThe, MonadExceptOf.throw] at h
    | some p =>
      obtain ⟨r', k⟩ := p
      simp only [normalize, hn] at h
      obtain rfl := Except.ok.inj h
      obtain ⟨hk, hsteps, hr⟩ := normal_eq_some hn
      exact ⟨hr, k, hk, hsteps⟩
  · intro h
    obtain ⟨k, hk⟩ := normal_eq_some_of_endsWithin h
    simp only [normalize, hk]
    rfl

theorem normalize_eq_ok_or (limit : Nat) (t : Lambda) :
    (∃ r, normalize limit t = .ok r) ∨ normalize limit t = .error (.stepLimit limit) := by
  cases hn : normal limit t with
  | none => exact .inr (by simp only [normalize, hn]; rfl)
  | some p => exact .inl ⟨p.1, by simp only [normalize, hn]; rfl⟩

end SugaredLambda.Lambda
