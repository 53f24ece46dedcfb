import Mathlib.Data.List.Forall2
import SugaredLambda.Proofs.Church.Delay
import SugaredLambda.Proofs.Church.Demands

/-! A relation that holds on in abstractions, applications and thunks holds between the encodings of
a term in two scopes when it holds between the variables of the names that the term asks for. -/
namespace SugaredLambda.Church
open Lambda

theorem bind_eq_ok_iff {α β : Type} {x : Except Error α} {f : α → Except Error β} {b : β} :
    x >>= f = .ok b ↔ ∃ a, x = .ok a ∧ f a = .ok b := by
  cases x with
  | error e => exact ⟨fun h => (by cases h), fun ⟨_, h, _⟩ => (by cases h)⟩
  | ok a => exact ⟨fun h => ⟨a, rfl, h⟩, fun ⟨_, ha, h⟩ => (Except.ok.inj ha ▸ h : f a = .ok b)⟩

theorem map_eq_ok_iff {α β : Type} {x : Except Error α} {f : α → β} {b : β} :
    f <$> x = .ok b ↔ ∃ a, x = .ok a ∧ f a = b := by
  cases x with
  | error e => exact ⟨fun h => (by cases h), fun ⟨_, h, _⟩ => (by cases h)⟩
  | ok a =>
    exact ⟨fun h => ⟨a, rfl, Except.ok.inj h⟩,
      fun ⟨_, ha, h⟩ => congrArg Except.ok (Except.ok.inj ha ▸ h)⟩

/-- Two related results, or the same error. -/
inductive Alike {α β : Type} (r : α → β → Prop) : Except Error α → Except Error β → Prop
  | ok {a : α} {b : β} (h : r a b) : Alike r (.ok a) (.ok b)
  | error (e : Error) : Alike r (.error e) (.error e)

namespace Alike
variable {α β γ δ : Type} {r : α → β → Prop} {q : γ → δ → Prop}
  {x : Except Error α} {y : Except Error β}

theorem bind {f : α → Except Error γ} {g : β → Except Error δ} (h : Alike r x y)
    (hfg : ∀ a b, r a b → Alike q (f a) (g b)) : Alike q (x >>= f) (y >>= g) := by
  cases h with
  | ok h => exact hfg _ _ h
  | error e => exact .error e

theorem map {f : α → γ} {g : β → δ} (h : Alike r x y) (hfg : ∀ a b, r a b → q (f a) (g b)) :
    Alike q (f <$> x) (g <$> y) := by
  cases h with
  | ok h => exact .ok (hfg _ _ h)
  | error e => exact .error e

theorem map_eq {f : α → γ} {g : β → γ} (h : Alike r x y) (hfg : ∀ a b, r a b → f a = g b) :
    f <$> x = g <$> y := by
  cases h with
  | ok h => exact congrArg Except.ok (hfg _ _ h)
  | error e => rfl

theorem eq_map {f : α → β} (h : Alike (fun a b => f a = b) x y) : y = f <$> x := by
  cases h with
  | ok h => exact congrArg Except.ok h.symm
  | error e => rfl

theorem mapM {f : γ → Except Error α} {g : δ → Except Error β} {xs : List γ} {ys : List δ}
    (h : List.Forall₂ (fun x y => Alike r (f x) (g y)) xs ys) :
    Alike (List.Forall₂ r) (xs.mapM f) (ys.mapM g) := by
  induction h with
  | nil => exact .ok .nil
  | cons h _ ih =>
    rw [List.mapM_cons, List.mapM_cons]
    exact h.bind fun a b hab => ih.map fun as bs hs => .cons hab hs

theorem exists_ok {a : α} (h : Alike r (.ok a) y) : ∃ b, y = .ok b ∧ r a b := by
  cases h with
  | ok h => exact ⟨_, rfl, h⟩

theorem exists_ok_iff (h : Alike r x y) : (∃ a, x = .ok a) ↔ ∃ b, y = .ok b := by
  cases h with
  | ok _ => exact ⟨fun _ => ⟨_, rfl⟩, fun _ => ⟨_, rfl⟩⟩
  | error e => exact ⟨fun ⟨_, h⟩ => (by cases h), fun ⟨_, h⟩ => (by cases h)⟩

theorem of_ok {a : α} {b : β} (h : Alike r (.ok a) (.ok b)) : r a b := by
  cases h with
  | ok h => exact h

end Alike

/-- A relation between terms under a number of common binders, which are related to themselves. -/
structure Congruence (r : Nat → Lambda → Lambda → Prop) : Prop where
  bound {k i : Nat} : i < k → r k (.var i) (.var i)
  deeper {k : Nat} {i j : Int} : r k (.var i) (.var j) → r (k + 1) (.var (i + 1)) (.var (j + 1))
  abs {k : Nat} {b c : Lambda} : r (k + 1) b c → r k (.abs b) (.abs c)
  app {k : Nat} {f g a b : Lambda} : r k f g → r k a b → r k (.app f a) (.app g b)
  delay {k : Nat} {t u : Lambda} : r (k + 1) t u → r (k + 1) (delaySelf 1 t) (delaySelf 1 u)

variable {r : Nat → Lambda → Lambda → Prop} {k : Nat} {t u f g : Lambda} {as bs : List Lambda}

namespace Congruence
variable (hr : Congruence r)
include hr

theorem self_of_within (h : t.Within k) : r k t t := by
  induction t generalizing k with
  | var i =>
    obtain ⟨i, rfl⟩ := Int.eq_ofNat_of_zero_le h.1
    exact hr.bound (by have := h.2; omega)
  | abs b ih => exact hr.abs (ih h)
  | app f a ihf iha => exact hr.app (ihf h.1) (iha h.2)

theorem binders (n : Nat) (h : r (k + n) t u) : r k (Lambda.binders n t) (Lambda.binders n u) := by
  induction n generalizing k with
  | zero => exact h
  | succ n ih => exact hr.abs (ih (by rwa [Nat.add_right_comm, Nat.add_assoc]))

theorem apply (hf : r k f g) (h : List.Forall₂ (r k) as bs) : r k (f.apply as) (g.apply bs) := by
  induction h generalizing f g with
  | nil => exact hf
  | cons h _ ih => exact ih (hr.app hf h)

theorem consumed (h : List.Forall₂ (r (k + 1)) as bs) : r k (consumed as) (consumed bs) :=
  hr.abs (hr.apply (hr.bound (Nat.succ_pos k)) h)

theorem cells (h : List.Forall₂ (r (k + 2)) as bs) : r (k + 2) (cells as) (cells bs) := by
  induction h with
  | nil => exact hr.bound (Nat.succ_pos _)
  | cons h _ ih => exact hr.app (hr.app (hr.bound (by omega : 1 < _ + 2)) h) ih

theorem foldList (h : List.Forall₂ (r (k + 2)) as bs) : r k (foldList as) (foldList bs) :=
  hr.abs (hr.abs (hr.cells h))

theorem thunk (h : r (k + 8) t u) : r (k + 7) (thunk t) (thunk u) :=
  hr.abs (hr.app (hr.delay h) (hr.bound (by omega : 7 < k + 8)))

end Congruence

theorem congruence_within (n : Nat) : Congruence fun k t _ => t.Within (n + k) where
  bound h := ⟨by omega, by omega⟩
  deeper h := ⟨by have := h.1; omega, by have := h.2; omega⟩
  abs h := h
  app hf ha := ⟨hf, ha⟩
  delay h := within_delaySelf (m := 1) (by omega) (by omega) h

theorem forall₂_within {n : Nat} (h : ∀ t ∈ as, t.Within n) :
    List.Forall₂ (fun t _ : Lambda => t.Within n) as as := List.forall₂_same.2 h

theorem within_consumed (h : ∀ t ∈ as, t.Within 1) : (consumed as).Within 0 :=
  (congruence_within 0).consumed (k := 0) (forall₂_within h)

theorem within_foldList (h : ∀ t ∈ as, t.Within 2) : (foldList as).Within 0 :=
  (congruence_within 0).foldList (k := 0) (forall₂_within h)

@[simp] theorem within_numeral (n : Nat) : (numeral n).Within 0 := by
  have hbody : (iterate n).Within 2 := by
    induction n with
    | zero => exact ⟨by omega, by omega⟩
    | succ n ih => exact ⟨⟨by omega, by omega⟩, ih⟩
  exact hbody

theorem within_bitTuple (value width : Nat) : (bitTuple value width).Within 0 := by
  refine within_consumed fun t ht => ?_
  obtain ⟨b, -, rfl⟩ := List.mem_map.1 ht
  cases b <;> exact ⟨by decide, by decide⟩

theorem within_string (s : String) : (string s).Within 0 := by
  refine within_foldList fun t ht => ?_
  obtain ⟨c, -, rfl⟩ := List.mem_map.1 ht
  exact (within_bitTuple c.toNat Bits.charWidth).mono (Nat.zero_le 2)

/-- Some names stand for related variables in two scopes, or for none in both. -/
def Sees (r : Nat → Lambda → Lambda → Prop) (k : Nat) (names : List String)
    (scope : Scope) (depth : Int) (scope' : Scope) (depth' : Int) : Prop :=
  ∀ x ∈ names, Alike (r k) (reference x scope depth) (reference x scope' depth')

section
variable {names more ps : List String} {scope scope' : Scope} {depth depth' : Int}

theorem Sees.mono (h : Sees r k more scope depth scope' depth') (hs : names ⊆ more) :
    Sees r k names scope depth scope' depth' := fun x hx => h x (hs hx)

theorem reference_of_some {x : String} {i : Int} (h : scope.lookup x = some i) :
    reference x scope depth = .ok (.var (depth - i - 1)) := by simp only [reference, h]; rfl

theorem reference_of_none {x : String} (h : scope.lookup x = none) :
    reference x scope depth = .error (.unbound x) := by simp only [reference, h]; rfl

theorem reference_congr {x : String} (h : scope.lookup x = scope'.lookup x) :
    reference x scope depth = reference x scope' depth := by simp only [reference, h]

theorem reference_cons_of_ne {x y : String} (h : x ≠ y) (i : Int) :
    reference x ((y, i) :: scope) depth = reference x scope depth := by
  simp only [reference, List.lookup_cons, beq_false_of_ne h]

theorem reference_cons_self (x : String) :
    reference x ((x, depth) :: scope) (depth + 1) = .ok (.var 0) := by
  rw [reference_of_some List.lookup_cons_self]
  congr 2
  omega

theorem alike_reference {x : String} (h : scope.lookup x = scope'.lookup x)
    (hr : ∀ i, scope.lookup x = some i → r k (.var (depth - i - 1)) (.var (depth' - i - 1))) :
    Alike (r k) (reference x scope depth) (reference x scope' depth') := by
  cases hx : scope.lookup x with
  | none =>
    rw [reference_of_none hx, reference_of_none (h ▸ hx)]
    exact .error _
  | some i =>
    rw [reference_of_some hx, reference_of_some (h ▸ hx)]
    exact .ok (hr i hx)

section
variable (hr : Congruence r)
include hr

theorem Sees.deeper (h : Sees r k names scope depth scope' depth') :
    Sees r (k + 1) names scope (depth + 1) scope' (depth' + 1) := by
  intro x hx
  have hindex (d i : Int) : d - i - 1 + 1 = d + 1 - i - 1 := by omega
  have halike := h x hx
  cases hs : scope.lookup x with
  | none =>
    cases hs' : scope'.lookup x with
    | none => rw [reference_of_none hs, reference_of_none hs']; exact .error _
    | some j => rw [reference_of_none hs, reference_of_some hs'] at halike; cases halike
  | some i =>
    cases hs' : scope'.lookup x with
    | none => rw [reference_of_some hs, reference_of_none hs'] at halike; cases halike
    | some j =>
      rw [reference_of_some hs, reference_of_some hs'] at halike
      have hnext := hr.deeper halike.of_ok
      rw [hindex, hindex] at hnext
      rw [reference_of_some hs, reference_of_some hs']
      exact .ok hnext

theorem Sees.deeper_by (n : Nat) (h : Sees r k names scope depth scope' depth') :
    Sees r (k + n) names scope (depth + n) scope' (depth' + n) := by
  induction n with
  | zero => simpa using h
  | succ n ih =>
    have hnext := ih.deeper hr
    rwa [Int.add_assoc, Int.add_assoc] at hnext

theorem Sees.enter_one {x : String} (h : Sees r k (without names [x]) scope depth scope' depth') :
    Sees r (k + 1) names ((x, depth) :: scope) (depth + 1)
      ((x, depth') :: scope') (depth' + 1) := by
  intro y hy
  by_cases hyx : y = x
  · subst hyx
    rw [reference_cons_self, reference_cons_self]
    exact .ok (hr.bound (Nat.succ_pos k))
  · rw [reference_cons_of_ne hyx, reference_cons_of_ne hyx]
    exact h.deeper hr y (mem_without.2 ⟨hy, by simpa using hyx⟩)

theorem Sees.enter (h : Sees r k (without names ps) scope depth scope' depth') :
    Sees r (k + ps.length) names (enter ps scope depth) (depth + ps.length)
      (Church.enter ps scope' depth') (depth' + ps.length) := by
  induction ps generalizing k scope depth scope' depth' with
  | nil =>
    refine Sees.deeper_by hr 0 (h.mono fun x hx => mem_without.2 ⟨hx, List.not_mem_nil⟩)
  | cons p ps ih =>
    have hone :
        Sees r k (without (without names ps) [p]) scope depth scope' depth' := h.mono fun x hx => by
      simp only [mem_without, List.mem_cons, List.not_mem_nil, or_false] at hx ⊢
      exact ⟨hx.1.1, not_or.2 ⟨hx.2, hx.1.2⟩⟩
    have hrest := ih (hone.enter_one hr)
    have hdepth (d : Int) : d + 1 + ps.length = d + (p :: ps).length := by
      rw [List.length_cons]; omega
    rw [hdepth, hdepth, Nat.add_right_comm, Nat.add_assoc] at hrest
    exact hrest

end
end

section
variable {scope scope' : Scope} {depth depth' : Int} {b b' : Term} {ts ts' : List Term}
variable (hr : Congruence r)
include hr

theorem alike_abs (ps : List String)
    (h : Alike (r (k + ps.length)) (place b (enter ps scope depth) (depth + ps.length))
      (place b' (enter ps scope' depth') (depth' + ps.length))) :
    Alike (r k) (place (.abs ps b) scope depth) (place (.abs ps b') scope' depth') :=
  h.map fun _ _ => hr.binders ps.length

theorem alike_app
    (h : List.Forall₂ (fun t t' => Alike (r k) (place t scope depth)
      (place t' scope' depth')) ts ts') :
    Alike (r k) (place (.app ts) scope depth) (place (.app ts') scope' depth') := by
  cases h with
  | nil => exact .error _
  | cons hfn hargs =>
    rw [place_app_cons, place_app_cons]
    exact hfn.bind fun _ _ hf => (Alike.mapM hargs).map fun _ _ => hr.apply hf

theorem alike_list (h : List.Forall₂ (fun t t' => Alike (r (k + 2)) (place t scope (depth + 2))
      (place t' scope' (depth' + 2))) ts ts') :
    Alike (r k) (place (.list ts) scope depth) (place (.list ts') scope' depth') := by
  rw [place_list, place_list]
  exact (Alike.mapM h).map fun _ _ => hr.foldList

theorem alike_tuple (h : List.Forall₂ (fun t t' => Alike (r (k + 1)) (place t scope (depth + 1))
      (place t' scope' (depth' + 1))) ts ts') :
    Alike (r k) (place (.tuple ts) scope depth) (place (.tuple ts') scope' depth') := by
  rw [place_tuple, place_tuple]
  exact (Alike.mapM h).map fun _ _ => hr.consumed

theorem alike_letIn_cons {x : String} {ps : List String} {v v' : Term}
    {bs bs' : List (Binding Term)}
    (hv : Alike (r k) (place (.abs ps v) scope depth) (place (.abs ps v') scope' depth'))
    (hrest : Alike (r (k + 1)) (place (.letIn bs b) ((x, depth) :: scope) (depth + 1))
      (place (.letIn bs' b') ((x, depth') :: scope') (depth' + 1))) :
    Alike (r k) (place (.letIn (⟨x, ps, v⟩ :: bs) b) scope depth)
      (place (.letIn (⟨x, ps, v'⟩ :: bs') b') scope' depth') := by
  rw [place_letIn, place_letIn] at hrest ⊢
  exact hv.bind fun _ _ hv => hrest.map fun _ _ hb => hr.app (hr.abs hb) hv

theorem alike_record {cs cs' : List (Constructor Term)}
    (h : List.Forall₂ (fun c c' => c.name = c'.name ∧ List.Forall₂ (fun x x' => x.name = x'.name ∧
        Alike (r (k + 8)) (place x.body ((selfName, depth + 7) :: scope) (depth + 8))
          (place x'.body ((selfName, depth' + 7) :: scope') (depth' + 8)))
          c.fields c'.fields) cs cs') :
    Alike (r k) (place (.record cs) scope depth) (place (.record cs') scope' depth') := by
  rw [place_record_eq, place_record_eq]
  refine (Alike.mapM (r := r (k + 3)) (h.imp fun c c' hc => ?_)).map fun _ _ hcs =>
    hr.consumed (.cons (hr.foldList hcs) .nil)
  obtain ⟨hname, hfields⟩ := hc
  have hstring {n : Nat} (name : String) : r n (string name) (string name) :=
    hr.self_of_within ((within_string _).mono (Nat.zero_le _))
  rw [constructor_map, constructor_map, hname]
  refine (Alike.mapM (r := r (k + 6)) (hfields.imp fun x x' hx => ?_)).map fun _ _ hs =>
    hr.consumed (.cons (hstring _) (.cons (hr.foldList hs) .nil))
  rw [field, field, Field.map, Field.map, hx.1]
  exact hx.2.map fun t u h => hr.consumed (.cons (hstring _) (.cons (hr.thunk h) .nil))

end

/-- Two terms are encoded alike wherever some names stand for related variables. -/
def Related (r : Nat → Lambda → Lambda → Prop) (names : List String) (t t' : Term) : Prop :=
  ∀ ⦃k : Nat⦄ ⦃scope scope' : Scope⦄ ⦃depth depth' : Int⦄,
    Sees r k names scope depth scope' depth' →
    Alike (r k) (place t scope depth) (place t' scope' depth')

namespace Related
variable {names more : List String} {b b' : Term} {ts ts' : List Term}

theorem mono (h : Related r names b b') (hs : names ⊆ more) : Related r more b b' :=
  fun _ _ _ _ _ hsees => h (hsees.mono hs)

section
variable (hr : Congruence r)
include hr

theorem abs (ps : List String) (h : Related r names b b') :
    Related r (without names ps) (.abs ps b) (.abs ps b') :=
  fun _ _ _ _ _ hsees => alike_abs hr ps (h (hsees.enter hr))

theorem app (h : List.Forall₂ (Related r names) ts ts') : Related r names (.app ts) (.app ts') :=
  fun _ _ _ _ _ hsees => alike_app hr (h.imp fun _ _ ht => ht hsees)

theorem list (h : List.Forall₂ (Related r names) ts ts') : Related r names (.list ts) (.list ts') :=
  fun _ _ _ _ _ hsees => alike_list hr (h.imp fun _ _ ht => ht (hsees.deeper_by hr 2))

theorem tuple (h : List.Forall₂ (Related r names) ts ts') :
    Related r names (.tuple ts) (.tuple ts') :=
  fun _ _ _ _ _ hsees => alike_tuple hr (h.imp fun _ _ ht => ht (hsees.deeper_by hr 1))

theorem letIn_cons {x : String} {ps : List String} {v v' : Term} {bs bs' : List (Binding Term)}
    (hv : Related r names v v') (hrest : Related r more (.letIn bs b) (.letIn bs' b')) :
    Related r (without names ps ++ without more [x]) (.letIn (⟨x, ps, v⟩ :: bs) b)
      (.letIn (⟨x, ps, v'⟩ :: bs') b') := by
  intro k scope scope' depth depth' hsees
  have hvalue := (hv.abs hr ps) (hsees.mono (List.subset_append_left _ _))
  exact alike_letIn_cons hr hvalue
    (hrest ((hsees.mono (List.subset_append_right _ _)).enter_one hr))

def OfFields (r : Nat → Lambda → Lambda → Prop) (names : List String) (x x' : Field Term) : Prop :=
  x.name = x'.name ∧ Related r names x.body x'.body

def OfConstructors (r : Nat → Lambda → Lambda → Prop) (names : List String)
    (c c' : Constructor Term) : Prop :=
  c.name = c'.name ∧ List.Forall₂ (OfFields r names) c.fields c'.fields

theorem record {cs cs' : List (Constructor Term)}
    (h : List.Forall₂ (OfConstructors r names) cs cs') :
    Related r (without names [selfName]) (.record cs) (.record cs') := by
  intro k scope scope' depth depth' hsees
  have hdepth (d : Int) : d + (7 : Nat) + 1 = d + 8 := by omega
  have hinner := (hsees.deeper_by hr 7).enter_one hr
  rw [hdepth, hdepth] at hinner
  exact alike_record hr (h.imp fun _ _ =>
    .imp_right (List.Forall₂.imp fun _ _ => .imp_right (· hinner)))

end
end Related

/-- Two terms are encoded alike wherever the names that the first asks for stand for
related variables. -/
def Likened (r : Nat → Lambda → Lambda → Prop) (t t' : Term) : Prop := Related r t.demanded t t'

theorem forall₂_flatMap {α β : Type} {q : List String → α → β → Prop}
    {names : α → List String} {xs : List α} {ys : List β}
    (hq : ∀ {ns ms x y}, ns ⊆ ms → q ns x y → q ms x y)
    (h : List.Forall₂ (fun x y => q (names x) x y) xs ys) :
    List.Forall₂ (q (xs.flatMap names)) xs ys := by
  induction h with
  | nil => exact .nil
  | cons h _ ih =>
    rw [List.flatMap_cons]
    exact .cons (hq (List.subset_append_left _ _) h)
      (ih.imp fun _ _ => hq (List.subset_append_right _ _))

namespace Likened
variable {b b' : Term} {ts ts' : List Term}

theorem terms (h : List.Forall₂ (Likened r) ts ts') :
    List.Forall₂ (Related r (ts.flatMap Term.demanded)) ts ts' :=
  forall₂_flatMap (fun hs h => h.mono hs) h

section
variable (hr : Congruence r)
include hr

theorem closed {t : Term} {l : Lambda} (ht : place t = fun _ _ => .ok l) (hl : l.Within 0) :
    Likened r t t := by
  intro k scope scope' depth depth' _
  rw [ht]
  exact .ok (hr.self_of_within (hl.mono (Nat.zero_le k)))

theorem abs (ps : List String) (h : Likened r b b') : Likened r (.abs ps b) (.abs ps b') :=
  Related.abs hr ps h

theorem app (h : List.Forall₂ (Likened r) ts ts') : Likened r (.app ts) (.app ts') := by
  rw [Likened, Term.demanded_app]
  exact .app hr (terms h)

theorem list (h : List.Forall₂ (Likened r) ts ts') : Likened r (.list ts) (.list ts') := by
  rw [Likened, Term.demanded_list]
  exact .list hr (terms h)

theorem tuple (h : List.Forall₂ (Likened r) ts ts') : Likened r (.tuple ts) (.tuple ts') := by
  rw [Likened, Term.demanded_tuple]
  exact .tuple hr (terms h)

theorem record {cs cs' : List (Constructor Term)} (h : List.Forall₂ (fun c c' => c.name = c'.name ∧
      List.Forall₂ (fun x x' => x.name = x'.name ∧ Likened r x.body x'.body)
        c.fields c'.fields) cs cs') :
    Likened r (.record cs) (.record cs') := by
  have hfields : List.Forall₂
      (fun c c' => Related.OfConstructors r (c.fields.flatMap (·.body.demanded)) c c') cs cs' :=
    h.imp fun c c' hc => hc.imp_right
      (forall₂_flatMap (q := Related.OfFields r) fun hs hx => hx.imp_right (Related.mono · hs))
  have hctors := forall₂_flatMap (q := Related.OfConstructors r)
    (fun hs hc => hc.imp_right (List.Forall₂.imp fun _ _ hx => hx.imp_right (Related.mono · hs)))
    hfields
  have hnames : (fieldBodies cs).flatMap Term.demanded = cs.flatMap fun c =>
      c.fields.flatMap (·.body.demanded) := by
    simp only [fieldBodies, List.flatMap_assoc, List.flatMap_map]
  rw [Likened, Term.demanded_record, hnames]
  exact .record hr hctors

theorem letIn {bs bs' : List (Binding Term)} (h : List.Forall₂ (fun d d' => d.name = d'.name ∧
      d.params = d'.params ∧ Likened r d.body d'.body) bs bs') (hb : Likened r b b') :
    Likened r (.letIn bs b) (.letIn bs' b') := by
  induction h with
  | nil => exact hb
  | @cons d d' bs bs' hd _ ih =>
    obtain ⟨x, ps, v⟩ := d
    obtain ⟨x', ps', v'⟩ := d'
    obtain ⟨rfl, rfl, hv⟩ := hd
    exact Related.letIn_cons hr hv ih

end
end Likened

/-- A term is encoded alike in two scopes in which the names that it asks for stand for
related variables. -/
theorem likened_self (hr : Congruence r) (t : Term) : Likened r t t := by
  induction t using Term.induction with
  | abs ps b ih => exact ih.abs hr ps
  | app ts ih => exact .app hr (List.forall₂_same.2 ih)
  | var x => exact fun _ _ _ _ _ hsees => hsees x List.mem_cons_self
  | nat n => exact .closed hr rfl (within_numeral n)
  | list ts ih => exact .list hr (List.forall₂_same.2 ih)
  | tuple ts ih => exact .tuple hr (List.forall₂_same.2 ih)
  | char s => exact .closed hr rfl (within_bitTuple _ _)
  | str s => exact .closed hr rfl (within_string s)
  | word n => exact .closed hr rfl (within_bitTuple _ _)
  | record cs ih =>
    refine .record hr (List.forall₂_same.2 fun c hc =>
      ⟨rfl, List.forall₂_same.2 fun x hx => ⟨rfl, ih c hc x hx⟩⟩)
  | letIn bs b ihs ih => exact .letIn hr (List.forall₂_same.2 fun d hd => ⟨rfl, rfl, ihs d hd⟩) ih

end SugaredLambda.Church
