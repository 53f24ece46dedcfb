import SugaredLambda.Proofs.Church.Context
import SugaredLambda.Proofs.Term.Replace

/-! A term put for a name before encoding is the encoded term put for the variable by a contraction.
-/
namespace SugaredLambda.Church
open Lambda Term
variable {r : Nat → Lambda → Lambda → Prop} {k : Nat} {x y : String} {s t : Term} {bound : Bool}
variable {names ps : List String} {scope scope' : Scope} {depth depth' : Int}

def kept (x : String) (bound : Bool) (names : List String) : List String :=
  if bound then names else without names [x]

theorem mem_kept : y ∈ kept x bound names ↔ y ∈ names ∧ (bound = true ∨ y ≠ x) := by
  cases bound <;> simp [kept]

theorem place_congr (h : Agree s.demanded scope scope') (depth : Int) :
    place s scope depth = place s scope' depth := by
  have hsees : Sees (fun _ t u => t = u) 0 s.demanded scope depth scope' depth := fun y hy =>
    alike_reference (r := fun _ t u => t = u) (k := 0) (h y hy) fun _ _ => rfl
  exact ((likened_self congruence_eq s hsees).eq_map.trans (id_map _)).symm

/-- Two scopes agree on the names that are kept, and what is put for the name is encoded in the
second one, at any depth, as the variable of the name is related to in the first. -/
structure Meets (r : Nat → Lambda → Lambda → Prop) (x : String) (s : Term) (bound : Bool) (k : Nat)
    (names : List String) (scope : Scope) (depth : Int) (scope' : Scope) (depth' : Int) : Prop where
  sees : Sees r k (kept x bound names) scope depth scope' depth'
  stands : bound = false → ∀ n : Nat,
    Alike (r (k + n)) (reference x scope (depth + n)) (place s scope' (depth' + n))

namespace Meets

theorem mono {more : List String} (h : Meets r x s bound k more scope depth scope' depth')
    (hs : names ⊆ more) : Meets r x s bound k names scope depth scope' depth' where
  sees := h.sees.mono fun _ hy => mem_kept.2 ((mem_kept.1 hy).imp_left (hs ·))
  stands := h.stands

section
variable (hr : Congruence r)
include hr

theorem deeper_by (n : Nat) (h : Meets r x s bound k names scope depth scope' depth') :
    Meets r x s bound (k + n) names scope (depth + n) scope' (depth' + n) where
  sees := h.sees.deeper_by hr n
  stands hbound m := by
    have hstands := h.stands hbound (n + m)
    rwa [Int.natCast_add, ← Int.add_assoc, ← Int.add_assoc, ← Nat.add_assoc] at hstands

theorem enter (ps : List String) (hps : x ∉ ps → ∀ p ∈ ps, p ∉ s.demanded)
    (h : Meets r x s bound k (without names ps) scope depth scope' depth') :
    Meets r x s (bound || ps.contains x) (k + ps.length) names
      (enter ps scope depth) (depth + ps.length)
      (Church.enter ps scope' depth') (depth' + ps.length) where
  sees := by
    -- once the parameters hide the name, it is kept like any other, and is among them
    refine (h.sees.mono fun y hy => ?_).enter hr
    simp only [mem_without, mem_kept, Bool.or_eq_true, List.contains_iff_mem] at hy ⊢
    obtain ⟨⟨hy, hkept⟩, hyps⟩ := hy
    exact ⟨⟨hy, hyps⟩, hkept.elim (Or.imp_right fun hx heq => hyps (heq ▸ hx)) .inr⟩
  stands hbound n := by
    obtain ⟨hbound, hcontains⟩ := Bool.or_eq_false_iff.1 hbound
    have hx : x ∉ ps := fun hx => by simp [hx] at hcontains
    have hsame : Agree s.demanded (Church.enter ps scope' depth') scope' := fun y hy =>
      lookup_enter_of_not_mem (fun hyps => hps hx y hyps hy) scope' depth'
    rw [reference_congr (lookup_enter_of_not_mem hx scope depth), place_congr hsame]
    exact (h.deeper_by hr ps.length).stands hbound n

theorem enter_one (hy : x ≠ y → y ∉ s.demanded)
    (h : Meets r x s bound k (without names [y]) scope depth scope' depth') :
    Meets r x s (bound || x == y) (k + 1) names ((y, depth) :: scope)
      (depth + 1) ((y, depth') :: scope') (depth' + 1) := by
  have hone := h.enter hr [y] fun hx p hp hs =>
    hy (fun heq => hx (heq ▸ List.mem_singleton_self x)) (List.mem_singleton.1 hp ▸ hs)
  rwa [List.contains_cons, List.contains_nil, Bool.or_false] at hone

end
end Meets

/-- A term is encoded alike with something put for a name, wherever scopes meet at the names that it
asks for. -/
def Replaced (r : Nat → Lambda → Lambda → Prop) (x : String) (s t : Term) : Prop :=
  ∀ ⦃bound : Bool⦄ ⦃k : Nat⦄ ⦃scope scope' : Scope⦄ ⦃depth depth' : Int⦄,
    Meets r x s bound k t.demanded scope depth scope' depth' →
    Alike (r k) (place t scope depth) (place (t.replaceUnder x s bound) scope' depth')

theorem forall₂_map_of_mem {α β : Type} {q : α → β → Prop} {f : α → β} {xs : List α}
    (h : ∀ x ∈ xs, q x (f x)) :
    List.Forall₂ q xs (xs.map f) := List.forall₂_map_right_iff.2 (List.forall₂_same.2 h)

namespace Replaced
variable {b : Term} {ts : List Term}

theorem several (h : ∀ t ∈ ts, Replaced r x s t)
    (hmeets : Meets r x s bound k (ts.flatMap demanded) scope depth scope' depth') :
    ∀ t ∈ ts, Alike (r k) (place t scope depth) (place (t.replaceUnder x s bound) scope' depth') :=
  fun t ht => h t ht (hmeets.mono fun _ => List.mem_flatMap_of_mem ht)

theorem var (x y : String) : Replaced r x s (.var y) := by
  intro bound k scope scope' depth depth' hmeets
  change Alike (r k) (reference y scope depth)
    (place (if y = x ∧ bound = false then s else .var y) scope' depth')
  split
  next h =>
    obtain ⟨rfl, hbound⟩ := h
    have hstands := hmeets.stands hbound 0
    rwa [Int.natCast_zero, Int.add_zero, Int.add_zero] at hstands
  next h =>
    refine hmeets.sees y (mem_kept.2 ⟨List.mem_cons_self, ?_⟩)
    cases bound with
    | true => exact .inl rfl
    | false => exact .inr fun heq => h ⟨heq, rfl⟩

section
variable (hr : Congruence r)
include hr

theorem closed {t : Term} {l : Lambda} (hkept : ∀ bound, t.replaceUnder x s bound = t)
    (ht : place t = fun _ _ => .ok l) (hl : l.Within 0) : Replaced r x s t := by
  intro bound k scope scope' depth depth' _
  rw [hkept, ht]
  exact .ok (hr.self_of_within (hl.mono (Nat.zero_le k)))

theorem abs (hps : ∀ p ∈ ps, p ∉ s.demanded) (h : Replaced r x s b) : Replaced r x s (.abs ps b) :=
  fun _ _ _ _ _ _ hmeets => alike_abs hr ps (h (hmeets.enter hr ps fun _ => hps))

theorem app (h : ∀ t ∈ ts, Replaced r x s t) : Replaced r x s (.app ts) := by
  intro bound k scope scope' depth depth' hmeets
  rw [demanded_app] at hmeets
  rw [replaceUnder_app]
  exact alike_app hr (forall₂_map_of_mem (several h hmeets))

theorem list (h : ∀ t ∈ ts, Replaced r x s t) : Replaced r x s (.list ts) := by
  intro bound k scope scope' depth depth' hmeets
  rw [demanded_list] at hmeets
  rw [replaceUnder_list]
  exact alike_list hr (forall₂_map_of_mem (several h (hmeets.deeper_by hr 2)))

theorem tuple (h : ∀ t ∈ ts, Replaced r x s t) : Replaced r x s (.tuple ts) := by
  intro bound k scope scope' depth depth' hmeets
  rw [demanded_tuple] at hmeets
  rw [replaceUnder_tuple]
  exact alike_tuple hr (forall₂_map_of_mem (several h (hmeets.deeper_by hr 1)))

theorem record {cs : List (Constructor Term)} (hself : x ≠ selfName → selfName ∉ s.demanded)
    (h : ∀ t ∈ fieldBodies cs, Replaced r x s t) : Replaced r x s (.record cs) := by
  intro bound k scope scope' depth depth' hmeets
  rw [demanded_record] at hmeets
  have hdepth (d : Int) : d + (7 : Nat) + 1 = d + 8 := by omega
  have hinner := (hmeets.deeper_by hr 7).enter_one hr hself
  rw [hdepth, hdepth] at hinner
  have hbodies := forall_mem_fieldBodies.1 (several h hinner)
  rw [replaceUnder_record]
  exact alike_record hr (forall₂_map_of_mem fun c hc =>
    ⟨rfl, forall₂_map_of_mem fun f hf => ⟨rfl, hbodies c hc f hf⟩⟩)

theorem letIn {bs : List (Binding Term)}
    (hbs : ∀ d ∈ bs, d.name ∉ s.demanded ∧ (∀ p ∈ d.params, p ∉ s.demanded) ∧
      Replaced r x s d.body) (hb : Replaced r x s b) : Replaced r x s (.letIn bs b) := by
  intro bound k scope scope' depth depth' hmeets
  rw [replaceUnder_letIn]
  induction bs generalizing bound k scope depth scope' depth' with
  | nil =>
    rw [List.any_nil, Bool.or_false]
    exact hb hmeets
  | cons d bs ih =>
    obtain ⟨⟨hname, hps, hd⟩, hbs⟩ := List.forall_mem_cons.1 hbs
    have hvalue := (hmeets.mono (List.subset_append_left _ _)).enter hr d.params fun _ => hps
    have hrest := (hmeets.mono (List.subset_append_right _ _)).enter_one hr fun _ => hname
    rw [List.map_cons, replaceIn, List.any_cons, ← Bool.or_assoc]
    exact alike_letIn_cons hr (alike_abs hr d.params (hd hvalue)) (ih hbs hrest)

end
end Replaced

/-- What is put may ask for names, as long as none of them is bound in the term. -/
theorem replaced (hr : Congruence r) (hself : x ≠ selfName → selfName ∉ s.demanded) {t : Term}
    (hclear : ∀ y ∈ s.demanded, y ∉ t.names) : Replaced r x s t := by
  -- names that several terms do not have are names that none of them has
  have hall {ts : List Term} (ih : ∀ t ∈ ts, (∀ y ∈ s.demanded, y ∉ t.names) → Replaced r x s t)
      (hclear : ∀ y ∈ s.demanded, y ∉ ts.flatMap names) : ∀ t ∈ ts, Replaced r x s t :=
    fun t ht => ih t ht fun y hy hyt => hclear y hy (List.mem_flatMap_of_mem ht hyt)
  induction t using Term.induction with
  | abs ps b ih =>
    refine .abs hr (fun p hp hs => hclear p hs (List.mem_append_left _ hp)) (ih fun y hy hyb => ?_)
    exact hclear y hy (List.mem_append_right _ hyb)
  | app ts ih => exact .app hr (hall ih (names_app ts ▸ hclear))
  | list ts ih => exact .list hr (hall ih (names_list ts ▸ hclear))
  | tuple ts ih => exact .tuple hr (hall ih (names_tuple ts ▸ hclear))
  | var y => exact .var x y
  | record cs ih =>
    exact .record hr hself (hall (forall_mem_fieldBodies.2 ih) (names_record cs ▸ hclear))
  | letIn bs b ihs ih =>
    refine .letIn hr (fun d hd => ?_) (ih fun y hy hyb => hclear y hy (List.mem_append_right _ hyb))
    have hbinding : ∀ y ∈ s.demanded, y ∉ d.name :: d.params ++ d.body.names := fun y hy hyd =>
      hclear y hy (names_letIn bs b ▸ List.mem_append_left _ (List.mem_flatMap_of_mem hd hyd))
    refine ⟨fun hs => hbinding d.name hs ?_, fun p hp hs => hbinding p hs ?_,
      ihs d hd fun y hy hyb => hbinding y hy ?_⟩
    · exact List.mem_cons_self
    · exact List.mem_cons_of_mem _ (List.mem_append_left _ hp)
    · exact List.mem_cons_of_mem _ (List.mem_append_right _ hyb)
  | nat n => exact .closed hr (fun _ => rfl) rfl (within_numeral n)
  | char c => exact .closed hr (fun _ => rfl) rfl (within_bitTuple _ _)
  | str c => exact .closed hr (fun _ => rfl) rfl (within_string c)
  | word n => exact .closed hr (fun _ => rfl) rfl (within_bitTuple _ _)

variable {a b : Term} {l : Lambda}

theorem congruence_subst (hl : l.Within 0) : Congruence fun k t u => subst k l t = u where
  bound h := subst_var_of_lt l (Int.ofNat_lt.2 h)
  deeper {k i j} h := by
    obtain hi | rfl | hi := Int.lt_trichotomy i k
    · rw [subst_var_of_lt l hi] at h
      obtain rfl := Lambda.var.inj h
      exact subst_var_of_lt l (by omega)
    · rw [subst_var_self, hl.shift_eq (Int.le_refl 0)] at h
      have hj : (Lambda.var j).Within 0 := h ▸ hl
      exact absurd hj.2 (Int.not_lt.2 hj.1)
    · rw [subst_var_of_gt l hi] at h
      obtain rfl := Lambda.var.inj h
      rw [subst_var_of_gt l (by omega)]
      congr 1
      omega
  abs h := congrArg Lambda.abs h
  app hf ha := congrArg₂ Lambda.app hf ha
  delay {k t u} h := by rw [subst_delaySelf t l Int.one_pos (by omega), h]

theorem meets_subst (hscope : ∀ y i, scope.lookup y = some i → i < depth) (ha : a.encoded = .ok l)
    (names : List String) :
    Meets (fun k t u => subst k l t = u) x a false 0 names ((x, depth) :: scope)
      (depth + 1) scope depth where
  sees y hy := by
    have hne := (mem_kept.1 hy).2.resolve_left Bool.false_ne_true
    rw [reference_cons_of_ne hne]
    refine alike_reference (r := fun k t u => subst k l t = u) (k := 0) rfl fun i hi => ?_
    have hlt := hscope y i hi
    have hindex : depth + 1 - i - 1 - 1 = depth - i - 1 := by omega
    rw [← hindex]
    exact subst_var_of_gt l (by omega)
  stands _ n := by
    have hl := within_of_place (encoded_eq_ok_iff.1 ha).2
    have hindex : depth + 1 + n - depth - 1 = (0 + n : Nat) := by omega
    rw [reference_of_some List.lookup_cons_self, place_of_encoded ha, hindex]
    exact .ok ((subst_var_self l).trans (hl.shift_eq (Int.le_refl 0)))

/-- Where a name is bound last, an encoded body contracts with an encoded program to the body with
the program put for the name, and there is no such body just when there is no body to contract. -/
theorem encode_replace (hscope : ∀ y i, scope.lookup y = some i → i < depth)
    (ha : a.encoded = .ok l) (b : Term) (x : String) :
    encode (b.replace x a) scope depth =
      (Lambda.beta · l) <$> encode b ((x, depth) :: scope) (depth + 1) := by
  obtain ⟨happ, hplace⟩ := encoded_eq_ok_iff.1 ha
  have hnone := demanded_of_encoded ha
  have halike := replaced (congruence_subst (within_of_place hplace)) (x := x) (s := a) (t := b)
    (fun _ => by simp [hnone]) (by simp [hnone]) (meets_subst hscope ha b.demanded)
  rw [encode, encode, replace, hasEmptyApplication_replaceUnder happ]
  split
  · rfl
  · exact halike.eq_map

/-- `{y = x; f x = x; (x y {c | p = (x, #, f, g); q = (x -> x)} {x = x; x})}` with `{i x = x; i}`
put for `x` -/
theorem encode_replace_shadowed :
    let a : Term := .letIn [⟨"i", ["x"], .var "x"⟩] (.var "i")
    let body (t : Term) : Term := .letIn [⟨"y", [], t⟩, ⟨"f", ["x"], .var "x"⟩]
      (.app [t, .var "y",
        .record [⟨"c", [⟨"p", .tuple [t, .var "#", .var "f", .var "g"]⟩,
          ⟨"q", .abs ["x"] (.var "x")⟩]⟩], .letIn [⟨"x", [], t⟩] (.var "x")])
    (body (.var "x")).replace "x" a = body a ∧ ∃ p l, a.encoded = .ok l ∧
      encode (body (.var "x")) [("x", 3), ("g", 2)] 4 = .ok p ∧
      encode (body a) [("g", 2)] 3 = .ok (p.beta l) := by
  intro a body
  have hreplace : (body (.var "x")).replace "x" a = body a := rfl
  obtain ⟨l, hl⟩ : ∃ l, a.encoded = .ok l := ⟨_, rfl⟩
  obtain ⟨p, hp⟩ : ∃ p, encode (body (.var "x")) [("x", 3), ("g", 2)] (3 + 1) = .ok p := ⟨_, rfl⟩
  have hbelow : ∀ e ∈ [("g", (2 : Int))], e.2 < 3 := by decide
  have hscope : ∀ y i, List.lookup y [("g", (2 : Int))] = some i → i < 3 :=
    fun y i h => hbelow (y, i) (mem_of_lookup h)
  have hencode := encode_replace hscope hl (body (.var "x")) "x"
  rw [hreplace, hp] at hencode
  exact ⟨hreplace, p, l, hl, hp, hencode⟩

end SugaredLambda.Church
