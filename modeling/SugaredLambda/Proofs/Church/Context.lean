import SugaredLambda.Proofs.Church.Evaluation

/-! A closed term is encoded alike wherever it stands, so that a program and its value can be
exchanged in every context. -/
namespace SugaredLambda

/-- A term in which one subterm is left open. -/
inductive Context where
  | hole
  | abs (params : List String) (body : Context)
  | app (before : List Term) (inner : Context) (after : List Term)
  | list (before : List Term) (inner : Context) (after : List Term)
  | tuple (before : List Term) (inner : Context) (after : List Term)
  | field (ctorsBefore : List (Constructor Term)) (ctor : String) (before : List (Field Term))
    (name : String) (inner : Context) (after : List (Field Term))
    (ctorsAfter : List (Constructor Term))
  | binding (before : List (Binding Term)) (name : String) (params : List String) (inner : Context)
    (after : List (Binding Term)) (body : Term)
  | body (bindings : List (Binding Term)) (inner : Context)

namespace Context

def plug : Context → Term → Term
  | hole, s => s
  | abs ps c, s => .abs ps (c.plug s)
  | app before c after, s => .app (before ++ c.plug s :: after)
  | list before c after, s => .list (before ++ c.plug s :: after)
  | tuple before c after, s => .tuple (before ++ c.plug s :: after)
  | field ctorsBefore ctor before name c after ctorsAfter, s =>
    .record (ctorsBefore ++ ⟨ctor, before ++ ⟨name, c.plug s⟩ :: after⟩ :: ctorsAfter)
  | binding before name ps c after b, s => .letIn (before ++ ⟨name, ps, c.plug s⟩ :: after) b
  | body bs c, s => .letIn bs (c.plug s)

theorem hasEmptyApplication_plug (c : Context) {s r : Term}
    (h : s.hasEmptyApplication = r.hasEmptyApplication) :
    (c.plug s).hasEmptyApplication = (c.plug r).hasEmptyApplication := by
  induction c with
  | hole => exact h
  | abs ps c ih => exact ih
  | app before c after ih =>
    have hne (t : Term) : (before ++ t :: after).isEmpty = false := by simp
    simp only [plug, Term.hasEmptyApplication_app, hne, List.any_append, List.any_cons, ih]
  | list before c after ih =>
    simp only [plug, Term.hasEmptyApplication_list, List.any_append, List.any_cons, ih]
  | tuple before c after ih =>
    simp only [plug, Term.hasEmptyApplication_tuple, List.any_append, List.any_cons, ih]
  | field ctorsBefore ctor before name c after ctorsAfter ih =>
    simp only [plug, Term.hasEmptyApplication_record, fieldBodies, List.flatMap_append,
      List.flatMap_cons, List.map_append, List.map_cons, List.any_append, List.any_cons, ih]
  | binding before name ps c after b ih =>
    simp only [plug, Term.hasEmptyApplication_letIn, List.any_append, List.any_cons, ih]
  | body bs c ih => simp only [plug, Term.hasEmptyApplication_letIn, ih]

end Context

namespace Church
open Lambda
variable {r : Nat → Lambda → Lambda → Prop} {s v : Term} {l n : Lambda}

theorem forall₂_exchange {α : Type} {q : α → α → Prop} (hq : ∀ x, q x x)
    (before after : List α) {x y : α} (h : q x y) :
    List.Forall₂ q (before ++ x :: after) (before ++ y :: after) :=
  List.rel_append (List.forall₂_same.2 fun x _ => hq x)
    (.cons h (List.forall₂_same.2 fun x _ => hq x))

theorem Likened.plug (hr : Congruence r) (c : Context) (h : Likened r s v) :
    Likened r (c.plug s) (c.plug v) := by
  have hself := likened_self hr
  induction c with
  | hole => exact h
  | abs ps c ih => exact ih.abs hr ps
  | app before c after ih => exact .app hr (forall₂_exchange hself before after ih)
  | list before c after ih => exact .list hr (forall₂_exchange hself before after ih)
  | tuple before c after ih => exact .tuple hr (forall₂_exchange hself before after ih)
  | field ctorsBefore ctor before name c after ctorsAfter ih =>
    have hfields (x : Field Term) : x.name = x.name ∧ Likened r x.body x.body := ⟨rfl, hself x.body⟩
    refine .record hr (forall₂_exchange (fun c => ⟨rfl, List.forall₂_same.2 fun x _ => hfields x⟩)
      _ _ ⟨rfl, ?_⟩)
    exact forall₂_exchange hfields before after ⟨rfl, ih⟩
  | binding before name ps c after b ih =>
    exact .letIn hr (forall₂_exchange (fun d => ⟨rfl, rfl, hself d.body⟩) before after
      ⟨rfl, rfl, ih⟩) (hself b)
  | body bs c ih => exact .letIn hr (List.forall₂_same.2 fun d _ => ⟨rfl, rfl, hself d.body⟩) ih

theorem congruence_eq : Congruence fun _ t u => t = u where
  bound _ := rfl
  deeper h := by rw [Lambda.var.inj h]
  abs h := by rw [h]
  app hf ha := by rw [hf, ha]
  delay h := by rw [h]

theorem congruence_reduces : Congruence fun _ => Reduces where
  bound _ := .refl
  deeper h := by rw [Lambda.var.inj (eq_of_reduces_var h)]; exact .refl
  abs := Reduces.abs
  app := Reduces.app
  delay := reduces_delaySelf Int.zero_lt_one

theorem place_of_encoded (h : s.encoded = .ok l) (scope : Scope) (depth : Int) :
    place s scope depth = .ok l := by
  have hsees : Sees (fun _ t u => t = u) 0 s.demanded [] 0 scope depth := by
    rw [demanded_of_encoded h]
    exact fun x hx => absurd hx List.not_mem_nil
  have halike := likened_self congruence_eq s hsees
  rw [(Term.encoded_eq_ok_iff.1 h).2] at halike
  obtain ⟨_, hplace, rfl⟩ := halike.exists_ok
  exact hplace

theorem likened_of_reduces (hs : s.encoded = .ok l) (hv : v.encoded = .ok n) (h : Reduces l n) :
    Likened (fun _ => Reduces) s v := by
  intro k scope scope' depth depth' _
  rw [place_of_encoded hs, place_of_encoded hv]
  exact .ok h

theorem alike_encoded_plug (c : Context) (hs : s.encoded = .ok l) (hv : v.encoded = .ok n)
    (h : Reduces l n) : Alike Reduces (c.plug s).encoded (c.plug v).encoded := by
  have hsame := c.hasEmptyApplication_plug
    ((Term.encoded_eq_ok_iff.1 hs).1.trans (Term.encoded_eq_ok_iff.1 hv).1.symm)
  have hsees : Sees (fun _ => Reduces) 0 (c.plug s).demanded [] 0 [] 0 := fun _ _ => .error _
  rw [Term.encoded, Term.encoded, encode, encode, hsame]
  split
  · exact .error _
  · exact (likened_of_reduces hs hv h).plug congruence_reduces c hsees

end Church

namespace Term
variable {s r : Term} {N : Nat}

theorem exists_evaluate_congr {t t' : Term}
    (h : Church.Alike Lambda.Reduces t.encoded t'.encoded) (v : Term) :
    (∃ M, t.evaluate M = .ok v) ↔ ∃ M, t'.evaluate M = .ok v := by
  rw [exists_evaluate_iff, exists_evaluate_iff]
  generalize t.encoded = p, t'.encoded = q at h
  cases h with
  | error e => exact ⟨fun ⟨_, _, h, _⟩ => (by cases h), fun ⟨_, _, h, _⟩ => (by cases h)⟩
  | @ok l l' h =>
    constructor
    · rintro ⟨_, n, ⟨⟩, hn, hnormal, hv⟩
      exact ⟨l', n, rfl, (Lambda.reduces_normal_iff h hnormal).2 hn, hnormal, hv⟩
    · rintro ⟨_, n, ⟨⟩, hn, hnormal, hv⟩
      exact ⟨l, n, rfl, h.trans hn, hnormal, hv⟩

/-- In every context a term and its value are encoded or not alike, and lead to the same values. -/
theorem evaluate_plug_value (h : s.evaluate N = .ok r) (c : Context) :
    ((∃ l, (c.plug s).encoded = .ok l) ↔ ∃ l, (c.plug r).encoded = .ok l) ∧
    ∀ v, (∃ M, (c.plug s).evaluate M = .ok v) ↔ ∃ M, (c.plug r).evaluate M = .ok v := by
  obtain ⟨l, n, hl, hn, rfl⟩ := evaluate_eq_ok_iff.1 h
  obtain ⟨hreduces, -⟩ := Lambda.reduces_of_normalize hn
  have hclosed := (within_of_place (encoded_eq_ok_iff.1 hl).2).reduces hreduces
  have halike := Church.alike_encoded_plug c hl (Church.encoded_decode hclosed) hreduces
  exact ⟨halike.exists_ok_iff, exists_evaluate_congr halike⟩

/-- `{x = 2; x}` in `f -> [f]` with its value `2`. -/
theorem evaluate_plug_value_list :
    let s : Term := .letIn [⟨"x", [], .nat 2⟩] (.var "x")
    let c : Context := .abs ["f"] (.list [] .hole [.var "f"])
    s.evaluate 1 = .ok (.nat 2) ∧
    ∀ v, (∃ M, (c.plug s).evaluate M = .ok v) ↔ ∃ M, (c.plug (.nat 2)).evaluate M = .ok v := by
  intro s c
  have hs : s.evaluate 1 = .ok (.nat 2) :=
    evaluate_eq_ok_iff.2 ⟨_, _, rfl,
      Lambda.normalize_eq_ok_iff.2 ⟨rfl, 1, Nat.le_refl 1, rfl⟩, by cbv⟩
  exact ⟨hs, (evaluate_plug_value hs c).2⟩

end Term
end SugaredLambda
