import SugaredLambda.Proofs.Church.RoundTrip
import SugaredLambda.Proofs.Grammar.Derivation
import SugaredLambda.Proofs.Term.FreeNames

/-! With one term or none, an application would be a tuple, and tuples come first. -/
namespace SugaredLambda

/-- Each application in a term has two terms at least. -/
inductive Term.Saturated : Term → Prop
  | abs {ps : List String} {b : Term} (body : b.Saturated) : Saturated (.abs ps b)
  | app {ts : List Term} (several : 2 ≤ ts.length) (terms : ∀ t ∈ ts, t.Saturated) :
      Saturated (.app ts)
  | var (x : String) : Saturated (.var x)
  | nat (n : Nat) : Saturated (.nat n)
  | list {ts : List Term} (terms : ∀ t ∈ ts, t.Saturated) : Saturated (.list ts)
  | tuple {ts : List Term} (terms : ∀ t ∈ ts, t.Saturated) : Saturated (.tuple ts)
  | char (s : String) : Saturated (.char s)
  | str (s : String) : Saturated (.str s)
  | word (n : Nat) : Saturated (.word n)
  | record {cs : List (Constructor Term)} (bodies : ∀ c ∈ cs, ∀ x ∈ c.fields, x.body.Saturated) :
      Saturated (.record cs)
  | letIn {bs : List (Binding Term)} {b : Term} (bodies : ∀ d ∈ bs, d.body.Saturated)
    (body : b.Saturated) :
    Saturated (.letIn bs b)

theorem Term.Saturated.hasEmptyApplication {t : Term} (h : t.Saturated) :
    t.hasEmptyApplication = false := by
  have hany {ts : List Term} (ih : ∀ t ∈ ts, t.hasEmptyApplication = false) :
      ts.any Term.hasEmptyApplication = false :=
    List.any_eq_false.2 fun t ht => Bool.not_eq_true _ ▸ ih t ht
  induction h with
  | abs _ ih => exact ih
  | app several _ ih =>
    rw [hasEmptyApplication_app, hany ih, Bool.or_false, List.isEmpty_eq_false_iff]
    exact List.ne_nil_of_length_pos (by omega)
  | list _ ih => rw [hasEmptyApplication_list, hany ih]
  | tuple _ ih => rw [hasEmptyApplication_tuple, hany ih]
  | record _ ih => rw [hasEmptyApplication_record, hany (forall_mem_fieldBodies.2 ih)]
  | letIn _ _ ihs ih =>
    rw [hasEmptyApplication_letIn, ih, Bool.or_false]
    exact List.any_eq_false.2 fun d hd => Bool.not_eq_true _ ▸ ihs d hd
  | _ => rfl

namespace Derivation
variable {α β γ : Type}

def Only (good : α → Prop) (P : Derivation α) : Prop := ∀ text v rest, P text v rest → good v

namespace Only
variable {good : α → Prop} {fine : β → Prop} {P : Derivation α} {L : Derivation γ}

theorem pure {v : α} (h : good v) : Only good (Pure.pure v : Derivation α) :=
  fun _ _ _ hv => hv.1 ▸ h

theorem bind {F : α → Derivation β} (hP : Only good P) (hF : ∀ v, good v → Only fine (F v)) :
    Only fine (P >>= F) :=
  fun _ _ _ ⟨v, _, hv, hw⟩ => hF v (hP _ _ _ hv) _ _ _ hw

theorem next {F : α → Derivation β} (hF : ∀ v, Only fine (F v)) : Only fine (P >>= F) :=
  fun _ _ _ ⟨v, _, _, hw⟩ => hF v _ _ _ hw

theorem map {f : α → β} (hP : Only (fun v => fine (f v)) P) : Only fine (f <$> P) :=
  bind (P := P) (F := fun v => Pure.pure (f v)) hP fun _ hv => pure hv

theorem between {R : Derivation β} (hP : Only good P) : Only good (Derivation.between L R P) :=
  next fun _ => hP.bind fun _ hv => next fun _ => pure hv

theorem many (hP : Only good P) : Only (fun vs => ∀ v ∈ vs, good v) (Derivation.many P) := by
  intro text vs rest h
  induction h with
  | nil => exact fun _ hv => absurd hv List.not_mem_nil
  | cons hv _ ih => exact List.forall_mem_cons.2 ⟨hP _ _ _ hv, ih⟩

theorem sepBy {S : Derivation β} (hP : Only good P) :
    Only (fun vs => ∀ v ∈ vs, good v) (Derivation.sepBy P S) := by
  intro text vs rest h
  rcases anyOf_cons.1 h with h | h
  · exact h.1 ▸ fun _ hv => absurd hv List.not_mem_nil
  rcases anyOf_cons.1 h with h | h
  · have hcons : Only (fun vs => ∀ v ∈ vs, good v) (sepBy1 P S) :=
      hP.bind fun v hv => (many (next fun _ => hP)).bind fun vs hvs =>
        pure (List.forall_mem_cons.2 ⟨hv, hvs⟩)
    exact hcons _ _ _ h
  · exact absurd h (by simp [anyOf])

end Only

theorem sepBy_of_le_one {P : Derivation α} {S : Derivation β} {S' : Derivation γ}
    {text rest : List Char} {vs : List α} (h : sepBy P S text vs rest) (hle : vs.length ≤ 1) :
    sepBy P S' text vs rest := by
  rcases anyOf_cons.1 h with h | h
  · exact anyOf_cons.2 (.inl h)
  rcases anyOf_cons.1 h with ⟨v, mid, hv, vs', last, hvs, hw⟩ | h
  · refine anyOf_cons.2 (.inr (anyOf_cons.2 (.inl ⟨v, mid, hv, vs', last, ?_, hw⟩)))
    obtain ⟨rfl, -⟩ := hw
    obtain rfl := List.length_eq_zero_iff.1 (Nat.le_zero.1 (Nat.le_of_succ_le_succ hle))
    cases hvs
    exact .nil _
  · exact absurd h (by simp [anyOf])

end Derivation

namespace Grammar

namespace Production
variable {T : Derivation Term}

theorem items_of_le_one {text rest : List Char} {ts : List Term}
    (h : Derivation.between (opening '(') (closing ')') (T.sepBy (.char ' ')) text ts rest)
    (hle : ts.length ≤ 1) : items T '(' ')' text ts rest := by
  obtain ⟨o, inner, ho, us, behind, hus, c, last, hc, rfl, rfl⟩ := h
  exact ⟨o, inner, ho, _, behind, Derivation.sepBy_of_le_one hus hle, c, _, hc, rfl, rfl⟩

section
variable (hT : T.Only Term.Saturated)
include hT

theorem only_lam : (lam T).Only Term.Saturated :=
  .next fun _ => .next fun _ => .next fun _ => hT.bind fun _ hb => .next fun _ => .pure (.abs hb)

theorem only_definition : (definition T).Only fun x => x.body.Saturated :=
  .next fun _ => .next fun _ => .next fun _ => hT.bind fun _ hb => .pure hb

theorem only_block : (block T).Only Term.Saturated :=
  .next fun _ => (only_definition hT).sepBy.bind fun _ hbs => .next fun _ => hT.bind fun _ hb =>
      .next fun _ =>
    .pure (.letIn hbs hb)

theorem only_items (left right : Char) :
    (items T left right).Only fun ts => ∀ t ∈ ts, t.Saturated := hT.sepBy.between

/-- An application has several terms where there is no tuple. -/
theorem saturated_of_app {text rest : List Char} {t : Term} (h : app T text t rest)
    (htuple : ∀ w last, ¬(Term.tuple <$> items T '(' ')') text w last) : t.Saturated := by
  obtain ⟨ts, mid, hts, rfl, -⟩ := h
  refine .app ?_ (hT.sepBy.between _ _ _ hts)
  by_contra hle
  exact htuple (.tuple ts) mid ⟨ts, mid,
    items_of_le_one hts (Nat.le_of_lt_succ (Nat.lt_of_not_le hle)), rfl, rfl⟩

theorem only_field : (field T).Only fun x => x.body.Saturated :=
  .between (.next fun _ => .next fun _ => hT.bind fun _ hb => .pure hb)

theorem only_ctor : (ctor T).Only fun c => ∀ x ∈ c.fields, x.body.Saturated :=
  .next fun _ => .next fun _ => (only_field hT).sepBy.bind fun _ hxs => .pure hxs

theorem only_adt : (adt T).Only Term.Saturated :=
  .map fun _ _ _ h => .record ((only_ctor hT).sepBy.between _ _ _ h)

theorem only_sugar : (sugar T).Only Term.Saturated := by
  intro text t rest h
  rcases h with h | ⟨-, h⟩
  · exact only_lam hT _ _ _ h
  rcases h with h | ⟨-, h⟩
  · exact only_block hT _ _ _ h
  rcases h with h | ⟨htuple, h⟩
  · obtain ⟨ts, _, hts, rfl, -⟩ := h
    exact .tuple (only_items hT _ _ _ _ _ hts)
  rcases h with h | ⟨-, h⟩
  · simp only [Derivation.anyOf_cons] at h
    rcases h with h | h | h | h | h | h | h
    · exact only_block hT _ _ _ h
    · -- An application is reached only where there is no tuple.
      exact saturated_of_app hT h htuple
    · obtain ⟨v, _, _, rfl, -⟩ := h
      exact .str _
    · obtain ⟨v, _, _, rfl, -⟩ := h
      exact .char _
    · obtain ⟨ts, _, hts, rfl, -⟩ := h
      exact .list (only_items hT _ _ _ _ _ hts)
    · exact only_adt hT _ _ _ h
    · exact absurd h (by simp [Derivation.anyOf])
  rcases h with ⟨v, _, _, rfl, -⟩ | ⟨-, h⟩
  · exact .word _
  rcases h with ⟨v, _, _, rfl, -⟩ | ⟨-, h⟩
  · exact .nat _
  rcases h with ⟨v, _, _, rfl, -⟩ | ⟨-, h⟩
  · exact .var _
  · exact h.elim

end

theorem only_term {T : Nat → Derivation Term} (hT : ∀ d, (T d).Only Term.Saturated) (d : Nat) :
    (term T d).Only Term.Saturated := by
  have hbelow :
      (Derivation.string ('\n' :: List.replicate (4 * (d + 1)) ' ') *> definition (T (d + 1))).Only
      fun x => x.body.Saturated := .next fun _ => only_definition (hT (d + 1))
  refine (only_sugar (hT d)).bind fun t ht => hbelow.many.bind fun bs hbs => .pure ?_
  split
  · exact ht
  · exact .letIn hbs ht

end Production

/-- By induction on the text, since the terms inside a term stand further on. -/
theorem saturated_of_derives {d : Nat} {text rest : List Char} {t : Term}
    (h : Derives d text t rest) :
    t.Saturated := by
  induction hn : text.length using Nat.strong_induction_on generalizing d text t rest with
  | _ n ih =>
    subst hn
    rw [Derives] at h
    exact Production.only_term (fun d _ _ _ hnext => ih _ hnext.1 hnext.2 rfl) d _ _ _ h

theorem saturated_of_parseAll {source : String} {ts : List Term}
    (h : parseAll source = .ok ts) {t : Term} (ht : t ∈ ts) : t.Saturated := by
  obtain ⟨-, rfl⟩ := parseAll_eq_ok_iff.1 h
  exact saturated_of_derives (mem_complete.1 ht)

end Grammar
end SugaredLambda
