import SugaredLambda.Library.Selection
import SugaredLambda.Proofs.Church.Evaluation
import SugaredLambda.Proofs.Definitions.Scoping

/-! The library is in order, and each selection from it holds whatever it needs. -/
namespace SugaredLambda
open Term Library

namespace Definitions
variable {known known' : List String} {ds : List (Binding Term)} {d : Binding Term} {x : String}

/-- Each definition needs only those before it, besides what is known. -/
inductive InTurn : List String → List (Binding Term) → Prop
  | nil (known : List String) : InTurn known []
  | cons {known : List String} {d : Binding Term} {ds : List (Binding Term)}
    (needs : ∀ x ∈ requirements d, x ∈ known) (rest : InTurn (d.name :: known) ds) :
    InTurn known (d :: ds)

theorem inTurn_cons :
    InTurn known (d :: ds) ↔ (∀ x ∈ requirements d, x ∈ known) ∧ InTurn (d.name :: known) ds :=
  ⟨fun | .cons needs rest => ⟨needs, rest⟩, fun h => .cons h.1 h.2⟩

instance decidableInTurn :
    (known : List String) → (ds : List (Binding Term)) → Decidable (InTurn known ds)
  | known, [] => .isTrue (.nil known)
  | known, d :: ds =>
    have := decidableInTurn (d.name :: known) ds
    decidable_of_iff' _ inTurn_cons

theorem InTurn.before {before after : List (Binding Term)} (h : InTurn known (before ++ d :: after))
    (hx : x ∈ requirements d) : x ∈ before.map (·.name) ∨ x ∈ known := by
  induction before generalizing known with
  | nil => exact .inr ((inTurn_cons.1 h).1 x hx)
  | cons e before ih =>
    rw [List.map_cons, List.mem_cons]
    rcases ih (inTurn_cons.1 h).2 with hbefore | hknown
    · exact .inl (.inr hbefore)
    · exact (List.mem_cons.1 hknown).imp_left .inl

theorem InTurn.inOrder (siblings : List String) (h : InTurn known ds) :
    InOrder known (ds.map (pendingOf siblings)) := by
  induction h with
  | nil => trivial
  | cons needs _ ih => exact ⟨.inl fun x hx => needs x (mem_needs_pendingOf.1 hx).1, ih⟩

theorem arrange_of_inTurn (h : InTurn [] ds) (hself : ∀ d ∈ ds, d.name ∉ requirements d) :
    (arrange ds).map (·.binding) = ds := by
  rw [arrange, order_of_inOrder (h.inOrder _), map_binding_placeInTurn, List.map_map]
  exact (List.map_congr_left fun d hd => binding_of_not_self _ (hself d hd)).trans ds.map_id

theorem sort_eq_self {t : Term} (h : t.hasBlock = false) : sort t = t := by
  have hall {ts : List Term} (ih : ∀ t ∈ ts, t.hasBlock = false → sort t = t)
      (h : ts.any Term.hasBlock = false) : ts.map sort = ts :=
    (List.map_congr_left fun t ht =>
      ih t ht (Bool.of_not_eq_true (List.any_eq_false.1 h t ht))).trans ts.map_id
  induction t using Term.induction with
  | abs ps b ih => exact congrArg (Term.abs ps) (ih h)
  | app ts ih => exact (sort_app ts).trans (congrArg _ (hall ih (hasBlock_app ts ▸ h)))
  | list ts ih => exact (sort_list ts).trans (congrArg _ (hall ih (hasBlock_list ts ▸ h)))
  | tuple ts ih => exact (sort_tuple ts).trans (congrArg _ (hall ih (hasBlock_tuple ts ▸ h)))
  | record cs ih =>
    have hbodies := List.any_eq_false.1 (hasBlock_record cs ▸ h)
    have hcs := forall_mem_fieldBodies.1 fun t ht => Bool.of_not_eq_true (hbodies t ht)
    refine (sort_record cs).trans (congrArg Term.record ?_)
    refine (List.map_congr_left fun c hc => ?_).trans cs.map_id
    have hfields (x : Field Term) (hx : x ∈ c.fields) : x.map sort = x :=
      congrArg (Field.mk x.name) (ih c hc x hx (hcs c hc x hx))
    exact congrArg (Constructor.mk c.name) ((List.map_congr_left hfields).trans c.fields.map_id)
  | letIn bs b => cases h
  | _ => rfl

/-- A definition on its own that needs itself takes itself as its first parameter. -/
theorem sort_letIn_self {t : Term} (h : d.name ∈ requirements (d.map sort)) : sort (.letIn [d] t) =
    .letIn [⟨d.name, d.name :: d.params, sort d.body⟩] (sort t) := by
  obtain ⟨ps, hperm, -, harrange⟩ := arrange_eq [d.map sort]
  rw [List.map_singleton, List.perm_singleton] at hperm
  have hself :
      (pendingOf [d.name] (d.map sort)).binding = ⟨d.name, d.name :: d.params, sort d.body⟩ := by
    rw [pendingOf]
    exact if_pos (by rwa [List.contains_eq_mem, decide_eq_true_iff])
  rw [sort_letIn, List.map_singleton, harrange, hperm, map_binding_placeInTurn]
  exact congrArg (fun e => Term.letIn [e] (sort t)) hself

theorem encoded_letIn_nil (t : Term) : (Term.letIn [] t).encoded = t.encoded := by
  rw [Term.encoded, Term.encoded, Church.encode, Church.encode]
  rfl

theorem sort_letIn_of_inTurn {t : Term} (h : InTurn [] ds)
    (hself : ∀ d ∈ ds, d.name ∉ requirements d) (hblock : ∀ d ∈ ds, d.body.hasBlock = false) :
    sort (.letIn ds t) = .letIn ds (sort t) := by
  have hbodies : ds.map (Binding.map sort) = ds :=
    (List.map_congr_left fun d hd => congrArg (Binding.mk d.name d.params)
      (sort_eq_self (hblock d hd))).trans ds.map_id
  rw [sort_letIn, hbodies, arrange_of_inTurn h hself]

theorem mem_demanded_of_inTurn {t : Term} (h : InTurn [] ds)
    (hrequired : ∀ d ∈ ds, ∀ x ∈ d.body.demanded, x ∉ d.params → x ∈ requirements d)
    (hx : x ∈ (Term.letIn ds t).demanded) : x ∈ t.demanded ∧ x ∉ ds.map (·.name) := by
  refine (mem_demanded_letIn.1 hx).resolve_left ?_
  rintro ⟨before, d, after, rfl, hbody, hparams, hbefore⟩
  exact (h.before (hrequired d (by simp) x hbody hparams)).elim hbefore List.not_mem_nil

end Definitions

namespace Library
open Definitions
variable {names known known' : List String} {ds : List (Binding Term)} {d : Binding Term}

theorem select_cons_of_mem (h : d.name ∈ (select names ds).2) : select names (d :: ds) =
    (d :: (select names ds).1, requirements d ++ (select names ds).2) := if_pos (by simpa using h)

theorem select_cons_of_not_mem (h : d.name ∉ (select names ds).2) :
    select names (d :: ds) = select names ds :=
  if_neg (by simpa using h)

theorem subset_select (names : List String) (ds : List (Binding Term)) :
    names ⊆ (select names ds).2 := by
  induction ds with
  | nil => exact fun _ hx => hx
  | cons d ds ih =>
    by_cases h : d.name ∈ (select names ds).2
    · rw [select_cons_of_mem h]
      exact fun x hx => List.mem_append_right _ (ih hx)
    · rwa [select_cons_of_not_mem h]

theorem sublist_select (names : List String) (ds : List (Binding Term)) :
    (select names ds).1.Sublist ds := by
  induction ds with
  | nil => exact .slnil
  | cons d ds ih =>
    by_cases h : d.name ∈ (select names ds).2
    · rw [select_cons_of_mem h]
      exact ih.cons_cons d
    · rw [select_cons_of_not_mem h]
      exact ih.cons d

theorem mem_select (hd : d ∈ ds) (hname : d.name ∈ names) : d ∈ (select names ds).1 := by
  induction ds with
  | nil => exact absurd hd List.not_mem_nil
  | cons e ds ih =>
    rcases List.mem_cons.1 hd with rfl | hd
    · rw [select_cons_of_mem (subset_select names ds hname)]
      exact List.mem_cons_self
    · by_cases h : e.name ∈ (select names ds).2
      · rw [select_cons_of_mem h]
        exact List.mem_cons_of_mem _ (ih hd)
      · rw [select_cons_of_not_mem h]
        exact ih hd

theorem inTurn_select (h : InTurn known ds)
    (hknown : ∀ x ∈ known, x ∈ (select names ds).2 → x ∈ known') :
    InTurn known' (select names ds).1 := by
  induction h generalizing known' with
  | nil => exact .nil known'
  | @cons known d ds needs _ ih =>
    by_cases hneeded : d.name ∈ (select names ds).2
    · rw [select_cons_of_mem hneeded] at hknown ⊢
      refine .cons (fun x hx => hknown x (needs x hx) (List.mem_append_left _ hx))
        (ih fun x hx hxneeded => ?_)
      rcases List.mem_cons.1 hx with rfl | hx
      · exact List.mem_cons_self
      · exact List.mem_cons_of_mem _ (hknown x hx (List.mem_append_right _ hxneeded))
    · rw [select_cons_of_not_mem hneeded] at hknown ⊢
      refine ih fun x hx hxneeded => ?_
      rcases List.mem_cons.1 hx with rfl | hx
      · exact absurd hxneeded hneeded
      · exact hknown x hx hxneeded

def chosen (t : Term) : List (Binding Term) := (select t.freeNames definitions).1

theorem inTurn_definitions : InTurn [] definitions := by decide +kernel

theorem self_definitions : ∀ d ∈ definitions, d.name ∉ requirements d := by decide +kernel

theorem required_definitions :
    ∀ d ∈ definitions, ∀ x ∈ d.body.demanded, x ∉ d.params → x ∈ requirements d := by
  decide +kernel

theorem hasBlock_definitions : ∀ d ∈ definitions, d.body.hasBlock = false := by decide +kernel

theorem hasEmptyApplication_definitions :
    ∀ d ∈ definitions, d.body.hasEmptyApplication = false := by decide +kernel

section
variable {t : Term}

theorem mem_definitions (h : d ∈ chosen t) : d ∈ definitions := by
  rw [chosen] at h
  exact (sublist_select _ _).subset h

theorem inTurn_chosen (t : Term) : InTurn [] (chosen t) := by
  rw [chosen]
  exact inTurn_select inTurn_definitions (by simp)

theorem mem_chosen (hd : d ∈ definitions) (hname : d.name ∈ t.freeNames) : d ∈ chosen t := by
  rw [chosen]
  exact mem_select hd hname

theorem supply_eq (t : Term) : supply t = t ∧ chosen t = [] ∨ supply t = .letIn (chosen t) t := by
  delta supply chosen
  generalize (select t.freeNames definitions).1 = ds
  cases ds with
  | nil => exact .inl ⟨rfl, rfl⟩
  | cons d ds => exact .inr rfl

theorem hasEmptyApplication_letIn_chosen (t b : Term) :
    (Term.letIn (chosen t) b).hasEmptyApplication = b.hasEmptyApplication := by
  have hnone : (chosen t).any (·.body.hasEmptyApplication) = false :=
    List.any_eq_false.2 fun d hd => Bool.not_eq_true _ ▸
      hasEmptyApplication_definitions d (mem_definitions hd)
  rw [hasEmptyApplication_letIn, hnone, Bool.false_or]

theorem hasEmptyApplication_supply (t : Term) :
    (supply t).hasEmptyApplication = t.hasEmptyApplication := by
  obtain ⟨h, -⟩ | h := supply_eq t
  · rw [h]
  · rw [h, hasEmptyApplication_letIn_chosen]

theorem encoded_sort_supply (t : Term) :
    (sort (supply t)).encoded = (Term.letIn (chosen t) (sort t)).encoded := by
  obtain ⟨h, hnone⟩ | h := supply_eq t
  · rw [h, hnone]
    exact (encoded_letIn_nil _).symm
  · rw [h, sort_letIn_of_inTurn (inTurn_chosen t)
      (fun d hd => self_definitions d (mem_definitions hd)) fun d hd =>
        hasBlock_definitions d (mem_definitions hd)]

end
end Library
end SugaredLambda
