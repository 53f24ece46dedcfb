import SugaredLambda.Proofs.Definitions.Sort

/-! The definitions of a sorted block are in order already, with the needs that they had before. -/
namespace SugaredLambda.Definitions
open Term
variable {siblings siblings' : List String} {d : Binding Term} {x : String}

theorem not_self_binding (siblings : List String) (d : Binding Term) :
    (pendingOf siblings d).binding.name ∉
    (abs (pendingOf siblings d).binding.params (pendingOf siblings d).binding.body).freeNames := by
  obtain ⟨hname, hbody, hparams⟩ := binding_pendingOf siblings d
  rw [hname, hbody, freeNames_eq, mem_namesHiding_abs, hparams]
  rintro ⟨hfree, hslot⟩
  obtain ⟨hnot, hself⟩ := not_or.1 hslot
  exact hself ⟨rfl, freeNames_eq _ ▸ mem_namesHiding_abs.2 ⟨hfree, hnot⟩⟩

theorem mem_needs_binding (h : ∀ y, y ∈ siblings' ↔ y ∈ siblings) :
    x ∈ (pendingOf siblings' (pendingOf siblings d).binding).needs ↔
      x ∈ (pendingOf siblings d).needs := by
  obtain ⟨hname, hbody, hparams⟩ := binding_pendingOf siblings d
  rw [mem_needs_pendingOf, mem_needs_pendingOf, hname, hbody, h]
  refine and_congr_left fun ⟨_, hne⟩ => ?_
  rw [freeNames_eq, freeNames_eq, mem_namesHiding_abs, mem_namesHiding_abs, hparams,
    or_iff_left fun hself => hne hself.1]

theorem arrange_arrange (bs : List (Binding Term)) :
    (arrange ((arrange bs).map (·.binding))).map (·.binding) = (arrange bs).map (·.binding) := by
  obtain ⟨ps, hperm, hinOrder, harrange⟩ := arrange_eq bs
  have hpending := exists_pendingOf hperm
  have hnames : ∀ y, y ∈ (ps.map (·.binding)).map (·.name) ↔ y ∈ bs.map (·.name) := fun y => by
    rw [map_name_binding hpending, (hperm.map (·.name)).mem_iff, map_name_pendingOf]
  let again (p : Pending) : Pending := pendingOf ((ps.map (·.binding)).map (·.name)) p.binding
  have hagain : InOrder [] (ps.map again) := hinOrder.map fun p hp => by
    obtain ⟨e, -, rfl⟩ := hpending p hp
    exact ⟨(binding_pendingOf _ e).1, fun y => mem_needs_binding hnames⟩
  have horder : arrange (ps.map (·.binding)) = placeInTurn [] (ps.map again) := by
    rw [arrange, List.map_map]
    exact order_of_inOrder hagain
  rw [harrange, map_binding_placeInTurn, horder, map_binding_placeInTurn, List.map_map]
  refine List.map_congr_left fun p hp => ?_
  obtain ⟨e, -, rfl⟩ := hpending p hp
  exact binding_of_not_self _ (not_self_binding _ e)

theorem map_map_of_mem {α : Type} {f : α → α} {xs : List α} (h : ∀ x ∈ xs, f (f x) = f x) :
    (xs.map f).map f = xs.map f := by
  rw [List.map_map]
  exact List.map_congr_left h

theorem map_sort_arrange {bs : List (Binding Term)} (h : ∀ d ∈ bs, sort d.body = d.body) :
    ((arrange bs).map (·.binding)).map (Binding.map sort) = (arrange bs).map (·.binding) := by
  refine (List.map_congr_left fun e he => ?_).trans (List.map_id _)
  obtain ⟨d, hd, rfl⟩ := mem_arrange.1 he
  have hbody := (binding_pendingOf (bs.map (·.name)) d).2.1
  rw [Binding.map, hbody, h d hd]
  exact congrArg (Binding.mk _ _) hbody.symm

theorem sort_sort (t : Term) : sort (sort t) = sort t := by
  induction t using Term.induction with
  | abs ps b ih => rw [sort_abs, sort_abs, ih]
  | app ts ih => rw [sort_app, sort_app, map_map_of_mem ih]
  | list ts ih => rw [sort_list, sort_list, map_map_of_mem ih]
  | tuple ts ih => rw [sort_tuple, sort_tuple, map_map_of_mem ih]
  | record cs ih =>
    rw [sort_record, sort_record, map_map_of_mem fun c hc => ?_]
    have hfields :
        (c.fields.map (Field.map sort)).map (Field.map sort) = c.fields.map (Field.map sort) :=
      map_map_of_mem fun f hf => congrArg (Field.mk f.name) (ih c hc f hf)
    exact congrArg (Constructor.mk c.name) hfields
  | letIn bs b ihs ih =>
    have hsorted : ∀ d ∈ bs.map (Binding.map sort), sort d.body = d.body :=
      List.forall_mem_map.2 ihs
    rw [sort_letIn, sort_letIn, map_sort_arrange hsorted, arrange_arrange, ih]
  | _ => rfl

/-- Sorting again changes nothing, and sorting keeps the free names. -/
theorem sort_sort_and_mem_freeNames (t : Term) :
    sort (sort t) = sort t ∧ ∀ x, x ∈ (sort t).freeNames ↔ x ∈ t.freeNames :=
  ⟨sort_sort t, fun x => by rw [freeNames_eq, freeNames_eq, mem_namesHiding_sort]⟩

/-- A cycle comes behind what is not on it, and stays there. -/
example :
    let bs : List (Binding Term) :=
      [⟨"a", [], .var "b"⟩, ⟨"b", ["x"], .app [.var "b", .var "a"]⟩, ⟨"c", [], .var "d"⟩,
        ⟨"d", [], .nat 1⟩]
    let sorted : Term := .letIn
      [⟨"d", [], .nat 1⟩, ⟨"c", [], .var "d"⟩, ⟨"a", [], .var "b"⟩,
        ⟨"b", ["b", "x"], .app [.var "b", .var "a"]⟩] (.var "c")
    sort (.letIn bs (.var "c")) = sorted ∧ sort sorted = sorted := by decide +kernel

end SugaredLambda.Definitions
