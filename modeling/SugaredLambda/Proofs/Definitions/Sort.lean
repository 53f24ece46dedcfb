import SugaredLambda.Definitions.Sort
import SugaredLambda.Proofs.Church.RoundTrip
import SugaredLambda.Proofs.Definitions.Order
import SugaredLambda.Proofs.Term.FreeNames

/-! Sorting keeps the free names (`mem_namesHiding_sort`), and with them the dependencies between
siblings. -/
namespace SugaredLambda.Definitions
open Term Relation

/-- One sibling depends on another: one of its definitions leaves the other's name free. -/
def Depends (bs : List (Binding Term)) (n m : String) : Prop :=
  ∃ d ∈ bs, d.name = n ∧ m ≠ n ∧ m ∈ bs.map (·.name) ∧ m ∈ (abs d.params d.body).freeNames

theorem sort_abs (ps : List String) (b : Term) : sort (.abs ps b) = .abs ps (sort b) := rfl

theorem sort_app (ts : List Term) : sort (.app ts) = .app (ts.map sort) :=
  congrArg Term.app (foldAll_eq sorter ts)

theorem sort_list (ts : List Term) : sort (.list ts) = .list (ts.map sort) :=
  congrArg Term.list (foldAll_eq sorter ts)

theorem sort_tuple (ts : List Term) : sort (.tuple ts) = .tuple (ts.map sort) :=
  congrArg Term.tuple (foldAll_eq sorter ts)

theorem sort_record (cs : List (Constructor Term)) :
    sort (.record cs) = .record (cs.map (Constructor.map sort)) :=
  congrArg Term.record (foldConstructors_eq sorter cs)

theorem sort_letIn (bs : List (Binding Term)) (b : Term) :
    sort (.letIn bs b) = .letIn ((arrange (bs.map (Binding.map sort))).map (·.binding)) (sort b) :=
  congrArg (fun ds => Term.letIn ((arrange ds).map Placed.binding) (sort b))
    (foldBindings_eq sorter bs)

section
variable {siblings : List String} {bs : List (Binding Term)} {d : Binding Term} {x : String}

theorem mem_needs_pendingOf : x ∈ (pendingOf siblings d).needs ↔
    x ∈ (abs d.params d.body).freeNames ∧ x ∈ siblings ∧ x ≠ d.name := by
  simp [pendingOf, List.mem_filter]

theorem binding_pendingOf (siblings : List String) (d : Binding Term) :
    (pendingOf siblings d).binding.name = d.name ∧ (pendingOf siblings d).binding.body = d.body ∧
      ∀ x, x ∈ (pendingOf siblings d).binding.params ↔
        x ∈ d.params ∨ x = d.name ∧ x ∈ (abs d.params d.body).freeNames := by
  rw [pendingOf]
  split
  next h =>
    rw [List.contains_eq_mem, decide_eq_true_iff] at h
    refine ⟨rfl, rfl, fun x => ?_⟩
    rw [List.mem_cons, or_comm]
    exact or_congr_right ⟨fun hx => ⟨hx, hx ▸ h⟩, And.left⟩
  next h =>
    rw [List.contains_eq_mem, decide_eq_true_iff] at h
    refine ⟨rfl, rfl, fun x => (or_iff_left ?_).symm⟩
    rintro ⟨rfl, hx⟩
    exact h hx

theorem binding_of_not_self (siblings : List String)
    (h : d.name ∉ (abs d.params d.body).freeNames) : (pendingOf siblings d).binding = d := by
  rw [pendingOf, List.contains_eq_mem, decide_eq_false h]
  rfl

theorem needs_iff_depends (bs : List (Binding Term)) :
    Needs (bs.map (pendingOf (bs.map (·.name)))) = Depends bs := by
  ext n m
  constructor
  · rintro ⟨p, hp, rfl, hm⟩
    obtain ⟨d, hd, rfl⟩ := List.mem_map.1 hp
    obtain ⟨hfree, hsibling, hne⟩ := mem_needs_pendingOf.1 hm
    exact ⟨d, hd, rfl, hne, hsibling, hfree⟩
  · rintro ⟨d, hd, rfl, hne, hsibling, hfree⟩
    exact ⟨_, List.mem_map_of_mem hd, rfl, mem_needs_pendingOf.2 ⟨hfree, hsibling, hne⟩⟩

theorem arrange_eq (bs : List (Binding Term)) :
    ∃ ps, ps.Perm (bs.map (pendingOf (bs.map (·.name)))) ∧
    InOrder [] ps ∧ arrange bs = placeInTurn [] ps := order_eq [] _

theorem mem_arrange :
    d ∈ (arrange bs).map (·.binding) ↔ ∃ e ∈ bs, (pendingOf (bs.map (·.name)) e).binding = d := by
  obtain ⟨ps, hperm, -, harrange⟩ := arrange_eq bs
  rw [harrange, map_binding_placeInTurn, (hperm.map (·.binding)).mem_iff, List.map_map]
  simp

theorem mem_names_arrange :
    x ∈ ((arrange bs).map (·.binding)).map (·.name) ↔ x ∈ bs.map (·.name) := by
  simp only [List.mem_map (f := fun d : Binding Term => d.name), mem_arrange]
  constructor
  · rintro ⟨d, ⟨e, he, rfl⟩, rfl⟩
    exact ⟨e, he, (binding_pendingOf _ e).1.symm⟩
  · rintro ⟨e, he, rfl⟩
    exact ⟨_, ⟨e, he, rfl⟩, (binding_pendingOf _ e).1⟩

@[simp] theorem map_name_pendingOf (siblings : List String) (bs : List (Binding Term)) :
    (bs.map (pendingOf siblings)).map (·.name) = bs.map (·.name) := by
  rw [List.map_map]
  rfl

theorem exists_pendingOf {ps : List Pending} (h : ps.Perm (bs.map (pendingOf siblings))) :
    ∀ p ∈ ps, ∃ e ∈ bs, p = pendingOf siblings e := by
  intro p hp
  obtain ⟨e, he, rfl⟩ := List.mem_map.1 (h.mem_iff.1 hp)
  exact ⟨e, he, rfl⟩

theorem map_name_binding {ps : List Pending} (h : ∀ p ∈ ps, ∃ e ∈ bs, p = pendingOf siblings e) :
    (ps.map (·.binding)).map (·.name) = ps.map (·.name) := by
  rw [List.map_map]
  refine List.map_congr_left fun p hp => ?_
  obtain ⟨e, -, rfl⟩ := h p hp
  exact (binding_pendingOf _ e).1

theorem mem_siblings_of_needs : ∀ p ∈ bs.map (pendingOf (bs.map (·.name))), ∀ x ∈ p.needs,
    x ∈ (bs.map (pendingOf (bs.map (·.name)))).map (·.name) := by
  intro p hp x hx
  obtain ⟨e, -, rfl⟩ := List.mem_map.1 hp
  rw [map_name_pendingOf]
  exact (mem_needs_pendingOf.1 hx).2.1

/-- A definition from which no cycle is reached stands behind all that it needs. -/
theorem needs_before {before after : List (Binding Term)}
    (h : (arrange bs).map (·.binding) = before ++ d :: after)
    (hclear : ∀ n, ReflTransGen (Depends bs) d.name n → ¬TransGen (Depends bs) n n) :
    ∃ e ∈ bs, d = (pendingOf (bs.map (·.name)) e).binding ∧
      ∀ x ∈ (pendingOf (bs.map (·.name)) e).needs, x ∈ before.map (·.name) := by
  obtain ⟨ps, hperm, hinOrder, harrange⟩ := arrange_eq bs
  have hpending := exists_pendingOf hperm
  rw [harrange, map_binding_placeInTurn] at h
  obtain ⟨first, rest, rfl, rfl, hrest⟩ := List.map_eq_append_iff.1 h
  obtain ⟨p, last, rfl, rfl, rfl⟩ := List.map_eq_cons_iff.1 hrest
  obtain ⟨e, he, rfl⟩ := hpending p (by simp)
  rw [(binding_pendingOf _ e).1, ← needs_iff_depends] at hclear
  rw [map_name_binding fun q hq => hpending q (List.mem_append_left _ hq)]
  exact ⟨e, he, rfl, needs_of_inOrder hperm hinOrder mem_siblings_of_needs hclear⟩

theorem exists_needs_after (hdistinct : (bs.map (·.name)).Nodup) {n : String}
    (hcycle : TransGen (Depends bs) n n) :
    ∃ before, ∃ e ∈ bs, ∃ after x, (arrange bs).map (·.binding) =
      before ++ (pendingOf (bs.map (·.name)) e).binding :: after ∧
        x ∈ (pendingOf (bs.map (·.name)) e).needs ∧
        x ∉ before.map (·.name) ∧ TransGen (Depends bs) n x ∧ TransGen (Depends bs) x n := by
  rw [← needs_iff_depends] at hcycle ⊢
  obtain ⟨before, p, after, x, hperm, horder, hx, hbefore, hcycle⟩ :=
    exists_missing (by rwa [map_name_pendingOf]) hcycle
  have hpending := exists_pendingOf hperm
  obtain ⟨e, he, rfl⟩ := hpending p (by simp)
  refine ⟨before.map (·.binding), e, he, after.map (·.binding), x, ?_, hx, ?_, hcycle⟩
  · rw [arrange, horder, map_binding_placeInTurn, List.map_append, List.map_cons]
  · rwa [map_name_binding fun q hq => hpending q (List.mem_append_left _ hq)]

end

section
variable {hidden : List String} {x : String}

theorem exists_mem_map {α β : Type} {f : α → β} {xs : List α} {p : β → Prop} :
    (∃ y ∈ xs.map f, p y) ↔ ∃ x ∈ xs, p (f x) := by
  simp

theorem map_name_map (f : Term → Term) (bs : List (Binding Term)) :
    (bs.map (Binding.map f)).map (·.name) = bs.map (·.name) := by
  rw [List.map_map]
  rfl

theorem mem_namesHiding_arrange {bs : List (Binding Term)} (hx : x ∉ bs.map (·.name)) :
    (∃ d ∈ (arrange bs).map (·.binding), x ∈ d.body.namesHiding hidden ∧ x ∉ d.params) ↔
      ∃ d ∈ bs, x ∈ d.body.namesHiding hidden ∧ x ∉ d.params := by
  have hparams : ∀ e ∈ bs, (x ∉ (pendingOf (bs.map (·.name)) e).binding.params ↔
      x ∉ e.params) := fun e he => by
    have hne : x ≠ e.name := fun h => hx (h ▸ List.mem_map_of_mem he)
    rw [(binding_pendingOf _ e).2.2 x, or_iff_left fun h => hne h.1]
  simp only [mem_arrange]
  constructor
  · rintro ⟨d, ⟨e, he, rfl⟩, hbody, hnot⟩
    exact ⟨e, he, (binding_pendingOf _ e).2.1 ▸ hbody, (hparams e he).1 hnot⟩
  · rintro ⟨e, he, hbody, hnot⟩
    exact ⟨_, ⟨e, he, rfl⟩, (binding_pendingOf _ e).2.1.symm ▸ hbody, (hparams e he).2 hnot⟩

theorem mem_namesHiding_sort (t : Term) :
    x ∈ (sort t).namesHiding hidden ↔ x ∈ t.namesHiding hidden := by
  induction t using Term.induction with
  | abs ps b ih => rw [sort_abs, mem_namesHiding_abs, ih, mem_namesHiding_abs]
  | app ts ih =>
    rw [sort_app, mem_namesHiding_app, mem_namesHiding_app, exists_mem_map]
    exact exists_congr fun t => and_congr_right (ih t)
  | list ts ih =>
    rw [sort_list, mem_namesHiding_list, mem_namesHiding_list, exists_mem_map]
    exact exists_congr fun t => and_congr_right (ih t)
  | tuple ts ih =>
    rw [sort_tuple, mem_namesHiding_tuple, mem_namesHiding_tuple, exists_mem_map]
    exact exists_congr fun t => and_congr_right (ih t)
  | record cs ih =>
    have ih' : ∀ t ∈ fieldBodies cs, x ∈ (sort t).namesHiding hidden ↔ x ∈ t.namesHiding hidden :=
      forall_mem_fieldBodies.2 ih
    rw [sort_record, mem_namesHiding_record, mem_namesHiding_record, fieldBodies_map,
      exists_mem_map]
    exact and_congr_left' (exists_congr fun t => and_congr_right (ih' t))
  | letIn bs b ihs ih =>
    rw [sort_letIn, mem_namesHiding_letIn, mem_namesHiding_letIn, mem_names_arrange,
      map_name_map, ih]
    refine and_congr_left fun hx => or_congr_right ?_
    rw [mem_namesHiding_arrange (map_name_map sort bs ▸ hx), exists_mem_map]
    exact exists_congr fun d => and_congr_right fun hd => and_congr_left' (ihs d hd)
  | _ => rfl

end

/-- Sorting the bodies of a block does not change who depends on whom. -/
theorem depends_sort (bs : List (Binding Term)) :
    Depends (bs.map (Binding.map sort)) = Depends bs := by
  ext n m
  simp only [Depends, map_name_map, exists_mem_map, freeNames_eq, mem_namesHiding_abs, Binding.map,
    mem_namesHiding_sort]

theorem any_arrange (bs : List (Binding Term)) (f : Term → Bool) :
    ((arrange bs).map (·.binding)).any (f ·.body) = bs.any (f ·.body) := by
  rw [Bool.eq_iff_iff, List.any_eq_true, List.any_eq_true]
  simp only [mem_arrange]
  constructor
  · rintro ⟨d, ⟨e, he, rfl⟩, hf⟩
    exact ⟨e, he, (binding_pendingOf _ e).2.1 ▸ hf⟩
  · rintro ⟨e, he, hf⟩
    exact ⟨_, ⟨e, he, rfl⟩, (binding_pendingOf _ e).2.1.symm ▸ hf⟩

theorem hasEmptyApplication_sort (t : Term) :
    (sort t).hasEmptyApplication = t.hasEmptyApplication := by
  induction t using Term.induction with
  | abs ps b ih => exact ih
  | app ts ih =>
    rw [sort_app, hasEmptyApplication_app, hasEmptyApplication_app, List.isEmpty_map, List.any_map]
    exact congrArg (_ || ·) (any_congr ih)
  | list ts ih =>
    rw [sort_list, hasEmptyApplication_list, hasEmptyApplication_list, List.any_map]
    exact any_congr ih
  | tuple ts ih =>
    rw [sort_tuple, hasEmptyApplication_tuple, hasEmptyApplication_tuple, List.any_map]
    exact any_congr ih
  | record cs ih =>
    rw [sort_record, hasEmptyApplication_record, hasEmptyApplication_record,
      fieldBodies_map, List.any_map]
    exact any_congr (forall_mem_fieldBodies.2 ih)
  | letIn bs b ihs ih =>
    rw [sort_letIn, hasEmptyApplication_letIn, hasEmptyApplication_letIn, ih,
      any_arrange, List.any_map]
    exact congrArg (· || _) (any_congr ihs)
  | _ => rfl

end SugaredLambda.Definitions
