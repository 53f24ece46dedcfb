import SugaredLambda.Proofs.Church.Demands
import SugaredLambda.Proofs.Term.FreeNames

/-! Terms put for free names, without renaming. -/
namespace SugaredLambda.Term
variable {x : String} {s t : Term} {bound : Bool}

/-- A definition binds its name in the later ones, and its parameters in its own body. -/
def replaceIn (x : String) : List (Binding (Bool → Term)) → Bool → List (Binding Term)
  | [], _ => []
  | d :: ds, bound =>
    ⟨d.name, d.params, d.body (bound || d.params.contains x)⟩ ::
      replaceIn x ds (bound || x == d.name)

def replacer (x : String) (s : Term) : Algebra (Bool → Term) where
  abs ps b bound := .abs ps (b (bound || ps.contains x))
  app ts bound := .app (ts.map (· bound))
  var y bound := if y = x ∧ bound = false then s else .var y
  nat n _ := .nat n
  list ts bound := .list (ts.map (· bound))
  tuple ts bound := .tuple (ts.map (· bound))
  char c _ := .char c
  str c _ := .str c
  word n _ := .word n
  record cs bound := .record (cs.map (Constructor.map (· (bound || x == Church.selfName))))
  letIn bs b bound := .letIn (replaceIn x bs bound) (b (bound || bs.any (x == ·.name)))

def replaceUnder (t : Term) (x : String) (s : Term) (bound : Bool) : Term :=
  t.fold (replacer x s) bound

/-- Puts `s` for the variable `x` wherever it is free. -/
def replace (t : Term) (x : String) (s : Term) : Term := t.replaceUnder x s false

theorem replaceUnder_app (ts : List Term) :
    (app ts).replaceUnder x s bound = .app (ts.map (·.replaceUnder x s bound)) := by
  rw [replaceUnder, fold, foldAll_eq]
  exact congrArg app List.map_map

theorem replaceUnder_list (ts : List Term) :
    (list ts).replaceUnder x s bound = .list (ts.map (·.replaceUnder x s bound)) := by
  rw [replaceUnder, fold, foldAll_eq]
  exact congrArg list List.map_map

theorem replaceUnder_tuple (ts : List Term) :
    (tuple ts).replaceUnder x s bound = .tuple (ts.map (·.replaceUnder x s bound)) := by
  rw [replaceUnder, fold, foldAll_eq]
  exact congrArg tuple List.map_map

theorem replaceUnder_record (cs : List (Constructor Term)) : (record cs).replaceUnder x s bound =
    .record (cs.map (Constructor.map (·.replaceUnder x s (bound || x == Church.selfName)))) := by
  rw [replaceUnder, fold, foldConstructors_eq]
  refine congrArg record (List.map_map.trans (List.map_congr_left fun c _ => ?_))
  exact congrArg (Constructor.mk c.name) List.map_map

theorem replaceUnder_letIn (bs : List (Binding Term)) (b : Term) :
    (letIn bs b).replaceUnder x s bound =
    .letIn (replaceIn x (bs.map (Binding.map fun t => t.replaceUnder x s)) bound)
      (b.replaceUnder x s (bound || bs.any (x == ·.name))) := by
  rw [replaceUnder, fold, foldBindings_eq]
  change Term.letIn _ (b.replaceUnder x s (bound || (bs.map _).any _)) = _
  rw [List.any_map]
  rfl

theorem hasEmptyApplication_replaceUnder (hs : s.hasEmptyApplication = false) (t : Term)
    (bound : Bool) : (t.replaceUnder x s bound).hasEmptyApplication = t.hasEmptyApplication := by
  have hany {ts : List Term}
      (ih : ∀ t ∈ ts, ∀ bound, (t.replaceUnder x s bound).hasEmptyApplication =
      t.hasEmptyApplication) (bound : Bool) :
      (ts.map (·.replaceUnder x s bound)).any hasEmptyApplication = ts.any hasEmptyApplication := by
    rw [List.any_map]
    exact any_congr fun t ht => ih t ht bound
  induction t using Term.induction generalizing bound with
  | abs ps b ih => exact ih _
  | app ts ih =>
    rw [replaceUnder_app, hasEmptyApplication_app, hasEmptyApplication_app, hany ih,
      List.isEmpty_map]
  | list ts ih =>
    rw [replaceUnder_list, hasEmptyApplication_list, hasEmptyApplication_list, hany ih]
  | tuple ts ih =>
    rw [replaceUnder_tuple, hasEmptyApplication_tuple, hasEmptyApplication_tuple, hany ih]
  | var y =>
    change (if y = x ∧ bound = false then s else .var y).hasEmptyApplication = false
    split
    · exact hs
    · rfl
  | record cs ih =>
    rw [replaceUnder_record, hasEmptyApplication_record, hasEmptyApplication_record,
      fieldBodies_map, hany (forall_mem_fieldBodies.2 ih)]
  | letIn bs b ihs ih =>
    rw [replaceUnder_letIn, hasEmptyApplication_letIn, hasEmptyApplication_letIn, ih]
    congr 1
    induction bs generalizing bound with
    | nil => rfl
    | cons d bs ihb =>
      obtain ⟨hd, hbs⟩ := List.forall_mem_cons.1 ihs
      rw [List.map_cons, replaceIn, List.any_cons, List.any_cons, ihb hbs]
      exact congrArg (· || _) (hd _)
  | _ => rfl

def naming : Algebra (List String) where
  abs ps b := ps ++ b
  app := List.flatten
  var x := [x]
  nat _ := []
  list := List.flatten
  tuple := List.flatten
  char _ := []
  str _ := []
  word _ := []
  record cs := (fieldBodies cs).flatten
  letIn bs b := (bs.flatMap fun d => d.name :: d.params ++ d.body) ++ b

/-- The names that stand in a term, bound or free; labels do not count. -/
def names : Term → List String := fold naming

theorem names_app (ts : List Term) : (app ts).names = ts.flatMap names :=
  congrArg List.flatten (foldAll_eq naming ts)

theorem names_list (ts : List Term) : (list ts).names = ts.flatMap names :=
  congrArg List.flatten (foldAll_eq naming ts)

theorem names_tuple (ts : List Term) : (tuple ts).names = ts.flatMap names :=
  congrArg List.flatten (foldAll_eq naming ts)

theorem names_record (cs : List (Constructor Term)) :
    (record cs).names = (fieldBodies cs).flatMap names := by
  have h : (record cs).names = (fieldBodies (cs.map (Constructor.map names))).flatten :=
    congrArg (fun ds => (fieldBodies ds).flatten) (foldConstructors_eq naming cs)
  rw [h, fieldBodies_map, List.flatMap]

theorem names_letIn (bs : List (Binding Term)) (b : Term) :
    (letIn bs b).names = (bs.flatMap fun d => d.name :: d.params ++ d.body.names) ++ b.names := by
  have h : (letIn bs b).names =
      ((bs.map (Binding.map names)).flatMap fun d => d.name :: d.params ++ d.body) ++ b.names :=
    congrArg (fun ds => (ds.flatMap fun d : Binding (List String) => d.name :: d.params ++
      d.body) ++ b.names) (foldBindings_eq naming bs)
  rw [h, List.flatMap_map]
  rfl

theorem demanded_subset_names (t : Term) : t.demanded ⊆ t.names := by
  have hall {ts : List Term} (ih : ∀ t ∈ ts, t.demanded ⊆ t.names) :
      ts.flatMap demanded ⊆ ts.flatMap names := by
    intro x hx
    obtain ⟨t, ht, hx⟩ := List.mem_flatMap.1 hx
    exact List.mem_flatMap_of_mem ht (ih t ht hx)
  induction t using Term.induction with
  | abs ps b ih => exact fun x hx => List.mem_append_right _ (ih (mem_without.1 hx).1)
  | app ts ih => rw [demanded_app, names_app]; exact hall ih
  | list ts ih => rw [demanded_list, names_list]; exact hall ih
  | tuple ts ih => rw [demanded_tuple, names_tuple]; exact hall ih
  | var x => exact List.Subset.refl _
  | record cs ih =>
    rw [demanded_record, names_record]
    exact fun x hx => hall (forall_mem_fieldBodies.2 ih) (mem_without.1 hx).1
  | letIn bs b ihs ih =>
    rw [names_letIn]
    induction bs with
    | nil => exact ih
    | cons d bs ihb =>
      obtain ⟨hd, hbs⟩ := List.forall_mem_cons.1 ihs
      rw [demanded_letIn_cons, List.flatMap_cons, List.append_assoc]
      refine List.append_subset.2 ⟨fun x hx => ?_, fun x hx => ?_⟩
      · exact List.mem_append_left _ (List.mem_append_right _ (hd (mem_without.1 hx).1))
      · exact List.mem_append_right _ (ihb hbs (mem_without.1 hx).1)
  | _ => exact List.nil_subset _

end SugaredLambda.Term
