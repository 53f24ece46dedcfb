import SugaredLambda.Church.Encoding

/-! `place` is the encoding without the check for empty applications, with an equation for each kind
of node. -/
namespace SugaredLambda

theorem fieldBodies_map {α β : Type} (f : α → β) (cs : List (Constructor α)) :
    fieldBodies (cs.map (Constructor.map f)) = (fieldBodies cs).map f := by
  induction cs with
  | nil => rfl
  | cons c cs ih =>
    simp only [fieldBodies, List.map_cons, List.flatMap_cons, List.map_append] at ih ⊢
    rw [ih, Constructor.map, List.map_map, List.map_map]
    rfl

namespace Term

def mentions : Algebra (List String) where
  abs _ b := b
  app := List.flatten
  var x := [x]
  nat _ := []
  list := List.flatten
  tuple := List.flatten
  char _ := []
  str _ := []
  word _ := []
  record cs := (fieldBodies cs).flatten
  letIn bs b := (bs.map (·.body)).flatten ++ b

/-- The names of the variables in a term, bound ones included, as often as they stand there. -/
def mentioned : Term → List String := fold mentions

@[simp] theorem mentioned_abs (ps : List String) (b : Term) : (abs ps b).mentioned = b.mentioned :=
  rfl
@[simp] theorem mentioned_var (x : String) : (var x).mentioned = [x] := rfl

@[simp] theorem mentioned_app (ts : List Term) : (app ts).mentioned = ts.flatMap mentioned :=
  congrArg List.flatten (foldAll_eq mentions ts)

@[simp] theorem mentioned_list (ts : List Term) : (list ts).mentioned = ts.flatMap mentioned :=
  congrArg List.flatten (foldAll_eq mentions ts)

@[simp] theorem mentioned_tuple (ts : List Term) : (tuple ts).mentioned = ts.flatMap mentioned :=
  congrArg List.flatten (foldAll_eq mentions ts)

@[simp] theorem mentioned_record (cs : List (Constructor Term)) :
    (record cs).mentioned = (fieldBodies cs).flatMap mentioned := by
  have h : (record cs).mentioned = (fieldBodies (cs.map (Constructor.map mentioned))).flatten :=
    congrArg (fun ds => (fieldBodies ds).flatten) (foldConstructors_eq mentions cs)
  rw [h, fieldBodies_map, List.flatMap]

@[simp] theorem mentioned_letIn (bs : List (Binding Term)) (b : Term) :
    (letIn bs b).mentioned = bs.flatMap (·.body.mentioned) ++ b.mentioned := by
  have h : (letIn bs b).mentioned =
      ((bs.map (Binding.map mentioned)).map (·.body)).flatten ++ b.mentioned :=
    congrArg (fun ds => (ds.map Binding.body).flatten ++ b.mentioned) (foldBindings_eq mentions bs)
  rw [h, List.map_map, List.flatMap]
  rfl

end Term

namespace Church
variable {scope scope' : Scope} {depth : Int}

def place (t : Term) : Placing := t.fold placer

theorem place_abs (ps : List String) (b : Term) : place (.abs ps b) = function ps (place b) := rfl

theorem place_app (ts : List Term) : place (.app ts) = application (ts.map place) :=
  congrArg application (Term.foldAll_eq placer ts)

theorem place_var (x : String) : place (.var x) = reference x := rfl

theorem place_list (ts : List Term) (scope : Scope) (depth : Int) :
    place (.list ts) scope depth = foldList <$> ts.mapM (place · scope (depth + 2)) := by
  rw [place, Term.fold, Term.foldAll_eq]
  exact congrArg (foldList <$> ·) (List.mapM_map (m := Except Error))

theorem place_tuple (ts : List Term) (scope : Scope) (depth : Int) :
    place (.tuple ts) scope depth = consumed <$> ts.mapM (place · scope (depth + 1)) := by
  rw [place, Term.fold, Term.foldAll_eq]
  exact congrArg (consumed <$> ·) (List.mapM_map (m := Except Error))

theorem place_record (cs : List (Constructor Term)) :
    place (.record cs) = record (cs.map (Constructor.map place)) :=
  congrArg record (Term.foldConstructors_eq placer cs)

theorem place_letIn (bs : List (Binding Term)) (b : Term) :
    place (.letIn bs b) = block (bs.map (Binding.map place)) (place b) :=
  congrArg (block · (place b)) (Term.foldBindings_eq placer bs)

theorem mapM_congr_left {α β : Type} {f g : α → Except Error β} {xs : List α}
    (h : ∀ x ∈ xs, f x = g x) : xs.mapM f = xs.mapM g := by
  induction xs with
  | nil => rfl
  | cons x xs ih =>
    obtain ⟨hx, hxs⟩ := List.forall_mem_cons.1 h
    rw [List.mapM_cons, List.mapM_cons, hx, ih hxs]

theorem mapM_eq_ok {α β : Type} {f : α → Except Error β} {g : α → β} {xs : List α}
    (h : ∀ x ∈ xs, f x = .ok (g x)) : xs.mapM f = .ok (xs.map g) :=
  (mapM_congr_left h).trans List.mapM_pure

def Agree (names : List String) (scope scope' : Scope) : Prop :=
  ∀ x ∈ names, scope.lookup x = scope'.lookup x

namespace Agree
variable {xs ys names : List String}

theorem mono (h : Agree ys scope scope') (hs : xs ⊆ ys) : Agree xs scope scope' :=
  fun x hx => h x (hs hx)

theorem cons (h : Agree names scope scope') (e : String × Int) :
    Agree names (e :: scope) (e :: scope') := by
  intro x hx
  rw [List.lookup_cons, List.lookup_cons, h x hx]

theorem enter (ps : List String) (h : Agree names scope scope') (depth : Int) :
    Agree names (Church.enter ps scope depth) (Church.enter ps scope' depth) := by
  induction ps generalizing scope scope' depth with
  | nil => exact h
  | cons p ps ih => exact ih (h.cons (p, depth)) (depth + 1)

end Agree

/-- What is placed depends on the scope only at some names. -/
def DependsOn (names : List String) (p : Placing) : Prop :=
  ∀ scope scope' depth, Agree names scope scope' → p scope depth = p scope' depth

namespace DependsOn
variable {xs names : List String} {p : Placing}

theorem mono (hp : DependsOn xs p) (hs : xs ⊆ names) : DependsOn names p :=
  fun _ _ _ h => hp _ _ _ (h.mono hs)

theorem function (ps : List String) (hp : DependsOn names p) : DependsOn names (function ps p) :=
  fun _ _ depth h => by simp only [Church.function, hp _ _ _ (h.enter ps depth)]

theorem application {fns : List Placing} (hfns : ∀ fn ∈ fns, DependsOn names fn) :
    DependsOn names (application fns) := by
  intro scope scope' depth h
  cases fns with
  | nil => rfl
  | cons fn args =>
    obtain ⟨hfn, hargs⟩ := List.forall_mem_cons.1 hfns
    simp only [Church.application, hfn _ _ _ h, mapM_congr_left fun a ha => hargs a ha _ _ _ h]

theorem block {bs : List (Binding Placing)} (hbs : ∀ b ∈ bs, DependsOn names b.body)
    (hp : DependsOn names p) : DependsOn names (block bs p) := by
  intro scope scope' depth h
  induction bs generalizing scope scope' depth with
  | nil => exact hp _ _ _ h
  | cons b bs ih =>
    obtain ⟨hb, hbs⟩ := List.forall_mem_cons.1 hbs
    simp only [Church.block, hb.function b.params _ _ _ h, ih hbs _ _ _ (h.cons (b.name, depth))]

theorem record {cs : List (Constructor Placing)}
    (hcs : ∀ c ∈ cs, ∀ x ∈ c.fields, DependsOn names x.body) : DependsOn names (record cs) := by
  intro scope scope' depth h
  have hfield : ∀ c ∈ cs, ∀ x ∈ c.fields, field scope depth x = field scope' depth x :=
    fun c hc x hx => by simp only [field, hcs c hc x hx _ _ _ (h.cons (selfName, depth + 7))]
  have hctor : ∀ c ∈ cs, constructor scope depth c = constructor scope' depth c :=
    fun c hc => by simp only [constructor, mapM_congr_left (hfield c hc)]
  simp only [Church.record, mapM_congr_left hctor]

end DependsOn

theorem mentioned_subset_flatMap {ts : List Term} {t : Term} (ht : t ∈ ts) :
    t.mentioned ⊆ ts.flatMap Term.mentioned :=
  fun _ hx => List.mem_flatMap_of_mem ht hx

theorem dependsOn_place (t : Term) : DependsOn t.mentioned (place t) := by
  induction t using Term.induction with
  | abs ps b ih => exact ih.function ps
  | app ts ih =>
    rw [place_app, Term.mentioned_app]
    refine .application fun fn hfn => ?_
    obtain ⟨t, ht, rfl⟩ := List.mem_map.1 hfn
    exact (ih t ht).mono (mentioned_subset_flatMap ht)
  | var x => exact fun _ _ _ h => by simp only [place_var, reference, h x List.mem_cons_self]
  | list ts ih =>
    intro scope scope' depth h
    rw [place_list, place_list]
    refine congrArg (foldList <$> ·) (mapM_congr_left fun t ht => ?_)
    exact (ih t ht).mono (by simpa using mentioned_subset_flatMap ht) _ _ _ h
  | tuple ts ih =>
    intro scope scope' depth h
    rw [place_tuple, place_tuple]
    refine congrArg (consumed <$> ·) (mapM_congr_left fun t ht => ?_)
    exact (ih t ht).mono (by simpa using mentioned_subset_flatMap ht) _ _ _ h
  | record cs ih =>
    rw [place_record, Term.mentioned_record]
    refine .record fun c' hc' x' hx' => ?_
    obtain ⟨c, hc, rfl⟩ := List.mem_map.1 hc'
    obtain ⟨x, hx, rfl⟩ := List.mem_map.1 hx'
    refine (ih c hc x hx).mono (mentioned_subset_flatMap ?_)
    exact List.mem_flatMap_of_mem hc (List.mem_map_of_mem hx)
  | letIn bs b ihs ih =>
    rw [place_letIn, Term.mentioned_letIn]
    refine .block (fun d' hd' => ?_) (ih.mono (List.subset_append_right _ _))
    obtain ⟨d, hd, rfl⟩ := List.mem_map.1 hd'
    refine (ihs d hd).mono fun x hx => List.mem_append_left _ ?_
    exact List.mem_flatMap_of_mem hd hx
  | _ => exact fun _ _ _ _ => rfl

theorem place_cons_of_not_mentioned {t : Term} {x : String} (hx : x ∉ t.mentioned) (i : Int) :
    place t ((x, i) :: scope) depth = place t scope depth := by
  refine dependsOn_place t _ _ _ fun y hy => ?_
  have hne : y ≠ x := fun h => hx (h ▸ hy)
  rw [List.lookup_cons, beq_false_of_ne hne]

end Church
end SugaredLambda
