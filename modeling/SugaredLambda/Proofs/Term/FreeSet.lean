import Mathlib.Data.Finset.Basic
import SugaredLambda.Proofs.Term.FreeNames

/-! Free names by the textbook, and how the tally finds them. -/
namespace SugaredLambda.Term

def unionOf (sets : List (Finset String)) : Finset String := sets.foldr (· ∪ ·) ∅

/-- An abstraction takes away its parameters. A block takes away the names of its definitions from
its body and from theirs, from which their own parameters have been taken away. -/
def textbook : Algebra (Finset String) where
  abs ps b := b \ ps.toFinset
  app := unionOf
  var x := {x}
  nat _ := ∅
  list := unionOf
  tuple := unionOf
  char _ := ∅
  str _ := ∅
  word _ := ∅
  record cs := unionOf (fieldBodies cs)
  letIn bs b := (b ∪ unionOf (bs.map fun x => x.body \ x.params.toFinset)) \
    (bs.map (·.name)).toFinset

def freeSet : Term → Finset String := fold textbook

theorem mem_unionOf {sets : List (Finset String)} {x : String} :
    x ∈ unionOf sets ↔ ∃ s ∈ sets, x ∈ s := by
  induction sets with
  | nil => simp [unionOf]
  | cons s sets ih =>
    rw [unionOf, List.foldr_cons, Finset.mem_union, List.exists_mem_cons_iff, ← ih, unionOf]

theorem mem_unionOf_map {α : Type} {f : α → Finset String} {xs : List α} {x : String} :
    x ∈ unionOf (xs.map f) ↔ ∃ y ∈ xs, x ∈ f y := by
  simp only [mem_unionOf, List.mem_map, exists_exists_and_eq_and]

theorem mem_freeSet {t : Term} {x : String} : x ∈ t.freeSet ↔ x ∈ t.freeNames := by
  rw [freeNames_eq]
  induction t using Term.induction with
  | abs ps b ih =>
    rw [mem_namesHiding_abs, ← ih, freeSet, fold, textbook, Finset.mem_sdiff, List.mem_toFinset]
  | app ts ih =>
    rw [mem_namesHiding_app, freeSet, fold, foldAll_eq]
    exact mem_unionOf_map.trans (exists_congr fun t => and_congr_right (ih t))
  | list ts ih =>
    rw [mem_namesHiding_list, freeSet, fold, foldAll_eq]
    exact mem_unionOf_map.trans (exists_congr fun t => and_congr_right (ih t))
  | tuple ts ih =>
    rw [mem_namesHiding_tuple, freeSet, fold, foldAll_eq]
    exact mem_unionOf_map.trans (exists_congr fun t => and_congr_right (ih t))
  | record cs ih =>
    have ih' : ∀ t ∈ fieldBodies cs, x ∈ t.freeSet ↔ x ∈ t.namesHiding [] :=
      forall_mem_fieldBodies.2 ih
    rw [mem_namesHiding_record, and_iff_left List.not_mem_nil, freeSet, fold, foldConstructors_eq]
    change x ∈ unionOf (fieldBodies _) ↔ _
    rw [fieldBodies_map, mem_unionOf_map]
    exact exists_congr fun t => and_congr_right (ih' t)
  | letIn bs b ihs ih =>
    rw [mem_namesHiding_letIn, ← ih, freeSet, fold, foldBindings_eq]
    change x ∈ (_ ∪ unionOf ((bs.map _).map _)) \ ((bs.map _).map _).toFinset ↔ _
    rw [Finset.mem_sdiff, Finset.mem_union, List.mem_toFinset, List.map_map, List.map_map,
      mem_unionOf_map]
    refine and_congr (or_congr_right (exists_congr fun d => and_congr_right fun hd => ?_)) Iff.rfl
    rw [← ihs d hd]
    exact Finset.mem_sdiff.trans (and_congr_right' (not_congr List.mem_toFinset))
  | var y => exact Finset.mem_singleton.trans ((Collects.single y).mem_iff x).symm
  | _ => exact iff_of_false (Finset.notMem_empty x) List.not_mem_nil

namespace Tally
variable {tally : Tally}

theorem lower_lower_comm (x y : String) (tally : Tally) :
    (tally.lower x).lower y = (tally.lower y).lower x := by
  induction tally with
  | nil => rfl
  | cons e rest ih =>
    by_cases hx : x = e.1 <;> by_cases hy : y = e.1
    · rw [hx, hy]
    all_goals grind [lower]

theorem positive_raise (x : String) (h : ∀ e ∈ tally, 0 < e.2) : ∀ e ∈ tally.raise x, 0 < e.2 := by
  induction tally with
  | nil => simp [raise]
  | cons e rest ih => grind [raise]

theorem lower_raise_all (names : List String) (h : ∀ e ∈ tally, 0 < e.2) :
    names.foldl (fun tally x => tally.lower x) (names.foldl (fun tally x => tally.raise x) tally) =
      tally := by
  induction names generalizing tally with
  | nil => rfl
  | cons y names ih =>
    have : RightCommutative fun (tally : Tally) x => tally.lower x :=
      ⟨fun tally x y => lower_lower_comm x y tally⟩
    have hlast : (y :: names).Perm (names ++ [y]) := (List.perm_append_singleton y names).symm
    rw [hlast.foldl_eq, List.foldl_append]
    change (names.foldl _ (names.foldl _ (tally.raise y))).lower y = tally
    rw [ih (positive_raise y h)]
    exact lower_raise y h

end Tally

/-- Gives a tally of bound names back as it was, and finds no name twice. -/
def Restores (free : StateM Tally (List String)) : Prop :=
  ∀ tally : Tally, (∀ e ∈ tally, 0 < e.2) → (free.run tally).2 = tally ∧ (free.run tally).1.Nodup

namespace Restores
variable {free : StateM Tally (List String)}

theorem nothing : Restores (return []) := fun _ _ => ⟨rfl, List.nodup_nil⟩

theorem single (x : String) : Restores (freeNamesUnder.var x) := by
  refine fun tally _ => ⟨rfl, ?_⟩
  change (if tally.binds x then [] else [x]).Nodup
  split
  · exact List.nodup_nil
  · exact List.nodup_singleton x

theorem under (ps : List String) (h : Restores free) : Restores (under ps free) := by
  intro tally hpositive
  have hraised : ∀ e ∈ ps.foldl (fun tally x => tally.raise x) tally, 0 < e.2 :=
    List.foldlRecOn (motive := fun tally : Tally => ∀ e ∈ tally, 0 < e.2) ps _ hpositive
      fun _ h x _ => Tally.positive_raise x h
  obtain ⟨htally, hfound⟩ := h _ hraised
  refine ⟨?_, hfound⟩
  change ps.foldl (fun tally x => tally.lower x) (free.run _).2 = tally
  rw [htally]
  exact Tally.lower_raise_all ps hpositive

theorem union {frees : List (StateM Tally (List String))} (h : ∀ free ∈ frees, Restores free) :
    Restores (union frees) := by
  induction frees with
  | nil => exact nothing
  | cons free frees ih =>
    obtain ⟨hfree, hfrees⟩ := List.forall_mem_cons.1 h
    intro tally hpositive
    obtain ⟨htally, hfound⟩ := hfree tally hpositive
    obtain ⟨htally', hmore⟩ := ih hfrees tally hpositive
    have hrun : (Term.union (free :: frees)).run tally =
        (unite (free.run tally).1 ((Term.union frees).run (free.run tally).2).1,
          ((Term.union frees).run (free.run tally).2).2) := rfl
    rw [hrun, htally]
    refine ⟨htally', hfound.append (hmore.filter _) fun x hx hy => ?_⟩
    simpa [hx] using (List.mem_filter.1 hy).2

theorem union_fold {ts : List Term} (h : ∀ t ∈ ts, Restores (t.fold freeNamesUnder)) :
    Restores (Term.union (foldAll freeNamesUnder ts)) := by
  rw [foldAll_eq]
  exact union (List.forall_mem_map.2 h)

end Restores

theorem restores (t : Term) : Restores (t.fold freeNamesUnder) := by
  induction t using Term.induction with
  | abs ps b ih => exact ih.under ps
  | app ts ih => exact .union_fold ih
  | list ts ih => exact .union_fold ih
  | tuple ts ih => exact .union_fold ih
  | var x => exact .single x
  | record cs ih =>
    rw [fold, foldConstructors_eq]
    change Restores (union (fieldBodies _))
    rw [fieldBodies_map]
    exact .union (List.forall_mem_map.2 (forall_mem_fieldBodies.2 ih))
  | letIn bs b ihs ih =>
    rw [fold, foldBindings_eq]
    refine .under _ (.union (List.forall_mem_cons.2 ⟨ih, ?_⟩))
    rw [List.map_map]
    exact List.forall_mem_map.2 fun d hd => (ihs d hd).under d.params
  | _ => exact .nothing

/-- The free names of a term are those of the textbook, each once. Read under any tally of bound
names, a term gives the tally back as it was, and of its free names finds those that the tally does
not bind. -/
theorem run_freeNamesUnder (t : Term) : t.freeNames.Nodup ∧ t.freeNames.toFinset = t.freeSet ∧
    ∀ tally : Tally, tally.Sound →
      ∃ found, (t.fold freeNamesUnder).run tally = (found, tally) ∧ found.Nodup ∧
      found.toFinset = t.freeSet.filter (tally.count · = 0) := by
  refine ⟨(restores t [] (by simp)).2, Finset.ext fun x => List.mem_toFinset.trans mem_freeSet.symm,
    ?_⟩
  intro tally hsound
  obtain ⟨htally, hdistinct⟩ := restores t tally hsound.positive
  refine ⟨_, Prod.ext rfl htally, hdistinct, Finset.ext fun x => ?_⟩
  have hknown : Known [] t := known t
  rw [List.mem_toFinset, Finset.mem_filter, mem_freeSet]
  exact (hknown tally hsound).2.2 x

/-- Two parameters of one name, two definitions of one name, and a parameter that hides a name bound
twice around it. -/
theorem run_freeNamesUnder_twins :
    let t : Term := .letIn
      [⟨"f", ["x", "x"], .app [.var "x", .var "g", .var "z"]⟩,
        ⟨"f", ["y"], .app [.var "f", .var "x", .var "z"]⟩]
      (.app [.abs ["z"] (.app [.var "z", .var "w"]), .var "f"])
    let tally : Tally := [("z", 2)]
    tally.Sound ∧ ∃ found, (t.fold freeNamesUnder).run tally = (found, tally) ∧ found.Nodup ∧
      found.toFinset = {"g", "x", "w"} := by
  intro t tally
  have hsound : tally.Sound := ⟨by decide, by decide⟩
  obtain ⟨-, -, hunder⟩ := run_freeNamesUnder t
  obtain ⟨found, hrun, hdistinct, hfound⟩ := hunder tally hsound
  exact ⟨hsound, found, hrun, hdistinct, hfound.trans (by decide)⟩

end SugaredLambda.Term
