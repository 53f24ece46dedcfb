import Mathlib.Order.Bounds.Basic
import SugaredLambda.Proofs.Library.Selection

/-! What the library adds to a term: its least part that suffices, which a worklist finds in any
order as well. -/
namespace SugaredLambda.Library
open Term Definitions
variable {ds : List (Binding Term)} {d : Binding Term} {t : Term} {x : String}

/-- The names of the library that are free in a term are among some names, and with the name of a
definition those that it needs. -/
structure Suffices (t : Term) (names : Set String) : Prop where
  free : ∀ d ∈ definitions, d.name ∈ t.freeNames → d.name ∈ names
  needed : ∀ d ∈ definitions, d.name ∈ names → ∀ e ∈ definitions, e.name ∈ requirements d →
    e.name ∈ names

theorem nodup_definitions : (definitions.map (·.name)).Nodup := by decide +kernel

/-- Whatever is needed on the way from the last definition to the first is among names
that suffice. -/
theorem Suffices.select {names : Set String} (h : Suffices t names) (hds : ds ⊆ definitions) :
    (∀ d ∈ (select t.freeNames ds).1, d.name ∈ names) ∧
      ∀ d ∈ definitions, d.name ∈ (Library.select t.freeNames ds).2 → d.name ∈ names := by
  induction ds with
  | nil => exact ⟨fun d hd => absurd hd List.not_mem_nil, h.free⟩
  | cons d ds ih =>
    obtain ⟨hd, hds⟩ := List.cons_subset.1 hds
    obtain ⟨hchosen, hneeded⟩ := ih hds
    by_cases hmem : d.name ∈ (Library.select t.freeNames ds).2
    · rw [select_cons_of_mem hmem]
      have hname := hneeded d hd hmem
      refine ⟨List.forall_mem_cons.2 ⟨hname, hchosen⟩, fun e he hrequired => ?_⟩
      exact (List.mem_append.1 hrequired).elim (h.needed d hd hname e he) (hneeded e he)
    · rw [select_cons_of_not_mem hmem]
      exact ⟨hchosen, hneeded⟩

theorem mem_names_chosen (hd : d ∈ chosen t) (hx : x ∈ requirements d) :
    x ∈ (chosen t).map (·.name) := by
  obtain ⟨before, after, hsplit⟩ := List.append_of_mem hd
  have hbefore := ((hsplit ▸ inTurn_chosen t).before hx).resolve_right List.not_mem_nil
  rw [hsplit, List.map_append]
  exact List.mem_append_left _ hbefore

theorem suffices_chosen (t : Term) : Suffices t {x | x ∈ (chosen t).map (·.name)} where
  free d hd hfree := by
    rw [Set.mem_ofPred_eq]
    exact List.mem_map_of_mem (mem_chosen hd hfree)
  needed d hd hname e _ he := by
    rw [Set.mem_ofPred_eq] at hname ⊢
    obtain ⟨d', hd', hsame⟩ := List.mem_map.1 hname
    obtain rfl := List.inj_on_of_nodup_map nodup_definitions (mem_definitions hd') hd hsame
    exact mem_names_chosen hd' he

theorem isLeast_chosen (t : Term) :
    IsLeast {names | Suffices t names} {x | x ∈ (chosen t).map (·.name)} := by
  refine ⟨suffices_chosen t, fun names h x hx => ?_⟩
  obtain ⟨d, hd, rfl⟩ := List.mem_map.1 hx
  exact (h.select (List.Subset.refl definitions)).1 d hd

theorem eq_filter_of_sublist {es : List (Binding Term)} (h : es.Sublist ds)
    (hds : (ds.map (·.name)).Nodup) : es = ds.filter fun d => d.name ∈ es.map (·.name) := by
  induction h with
  | slnil => rfl
  | @cons es ds d h ih =>
    rw [List.map_cons, List.nodup_cons] at hds
    have hd : d.name ∉ es.map (·.name) := fun hd => hds.1 ((h.map (·.name)).subset hd)
    rw [List.filter_cons_of_neg (by simpa using hd), ← ih hds.2]
  | @cons_cons es ds d h ih =>
    rw [List.map_cons, List.nodup_cons] at hds
    have hother : ∀ e ∈ ds, e.name ≠ d.name :=
      fun e he hsame => hds.1 (hsame ▸ List.mem_map_of_mem he)
    have hfilter : ds.filter (fun e => e.name ∈ (d :: es).map (·.name)) =
        ds.filter fun e => e.name ∈ es.map (·.name) :=
      List.filter_congr fun e he => by simp [hother e he]
    rw [List.filter_cons_of_pos (by simp), hfilter, ← ih hds.2]

abbrev Entry := {d : Binding Term // d ∈ definitions}

def entries (names : List String) : List Entry :=
  definitions.attach.filter fun d => names.contains d.1.name

theorem mem_entries {names : List String} {e : Entry} : e ∈ entries names ↔ e.1.name ∈ names := by
  simp [entries]

/-- The order in which the definitions of some names come, of which nothing is known. -/
structure Enumeration where
  list : List String → List Entry
  perm : ∀ names, (list names).Perm (entries names)

def unused (used : List String) : Nat := (definitions.filter fun d => d.name ∉ used).length

theorem unused_cons {used : List String} (e : Entry) (h : e.1.name ∉ used) :
    unused (e.1.name :: used) < unused used := by
  have hfilter : definitions.filter (fun d => d.name ∉ e.1.name :: used) =
      (definitions.filter fun d => d.name ∉ used).filter fun d => d.name ≠ e.1.name := by
    rw [List.filter_filter]
    exact List.filter_congr fun d _ => by simp
  rw [unused, unused, hfilter]
  refine List.length_filter_lt_length_iff_exists.2 ⟨e.1, ?_, by simp⟩
  exact List.mem_filter.2 ⟨e.2, by simpa using h⟩

/-- Takes up what waits; with a definition that is new, those that it needs wait as well. -/
def gather (set : Enumeration) (used : List String) : List Entry → List String
  | [] => used
  | e :: pending =>
    if e.1.name ∈ used then gather set used pending
    else gather set (e.1.name :: used) (set.list (requirements e.1) ++ pending)
termination_by pending => (unused used, pending.length)
decreasing_by
  · exact .right _ (Nat.lt_succ_self _)
  · exact .left _ _ (unused_cons e ‹_›)

def gathered (set : Enumeration) (t : Term) : List String :=
  gather set [] (set.list t.freeNames)

/-- What is used needs only what is used or waits. -/
def Covered (used : List String) (pending : List Entry) : Prop :=
  ∀ d ∈ definitions, d.name ∈ used → ∀ e ∈ definitions, e.name ∈ requirements d →
    e.name ∈ used ∨ e.name ∈ pending.map (·.1.name)

section
variable {set : Enumeration} {used : List String} {pending : List Entry} {e : Entry}

theorem covered_of_mem (he : e.1.name ∈ used) (h : Covered used (e :: pending)) :
    Covered used pending := by
  intro d hd hname f hf hneeds
  rcases h d hd hname f hf hneeds with hused | hpending
  · exact .inl hused
  · rcases List.mem_cons.1 hpending with hsame | hpending
    · exact .inl (hsame ▸ he)
    · exact .inr hpending

theorem covered_cons (set : Enumeration) (h : Covered used (e :: pending)) :
    Covered (e.1.name :: used) (set.list (requirements e.1) ++ pending) := by
  intro d hd hname f hf hneeds
  rw [List.map_append, List.mem_append, List.mem_cons]
  by_cases hsame : d.name = e.1.name
  · obtain rfl := List.inj_on_of_nodup_map nodup_definitions hd e.2 hsame
    have hwaits := (set.perm _).mem_iff.2 (mem_entries.2 hneeds : (⟨f, hf⟩ : Entry) ∈ _)
    exact .inr (.inl (List.mem_map.2 ⟨_, hwaits, rfl⟩))
  · have hcovered := h d hd ((List.mem_cons.1 hname).resolve_left hsame) f hf hneeds
    rw [List.map_cons, List.mem_cons] at hcovered
    tauto

theorem gather_covered (set : Enumeration) (h : Covered used pending) :
    Covered (gather set used pending) [] ∧ used ⊆ gather set used pending ∧
      ∀ e ∈ pending, e.1.name ∈ gather set used pending := by
  fun_induction gather set used pending with
  | case1 used => exact ⟨h, List.Subset.refl used, by simp⟩
  | case2 used e pending he ih =>
    obtain ⟨hcovered, hused, hpending⟩ := ih (covered_of_mem he h)
    exact ⟨hcovered, hused, List.forall_mem_cons.2 ⟨hused he, hpending⟩⟩
  | case3 used e pending he ih =>
    obtain ⟨hcovered, hused, hpending⟩ := ih (covered_cons set h)
    refine ⟨hcovered, fun x hx => hused (List.mem_cons_of_mem _ hx), ?_⟩
    refine List.forall_mem_cons.2 ⟨hused List.mem_cons_self, fun f hf => ?_⟩
    exact hpending f (List.mem_append_right _ hf)

theorem gather_subset {names : Set String} (h : Suffices t names) (hused : ∀ x ∈ used, x ∈ names)
    (hpending : ∀ e ∈ pending, e.1.name ∈ names) : ∀ x ∈ gather set used pending, x ∈ names := by
  fun_induction gather set used pending with
  | case1 used => exact hused
  | case2 used e pending he ih => exact ih hused (List.forall_mem_cons.1 hpending).2
  | case3 used e pending he ih =>
    obtain ⟨hname, hpending⟩ := List.forall_mem_cons.1 hpending
    refine ih (List.forall_mem_cons.2 ⟨hname, hused⟩) fun f hf => ?_
    rcases List.mem_append.1 hf with hf | hf
    · exact h.needed e.1 e.2 hname f.1 f.2 (mem_entries.1 ((set.perm _).mem_iff.1 hf))
    · exact hpending f hf

theorem isLeast_gathered (set : Enumeration) (t : Term) :
    IsLeast {names | Suffices t names} {x | x ∈ gathered set t} := by
  have hnone : Covered [] (set.list t.freeNames) := fun d _ hd => absurd hd List.not_mem_nil
  obtain ⟨hcovered, -, hpending⟩ := gather_covered set hnone
  refine ⟨⟨fun d hd hfree => ?_, fun d hd hname e he hneeds => ?_⟩, fun names h => ?_⟩
  · exact hpending ⟨d, hd⟩ ((set.perm _).mem_iff.2 (mem_entries.2 hfree))
  · exact (hcovered d hd hname e he hneeds).resolve_right List.not_mem_nil
  · refine gather_subset h (by simp) fun e he => ?_
    exact h.free e.1 e.2 (mem_entries.1 ((set.perm _).mem_iff.1 he))

/-- One pass finds what the worklist gathers, in whatever order it does so. -/
theorem chosen_eq_gathered (set : Enumeration) (t : Term) :
    chosen t = definitions.filter fun d => d.name ∈ gathered set t := by
  have hnames := (isLeast_chosen t).unique (isLeast_gathered set t)
  have hsublist : (chosen t).Sublist definitions := by
    rw [chosen]
    exact sublist_select _ _
  rw [eq_filter_of_sublist hsublist nodup_definitions]
  exact List.filter_congr fun d _ => decide_eq_decide.2 (Set.ext_iff.1 hnames d.name)

end

theorem mem_names_chosen_iff (hx : x ∈ t.freeNames) :
    x ∈ (chosen t).map (·.name) ↔ x ∈ definitions.map (·.name) := by
  constructor
  · intro h
    obtain ⟨d, hd, rfl⟩ := List.mem_map.1 h
    exact List.mem_map_of_mem (mem_definitions hd)
  · intro h
    obtain ⟨d, hd, rfl⟩ := List.mem_map.1 h
    exact List.mem_map_of_mem (mem_chosen hd hx)

theorem mem_freeNames_letIn (h : ∀ d ∈ ds, ∀ x ∈ requirements d, x ∈ ds.map (·.name)) :
    x ∈ (Term.letIn ds t).freeNames ↔ x ∈ t.freeNames ∧ x ∉ ds.map (·.name) := by
  rw [freeNames_eq, freeNames_eq, mem_namesHiding_letIn]
  refine and_congr_left fun hnot => or_iff_left ?_
  rintro ⟨d, hd, hbody, hparams⟩
  have hx : x ∈ requirements d := by
    rw [requirements, freeNames_eq, mem_namesHiding_abs]
    exact ⟨hbody, hparams⟩
  exact hnot (h d hd x hx)

theorem supply_eq_ite (t : Term) :
    supply t = if (chosen t).isEmpty then t else .letIn (chosen t) t := by
  delta supply chosen
  generalize (select t.freeNames definitions).1 = ds
  cases ds <;> rfl

theorem mem_freeNames_supply (t : Term) (x : String) :
    x ∈ (supply t).freeNames ↔ x ∈ t.freeNames ∧ x ∉ definitions.map (·.name) := by
  have hsupply : x ∈ (supply t).freeNames ↔ x ∈ t.freeNames ∧ x ∉ (chosen t).map (·.name) := by
    rw [supply_eq_ite]
    split
    next h =>
      rw [List.isEmpty_iff.1 h]
      exact (and_iff_left List.not_mem_nil).symm
    next => exact mem_freeNames_letIn fun d hd x hx => mem_names_chosen hd hx
  rw [hsupply]
  exact and_congr_right fun hx => not_congr (mem_names_chosen_iff hx)

theorem chosen_eq_nil (h : ∀ d ∈ definitions, d.name ∉ t.freeNames) : chosen t = [] := by
  have hnone : Suffices t ∅ :=
    ⟨fun d hd hfree => absurd hfree (h d hd), fun _ _ hname => absurd hname (Set.notMem_empty _)⟩
  refine List.eq_nil_iff_forall_not_mem.2 fun d hd => ?_
  exact Set.notMem_empty d.name ((hnone.select (List.Subset.refl definitions)).1 d hd)

theorem supply_supply (t : Term) : supply (supply t) = supply t := by
  have hnone : chosen (supply t) = [] := chosen_eq_nil fun d hd hfree =>
    ((mem_freeNames_supply t d.name).1 hfree).2 (List.mem_map_of_mem hd)
  rw [supply_eq_ite (supply t), hnone, List.isEmpty_nil, if_pos rfl]

/-- The definitions around a term are those of the least names that suffice for it, each once, in
the order of the library, which is the order that sorting would give them. They leave free what the
library does not know, so that nothing is left to add. -/
theorem supply_least (t : Term) :
    IsLeast {names | Suffices t names} {x | x ∈ (chosen t).map (·.name)} ∧
    (chosen t).Sublist definitions ∧ ((chosen t).map (·.name)).Nodup ∧
    supply t = (if (chosen t).isEmpty then t else .letIn (chosen t) t) ∧
    (∀ x, x ∈ (supply t).freeNames ↔ x ∈ t.freeNames ∧ x ∉ definitions.map (·.name)) ∧
    supply (supply t) = supply t ∧
    sort (supply t) = (if (chosen t).isEmpty then sort t else .letIn (chosen t) (sort t)) ∧
    ∀ set, chosen t = definitions.filter fun d => d.name ∈ gathered set t := by
  have hsublist : (chosen t).Sublist definitions := by
    rw [chosen]
    exact sublist_select _ _
  refine ⟨isLeast_chosen t, hsublist, (hsublist.map _).nodup nodup_definitions, supply_eq_ite t,
    mem_freeNames_supply t, supply_supply t, ?_, fun set => chosen_eq_gathered set t⟩
  rw [supply_eq_ite, apply_ite sort, sort_letIn_of_inTurn (inTurn_chosen t)
    (fun d hd => self_definitions d (mem_definitions hd)) fun d hd =>
      hasBlock_definitions d (mem_definitions hd)]

end SugaredLambda.Library
