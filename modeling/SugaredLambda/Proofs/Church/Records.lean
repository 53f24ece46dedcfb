import SugaredLambda.Proofs.Church.Replacement

/-! Records as plain terms: a consumer of the list of constructors, where a field is a function of
the record itself. -/
namespace SugaredLambda.Church
open Lambda Term

theorem congruence_delaySelf : Congruence fun k t u => delaySelf (k + 1) t = u where
  bound h := delaySelf_var_of_ne (by omega)
  deeper {k i j} h := by
    by_cases hi : i = k + 1 - 1
    · subst hi
      rw [delaySelf_var_self] at h
      cases h
    · rw [delaySelf_var_of_ne hi] at h
      obtain rfl := Lambda.var.inj h
      exact delaySelf_var_of_ne (by omega)
  abs h := congrArg Lambda.abs h
  app hf ha := congrArg₂ Lambda.app hf ha
  delay {k t u} h := by rw [delaySelf_delaySelf t (by omega), h]

section
variable (consumer self unused : String)

/-- `(name, (self -> (body consumer)))` -/
def plainField (x : Field Term) : Term :=
  .tuple [.str x.name,
    .abs [self] (.app [x.body.replace selfName (.abs [unused] (.var self)), .var consumer])]

/-- `(name, [field, ...])` -/
def plainConstructor (c : Constructor Term) : Term :=
  .tuple [.str c.name, .list (c.fields.map (plainField consumer self unused))]

/-- `(consumer -> (consumer [constructor, ...]))` -/
def plainRecord (cs : List (Constructor Term)) : Term :=
  .abs [consumer] (.app [.var consumer, .list (cs.map (plainConstructor consumer self unused))])

end

section
variable {consumer self unused : String} {scope : Scope} {depth : Int}
  {cs : List (Constructor Term)}

theorem hasEmptyApplication_plainField (x : Field Term) :
    (plainField consumer self unused x).hasEmptyApplication = x.body.hasEmptyApplication := by
  have hbody := hasEmptyApplication_replaceUnder (x := selfName)
    (s := .abs [unused] (.var self)) rfl x.body false
  simp only [plainField, replace, hasEmptyApplication_tuple, hasEmptyApplication_app,
    hasEmptyApplication_abs, hasEmptyApplication_str, hasEmptyApplication_var, List.isEmpty_cons,
    List.any_cons, List.any_nil, Bool.or_false, Bool.false_or, hbody]

theorem hasEmptyApplication_plainConstructor (c : Constructor Term) :
    (plainConstructor consumer self unused c).hasEmptyApplication =
      c.fields.any (·.body.hasEmptyApplication) := by
  simp only [plainConstructor, hasEmptyApplication_tuple, hasEmptyApplication_list,
    hasEmptyApplication_str, List.any_cons, List.any_nil, List.any_map, Bool.or_false,
    Bool.false_or]
  exact any_congr fun x _ => hasEmptyApplication_plainField x

theorem hasEmptyApplication_plainRecord (cs : List (Constructor Term)) :
    (plainRecord consumer self unused cs).hasEmptyApplication =
      (Term.record cs).hasEmptyApplication := by
  simp only [plainRecord, hasEmptyApplication_abs, hasEmptyApplication_app,
    hasEmptyApplication_list, hasEmptyApplication_var, hasEmptyApplication_record, fieldBodies,
    List.isEmpty_cons, List.any_cons, List.any_nil, List.any_map, List.any_flatMap, Bool.or_false,
    Bool.false_or]
  exact any_congr fun c _ => hasEmptyApplication_plainConstructor c

theorem place_pair (name : String) (t : Term) (scope : Scope) (depth : Int) :
    place (.tuple [.str name, t]) scope depth =
      (fun u => consumed [string name, u]) <$> place t scope (depth + 1) := by
  rw [place_tuple, List.mapM_cons, List.mapM_cons, List.mapM_nil]
  cases place t scope (depth + 1) <;> rfl

theorem place_call (f a : Term) (scope : Scope) (depth : Int) :
    place (.app [f, a]) scope depth =
      (do return .app (← place f scope depth) (← place a scope depth)) := by
  rw [place_app_cons, List.mapM_cons, List.mapM_nil]
  cases place a scope depth <;> rfl

/-- In a field, `#` stands for the record itself, behind one more binder. -/
theorem meets_delaySelf (hscope : ∀ y i, scope.lookup y = some i → i < depth) (hne : unused ≠ self)
    {names : List String} (hconsumer : consumer ∉ names) (hself : self ∉ names) :
    Meets (fun k t u => delaySelf (k + 1) t = u) selfName (.abs [unused] (.var self)) false 0 names
      ((selfName, depth + 7) :: scope) (depth + 8)
      ((self, depth + 7) :: (consumer, depth) :: scope) (depth + 8) where
  sees y hy := by
    obtain ⟨hy, hkept⟩ := mem_kept.1 hy
    have hyself : y ≠ self := fun heq => hself (heq ▸ hy)
    have hyconsumer : y ≠ consumer := fun heq => hconsumer (heq ▸ hy)
    rw [reference_cons_of_ne (hkept.resolve_left Bool.false_ne_true), reference_cons_of_ne hyself,
      reference_cons_of_ne hyconsumer]
    refine alike_reference (r := fun k t u => delaySelf (k + 1) t = u) (k := 0) rfl fun i hi =>
      delaySelf_var_of_ne ?_
    have hlt := hscope y i hi
    omega
  stands _ n := by
    have hrecord : depth + 8 + n - (depth + 7) - 1 = ((0 + n : Nat) : Int) + 1 - 1 := by omega
    have hbehind : depth + 8 + n + 1 - (depth + 7) - 1 = ((0 + n : Nat) : Int) + 1 := by omega
    rw [place_abs, function_one, place_var, reference_cons_of_ne hne.symm,
      reference_of_some List.lookup_cons_self, reference_of_some List.lookup_cons_self,
      hrecord, hbehind]
    exact .ok (delaySelf_var_self _)

theorem place_plainField (hscope : ∀ y i, scope.lookup y = some i → i < depth)
    (hne : consumer ≠ self) (hunused : unused ≠ self) {x : Field Term}
    (hconsumer : consumer ∉ x.body.names) (hself : self ∉ x.body.names) :
    place (plainField consumer self unused x) ((consumer, depth) :: scope) (depth + 6) =
      field scope depth (x.map place) := by
  have hclear : ∀ y ∈ (Term.abs [unused] (.var self)).demanded, y ∉ x.body.names := fun y hy => by
    rw [demanded_abs, demanded_var, mem_without, List.mem_singleton] at hy
    exact hy.1 ▸ hself
  have hmeets := meets_delaySelf hscope hunused (mt (demanded_subset_names x.body ·) hconsumer)
    (mt (demanded_subset_names x.body ·) hself)
  have hbody := (replaced congruence_delaySelf (fun h => absurd rfl h) hclear hmeets).eq_map
  -- one binder for the pair, one for the record; the consumer is then seven binders further out
  have hpair : depth + 6 + 1 = depth + 7 := by omega
  have hthunk : depth + 7 + 1 = depth + 8 := by omega
  have hindex : depth + 8 - depth - 1 = 7 := by omega
  have hcall : place (.app [x.body.replace selfName (.abs [unused] (.var self)), .var consumer])
      ((self, depth + 7) :: (consumer, depth) :: scope) (depth + 8) =
        (fun t => Lambda.app (delaySelf 1 t) (.var 7)) <$>
          place x.body ((selfName, depth + 7) :: scope) (depth + 8) := by
    rw [place_call, replace, hbody, place_var, reference_cons_of_ne hne,
      reference_of_some List.lookup_cons_self, hindex]
    cases place x.body ((selfName, depth + 7) :: scope) (depth + 8) <;> rfl
  have hfield : field scope depth (x.map place) = (fun t => consumed [string x.name, thunk t]) <$>
      place x.body ((selfName, depth + 7) :: scope) (depth + 8) := rfl
  rw [plainField, place_pair, place_abs, function_one, hpair, hthunk, hcall, hfield]
  cases place x.body ((selfName, depth + 7) :: scope) (depth + 8) <;> rfl

theorem place_plainConstructor (hscope : ∀ y i, scope.lookup y = some i → i < depth)
    (hne : consumer ≠ self) (hunused : unused ≠ self) {c : Constructor Term}
    (hnames : ∀ x ∈ c.fields, consumer ∉ x.body.names ∧ self ∉ x.body.names) :
    place (plainConstructor consumer self unused c) ((consumer, depth) :: scope) (depth + 3) =
      constructor scope depth (c.map place) := by
  have hfields : (c.fields.map (plainField consumer self unused)).mapM
      (place · ((consumer, depth) :: scope) (depth + 6)) = c.fields.mapM fun x =>
        field scope depth (x.map place) := by
    rw [List.mapM_map]
    exact mapM_congr_left fun x hx => place_plainField hscope hne hunused
      (hnames x hx).1 (hnames x hx).2
  have hdepth : depth + 3 + 1 + 2 = depth + 6 := by omega
  rw [plainConstructor, place_pair, place_list, hdepth, hfields, constructor_map]
  exact Functor.map_map _ _ _

/-- A record is encoded as its plain reading, and neither is encoded where the other is not. -/
theorem encode_record (hscope : ∀ y i, scope.lookup y = some i → i < depth) (hne : consumer ≠ self)
    (hunused : unused ≠ self) (hconsumer : consumer ∉ (Term.record cs).names)
    (hself : self ∉ (Term.record cs).names) :
    encode (.record cs) scope depth = encode (plainRecord consumer self unused cs) scope depth := by
  have hbodies : ∀ t ∈ fieldBodies cs, consumer ∉ t.names ∧ self ∉ t.names := fun t ht => by
    rw [names_record] at hconsumer hself
    exact ⟨mt (List.mem_flatMap_of_mem ht) hconsumer, mt (List.mem_flatMap_of_mem ht) hself⟩
  have hnames : ∀ c ∈ cs, ∀ x ∈ c.fields, consumer ∉ x.body.names ∧ self ∉ x.body.names :=
    forall_mem_fieldBodies.1 hbodies
  have hctors : (cs.map (plainConstructor consumer self unused)).mapM
      (place · ((consumer, depth) :: scope) (depth + 3)) =
        cs.mapM fun c => constructor scope depth (c.map place) := by
    rw [List.mapM_map]
    exact mapM_congr_left fun c hc => place_plainConstructor hscope hne hunused (hnames c hc)
  have hindex : depth + 1 - depth - 1 = 0 := by omega
  have hdepth : depth + 1 + 2 = depth + 3 := by omega
  have hplace : place (plainRecord consumer self unused cs) scope depth =
      place (.record cs) scope depth := by
    rw [plainRecord, place_abs, function_one, place_call, place_var,
      reference_of_some List.lookup_cons_self, hindex, place_list, hdepth, hctors, place_record_eq]
    cases cs.mapM fun c => constructor scope depth (c.map place) <;> rfl
  rw [encode, encode, hasEmptyApplication_plainRecord]
  split
  · rfl
  · exact hplace.symm

/-- `{c | p = (x, #); q = (y -> # {d | r = (#, y)}) | e}` -/
theorem encode_record_nested :
    let inner : Term := .record [⟨"d", [⟨"r", .tuple [.var "#", .var "y"]⟩]⟩]
    let outer : List (Constructor Term) := [⟨"c", [⟨"p", .tuple [.var "x", .var "#"]⟩,
      ⟨"q", .abs ["y"] (.app [.var "#", inner])⟩]⟩, ⟨"e", []⟩]
    let item (name : String) (t : Term) : Term := .tuple [.str name, t]
    let plain : Term := .abs ["k"] (.app [.var "k", .list [item "c" (.list [
      item "p" (.abs ["s"] (.app [.tuple [.var "x", .abs ["u"] (.var "s")], .var "k"])),
      item "q" (.abs ["s"] (.app [.abs ["y"] (.app [.abs ["u"] (.var "s"), inner]), .var "k"]))]),
      item "e" (.list [])]])
    plainRecord "k" "s" "u" outer = plain ∧
      ∃ l, encode (.record outer) [("x", 1), ("#", 0)] 2 = .ok l ∧
      encode plain [("x", 1), ("#", 0)] 2 = .ok l := by
  intro inner outer item plain
  have hplain : plainRecord "k" "s" "u" outer = plain := rfl
  obtain ⟨l, hl⟩ : ∃ l, encode (.record outer) [("x", 1), ("#", 0)] 2 = .ok l := ⟨_, rfl⟩
  have hbelow : ∀ e ∈ [("x", (1 : Int)), ("#", 0)], e.2 < 2 := by decide
  have hscope : ∀ y i, List.lookup y [("x", (1 : Int)), ("#", 0)] = some i → i < 2 :=
    fun y i h => hbelow (y, i) (mem_of_lookup h)
  have hconsumer : "k" ∉ (Term.record outer).names := by decide
  have hself : "s" ∉ (Term.record outer).names := by decide
  have hencode := encode_record hscope (by decide) (by decide : "u" ≠ "s") hconsumer hself
  rw [hplain, hl] at hencode
  exact ⟨hplain, l, hl, hencode.symm⟩

end
end SugaredLambda.Church
