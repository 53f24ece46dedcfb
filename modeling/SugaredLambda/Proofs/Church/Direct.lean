import SugaredLambda.Proofs.Church.Evaluation
import SugaredLambda.Proofs.Church.Reading

/-! A decoder without use counts, which searches the free names of items. The counts decide the
same. -/
namespace SugaredLambda.Church
variable {t : Term} {uses : Uses} {items : List Term} {cons nil k : String}

/-- `(k -> (k 1 2 3))` is `(1,2,3)`, when the consumer is not free in an item. -/
def asTupleDirectly : Term → Term
  | .abs [k] (.app (.var x :: items)) =>
    if x = k ∧ ∀ t ∈ items, k ∉ t.freeNames then .tuple items else .abs [k] (.app (.var x :: items))
  | t => t

/-- `(c n -> (c 1 (c 2 (c 3 n))))` is `[1,2,3]`, when neither parameter is free in an item. -/
def asListDirectly : Term → Term
  | .abs [cons, nil] b =>
    let (items, last) := consItems cons b
    if last = .var nil ∧ ∀ t ∈ items, cons ∉ t.freeNames ∧ nil ∉ t.freeNames then .list items
    else .abs [cons, nil] b
  | t => t

def sugaredDirectly (t : Term) : Term :=
  asString (asBits (asListDirectly (asTupleDirectly (asNumber t))))

def called : Term → Term → Term
  | .app ts, a => .app (ts ++ [a])
  | f, a => .app [f, a]

def decodeDirectly (depth : Nat) : Lambda → Term
  | .var i => .var (variableName i depth)
  | .abs b => sugaredDirectly (mergeParams (.abs [binderName depth] (decodeDirectly (depth + 1) b)))
  | .app f a => called (decodeDirectly depth f) (decodeDirectly depth a)

theorem count_demanded_iterated (fn : String) (last : Term) (n : Nat) (x : String) :
    (iterated fn last n).demanded.count x = n * [fn].count x + last.demanded.count x := by
  induction n with
  | zero => simp [iterated]
  | succ n ih =>
    simp only [iterated, Term.demanded_app, List.flatMap_cons, List.flatMap_nil, Term.demanded_var,
      List.count_append, List.count_nil, ih, Nat.add_one_mul]
    omega

theorem count_demanded_consumer (k : String) (items : List Term) (x : String) :
    (Term.app (.var k :: items)).demanded.count x =
      [k].count x + (items.flatMap Term.demanded).count x := by
  rw [Term.demanded_app, List.flatMap_cons, Term.demanded_var, List.count_append]

theorem flatMap_demanded_of_mapM {α : Type} {f : Term → Option α} {found : List α}
    (hf : ∀ t a, f t = some a → t.demanded = []) (h : items.mapM f = some found) :
    items.flatMap Term.demanded = [] := by
  induction items generalizing found with
  | nil => rfl
  | cons t ts ih =>
    simp only [List.mapM_cons, Option.bind_eq_bind, Option.bind_eq_some_iff] at h
    obtain ⟨a, ha, more, hmore, -⟩ := h
    rw [List.flatMap_cons, hf t a ha, ih hmore]
    rfl

theorem forall_not_mem_freeNames (hi : ∀ t ∈ items, t.Plain) (x : String) :
    (∀ t ∈ items, x ∉ t.freeNames) ↔ (items.flatMap Term.demanded).count x = 0 := by
  rw [List.count_eq_zero, List.mem_flatMap, not_exists]
  refine forall_congr' fun t => ?_
  rw [not_and]
  exact forall_congr' fun ht => not_congr ((hi t ht).mem_demanded_iff x).symm

def IsLiteral : Term → Prop
  | .nat _ | .list _ | .tuple _ | .char _ | .str _ | .word _ => True
  | _ => False

/-- A term or a literal for it that asks for the same names, each as often. -/
structure Keeps (t' t : Term) : Prop where
  same_or : t' = t ∨ IsLiteral t'
  count_eq : ∀ x, t'.demanded.count x = t.demanded.count x
  plain : t'.Plain

theorem Keeps.refl (ht : t.Plain) : Keeps t t := ⟨.inl rfl, fun _ => rfl, ht⟩

theorem Keeps.trans {t'' t' t : Term} (h' : Keeps t'' t') (h : Keeps t' t) : Keeps t'' t where
  same_or := by
    rcases h'.same_or with rfl | hl
    · exact h.same_or
    · exact .inr hl
  count_eq := fun x => (h'.count_eq x).trans (h.count_eq x)
  plain := h'.plain

theorem asTupleDirectly_cases (t : Term) : asTupleDirectly t = t ∨ ∃ k items,
    t = .abs [k] (.app (.var k :: items)) ∧ (∀ t ∈ items, k ∉ t.freeNames) ∧
    asTupleDirectly t = .tuple items := by
  fun_cases asTupleDirectly t with
  | case1 k x items h => exact .inr ⟨k, items, by rw [h.1], h.2, rfl⟩
  | case2 => exact .inl rfl
  | case3 => exact .inl rfl

theorem asListDirectly_cases (t : Term) : asListDirectly t = t ∨ ∃ cons nil items,
    t = .abs [cons, nil] (strung cons (.var nil) items) ∧
    (∀ t ∈ items, cons ∉ t.freeNames ∧ nil ∉ t.freeNames) ∧ asListDirectly t = .list items := by
  fun_cases asListDirectly t with
  | case1 cons nil b items last h hc =>
    rw [hc.1] at h
    exact .inr ⟨cons, nil, items, by rw [← eq_strung_of_consItems h], hc.2, rfl⟩
  | case2 => exact .inl rfl
  | case3 => exact .inl rfl

theorem keeps_asNumber (ht : t.Plain) : Keeps (asNumber t) t := by
  obtain h | ⟨fn, arg, n, rfl, h⟩ := asNumber_cases t
  · rw [h]; exact .refl ht
  · rw [h]
    refine ⟨.inr trivial, fun x => ?_, .nat n⟩
    rw [Term.demanded_abs, count_without, count_demanded_iterated, Term.demanded_var]
    grind [Term.demanded_nat]

theorem keeps_asTupleDirectly (ht : t.Plain) : Keeps (asTupleDirectly t) t := by
  obtain h | ⟨k, items, rfl, hk, h⟩ := asTupleDirectly_cases t
  · rw [h]; exact .refl ht
  · cases ht with
    | abs _ hb =>
      cases hb with
      | app _ hts =>
        have hi : ∀ t ∈ items, t.Plain := fun t ht => hts t (List.mem_cons_of_mem _ ht)
        have hzero := (forall_not_mem_freeNames hi k).1 hk
        rw [h]
        refine ⟨.inr trivial, fun x => ?_, .tuple hi⟩
        rw [Term.demanded_abs, count_without, count_demanded_consumer, Term.demanded_tuple]
        grind

theorem keeps_asListDirectly (ht : t.Plain) : Keeps (asListDirectly t) t := by
  obtain h | ⟨cons, nil, items, rfl, hfree, h⟩ := asListDirectly_cases t
  · rw [h]; exact .refl ht
  · cases ht with
    | abs _ hb =>
      have hi := plain_of_strung hb
      have hcons := (forall_not_mem_freeNames hi cons).1 fun t ht => (hfree t ht).1
      have hnil := (forall_not_mem_freeNames hi nil).1 fun t ht => (hfree t ht).2
      rw [h]
      refine ⟨.inr trivial, fun x => ?_, .list hi⟩
      rw [Term.demanded_abs, count_without, count_strung Term.demanded_var Term.demanded_app,
        Term.demanded_list, Term.demanded_var]
      grind

theorem demanded_of_asBit? {b : Bool} (h : asBit? t = some b) : t.demanded = [] := by
  obtain ⟨x, y, rfl, -⟩ | ⟨rfl, -⟩ := asBit?_eq_some h
  · rw [Term.demanded_abs, Term.demanded_var, without]
    simp
  · rfl

theorem keeps_asBits (ht : t.Plain) : Keeps (asBits t) t := by
  obtain h | ⟨items, bits, rfl, hbits, h⟩ := asBits_cases t
  · rw [h]; exact .refl ht
  · have hnone := flatMap_demanded_of_mapM (fun _ _ => demanded_of_asBit?) hbits
    refine ⟨?_, fun x => ?_, (standsFor_asBits ht).plain⟩
    · rcases h with ⟨-, h⟩ | ⟨-, h⟩ <;> exact .inr (h ▸ trivial)
    · rw [Term.demanded_tuple, hnone]
      rcases h with ⟨-, h⟩ | ⟨-, h⟩ <;> rw [h] <;> rfl

theorem demanded_of_charText? {s : String} (h : charText? t = some s) : t.demanded = [] := by
  cases t with
  | char => rfl
  | _ => cases h

theorem keeps_asString (ht : t.Plain) : Keeps (asString t) t := by
  obtain h | ⟨items, texts, rfl, htexts, h⟩ := asString_cases t
  · rw [h]; exact .refl ht
  · rw [h]
    refine ⟨.inr trivial, fun x => ?_, .str _⟩
    rw [Term.demanded_list, flatMap_demanded_of_mapM (fun _ _ => demanded_of_charText?) htexts]
    rfl

theorem keeps_sugaredDirectly (ht : t.Plain) : Keeps (sugaredDirectly t) t := by
  have hn := keeps_asNumber ht
  have ht := (keeps_asTupleDirectly hn.plain).trans hn
  have hl := (keeps_asListDirectly ht.plain).trans ht
  have hb := (keeps_asBits hl.plain).trans hl
  exact (keeps_asString hb.plain).trans hb

/-- The parameters of an abstraction are counted as often as its body asks for them. -/
def Counted (uses : Uses) (t : Term) : Prop :=
  ∀ ps b, t = .abs ps b → ∀ p ∈ ps, uses.count p = b.demanded.count p

theorem Counted.of_keeps {t' : Term} (h : Counted uses t) (hk : Keeps t' t) : Counted uses t' := by
  rcases hk.same_or with rfl | hl
  · exact h
  · rintro ps b rfl
    exact hl.elim

theorem count_consumer_eq_one_iff (ht : (Term.abs [k] (.app (.var k :: items))).Plain)
    (h : Counted uses (.abs [k] (.app (.var k :: items)))) :
    uses.count k = 1 ↔ ∀ t ∈ items, k ∉ t.freeNames := by
  have hcount := h _ _ rfl k List.mem_cons_self
  rw [count_demanded_consumer, List.count_singleton_self] at hcount
  cases ht with
  | abs _ hb =>
    cases hb with
    | app _ hts =>
      rw [forall_not_mem_freeNames fun t ht => hts t (List.mem_cons_of_mem _ ht)]
      omega

theorem asTuple_eq_asTupleDirectly (ht : t.Plain) (h : Counted uses t) :
    asTuple uses t = asTupleDirectly t := by
  fun_cases asTuple uses t with
  | case1 k x items hc =>
    obtain ⟨rfl, hone⟩ := hc
    rw [asTupleDirectly, if_pos ⟨rfl, (count_consumer_eq_one_iff ht h).1 hone⟩]
  | case2 k x items hc =>
    rw [asTupleDirectly, if_neg]
    rintro ⟨rfl, hfree⟩
    exact hc ⟨rfl, (count_consumer_eq_one_iff ht h).2 hfree⟩
  | case3 t hshape => rw [asTupleDirectly]; exact hshape

theorem count_fold_iff (ht : (Term.abs [cons, nil] (strung cons (.var nil) items)).Plain)
    (h : Counted uses (.abs [cons, nil] (strung cons (.var nil) items))) :
    uses.count cons = items.length ∧ uses.count nil = 1 ↔
      ∀ t ∈ items, cons ∉ t.freeNames ∧ nil ∉ t.freeNames := by
  have hcons := h _ _ rfl cons (by simp)
  have hnil := h _ _ rfl nil (by simp)
  cases ht with
  | abs hps hb =>
    have hne : cons ≠ nil := by simpa using hps
    have hi := plain_of_strung hb
    have hconsNil : [nil].count cons = 0 := List.count_eq_zero.2 (by simpa using hne)
    have hnilCons : [cons].count nil = 0 := List.count_eq_zero.2 (by simpa using hne.symm)
    rw [count_strung Term.demanded_var Term.demanded_app, Term.demanded_var,
      List.count_singleton_self] at hcons hnil
    rw [hconsNil] at hcons
    rw [hnilCons] at hnil
    simp only [imp_and, forall_and]
    rw [forall_not_mem_freeNames hi, forall_not_mem_freeNames hi]
    omega

theorem asList_eq_asListDirectly (ht : t.Plain) (h : Counted uses t) :
    asList uses t = asListDirectly t := by
  fun_cases asList uses t with
  | case1 cons nil b items last hitems hc =>
    obtain ⟨rfl, hcount⟩ := hc
    obtain rfl := eq_strung_of_consItems hitems
    simp only [asListDirectly, hitems]
    rw [if_pos ⟨trivial, (count_fold_iff ht h).1 hcount⟩]
  | case2 cons nil b items last hitems hc =>
    simp only [asListDirectly, hitems]
    rw [if_neg]
    rintro ⟨rfl, hfree⟩
    obtain rfl := eq_strung_of_consItems hitems
    exact hc ⟨rfl, (count_fold_iff ht h).2 hfree⟩
  | case3 t hshape => rw [asListDirectly]; exact hshape

theorem sugared_eq_sugaredDirectly (ht : t.Plain) (h : Counted uses t) :
    sugared uses t = sugaredDirectly t := by
  have hn := keeps_asNumber ht
  have ht := (keeps_asTupleDirectly hn.plain).trans hn
  rw [sugared, asTuple_eq_asTupleDirectly hn.plain (h.of_keeps hn),
    asList_eq_asListDirectly ht.plain (h.of_keeps ht), sugaredDirectly]

/-- The names of the binders around a term and its own parameters are counted right. -/
structure Exact (depth : Nat) (r : Reading) : Prop where
  bound : ∀ j < depth, r.2.count (binderName j) = r.1.demanded.count (binderName j)
  params : Counted r.2 r.1

variable {depth : Nat} {r : Reading}

theorem count_demanded_mergeParams (t : Term) (x : String) :
    (mergeParams t).demanded.count x = t.demanded.count x := by
  fun_cases mergeParams t with
  | case1 ps qs b =>
    simp only [Term.demanded_abs, count_without, List.mem_append]
    grind
  | case2 => rfl

theorem Exact.merged (h : Exact (depth + 1) r) (hr : Sound (depth + 1) r) :
    Counted r.2 (mergeParams (.abs [binderName depth] r.1)) := by
  have hbound := h.bound depth (Nat.lt_succ_self depth)
  have hnew := hr.not_mem_params
  obtain ⟨t, uses⟩ := r
  cases t with
  | abs qs c =>
    rintro ps b hb p hp
    cases hb
    cases hp with
    | head => exact hbound.trans ((count_without c.demanded qs _).trans (if_neg hnew))
    | tail _ hp => exact h.params _ _ rfl p hp
  | _ =>
    rintro ps b hb p hp
    cases hb
    obtain rfl := List.mem_singleton.1 hp
    exact hbound

theorem abstracted_eq (h : Exact (depth + 1) r) (hr : Sound (depth + 1) r) :
    (abstracted depth r).1 = sugaredDirectly (mergeParams (.abs [binderName depth] r.1)) :=
  sugared_eq_sugaredDirectly (plain_mergeParams hr.plain hr.not_mem_params) (h.merged hr)

theorem keeps_abstracted (h : Exact (depth + 1) r) (hr : Sound (depth + 1) r) :
    Keeps (abstracted depth r).1 (mergeParams (.abs [binderName depth] r.1)) := by
  rw [abstracted_eq h hr]
  exact keeps_sugaredDirectly (plain_mergeParams hr.plain hr.not_mem_params)

theorem Exact.abstracted (h : Exact (depth + 1) r) (hr : Sound (depth + 1) r) :
    Exact depth (abstracted depth r) := by
  have hkeeps := keeps_abstracted h hr
  constructor
  · intro j hj
    have hne : binderName j ∉ [binderName depth] := by
      rw [List.mem_singleton, binderName_inj]
      omega
    rw [hkeeps.count_eq, count_demanded_mergeParams, Term.demanded_abs, count_without, if_neg hne]
    exact h.bound j (by omega)
  · exact (h.merged hr).of_keeps hkeeps

theorem exact_reading (depth : Nat) (t : Lambda) : Exact depth (reading depth t) := by
  induction t using Lambda.spine_induction generalizing depth with
  | var i =>
    refine ⟨fun j _ => ?_, by rintro ps b ⟨⟩⟩
    rw [reading_var, Uses.count_cons, Term.demanded_var, List.count_singleton]
    grind [Uses.count]
  | abs b ih => exact (ih (depth + 1)).abstracted (sound_reading (depth + 1) b)
  | apply head args hh hargs ihh iha =>
    have ih : ∀ t ∈ head :: args, Exact depth (reading depth t) :=
      List.forall_mem_cons.2 ⟨ihh depth, fun t ht => iha t ht depth⟩
    constructor
    · intro j hj
      rw [count_reading_apply depth hh hargs, reading_apply depth hh hargs, Term.demanded_app,
        List.flatMap_map, List.count_flatMap]
      exact congrArg List.sum (List.map_congr_left fun t ht => (ih t ht).bound j hj)
    · rw [reading_apply depth hh hargs]
      rintro ps b ⟨⟩

theorem called_of_ne_app {f a : Term} (h : ∀ ts, f ≠ .app ts) : called f a = .app [f, a] := by
  rw [called]
  exact h

theorem decodeDirectly_apply_of_app {f : Lambda} {ts : List Term} (args : List Lambda)
    (h : decodeDirectly depth f = .app ts) :
    decodeDirectly depth (f.apply args) = .app (ts ++ args.map (decodeDirectly depth)) := by
  induction args generalizing f ts with
  | nil => rw [List.map_nil, List.append_nil]; exact h
  | cons a args ih =>
    have hcall : decodeDirectly depth (.app f a) = .app (ts ++ [decodeDirectly depth a]) := by
      rw [decodeDirectly, h, called]
    rw [List.map_cons, List.append_cons]
    exact ih hcall

theorem decodeDirectly_apply {head : Lambda} {args : List Lambda}
    (hhead : ∀ ts, decodeDirectly depth head ≠ .app ts) (hargs : args ≠ []) :
    decodeDirectly depth (head.apply args) = .app ((head :: args).map (decodeDirectly depth)) := by
  cases args with
  | nil => exact absurd rfl hargs
  | cons a args =>
    have hcall : decodeDirectly depth (.app head a) =
        .app [decodeDirectly depth head, decodeDirectly depth a] :=
      called_of_ne_app hhead
    exact decodeDirectly_apply_of_app args hcall

theorem reading_ne_app (depth : Nat) {t : Lambda} (ht : ∀ f a, t ≠ .app f a) (ts : List Term) :
    (reading depth t).1 ≠ .app ts := by
  cases t with
  | var i => rw [reading_var]; nofun
  | app f a => exact absurd rfl (ht f a)
  | abs b =>
    rw [reading_abs]
    intro h
    rcases (keeps_abstracted (exact_reading (depth + 1) b)
      (sound_reading (depth + 1) b)).same_or with hsame | hl
    · have hparams := params_mergeParams (binderName depth) (reading (depth + 1) b).1
      rw [← hsame, h] at hparams
      cases hparams
    · rw [h] at hl
      exact hl

theorem reading_eq_decodeDirectly (depth : Nat) (t : Lambda) :
    (reading depth t).1 = decodeDirectly depth t := by
  induction t using Lambda.spine_induction generalizing depth with
  | var i => rfl
  | abs b ih =>
    rw [reading_abs, abstracted_eq (exact_reading (depth + 1) b) (sound_reading (depth + 1) b), ih,
      decodeDirectly]
  | apply head args hh hargs ihh iha =>
    have hmap : (head :: args).map (fun t => (reading depth t).1) =
        (head :: args).map (decodeDirectly depth) :=
      List.map_congr_left (List.forall_mem_cons.2 ⟨ihh depth, fun t ht => iha t ht depth⟩)
    have hhead : ∀ ts, decodeDirectly depth head ≠ .app ts := ihh depth ▸ reading_ne_app depth hh
    rw [reading_apply depth hh hargs, hmap, decodeDirectly_apply hhead hargs]

/-- The loop reads a term as the recursion does that searches the free names. Counting the uses
of a name is enough, though the tables keep what was counted in sibling terms and what a literal
has replaced. -/
theorem decode_eq_decodeDirectly (t : Lambda) : decode t = decodeDirectly 0 t := by
  rw [decode_eq_reading, reading_eq_decodeDirectly]

-- the items bind the same name, which the table counts four times, and the consumer once
example : decodeDirectly 0
    (.abs (.apply (.var 0) [.abs (.app (.var 0) (.var 0)), .abs (.app (.var 0) (.var 0))])) =
    .tuple [.abs ["b"] (.app [.var "b", .var "b"]), .abs ["b"] (.app [.var "b", .var "b"])] := by
  decide +kernel

end SugaredLambda.Church
