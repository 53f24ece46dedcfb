import SugaredLambda.Church.Sugar
import SugaredLambda.Proofs.Church.Names
import SugaredLambda.Proofs.Church.Placement

/-! What a recognizer puts for a term is placed as the term was, everywhere (`standsFor_sugared`).
-/
namespace SugaredLambda

theorem Lambda.binders_add (m n : Nat) (t : Lambda) :
    binders (m + n) t = binders m (binders n t) := by
  induction m with
  | zero => rw [Nat.zero_add]; rfl
  | succ m ih => rw [Nat.succ_add, binders, binders, ih]

namespace Term

/-- Terms as they come from reading a nameless term: without records, blocks and empty applications,
with different parameters and single characters. -/
inductive Plain : Term → Prop where
  | abs {ps : List String} {b : Term} : ps.Nodup → Plain b → Plain (.abs ps b)
  | app {ts : List Term} : ts ≠ [] → (∀ t ∈ ts, Plain t) → Plain (.app ts)
  | var (x : String) : Plain (.var x)
  | nat (n : Nat) : Plain (.nat n)
  | list {ts : List Term} : (∀ t ∈ ts, Plain t) → Plain (.list ts)
  | tuple {ts : List Term} : (∀ t ∈ ts, Plain t) → Plain (.tuple ts)
  | char (c : Char) : Plain (.char (String.singleton c))
  | str (s : String) : Plain (.str s)
  | word (n : Nat) : Plain (.word n)

def params : Term → List String
  | .abs ps _ => ps
  | _ => []

end Term

namespace Church
variable {scope : Scope} {depth : Int} {t t' t'' : Term} {uses : Uses}

structure StandsFor (t' t : Term) : Prop where
  place_eq : place t' = place t
  plain : t'.Plain
  mentioned : t'.mentioned.Sublist t.mentioned
  params : ∀ p ∈ t'.params, p ∈ t.params

namespace StandsFor

theorem refl (ht : t.Plain) : StandsFor t t := ⟨rfl, ht, .refl _, fun _ h => h⟩

theorem trans (h' : StandsFor t'' t') (h : StandsFor t' t) : StandsFor t'' t where
  place_eq := h'.place_eq.trans h.place_eq
  plain := h'.plain
  mentioned := h'.mentioned.trans h.mentioned
  params := fun p hp => h.params p (h'.params p hp)

end StandsFor

def Covers (uses : Uses) (t : Term) : Prop := ∀ x, t.mentioned.count x ≤ uses.count x

theorem Covers.of_standsFor (h : Covers uses t) (hs : StandsFor t' t) : Covers uses t' :=
  fun x => Nat.le_trans (hs.mentioned.count_le x) (h x)

theorem enter_append (ps qs : List String) (scope : Scope) (depth : Int) :
    enter (ps ++ qs) scope depth = enter qs (enter ps scope depth) (depth + ps.length) := by
  induction ps generalizing scope depth with
  | nil => simp [enter]
  | cons p ps ih =>
    rw [List.cons_append, enter, ih, enter, List.length_cons]
    congr 1
    omega

theorem place_var_of_lookup {x : String} {i : Int} (h : scope.lookup x = some i) :
    place (.var x) scope depth = .ok (.var (depth - i - 1)) := by
  simp only [place_var, reference, h]; rfl

theorem place_var_outer {x : String} (h : scope.lookup x = some (depth - 2)) :
    place (.var x) scope depth = .ok (.var 1) := by
  have hindex : depth - (depth - 2) - 1 = 1 := by omega
  rw [place_var_of_lookup h, hindex]

theorem place_var_inner {x : String} (h : scope.lookup x = some (depth - 1)) :
    place (.var x) scope depth = .ok (.var 0) := by
  have hindex : depth - (depth - 1) - 1 = 0 := by omega
  rw [place_var_of_lookup h, hindex]

theorem place_app_cons (f : Term) (ts : List Term) (scope : Scope) (depth : Int) :
    place (.app (f :: ts)) scope depth = (do
      let g ← place f scope depth
      let args ← ts.mapM (place · scope depth)
      return g.apply args) := by
  simp only [place_app, List.map_cons, application, List.mapM_map]
  rfl

theorem place_mergeParams (t : Term) : place (mergeParams t) = place t := by
  fun_cases mergeParams t with
  | case1 ps qs b =>
    funext scope depth
    simp only [place_abs, function, enter_append, List.length_append,
      Lambda.binders_add, bind_assoc, pure_bind, Int.natCast_add, Int.add_assoc]
  | case2 => rfl

theorem function_one (p : String) (body : Placing) (scope : Scope) (depth : Int) :
    function [p] body scope depth = Lambda.abs <$> body ((p, depth) :: scope) (depth + 1) := rfl

theorem function_two (p q : String) (body : Placing) (scope : Scope) (depth : Int) :
    function [p, q] body scope depth =
      (fun b => .abs (.abs b)) <$> body ((q, depth + 1) :: (p, depth) :: scope) (depth + 2) := rfl

/-- A name that is applied `n` times in a row. -/
def iterated (fn : String) (last : Term) : Nat → Term
  | 0 => last
  | n+1 => .app [.var fn, iterated fn last n]

theorem eq_iterated_of_iterations {fn : String} {b last : Term} {n : Nat}
    (h : iterations fn b = (n, last)) : b = iterated fn last n := by
  induction b using iterations.induct fn generalizing n with
  | case1 t ih =>
    obtain ⟨⟨m, last'⟩, hrest⟩ : ∃ p, iterations fn t = p := ⟨_, rfl⟩
    simp only [iterations, ↓reduceIte, hrest, Prod.mk.injEq] at h
    obtain ⟨rfl, rfl⟩ := h
    rw [iterated, ← ih hrest]
  | case2 x t hx =>
    simp only [iterations, hx, ↓reduceIte, Prod.mk.injEq] at h
    obtain ⟨rfl, rfl⟩ := h
    rfl
  | case3 t ht =>
    rw [iterations] at h
    · obtain ⟨rfl, rfl⟩ := Prod.mk.inj h
      rfl
    · exact ht

/-- Items that a name strings together in front of an end. -/
def strung (cons : String) (last : Term) : List Term → Term
  | [] => last
  | t :: ts => .app [.var cons, t, strung cons last ts]

theorem eq_strung_of_consItems {cons : String} {b last : Term} {items : List Term}
    (h : consItems cons b = (items, last)) : b = strung cons last items := by
  induction b using consItems.induct cons generalizing items with
  | case1 item t ih =>
    obtain ⟨⟨more, last'⟩, hrest⟩ : ∃ p, consItems cons t = p := ⟨_, rfl⟩
    simp only [consItems, ↓reduceIte, hrest, Prod.mk.injEq] at h
    obtain ⟨rfl, rfl⟩ := h
    rw [strung, ← ih hrest]
  | case2 x item t hx =>
    simp only [consItems, hx, ↓reduceIte, Prod.mk.injEq] at h
    obtain ⟨rfl, rfl⟩ := h
    rfl
  | case3 t ht =>
    rw [consItems] at h
    · obtain ⟨rfl, rfl⟩ := Prod.mk.inj h
      rfl
    · exact ht

theorem asNumber_cases (t : Term) : asNumber t = t ∨ ∃ fn arg n,
    t = .abs [fn, arg] (iterated fn (.var arg) n) ∧ asNumber t = .nat n := by
  fun_cases asNumber t with
  | case1 fn arg b n h => exact .inr ⟨fn, arg, n, by rw [eq_iterated_of_iterations h], rfl⟩
  | case2 => exact .inl rfl
  | case3 => exact .inl rfl

theorem asTuple_cases (uses : Uses) (t : Term) : asTuple uses t = t ∨ ∃ k items,
    t = .abs [k] (.app (.var k :: items)) ∧ uses.count k = 1 ∧ asTuple uses t = .tuple items := by
  fun_cases asTuple uses t with
  | case1 k x items h => exact .inr ⟨k, items, by rw [h.1], h.2, rfl⟩
  | case2 => exact .inl rfl
  | case3 => exact .inl rfl

theorem asList_cases (uses : Uses) (t : Term) : asList uses t = t ∨ ∃ cons nil items,
    t = .abs [cons, nil] (strung cons (.var nil) items) ∧
    uses.count cons = items.length ∧ uses.count nil = 1 ∧ asList uses t = .list items := by
  fun_cases asList uses t with
  | case1 cons nil b items last h hc =>
    rw [hc.1] at h
    exact .inr ⟨cons, nil, items, by rw [← eq_strung_of_consItems h], hc.2.1, hc.2.2, rfl⟩
  | case2 => exact .inl rfl
  | case3 => exact .inl rfl

theorem asBits_cases (t : Term) : asBits t = t ∨ ∃ items bits, t = .tuple items ∧
    items.mapM asBit? = some bits ∧
    (bits.length = Bits.charWidth ∧
      asBits t = .char (String.singleton (Char.ofNat (Bits.ofBits bits))) ∨
      bits.length = Bits.wordWidth ∧ asBits t = .word (Bits.ofBits bits)) := by
  fun_cases asBits t with
  | case1 => exact .inl rfl
  | case2 items bits h hc => exact .inr ⟨items, bits, rfl, h, .inl ⟨hc, rfl⟩⟩
  | case3 items bits h _ hw => exact .inr ⟨items, bits, rfl, h, .inr ⟨hw, rfl⟩⟩
  | case4 => exact .inl rfl
  | case5 => exact .inl rfl

theorem asString_cases (t : Term) : asString t = t ∨ ∃ items texts, t = .list items ∧
    items.mapM charText? = some texts ∧ asString t = .str (String.join texts) := by
  fun_cases asString t with
  | case1 => exact .inl rfl
  | case2 items texts h => exact .inr ⟨items, texts, rfl, h, rfl⟩
  | case3 => exact .inl rfl

theorem place_iterated {fn arg : String} (hfn : scope.lookup fn = some (depth - 2))
    (harg : scope.lookup arg = some (depth - 1)) (n : Nat) :
    place (iterated fn (.var arg) n) scope depth = .ok (iterate n) := by
  induction n with
  | zero => exact place_var_inner harg
  | succ n ih =>
    simp only [iterated, place_app_cons, place_var_outer hfn, List.mapM_cons, List.mapM_nil, ih]
    rfl

theorem standsFor_asNumber (ht : t.Plain) : StandsFor (asNumber t) t := by
  obtain h | ⟨fn, arg, n, rfl, h⟩ := asNumber_cases t
  · rw [h]; exact .refl ht
  · rw [h]
    refine ⟨?_, .nat n, List.nil_sublist _, fun p hp => by simp [Term.params] at hp⟩
    funext scope depth
    cases ht with
    | abs hps _ =>
      have hne : fn ≠ arg := by simpa using hps
      rw [place_abs, function_two, place_iterated]
      · rfl
      · rw [List.lookup_cons, beq_false_of_ne hne, List.lookup_cons_self, Int.add_sub_cancel]
      · rw [List.lookup_cons_self]; congr 1; omega

theorem count_flatMap_eq_zero {ts : List Term} {x : String}
    (h : (ts.flatMap Term.mentioned).count x = 0) : ∀ t ∈ ts, x ∉ t.mentioned := by
  intro t ht hx
  exact List.count_eq_zero.1 h (List.mem_flatMap_of_mem ht hx)

theorem Covers.not_mentioned {k : String} {items : List Term}
    (h : Covers uses (.abs [k] (.app (.var k :: items)))) (hk : uses.count k = 1) :
    ∀ t ∈ items, k ∉ t.mentioned := by
  have hle := h k
  simp only [Term.mentioned_abs, Term.mentioned_app, List.flatMap_cons, Term.mentioned_var,
    List.singleton_append, List.count_cons_self, hk] at hle
  exact count_flatMap_eq_zero (by omega)

theorem place_consumer {k : String} {items : List Term} (h : ∀ t ∈ items, k ∉ t.mentioned) :
    place (.abs [k] (.app (.var k :: items))) = place (.tuple items) := by
  funext scope depth
  have hitems : items.mapM (place · ((k, depth) :: scope) (depth + 1)) =
      items.mapM (place · scope (depth + 1)) :=
    mapM_congr_left fun t ht => place_cons_of_not_mentioned (h t ht) depth
  have hindex : depth + 1 - depth - 1 = 0 := by omega
  rw [place_abs, function_one, place_app_cons, place_var_of_lookup List.lookup_cons_self, hitems,
    place_tuple, hindex]
  cases items.mapM (place · scope (depth + 1)) <;> rfl

theorem standsFor_asTuple (ht : t.Plain) (hc : Covers uses t) : StandsFor (asTuple uses t) t := by
  obtain h | ⟨k, items, rfl, hk, h⟩ := asTuple_cases uses t
  · rw [h]; exact .refl ht
  · cases ht with
    | abs _ hb =>
      cases hb with
      | app _ hts =>
        rw [h]
        exact {
          place_eq := (place_consumer (hc.not_mentioned hk)).symm
          plain := .tuple fun t ht => hts t (List.mem_cons_of_mem _ ht)
          mentioned := by simp
          params := fun p hp => absurd hp List.not_mem_nil }

theorem count_strung {names : Term → List String} (hvar : ∀ x, names (.var x) = [x])
    (happ : ∀ ts, names (.app ts) = ts.flatMap names) (cons : String) (last : Term)
    (items : List Term) (x : String) :
    (names (strung cons last items)).count x = items.length * [cons].count x +
      (items.flatMap names).count x + (names last).count x := by
  induction items with
  | nil => simp [strung]
  | cons t ts ih =>
    simp only [strung, happ, List.flatMap_cons, List.flatMap_nil, hvar, List.count_append,
      List.length_cons, List.count_nil, ih, Nat.add_mul]
    omega

theorem place_strung {cons nil : String} (hcons : scope.lookup cons = some (depth - 2))
    (hnil : scope.lookup nil = some (depth - 1)) (items : List Term) :
    place (strung cons (.var nil) items) scope depth =
      cells <$> items.mapM (place · scope depth) := by
  induction items with
  | nil =>
    rw [strung, place_var_inner hnil]
    rfl
  | cons t ts ih =>
    simp only [strung, place_app_cons, place_var_outer hcons, List.mapM_cons, List.mapM_nil, ih]
    cases place t scope depth with
    | error e => rfl
    | ok u => cases ts.mapM (place · scope depth) <;> rfl

theorem sublist_strung (cons : String) (last : Term) (items : List Term) :
    (items.flatMap Term.mentioned).Sublist (strung cons last items).mentioned := by
  induction items with
  | nil => exact List.nil_sublist _
  | cons t ts ih =>
    simp only [strung, Term.mentioned_app, List.flatMap_cons, List.flatMap_nil, List.append_nil]
    exact ((List.Sublist.refl _).append ih).trans (List.sublist_append_right _ _)

theorem plain_of_strung {cons : String} {last : Term} {items : List Term}
    (h : (strung cons last items).Plain) : ∀ t ∈ items, t.Plain := by
  induction items with
  | nil => simp
  | cons t ts ih =>
    cases h with
    | app _ hts => exact List.forall_mem_cons.2 ⟨hts t (by simp), ih (hts _ (by simp))⟩

theorem Covers.not_mentioned_fold {cons nil : String} {items : List Term}
    (h : Covers uses (.abs [cons, nil] (strung cons (.var nil) items)))
    (hcons : uses.count cons = items.length) (hnil : uses.count nil = 1) :
    ∀ t ∈ items, cons ∉ t.mentioned ∧ nil ∉ t.mentioned := by
  have h₁ := h cons
  have h₂ := h nil
  rw [Term.mentioned_abs, count_strung Term.mentioned_var Term.mentioned_app] at h₁ h₂
  simp only [Term.mentioned_var, List.count_singleton_self, hcons, hnil] at h₁ h₂
  have hc : (items.flatMap Term.mentioned).count cons = 0 := by omega
  have hn : (items.flatMap Term.mentioned).count nil = 0 := by omega
  intro t ht
  exact ⟨count_flatMap_eq_zero hc t ht, count_flatMap_eq_zero hn t ht⟩

theorem place_fold {cons nil : String} {items : List Term} (hne : cons ≠ nil)
    (h : ∀ t ∈ items, cons ∉ t.mentioned ∧ nil ∉ t.mentioned) :
    place (.abs [cons, nil] (strung cons (.var nil) items)) = place (.list items) := by
  funext scope depth
  have hitems : items.mapM (place · ((nil, depth + 1) :: (cons, depth) :: scope) (depth + 2)) =
      items.mapM (place · scope (depth + 2)) := by
    refine mapM_congr_left fun t ht => ?_
    rw [place_cons_of_not_mentioned (h t ht).2, place_cons_of_not_mentioned (h t ht).1]
  rw [place_abs, function_two, place_strung, hitems, place_list]
  · cases items.mapM (place · scope (depth + 2)) <;> rfl
  · rw [List.lookup_cons, beq_false_of_ne hne, List.lookup_cons_self, Int.add_sub_cancel]
  · rw [List.lookup_cons_self]; congr 1; omega

theorem standsFor_asList (ht : t.Plain) (hc : Covers uses t) : StandsFor (asList uses t) t := by
  obtain h | ⟨cons, nil, items, rfl, hcons, hnil, h⟩ := asList_cases uses t
  · rw [h]; exact .refl ht
  · cases ht with
    | abs hps hplain =>
      rw [h]
      exact {
        place_eq := (place_fold (by simpa using hps) (hc.not_mentioned_fold hcons hnil)).symm
        plain := .list (plain_of_strung hplain)
        mentioned := by simpa using sublist_strung cons (.var nil) items
        params := fun p hp => absurd hp List.not_mem_nil }

theorem asBit?_eq_some {b : Bool} (h : asBit? t = some b) :
    (∃ x y, t = .abs [x, y] (.var x) ∧ b = false) ∨ t = .nat 0 ∧ b = true := by
  unfold asBit? at h
  split at h
  · rename_i x y z
    by_cases hz : x = z
    · rw [if_pos hz] at h
      exact .inl ⟨x, y, by rw [hz], (Option.some.inj h).symm⟩
    · rw [if_neg hz] at h
      contradiction
  · exact .inr ⟨rfl, (Option.some.inj h).symm⟩
  · contradiction

theorem place_of_asBit? {b : Bool} (ht : t.Plain) (h : asBit? t = some b) :
    place t scope depth = .ok (bit b) := by
  obtain ⟨x, y, rfl, rfl⟩ | ⟨rfl, rfl⟩ := asBit?_eq_some h
  · cases ht with
    | abs hps _ =>
      have hne : x ≠ y := by simpa using hps
      have hx : ((y, depth + 1) :: (x, depth) :: scope).lookup x = some depth := by
        rw [List.lookup_cons, beq_false_of_ne hne, List.lookup_cons_self]
      have hindex : depth + 2 - depth - 1 = 1 := by omega
      rw [place_abs, function_two, place_var_of_lookup hx, hindex]
      rfl
  · rfl

theorem mapM_place_bits {items : List Term} {bits : List Bool} (hi : ∀ t ∈ items, t.Plain)
    (h : items.mapM asBit? = some bits) :
    items.mapM (place · scope depth) = .ok (bits.map bit) := by
  induction items generalizing bits with
  | nil =>
    obtain rfl := Option.some.inj h
    rfl
  | cons t ts ih =>
    obtain ⟨ht, hts⟩ := List.forall_mem_cons.1 hi
    simp only [List.mapM_cons, Option.bind_eq_bind, Option.bind_eq_some_iff, Option.pure_def,
      Option.some.injEq] at h
    obtain ⟨b, hb, bs, hbs, rfl⟩ := h
    rw [List.mapM_cons, place_of_asBit? ht hb, ih hts hbs]
    rfl

theorem place_bits {items : List Term} {bits : List Bool} (hi : ∀ t ∈ items, t.Plain)
    (h : items.mapM asBit? = some bits) (scope : Scope) (depth : Int) :
    place (.tuple items) scope depth = .ok (bitTuple (Bits.ofBits bits) bits.length) := by
  rw [place_tuple, mapM_place_bits hi h, bitTuple, Bits.toBits_ofBits]
  rfl

theorem place_char (c : Char) (scope : Scope) (depth : Int) :
    place (.char (String.singleton c)) scope depth = .ok (character c) := by
  have h : onlyChar (String.singleton c) = c := by simp [onlyChar]
  change Except.ok (character (onlyChar (String.singleton c))) = _
  rw [h]

theorem standsFor_asBits (ht : t.Plain) : StandsFor (asBits t) t := by
  obtain h | ⟨items, bits, rfl, hbits, ⟨hl, h⟩ | ⟨hl, h⟩⟩ := asBits_cases t
  · rw [h]; exact .refl ht
  · cases ht with
    | tuple hi =>
      rw [h]
      refine ⟨?_, .char _, List.nil_sublist _, fun p hp => absurd hp List.not_mem_nil⟩
      funext scope depth
      have hlt : Bits.ofBits bits < 0xd800 :=
        Nat.lt_of_lt_of_le (Bits.ofBits_lt bits) (by rw [hl]; decide)
      rw [place_char, place_bits hi hbits, hl, character, toNat_charOfNat hlt]
  · cases ht with
    | tuple hi =>
      rw [h]
      refine ⟨?_, .word _, List.nil_sublist _, fun p hp => absurd hp List.not_mem_nil⟩
      funext scope depth
      rw [place_bits hi hbits, hl]
      rfl

theorem mapM_charText? {items : List Term} {texts : List String} (hi : ∀ t ∈ items, t.Plain)
    (h : items.mapM charText? = some texts) :
    ∃ cs : List Char, items = cs.map (fun c => .char (String.singleton c)) ∧
      texts = cs.map String.singleton := by
  induction items generalizing texts with
  | nil => exact ⟨[], rfl, (Option.some.inj h).symm⟩
  | cons t ts ih =>
    obtain ⟨ht, hts⟩ := List.forall_mem_cons.1 hi
    simp only [List.mapM_cons, Option.bind_eq_bind, Option.bind_eq_some_iff, Option.pure_def,
      Option.some.injEq] at h
    obtain ⟨s, hs, ss, hss, rfl⟩ := h
    obtain ⟨cs, rfl, rfl⟩ := ih hts hss
    cases ht with
    | char c => exact ⟨c :: cs, rfl, by rw [← Option.some.inj hs]; rfl⟩
    | _ => contradiction

theorem toList_join_singleton (cs : List Char) :
    (String.join (cs.map String.singleton)).toList = cs := by
  induction cs with
  | nil => rfl
  | cons c cs ih => simp [String.join_cons, ih]

theorem standsFor_asString (ht : t.Plain) : StandsFor (asString t) t := by
  obtain h | ⟨items, texts, rfl, htexts, h⟩ := asString_cases t
  · rw [h]; exact .refl ht
  · cases ht with
    | list hi =>
      obtain ⟨cs, rfl, rfl⟩ := mapM_charText? hi htexts
      rw [h]
      refine ⟨?_, .str _, List.nil_sublist _, fun p hp => absurd hp List.not_mem_nil⟩
      funext scope depth
      have hchars :
          (cs.map fun c => Term.char (String.singleton c)).mapM (place · scope (depth + 2)) =
          .ok (cs.map character) := by
        rw [List.mapM_map]
        exact mapM_eq_ok fun c _ => place_char c scope (depth + 2)
      rw [place_list, hchars]
      change Except.ok (string (String.join (cs.map String.singleton))) = _
      rw [string, toList_join_singleton]
      rfl

/-- Reading the literals in a term does not change what it is placed as. -/
theorem standsFor_sugared (ht : t.Plain) (hc : Covers uses t) : StandsFor (sugared uses t) t := by
  have hn := standsFor_asNumber ht
  have ht := (standsFor_asTuple hn.plain (hc.of_standsFor hn)).trans hn
  have hl := (standsFor_asList ht.plain (hc.of_standsFor ht)).trans ht
  have hb := (standsFor_asBits hl.plain).trans hl
  exact (standsFor_asString hb.plain).trans hb

end Church
end SugaredLambda
