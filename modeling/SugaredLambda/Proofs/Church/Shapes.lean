import SugaredLambda.Proofs.Church.Reading

/-! What the shapes of encoded values are read as, around closed parts. -/
namespace SugaredLambda

namespace Lambda
variable {items : List Lambda}

theorem occurrences_iterate (n k : Nat) : (Church.iterate n).occurrences (k + 2 : Nat) = 0 := by
  induction n with
  | zero => exact if_neg (by omega)
  | succ n ih =>
    rw [Church.iterate, occurrences, ih, occurrences, if_neg (by omega)]

theorem closed_numeral (n : Nat) : (Church.numeral n).Closed := fun k => occurrences_iterate n k

theorem closed_bit (b : Bool) : (Church.bit b).Closed := by
  intro k
  cases b <;> simp only [Church.bit, occurrences] <;> grind

theorem sum_occurrences_eq_zero (hc : ∀ t ∈ items, t.Closed) (k : Nat) :
    (items.map (occurrences k)).sum = 0 := by
  rw [List.sum_eq_zero_iff_forall_eq_nat, List.forall_mem_map]
  exact fun t ht => hc t ht k

theorem occurrences_consumer (hc : ∀ t ∈ items, t.Closed) (k : Nat) :
    (apply (.var 0) items).occurrences k = if k = 0 then 1 else 0 := by
  rw [occurrences_apply, sum_occurrences_eq_zero hc, occurrences]
  grind

theorem closed_consumed (hc : ∀ t ∈ items, t.Closed) : (Church.consumed items).Closed :=
  fun k => occurrences_consumer hc (k + 1)

theorem occurrences_cells (hc : ∀ t ∈ items, t.Closed) (k : Nat) :
    (Church.cells items).occurrences k = if k = 0 then 1 else if k = 1
    then items.length else 0 := by
  induction items with
  | nil => simp only [Church.cells, occurrences]; grind
  | cons t ts ih =>
    obtain ⟨ht, hts⟩ := List.forall_mem_cons.1 hc
    simp only [Church.cells, occurrences, ht k, ih hts, List.length_cons]
    grind

theorem closed_foldList (hc : ∀ t ∈ items, t.Closed) : (Church.foldList items).Closed :=
  fun k => occurrences_cells hc (k + 2)

end Lambda

namespace Church
variable {depth : Nat} {items : List Lambda} {ts : List Term}

theorem reading_apply_var (depth : Nat) (i : Int) (hne : items ≠ []) :
    (reading depth (Lambda.apply (.var i) items)).1 =
      .app (.var (variableName i depth) :: items.map fun t => (reading depth t).1) := by
  rw [reading_apply depth (by simp) hne]
  rfl

theorem sugared_abs_one (uses : Uses) (k : String) (t : Term) :
    sugared uses (.abs [k] t) = asString (asBits (asList uses (asTuple uses (.abs [k] t)))) := rfl

theorem abstracted_stays {r : Reading} (h : (∃ z, r.1 = .var z) ∨
    ∃ z ts, z ≠ binderName depth ∧ r.1 = .app (.var z :: ts)) :
    (abstracted depth r).1 = .abs [binderName depth] r.1 := by
  rw [abstracted]
  cases h with
  | inl h =>
    obtain ⟨z, hr⟩ := h
    rw [hr]
    rfl
  | inr h =>
    obtain ⟨z, ts, hz, hr⟩ := h
    have htuple : asTuple r.2 (.abs [binderName depth] (.app (.var z :: ts))) =
        .abs [binderName depth] (.app (.var z :: ts)) := if_neg fun h => hz h.1
    rw [hr, mergeParams, sugared_abs_one, htuple]
    · rfl
    · simp

theorem reading_abs_abs {b : Lambda} (h : (∃ z, (reading (depth + 2) b).1 = .var z) ∨
    ∃ ts, (reading (depth + 2) b).1 = .app (.var (binderName depth) :: ts)) :
    (reading depth (.abs (.abs b))).1 = sugared (reading (depth + 2) b).2
      (.abs [binderName depth, binderName (depth + 1)] (reading (depth + 2) b).1) := by
  have hne : binderName depth ≠ binderName (depth + 1) := by rw [Ne, binderName_inj]; omega
  have hinner : (abstracted (depth + 1) (reading (depth + 2) b)).1 =
      .abs [binderName (depth + 1)] (reading (depth + 2) b).1 :=
    abstracted_stays (h.imp_right fun ⟨ts, hts⟩ => ⟨_, ts, hne, hts⟩)
  rw [reading_abs, reading_abs, abstracted, hinner]
  rfl

theorem reading_outer (depth : Nat) :
    (reading (depth + 2) (.var 1)).1 = .var (binderName depth) := by
  rw [reading_var, variableName_of_bound (j := depth) (by omega)]

theorem reading_inner (depth : Nat) :
    (reading (depth + 2) (.var 0)).1 = .var (binderName (depth + 1)) := by
  rw [reading_var, variableName_of_bound (j := depth + 1) (by omega)]

theorem iterations_iterated (fn arg : String) (n : Nat) :
    iterations fn (iterated fn (.var arg) n) = (n, .var arg) := by
  induction n with
  | zero => rfl
  | succ n ih => simp only [iterated, iterations, ↓reduceIte, ih]

theorem reading_iterate (depth n : Nat) : (reading (depth + 2) (iterate n)).1 =
    iterated (binderName depth) (.var (binderName (depth + 1))) n := by
  induction n with
  | zero => exact reading_inner depth
  | succ n ih =>
    change (reading (depth + 2) (Lambda.apply (.var 1) [iterate n])).1 = _
    rw [reading_apply_var (depth + 2) 1 (by simp), variableName_of_bound (j := depth) (by omega),
      List.map_singleton, ih]
    rfl

theorem reading_numeral (depth n : Nat) : (reading depth (numeral n)).1 = .nat n := by
  have hbody := reading_iterate depth n
  rw [numeral, reading_abs_abs, hbody, sugared, asNumber, iterations_iterated]
  · simp only [↓reduceIte]
    rfl
  · rw [hbody]
    cases n with
    | zero => exact .inl ⟨_, rfl⟩
    | succ n => exact .inr ⟨_, rfl⟩

theorem asBit?_reading (depth : Nat) (b : Bool) : asBit? (reading depth (bit b)).1 = some b := by
  cases b with
  | true => exact congrArg asBit? (reading_numeral depth 0)
  | false =>
    have hne : binderName depth ≠ binderName (depth + 1) := by rw [Ne, binderName_inj]; omega
    have hbody := reading_outer depth
    have hbit : (reading depth (bit false)).1 =
        .abs [binderName depth, binderName (depth + 1)] (.var (binderName depth)) := by
      change (reading depth (.abs (.abs (.var 1)))).1 = _
      rw [reading_abs_abs (.inl ⟨_, hbody⟩), hbody]
      simp [sugared, asNumber, iterations, asTuple, asList, consItems, asBits, asString, hne]
    rw [hbit]
    exact if_pos rfl

theorem asString_asBits_tuple (ts : List Term) :
    asString (asBits (.tuple ts)) = asBits (.tuple ts) := by
  obtain h | ⟨items, bits, -, -, ⟨-, h⟩ | ⟨-, h⟩⟩ := asBits_cases (.tuple ts)
  · rw [h]
    rfl
  · rw [h]
    rfl
  · rw [h]
    rfl

theorem sugared_consumer {uses : Uses} {k : String} (hk : uses.count k = 1) :
    sugared uses (.abs [k] (.app (.var k :: ts))) = asBits (.tuple ts) := by
  have htuple : asTuple uses (.abs [k] (.app (.var k :: ts))) = .tuple ts := if_pos ⟨rfl, hk⟩
  rw [sugared_abs_one, htuple]
  exact asString_asBits_tuple ts

theorem reading_consumed (hne : items ≠ []) (hc : ∀ t ∈ items, t.Closed) (depth : Nat) :
    (reading depth (consumed items)).1 =
      asBits (.tuple (items.map fun t => (reading (depth + 1) t).1)) := by
  have hk : (reading (depth + 1) (Lambda.apply (.var 0) items)).2.count (binderName depth) = 1 := by
    have hindex : ((depth + 1 : Nat) : Int) - depth - 1 = (0 : Nat) := by omega
    rw [count_reading, hindex, Lambda.occurrences_consumer hc, if_pos rfl]
  rw [consumed, reading_abs, abstracted, reading_apply_var (depth + 1) 0 hne,
    variableName_of_bound (j := depth) (by omega)]
  exact sugared_consumer hk

theorem consItems_strung (cons nil : String) (ts : List Term) :
    consItems cons (strung cons (.var nil) ts) = (ts, .var nil) := by
  induction ts with
  | nil => rfl
  | cons t ts ih => simp only [strung, consItems, ↓reduceIte, ih]

theorem reading_cells (depth : Nat) (items : List Lambda) : (reading (depth + 2) (cells items)).1 =
    strung (binderName depth) (.var (binderName (depth + 1)))
      (items.map fun t => (reading (depth + 2) t).1) := by
  induction items with
  | nil => exact reading_inner depth
  | cons t items ih =>
    change (reading (depth + 2) (Lambda.apply (.var 1) [t, cells items])).1 = _
    rw [reading_apply_var (depth + 2) 1 (by simp), variableName_of_bound (j := depth) (by omega),
      List.map_cons, List.map_singleton, ih]
    rfl

theorem sugared_fold {uses : Uses} {cons nil : String} (hts : ts ≠ [])
    (hcons : uses.count cons = ts.length) (hnil : uses.count nil = 1) :
    sugared uses (.abs [cons, nil] (strung cons (.var nil) ts)) = asString (.list ts) := by
  have hnumber : asNumber (.abs [cons, nil] (strung cons (.var nil) ts)) =
      .abs [cons, nil] (strung cons (.var nil) ts) := by
    obtain ⟨t, rest, rfl⟩ := List.exists_cons_of_ne_nil hts
    simp [asNumber, strung, iterations]
  have hlist : asList uses (.abs [cons, nil] (strung cons (.var nil) ts)) = .list ts := by
    rw [asList, consItems_strung]
    exact if_pos ⟨rfl, hcons, hnil⟩
  calc
    sugared uses (.abs [cons, nil] (strung cons (.var nil) ts))
        = asString
          (asBits (asList uses (asTuple uses (.abs [cons, nil] (strung cons (.var nil) ts))))) := by
          rw [sugared, hnumber]
    _ = asString (asBits (asList uses (.abs [cons, nil] (strung cons (.var nil) ts)))) := rfl
    _ = asString (asBits (.list ts)) := by rw [hlist]
    _ = asString (.list ts) := rfl

theorem reading_foldList (hne : items ≠ []) (hc : ∀ t ∈ items, t.Closed) (depth : Nat) :
    (reading depth (foldList items)).1 =
      asString (.list (items.map fun t => (reading (depth + 2) t).1)) := by
  have hbody := reading_cells depth items
  have hcons : (reading (depth + 2) (cells items)).2.count (binderName depth) = items.length := by
    have hindex : ((depth + 2 : Nat) : Int) - depth - 1 = (1 : Nat) := by omega
    rw [count_reading, hindex, Lambda.occurrences_cells hc]
    rfl
  have hnil : (reading (depth + 2) (cells items)).2.count (binderName (depth + 1)) = 1 := by
    have hindex : ((depth + 2 : Nat) : Int) - (depth + 1 : Nat) - 1 = (0 : Nat) := by omega
    rw [count_reading, hindex, Lambda.occurrences_cells hc]
    rfl
  rw [foldList, reading_abs_abs, hbody]
  · exact sugared_fold (by simpa using hne) (by rw [hcons, List.length_map]) hnil
  · rw [hbody]
    obtain ⟨t, rest, rfl⟩ := List.exists_cons_of_ne_nil hne
    exact .inr ⟨_, rfl⟩

theorem asBits_tuple {bits : List Bool} (h : ts.mapM asBit? = some bits) : asBits (.tuple ts) =
    if bits.length = Bits.charWidth then .char (String.singleton (Char.ofNat (Bits.ofBits bits)))
    else if bits.length = Bits.wordWidth then .word (Bits.ofBits bits)
    else .tuple ts := by
  rw [asBits, h]

theorem mapM_asBit?_reading (depth : Nat) (bits : List Bool) :
    ((bits.map bit).map fun t => (reading depth t).1).mapM asBit? = some bits := by
  rw [List.map_map]
  induction bits with
  | nil => rfl
  | cons b bits ih =>
    rw [List.map_cons, List.mapM_cons, ih]
    change (do let b ← asBit? (reading depth (bit b)).1; _) = _
    rw [asBit?_reading]
    rfl

theorem closed_bits {bits : List Bool} : ∀ t ∈ bits.map bit, t.Closed :=
  List.forall_mem_map.2 fun b _ => Lambda.closed_bit b

theorem reading_bitTuple (depth value : Nat) {width : Nat} (hw : width ≠ 0) :
    ∃ ts : List Term, ts.mapM asBit? = some (Bits.toBits value width) ∧
      (reading depth (bitTuple value width)).1 = asBits (.tuple ts) := by
  refine ⟨_, mapM_asBit?_reading (depth + 1) _, ?_⟩
  refine reading_consumed (fun h => hw ?_) closed_bits depth
  rw [← Bits.length_toBits value width, List.map_eq_nil_iff.1 h, List.length_nil]

theorem truncate_natCast (n width : Nat) : Bits.truncate n width = n % 2^width := by
  rw [Bits.truncate, ← Int.natCast_emod, Int.toNat_natCast]
  rfl

end Church
end SugaredLambda
