import SugaredLambda.Proofs.Church.Reading
import SugaredLambda.Proofs.Grammar.Legible

/-! Whatever a nameless term is read as is regular, but for the texts in its literals
(`isRegular_decode`). -/
namespace SugaredLambda.Church
variable {t : Term} {uses : Uses}

theorem wordBefore_ne_nil {n : Nat} {rest : List Char} (h : n ≠ 0 ∨ rest ≠ []) :
    wordBefore n rest ≠ [] := by
  fun_induction wordBefore n rest with
  | case1 => simpa using h
  | case2 n rest hn ih => exact ih (.inr (by simp))

theorem isPlainChar_letter :
    ∀ n < 26, isPlainChar (letter n) ∧ (letter n).isDigit = false := by decide

theorem isPlainName_binderName (depth : Nat) : isPlainName (binderName depth) := by
  have hne : (binderName depth).toList ≠ [] := by
    rw [binderName, String.toList_ofList]
    exact wordBefore_ne_nil (.inl (Nat.succ_ne_zero depth))
  rw [isPlainName, Bool.and_eq_true, Bool.not_eq_true', List.isEmpty_eq_false_iff, List.all_eq_true]
  refine ⟨hne, fun c hc => ?_⟩
  obtain ⟨n, hn, rfl⟩ := mem_binderName hc
  exact (isPlainChar_letter n hn).1

theorem isPlainName_escapeName (k : Nat) : isPlainName (escapeName k) := by
  rw [isPlainName, toList_escapeName, Bool.and_eq_true, List.all_cons, Bool.and_eq_true,
    List.all_eq_true]
  refine ⟨rfl, by decide, fun c hc => ?_⟩
  have hdigit : c.isDigit := Nat.isDigit_of_mem_toDigits (by decide) (by decide) hc
  simp [isPlainChar, Grammar.isAlphanumeric_of_isDigit hdigit]

theorem isPlainVariable_of_head {x : String} (h : isPlainName x)
    (hhead : ∀ c ∈ x.toList.head?, c.isDigit = false) : isPlainVariable x := by
  rw [isPlainVariable, h]
  cases hx : x.toList.head? with
  | none => rfl
  | some c => simp [hhead c hx]

theorem isPlainVariable_variableName (index : Int) (depth : Nat) :
    isPlainVariable (variableName index depth) := by
  rcases variableName_cases index depth with ⟨j, -, hname⟩ | ⟨k, hname⟩
  · rw [hname]
    refine isPlainVariable_of_head (isPlainName_binderName j) fun c hc => ?_
    obtain ⟨n, hn, rfl⟩ := mem_binderName (List.mem_of_mem_head? hc)
    exact (isPlainChar_letter n hn).2
  · rw [hname]
    refine isPlainVariable_of_head (isPlainName_escapeName k) fun c hc => ?_
    rw [toList_escapeName] at hc
    obtain rfl := Option.some.inj hc
    decide

theorem isRegular_mergeParams (h : t.isRegular) : (mergeParams t).isRegular := by
  fun_cases mergeParams t with
  | case1 ps qs b =>
    obtain ⟨hps, hinner⟩ := (Term.isPlainWith_abs _ _).1 h
    obtain ⟨hqs, hb⟩ := (Term.isPlainWith_abs _ _).1 hinner
    exact (Term.isPlainWith_abs _ _).2 ⟨List.forall_mem_append.2 ⟨hps, hqs⟩, hb⟩
  | case2 => exact h

theorem isRegular_asNumber (h : t.isRegular) : (asNumber t).isRegular := by
  obtain heq | ⟨fn, arg, n, -, heq⟩ := asNumber_cases t
  · rwa [heq]
  · exact heq ▸ rfl

theorem isRegular_asTuple (h : t.isRegular) : (asTuple uses t).isRegular := by
  obtain heq | ⟨k, items, rfl, -, heq⟩ := asTuple_cases uses t
  · rwa [heq]
  · obtain ⟨-, happ⟩ := (Term.isPlainWith_abs _ _).1 h
    obtain ⟨-, hitems⟩ := (Term.isPlainWith_app _).1 happ
    rw [heq]
    exact (Term.isPlainWith_tuple items).2 fun t ht => hitems t (List.mem_cons_of_mem _ ht)

theorem isRegular_of_strung {cons : String} {last : Term} {items : List Term}
    (h : (strung cons last items).isRegular) : ∀ t ∈ items, t.isRegular := by
  induction items with
  | nil => exact fun t ht => absurd ht List.not_mem_nil
  | cons t ts ih =>
    obtain ⟨-, hterms⟩ := (Term.isPlainWith_app _).1 h
    exact List.forall_mem_cons.2 ⟨hterms t (by simp), ih (hterms _ (by simp))⟩

theorem isRegular_asList (h : t.isRegular) : (asList uses t).isRegular := by
  obtain heq | ⟨cons, nil, items, rfl, -, -, heq⟩ := asList_cases uses t
  · rwa [heq]
  · obtain ⟨-, hstrung⟩ := (Term.isPlainWith_abs _ _).1 h
    rw [heq]
    exact (Term.isPlainWith_list items).2 (isRegular_of_strung hstrung)

theorem isRegular_asBits (h : t.isRegular) : (asBits t).isRegular := by
  obtain heq | ⟨items, bits, rfl, -, ⟨-, heq⟩ | ⟨hwidth, heq⟩⟩ := asBits_cases t
  · rwa [heq]
  · rw [heq]
    exact Bool.and_eq_true_iff.2 ⟨decide_eq_true (by simp), rfl⟩
  · rw [heq]
    exact decide_eq_true (hwidth ▸ Bits.ofBits_lt bits)

theorem isRegular_asString (h : t.isRegular) : (asString t).isRegular := by
  obtain heq | ⟨items, texts, -, -, heq⟩ := asString_cases t
  · rwa [heq]
  · exact heq ▸ rfl

theorem isRegular_sugared (uses : Uses) (h : t.isRegular) : (sugared uses t).isRegular :=
  isRegular_asString (isRegular_asBits
    (isRegular_asList (isRegular_asTuple (isRegular_asNumber h))))

theorem isRegular_reading (depth : Nat) (t : Lambda) : (reading depth t).1.isRegular := by
  induction t using Lambda.spine_induction generalizing depth with
  | var i => exact isPlainVariable_variableName i depth
  | abs b ih =>
    have hparams : ∀ p ∈ [binderName depth], isPlainName p := by
      simpa using isPlainName_binderName depth
    exact isRegular_sugared _
      (isRegular_mergeParams ((Term.isPlainWith_abs _ _).2 ⟨hparams, ih (depth + 1)⟩))
  | apply head args hh hargs ihh iha =>
    rw [reading_apply depth hh hargs]
    refine (Term.isPlainWith_app _).2 ⟨?_, fun s hs => ?_⟩
    · have hpos := List.length_pos_iff.2 hargs
      simp only [List.length_map, List.length_cons]
      omega
    · obtain ⟨t, ht, rfl⟩ := List.mem_map.1 hs
      cases ht with
      | head => exact ihh depth
      | tail _ ht => exact iha t ht depth

theorem isRegular_decode (t : Lambda) : (decode t).isRegular := by
  rw [decode_eq_reading]
  exact isRegular_reading 0 t

end SugaredLambda.Church
