import Mathlib.Tactic.Choose
import SugaredLambda.Evaluation
import SugaredLambda.Proofs.Church.RoundTrip
import SugaredLambda.Proofs.Church.Shapes
import SugaredLambda.Proofs.Church.Values

/-! By induction, every value is encoded as a closed term that is read as its canonical form at
every depth. -/
namespace SugaredLambda
namespace Church
variable {ts : List Term}

theorem reading_character (depth : Nat) (c : Char) :
    (reading depth (character c)).1 = .char (String.singleton (Term.lowChar c)) := by
  obtain ⟨ts, hts, hread⟩ := reading_bitTuple depth c.toNat (by decide : Bits.charWidth ≠ 0)
  rw [character, hread, asBits_tuple hts, Bits.length_toBits, if_pos rfl, Bits.ofBits_toBits,
    truncate_natCast]
  rfl

theorem reading_word (depth n : Nat) : (reading depth (word n)).1 = .word (n % 2^32) := by
  obtain ⟨ts, hts, hread⟩ := reading_bitTuple depth n (by decide : Bits.wordWidth ≠ 0)
  rw [word, hread, asBits_tuple hts, Bits.length_toBits, if_neg (by decide), if_pos rfl,
    Bits.ofBits_toBits, truncate_natCast]
  rfl

theorem mapM_charText?_eq (ts : List Term) :
    ts.mapM charText? = if ts.all Term.isChar then some (ts.map Term.charText) else none := by
  induction ts with
  | nil => rfl
  | cons t ts ih =>
    rw [List.mapM_cons, ih, List.all_cons]
    cases t with
    | char s => cases ts.all Term.isChar <;> rfl
    | _ => rfl

theorem asString_list (hne : ts ≠ []) : asString (.list ts) = Term.canonicalList ts := by
  rw [asString, mapM_charText?_eq, Term.canonicalList, if_neg hne]
  cases ts.all Term.isChar <;> rfl

theorem asBit?_of_not_abs {t : Term} (h : ∀ ps b, t ≠ .abs ps b) :
    asBit? t = if t = .nat 0 then some true else none := by
  cases t with
  | abs ps b => exact absurd rfl (h ps b)
  | nat n => cases n <;> simp [asBit?]
  | _ => simp [asBit?]

theorem mapM_asBit?_eq (h : ∀ t ∈ ts, ∀ ps b, t ≠ .abs ps b) : ts.mapM asBit? =
    if ts = List.replicate ts.length (.nat 0) then some (List.replicate ts.length true)
    else none := by
  induction ts with
  | nil => rfl
  | cons t ts ih =>
    obtain ⟨ht, hts⟩ := List.forall_mem_cons.1 h
    simp only [List.mapM_cons, asBit?_of_not_abs ht, ih hts, List.length_cons, List.replicate_succ,
      List.cons.injEq]
    by_cases hzero : t = .nat 0
    · by_cases hall : ts = List.replicate ts.length (.nat 0)
      · rw [if_pos hzero, if_pos hall, if_pos ⟨hzero, hall⟩]
        rfl
      · rw [if_pos hzero, if_neg hall, if_neg fun hboth => hall hboth.2]
        rfl
    · have hboth : ¬ (t = .nat 0 ∧ ts = List.replicate ts.length (.nat 0)) :=
        fun hboth => hzero hboth.1
      rw [if_neg hzero, if_neg hboth]
      rfl

theorem asBits_tuple_canonical (h : ∀ t ∈ ts, ∀ ps b, t ≠ .abs ps b) :
    asBits (.tuple ts) = Term.canonicalTuple ts := by
  have hmapM := mapM_asBit?_eq h
  by_cases hall : ts = List.replicate ts.length (.nat 0)
  · rw [if_pos hall] at hmapM
    have hlength (n : Nat) : ts = List.replicate n (.nat 0) ↔ ts.length = n :=
      ⟨fun h => by rw [h, List.length_replicate], fun h => h ▸ hall⟩
    rw [asBits_tuple hmapM, Term.canonicalTuple, List.length_replicate]
    simp only [hlength]
    by_cases h8 : ts.length = 8
    · rw [h8]; rfl
    · by_cases h32 : ts.length = 32
      · rw [h32]; rfl
      · have hchar : ts.length ≠ Bits.charWidth := h8
        have hword : ts.length ≠ Bits.wordWidth := h32
        rw [if_neg hchar, if_neg hword, if_neg h8, if_neg h32]
  · rw [if_neg hall] at hmapM
    have hnot (n : Nat) : ts ≠ List.replicate n (.nat 0) :=
      fun h => hall (by rw [h, List.length_replicate])
    rw [asBits, hmapM, Term.canonicalTuple, if_neg (hnot 8), if_neg (hnot 32)]

/-- A term that a value is placed as everywhere, and that is read as its canonical
form everywhere. -/
structure Encodes (p : Lambda) (v : Term) : Prop where
  place_eq : ∀ scope depth, place v scope depth = .ok p
  closed : p.Closed
  reading_eq : ∀ depth : Nat, (reading depth p).1 = v.canonical

theorem encodes_char (c : Char) : Encodes (character c) (.char (String.singleton c)) where
  place_eq := place_char c
  closed := Lambda.closed_consumed closed_bits
  reading_eq depth := by rw [reading_character, Term.canonical_char]

theorem encodes_word (n : Nat) : Encodes (word n) (.word n) where
  place_eq _ _ := rfl
  closed := Lambda.closed_consumed closed_bits
  reading_eq depth := reading_word depth n

theorem reading_string {s : String} (hs : s ≠ "") (depth : Nat) :
    (reading depth (string s)).1 = .str (Term.lowText s) := by
  have hne : s.toList ≠ [] := by simpa using hs
  have hc : ∀ t ∈ s.toList.map character, t.Closed :=
    List.forall_mem_map.2 fun c _ => (encodes_char c).closed
  have hread : ((s.toList.map character).map fun t => (reading (depth + 2) t).1) =
      (s.toList.map Term.lowChar).map fun c => .char (String.singleton c) := by
    rw [List.map_map, List.map_map]
    exact List.map_congr_left fun c _ => reading_character (depth + 2) c
  rw [string, reading_foldList (by simpa using hne) hc, hread, asString_list (by simpa using hne),
    Term.canonicalList_chars (by simpa using hne), Term.lowText]

theorem encodes_str (s : String) : Encodes (string s) (.str s) where
  place_eq _ _ := rfl
  closed := Lambda.closed_foldList (List.forall_mem_map.2 fun c _ => (encodes_char c).closed)
  reading_eq depth := by
    change _ = Term.canonicalString s
    by_cases hs : s = ""
    · rw [hs]
      exact reading_numeral depth 0
    · rw [reading_string hs, Term.canonicalString, if_neg hs]

section Items
variable {encoding : Term → Lambda} (h : ∀ t ∈ ts, Encodes (encoding t) t)
include h

theorem closed_items : ∀ p ∈ ts.map encoding, p.Closed :=
  List.forall_mem_map.2 fun t ht => (h t ht).closed

theorem reading_items (depth : Nat) :
    ((ts.map encoding).map fun p => (reading depth p).1) = ts.map Term.canonical := by
  rw [List.map_map]
  exact List.map_congr_left fun t ht => (h t ht).reading_eq depth

theorem place_items (scope : Scope) (depth : Int) :
    ts.mapM (place · scope depth) = .ok (ts.map encoding) :=
  mapM_eq_ok fun t ht => (h t ht).place_eq scope depth

theorem encodes_list : Encodes (foldList (ts.map encoding)) (.list ts) where
  place_eq scope depth := by rw [place_list, place_items h]; rfl
  closed := Lambda.closed_foldList (closed_items h)
  reading_eq depth := by
    rw [Term.canonical_list]
    by_cases hne : ts = []
    · rw [hne]
      exact reading_numeral depth 0
    · rw [reading_foldList (by simpa using hne) (closed_items h), reading_items h,
        asString_list (by simpa using hne)]

theorem encodes_tuple (hne : ts ≠ []) (hv : ∀ t ∈ ts, t.IsValue) :
    Encodes (consumed (ts.map encoding)) (.tuple ts) where
  place_eq scope depth := by rw [place_tuple, place_items h]; rfl
  closed := Lambda.closed_consumed (closed_items h)
  reading_eq depth := by
    -- a bit zero is read as an abstraction, which no canonical item is
    have habs : ∀ t ∈ ts.map Term.canonical, ∀ ps b, t ≠ .abs ps b := by
      refine List.forall_mem_map.2 fun t ht ps b habs => ?_
      have hunshared := (hv t ht).unshared_canonical
      rw [habs] at hunshared
      cases hunshared
    rw [Term.canonical_tuple, reading_consumed (by simpa using hne) (closed_items h),
      reading_items h, asBits_tuple_canonical habs]

end Items

theorem exists_encodes {v : Term} (h : v.IsValue) : ∃ p, Encodes p v := by
  induction h with
  | nat n =>
    exact ⟨numeral n, fun _ _ => rfl, Lambda.closed_numeral n, fun depth => reading_numeral depth n⟩
  | char c => exact ⟨_, encodes_char c⟩
  | word n => exact ⟨_, encodes_word n⟩
  | str s => exact ⟨_, encodes_str s⟩
  | list _ ih =>
    choose! encoding hencoding using ih
    exact ⟨_, encodes_list hencoding⟩
  | tuple hne hv ih =>
    choose! encoding hencoding using ih
    exact ⟨_, encodes_tuple hencoding hne hv⟩

end Church

/-- Every value is encoded, and read back as its canonical form. -/
theorem Term.decode_encoded {v : Term} (h : v.IsValue) :
    ∃ p, v.encoded = .ok p ∧ Church.decode p = v.canonical ∧
    (Church.decode p = v ↔ v.Unshared) := by
  obtain ⟨p, hp⟩ := Church.exists_encodes h
  have hdecode : Church.decode p = v.canonical :=
    (Church.decode_eq_reading p).trans (hp.reading_eq 0)
  refine ⟨p, ?_, hdecode, ?_⟩
  · rw [encoded, Church.encode_of_plain h.plain]
    exact hp.place_eq [] 0
  · rw [hdecode]
    exact canonical_eq_self_iff h

/-- Eight zeros are a character, and make the list around them a string. -/
theorem Term.decode_encoded_cascade :
    let v := Term.list [.tuple (List.replicate 8 (.nat 0)), .char (String.singleton 'a')]
    v.IsValue ∧
    ∃ p, v.encoded = .ok p ∧ Church.decode p = v.canonical ∧
    (Church.decode p = v ↔ v.Unshared) := by
  have hv :
      (Term.list [.tuple (List.replicate 8 (.nat 0)), .char (String.singleton 'a')]).IsValue := by
    refine .list (List.forall_mem_cons.2 ⟨.tuple (by simp) fun t ht => ?_, ?_⟩)
    · rw [List.eq_of_mem_replicate ht]
      exact .nat 0
    · exact List.forall_mem_singleton.2 (.char 'a')
  exact ⟨hv, decode_encoded hv⟩

example : (Term.list [.tuple (List.replicate 8 (.nat 0)), .char (String.singleton 'a')]).canonical =
    .str "\xffa" := by decide

end SugaredLambda
