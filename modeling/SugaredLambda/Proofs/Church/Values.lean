import Mathlib.Algebra.Order.Ring.Nat
import SugaredLambda.Proofs.Church.Recognition

/-! Values of different kinds share encodings; `canonical` is one value for each, found from the
innermost parts on. -/
namespace SugaredLambda.Term

inductive IsValue : Term → Prop where
  | nat (n : Nat) : IsValue (.nat n)
  | char (c : Char) : IsValue (.char (String.singleton c))
  | word (n : Nat) : IsValue (.word n)
  | str (s : String) : IsValue (.str s)
  | list {ts : List Term} : (∀ t ∈ ts, IsValue t) → IsValue (.list ts)
  | tuple {ts : List Term} : ts ≠ [] → (∀ t ∈ ts, IsValue t) → IsValue (.tuple ts)

def lowChar (c : Char) : Char := Char.ofNat (c.toNat % 256)

def lowText (s : String) : String := String.ofList (s.toList.map lowChar)

def isChar : Term → Bool
  | .char _ => true
  | _ => false

def charText : Term → String
  | .char s => s
  | _ => ""

/-- A list of characters is a string, and an empty one is zero. -/
def canonicalList (items : List Term) : Term :=
  if items = [] then .nat 0
  else if items.all isChar then .str (String.join (items.map charText))
  else .list items

/-- Eight zeros are a character, and thirty-two a word, since a zero is a bit one. -/
def canonicalTuple (items : List Term) : Term :=
  if items = List.replicate 8 (.nat 0) then .char (String.singleton (Char.ofNat 255))
  else if items = List.replicate 32 (.nat 0) then .word (2^32 - 1)
  else .tuple items

def canonicalString (s : String) : Term := if s = "" then .nat 0 else .str (lowText s)

def canonical : Term → Term :=
  fold { rebuild with
    char := fun s => .char (lowText s)
    word := fun n => .word (n % 2^32)
    str := canonicalString
    list := canonicalList
    tuple := canonicalTuple }

/-- Values that are told from all others by their encoding. -/
inductive Unshared : Term → Prop where
  | nat (n : Nat) : Unshared (.nat n)
  | char {c : Char} : c.toNat < 256 → Unshared (.char (String.singleton c))
  | word {n : Nat} : n < 2^32 → Unshared (.word n)
  | str {s : String} : s ≠ "" → (∀ c ∈ s.toList, c.toNat < 256) → Unshared (.str s)
  | list {ts : List Term} :
      (∃ t ∈ ts, ∀ s, t ≠ .char s) → (∀ t ∈ ts, Unshared t) → Unshared (.list ts)
  | tuple {ts : List Term} :
      ts ≠ [] → ts ≠ List.replicate 8 (.nat 0) → ts ≠ List.replicate 32 (.nat 0) →
      (∀ t ∈ ts, Unshared t) → Unshared (.tuple ts)

theorem IsValue.plain {v : Term} (h : v.IsValue) : v.Plain := by
  induction h with
  | nat n => exact .nat n
  | char c => exact .char c
  | word n => exact .word n
  | str s => exact .str s
  | list _ ih => exact .list ih
  | tuple _ _ ih => exact .tuple ih

theorem canonical_list (ts : List Term) : (list ts).canonical = canonicalList (ts.map canonical) :=
  congrArg canonicalList (foldAll_eq _ ts)

theorem canonical_tuple (ts : List Term) :
    (tuple ts).canonical = canonicalTuple (ts.map canonical) :=
  congrArg canonicalTuple (foldAll_eq _ ts)

theorem lowText_singleton (c : Char) :
    lowText (String.singleton c) = String.singleton (lowChar c) := by
  rw [lowText, String.toList_singleton]
  rfl

theorem canonical_char (c : Char) :
    (char (String.singleton c)).canonical = .char (String.singleton (lowChar c)) :=
  congrArg char (lowText_singleton c)

theorem toNat_lowChar (c : Char) : (lowChar c).toNat = c.toNat % 256 :=
  Church.toNat_charOfNat (by omega)

theorem lowChar_of_lt {c : Char} (h : c.toNat < 256) : lowChar c = c := by
  rw [lowChar, Nat.mod_eq_of_lt h, Char.ofNat_toNat]

theorem lowText_of_lt {s : String} (h : ∀ c ∈ s.toList, c.toNat < 256) : lowText s = s := by
  have hmap : s.toList.map lowChar = s.toList := by
    conv => rhs; rw [← List.map_id s.toList]
    exact List.map_congr_left fun c hc => lowChar_of_lt (h c hc)
  rw [lowText, hmap, String.ofList_toList]

theorem canonicalList_chars {cs : List Char} (hne : cs ≠ []) :
    canonicalList (cs.map fun c => .char (String.singleton c)) = .str (String.ofList cs) := by
  have hjoin : String.join ((cs.map fun c => Term.char (String.singleton c)).map charText) =
      String.ofList cs := by
    apply String.toList_injective
    rw [List.map_map, String.toList_ofList]
    exact Church.toList_join_singleton cs
  rw [canonicalList, if_neg (by simpa using hne), if_pos (by simp [isChar]), hjoin]

theorem isChar_iff {t : Term} : t.isChar ↔ ∃ s, t = .char s := by
  cases t <;> simp [isChar]

theorem Unshared.canonical_eq {v : Term} (h : v.Unshared) : v.canonical = v := by
  induction h with
  | nat n => rfl
  | char hc => rw [canonical_char, lowChar_of_lt hc]
  | word hn => exact congrArg Term.word (Nat.mod_eq_of_lt hn)
  | str hne hs =>
    change canonicalString _ = _
    rw [canonicalString, if_neg hne, lowText_of_lt hs]
  | @list ts hitem _ ih =>
    obtain ⟨t, ht, hchar⟩ := hitem
    have hmap : ts.map canonical = ts := (List.map_congr_left ih).trans (List.map_id ts)
    -- the item that is no character keeps the list from being a string
    have hall : ¬ ts.all isChar := by
      intro h
      obtain ⟨s, hs⟩ := isChar_iff.1 (List.all_eq_true.1 h t ht)
      exact hchar s hs
    rw [canonical_list, hmap, canonicalList, if_neg (List.ne_nil_of_mem ht), if_neg hall]
  | @tuple ts hne h8 h32 _ ih =>
    have hmap : ts.map canonical = ts := (List.map_congr_left ih).trans (List.map_id ts)
    rw [canonical_tuple, hmap, canonicalTuple, if_neg h8, if_neg h32]

theorem exists_chars {ts : List Term} (h : ∀ t ∈ ts, t.Unshared) (hc : ts.all isChar) :
    ∃ cs : List Char, ts = cs.map (fun c => .char (String.singleton c)) ∧
    ∀ c ∈ cs, c.toNat < 256 := by
  induction ts with
  | nil => exact ⟨[], rfl, by simp⟩
  | cons t ts ih =>
    obtain ⟨ht, hts⟩ := List.forall_mem_cons.1 h
    rw [List.all_cons, Bool.and_eq_true] at hc
    obtain ⟨cs, rfl, hcs⟩ := ih hts hc.2
    cases ht with
    | @char c hlt => exact ⟨c :: cs, rfl, List.forall_mem_cons.2 ⟨hlt, hcs⟩⟩
    | _ => exact absurd hc.1 (by simp [isChar])

theorem unshared_canonicalList {ts : List Term} (h : ∀ t ∈ ts, t.Unshared) :
    (canonicalList ts).Unshared := by
  by_cases hnil : ts = []
  · rw [canonicalList, if_pos hnil]; exact .nat 0
  · by_cases hc : ts.all isChar
    · obtain ⟨cs, rfl, hcs⟩ := exists_chars h hc
      have hne : cs ≠ [] := by simpa using hnil
      rw [canonicalList_chars hne]
      exact .str (by simpa using hne) (by simpa using hcs)
    · have hex : ∃ t ∈ ts, t.isChar = false := by simpa using hc
      obtain ⟨t, ht, hchar⟩ := hex
      rw [canonicalList, if_neg hnil, if_neg hc]
      refine .list ⟨t, ht, ?_⟩ h
      rintro s rfl
      contradiction

theorem unshared_canonicalTuple {ts : List Term} (hne : ts ≠ []) (h : ∀ t ∈ ts, t.Unshared) :
    (canonicalTuple ts).Unshared := by
  by_cases h8 : ts = List.replicate 8 (.nat 0)
  · rw [canonicalTuple, if_pos h8]; exact .char (by decide)
  · by_cases h32 : ts = List.replicate 32 (.nat 0)
    · rw [canonicalTuple, if_neg h8, if_pos h32]; exact .word (by decide)
    · rw [canonicalTuple, if_neg h8, if_neg h32]; exact .tuple hne h8 h32 h

theorem IsValue.unshared_canonical {v : Term} (h : v.IsValue) : v.canonical.Unshared := by
  induction h with
  | nat n => exact .nat n
  | char c =>
    rw [canonical_char]
    exact .char (by rw [toNat_lowChar]; omega)
  | word n => exact .word (Nat.mod_lt n (by decide))
  | str s =>
    change (canonicalString s).Unshared
    by_cases hs : s = ""
    · rw [canonicalString, if_pos hs]; exact .nat 0
    · rw [canonicalString, if_neg hs]
      refine .str (fun h => hs ?_) ?_
      · simpa [lowText] using h
      · simp [lowText, toNat_lowChar]
        omega
  | list _ ih =>
    rw [canonical_list]
    exact unshared_canonicalList (by simpa using ih)
  | tuple hne _ ih =>
    rw [canonical_tuple]
    exact unshared_canonicalTuple (by simpa using hne) (by simpa using ih)

theorem canonical_eq_self_iff {v : Term} (h : v.IsValue) : v.canonical = v ↔ v.Unshared :=
  ⟨fun hv => hv ▸ h.unshared_canonical, Unshared.canonical_eq⟩

end SugaredLambda.Term
