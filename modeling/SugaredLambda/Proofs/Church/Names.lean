import SugaredLambda.Church.BinderName
import SugaredLambda.Lambda.Printer

/-! The name of a binder is read as a number by its letters, so that binders at different depths
have different names. -/
namespace SugaredLambda.Church

def letterValue (c : Char) : Nat := c.toNat - 'a'.toNat + 1

/-- The number of a word: `a` is 1, `z` is 26, `aa` is 27. -/
def wordNumber (cs : List Char) : Nat := cs.foldl (fun n c => 26*n + letterValue c) 0

theorem toNat_charOfNat {n : Nat} (h : n < 0xd800) : (Char.ofNat n).toNat = n := by
  rw [Char.ofNat, dif_pos (Or.inl h)]
  rfl

theorem toNat_letter {n : Nat} (h : n < 26) : (letter n).toNat = 'a'.toNat + n := by
  have ha : 'a'.toNat = 97 := rfl
  exact toNat_charOfNat (by omega)

theorem letterValue_letter {n : Nat} (h : n < 26) : letterValue (letter n) = n + 1 := by
  rw [letterValue, toNat_letter h, Nat.add_sub_cancel_left]

theorem foldl_wordBefore (n : Nat) (rest : List Char) :
    wordNumber (wordBefore n rest) = rest.foldl (fun n c => 26*n + letterValue c) n := by
  fun_induction wordBefore n rest with
  | case1 => rfl
  | case2 n rest hn ih =>
    rw [ih, List.foldl_cons, letterValue_letter (Nat.mod_lt _ (by decide))]
    congr 1
    omega

theorem wordNumber_binderName (depth : Nat) : wordNumber (binderName depth).toList = depth + 1 := by
  rw [binderName, String.toList_ofList, foldl_wordBefore, List.foldl_nil]

theorem binderName_inj {i j : Nat} : binderName i = binderName j ↔ i = j := by
  constructor
  · intro h
    have hn := congrArg (fun s => wordNumber s.toList) h
    simp only [wordNumber_binderName] at hn
    omega
  · exact congrArg binderName

theorem mem_wordBefore {n : Nat} {rest : List Char} {c : Char} (h : c ∈ wordBefore n rest) :
    c ∈ rest ∨ ∃ k < 26, c = letter k := by
  fun_induction wordBefore n rest with
  | case1 => exact .inl h
  | case2 n rest hn ih =>
    cases ih h with
    | inl hc =>
      cases hc with
      | head => exact .inr ⟨(n - 1) % 26, Nat.mod_lt _ (by decide), rfl⟩
      | tail _ hc => exact .inl hc
    | inr hc => exact .inr hc

theorem mem_binderName {depth : Nat} {c : Char} (h : c ∈ (binderName depth).toList) :
    ∃ k < 26, c = letter k := by
  rw [binderName, String.toList_ofList] at h
  exact (mem_wordBefore h).resolve_left List.not_mem_nil

/-- The name of a variable that escapes all binders, counted from them. -/
def escapeName (k : Nat) : String := "$" ++ toString k

theorem toList_escapeName (k : Nat) : (escapeName k).toList = '$' :: Nat.toDigits 10 k := by
  simp [escapeName]

theorem escapeName_inj {i j : Nat} : escapeName i = escapeName j ↔ i = j := by
  constructor
  · intro h
    have hd := congrArg String.toList h
    rw [toList_escapeName, toList_escapeName, List.cons.injEq] at hd
    exact Lambda.toDigits_inj hd.2
  · exact congrArg escapeName

theorem binderName_ne_escapeName (i k : Nat) : binderName i ≠ escapeName k := by
  intro h
  have hmem : '$' ∈ (binderName i).toList := by rw [h, toList_escapeName]; exact List.mem_cons_self
  obtain ⟨n, hn, hletter⟩ := mem_binderName hmem
  have hnumber := congrArg Char.toNat hletter
  rw [toNat_letter hn] at hnumber
  exact absurd hnumber (Nat.ne_of_lt (Nat.lt_of_lt_of_le (by decide) (Nat.le_add_right _ n)))

theorem variableName_of_bound {depth : Nat} {index : Int} {j : Nat} (h : depth - index - 1 = j) :
    variableName index depth = binderName j := by
  rw [variableName, h]

theorem variableName_of_escape {depth : Nat} {index : Int} {k : Nat} (h : index = depth + k) :
    variableName index depth = escapeName k := by
  have hneg : (depth : Int) - index - 1 = .negSucc k := by omega
  rw [variableName, hneg]
  simp only
  rw [← toList_escapeName, String.ofList_toList]

theorem variableName_cases (index : Int) (depth : Nat) :
    (∃ j : Nat, depth - index - 1 = (j : Int) ∧ variableName index depth = binderName j) ∨
      ∃ k : Nat, variableName index depth = escapeName k := by
  by_cases hneg : depth - index - 1 < 0
  · obtain ⟨k, hk⟩ := Int.eq_ofNat_of_zero_le (by omega : 0 ≤ index - depth)
    exact .inr ⟨k, variableName_of_escape (by omega)⟩
  · obtain ⟨j, hj⟩ := Int.eq_ofNat_of_zero_le (by omega : 0 ≤ depth - index - 1)
    exact .inl ⟨j, hj, variableName_of_bound hj⟩

theorem variableName_eq_binderName_iff {depth j : Nat} {index : Int} :
    variableName index depth = binderName j ↔ depth - index - 1 = (j : Int) := by
  refine ⟨fun h => ?_, variableName_of_bound⟩
  rcases variableName_cases index depth with ⟨i, hi, hname⟩ | ⟨k, hname⟩
  · rw [hname, binderName_inj] at h
    omega
  · rw [hname] at h
    exact absurd h.symm (binderName_ne_escapeName j k)

end SugaredLambda.Church
