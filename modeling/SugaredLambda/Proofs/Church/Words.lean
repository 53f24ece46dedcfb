import Mathlib.Data.List.Shortlex
import Mathlib.Data.Set.Function
import SugaredLambda.Proofs.Church.Names

/-! The words over a..z in shortlex order, known by their numbers, are the names of the binders. -/
namespace SugaredLambda.Church
variable {cs ds : List Char} {c d : Char} {m n : Nat}

def Lettered (cs : List Char) : Prop := ∀ c ∈ cs, 'a' ≤ c ∧ c ≤ 'z'

theorem lettered_cons : Lettered (c :: cs) ↔ ('a' ≤ c ∧ c ≤ 'z') ∧ Lettered cs :=
  List.forall_mem_cons

def words : Set String := {w | w ≠ "" ∧ Lettered w.toList}

/-- The number of a word whose beginning, already read, has the number `n`. -/
def numberOnto (n : Nat) (cs : List Char) : Nat := cs.foldl (fun n c => 26*n + letterValue c) n

theorem numberOnto_cons (n : Nat) (c : Char) (cs : List Char) :
    numberOnto n (c :: cs) = numberOnto (26*n + letterValue c) cs := rfl

theorem letterValue_bounds (hc : 'a' ≤ c ∧ c ≤ 'z') : 0 < letterValue c ∧ letterValue c ≤ 26 := by
  have hz : c.toNat ≤ 122 := hc.2
  have ha : 'a'.toNat = 97 := rfl
  rw [letterValue]
  omega

theorem letterValue_lt (hc : 'a' ≤ c) (h : c < d) : letterValue c < letterValue d := by
  have hc : 97 ≤ c.toNat := hc
  have h : c.toNat < d.toNat := h
  have ha : 'a'.toNat = 97 := rfl
  rw [letterValue, letterValue]
  omega

theorem letter_letterValue (hc : 'a' ≤ c ∧ c ≤ 'z') : letter (letterValue c - 1) = c := by
  have h97 : 97 ≤ c.toNat := hc.1
  have ha : 'a'.toNat = 97 := rfl
  rw [letter, letterValue, Nat.add_sub_cancel, ha, Nat.add_sub_cancel' h97, Char.ofNat_toNat]

theorem wordBefore_numberOnto (h : Lettered cs) (n : Nat) (rest : List Char) :
    wordBefore (numberOnto n cs) rest = wordBefore n (cs ++ rest) := by
  induction cs generalizing n with
  | nil => rfl
  | cons c cs ih =>
    obtain ⟨hc, hcs⟩ := lettered_cons.1 h
    obtain ⟨hpos, hle⟩ := letterValue_bounds hc
    have hdiv : (26*n + letterValue c - 1) / 26 = n := by omega
    have hmod : (26*n + letterValue c - 1) % 26 = letterValue c - 1 := by omega
    calc wordBefore (numberOnto n (c :: cs)) rest
      _ = wordBefore (26*n + letterValue c) (cs ++ rest) := ih hcs _
      _ = wordBefore n (c :: cs ++ rest) := by
        rw [wordBefore, if_neg (by omega), hdiv, hmod, letter_letterValue hc, List.cons_append]

theorem wordBefore_zero (rest : List Char) : wordBefore 0 rest = rest := by
  rw [wordBefore, if_pos rfl]

theorem wordBefore_wordNumber (h : Lettered cs) : wordBefore (wordNumber cs) [] = cs := by
  have hword := wordBefore_numberOnto h 0 []
  rwa [wordBefore_zero, List.append_nil] at hword

theorem exists_binderName {w : String} (hw : w ∈ words) : ∃ n, binderName n = w := by
  obtain ⟨hne, hletters⟩ := hw
  have hword := wordBefore_wordNumber hletters
  have hpos : wordNumber w.toList ≠ 0 := by
    intro hzero
    rw [hzero, wordBefore_zero] at hword
    exact hne (String.toList_eq_nil_iff.1 hword.symm)
  refine ⟨wordNumber w.toList - 1, ?_⟩
  rw [binderName, Nat.sub_add_cancel (Nat.pos_of_ne_zero hpos), hword, String.ofList_toList]

theorem binderName_mem_words (n : Nat) : binderName n ∈ words := by
  refine ⟨fun h => ?_, fun c hc => ?_⟩
  · have hnumber := wordNumber_binderName n
    rw [h] at hnumber
    exact absurd hnumber (Nat.succ_ne_zero n).symm
  · obtain ⟨k, hk, rfl⟩ := mem_binderName hc
    have hletter : (letter k).toNat = 97 + k := toNat_letter hk
    have ha : 97 ≤ (letter k).toNat := by omega
    have hz : (letter k).toNat ≤ 122 := by omega
    exact ⟨ha, hz⟩

/-- What is read first weighs more than all letters behind it. -/
theorem numberOnto_lt (hcs : Lettered cs) (hds : Lettered ds)
    (hlength : cs.length = ds.length) (h : m < n) : numberOnto m cs < numberOnto n ds := by
  induction cs generalizing ds m n with
  | nil =>
    rw [List.eq_nil_of_length_eq_zero hlength.symm]
    exact h
  | cons c cs ih =>
    obtain ⟨d, ds, rfl⟩ := List.exists_cons_of_length_eq_add_one hlength.symm
    obtain ⟨hc, hcs⟩ := lettered_cons.1 hcs
    obtain ⟨hd, hds⟩ := lettered_cons.1 hds
    have hle := (letterValue_bounds hc).2
    have hpos := (letterValue_bounds hd).1
    rw [numberOnto_cons, numberOnto_cons]
    exact ih hcs hds (Nat.add_right_cancel hlength)
      (by omega : 26*m + letterValue c < 26*n + letterValue d)

theorem numberOnto_lt_of_lex (hcs : Lettered cs) (hds : Lettered ds)
    (hlength : cs.length = ds.length) (h : List.Lex (· < ·) cs ds) (n : Nat) :
    numberOnto n cs < numberOnto n ds := by
  induction h generalizing n with
  | nil => exact absurd hlength (Nat.succ_ne_zero _).symm
  | cons _ ih =>
    exact ih (lettered_cons.1 hcs).2 (lettered_cons.1 hds).2 (Nat.add_right_cancel hlength) _
  | rel h =>
    obtain ⟨hc, hcs⟩ := lettered_cons.1 hcs
    have hvalue := letterValue_lt hc.1 h
    rw [numberOnto_cons, numberOnto_cons]
    exact numberOnto_lt hcs (lettered_cons.1 hds).2 (Nat.add_right_cancel hlength)
      (Nat.add_lt_add_left hvalue _)

theorem numberOnto_lt_of_length_lt (hcs : Lettered cs) (hds : Lettered ds)
    (h : cs.length < ds.length) (n : Nat) : numberOnto 0 cs < numberOnto n ds := by
  induction ds generalizing n with
  | nil => exact absurd h (Nat.not_lt_zero _)
  | cons d ds ih =>
    obtain ⟨hd, hds⟩ := lettered_cons.1 hds
    rw [numberOnto_cons]
    obtain hshorter | hsame := Nat.lt_or_eq_of_le (Nat.le_of_lt_succ h)
    · exact ih hds hshorter _
    · exact numberOnto_lt hcs hds hsame (Nat.add_pos_right _ (letterValue_bounds hd).1)

theorem wordNumber_lt_of_shortlex (hcs : Lettered cs) (hds : Lettered ds)
    (h : List.Shortlex (· < ·) cs ds) : wordNumber cs < wordNumber ds := by
  rcases List.shortlex_def.1 h with hlt | ⟨heq, hlex⟩
  · exact numberOnto_lt_of_length_lt hcs hds hlt 0
  · exact numberOnto_lt_of_lex hcs hds heq hlex 0

theorem lt_of_shortlex_binderName {i j : Nat}
    (h : List.Shortlex (· < ·) (binderName i).toList (binderName j).toList) : i < j := by
  have hnumber := wordNumber_lt_of_shortlex (binderName_mem_words i).2 (binderName_mem_words j).2 h
  rw [wordNumber_binderName, wordNumber_binderName] at hnumber
  exact Nat.lt_of_succ_lt_succ hnumber

theorem shortlex_binderName_iff {i j : Nat} :
    List.Shortlex (· < ·) (binderName i).toList (binderName j).toList ↔ i < j := by
  refine ⟨lt_of_shortlex_binderName, fun hij => ?_⟩
  -- the order is total, and the two other cases contradict the numbers
  by_contra hnot
  have heq : (binderName i).toList = (binderName j).toList :=
    Std.Trichotomous.trichotomous (r := List.Shortlex (· < ·)) _ _ hnot
      fun h => Nat.lt_asymm hij (lt_of_shortlex_binderName h)
  exact Nat.ne_of_lt hij (binderName_inj.1 (String.toList_inj.1 heq))

/-- Each word names one depth, in the order of the words; what escapes all binders has a
name apart. -/
theorem binderName_words :
    Set.BijOn binderName Set.univ words ∧
    (∀ i j, i < j ↔ List.Shortlex (· < ·) (binderName i).toList (binderName j).toList) ∧
    ∀ i k depth : Nat, variableName (depth + k) depth = "$" ++ toString k ∧
      binderName i ≠ variableName (depth + k) depth := by
  refine ⟨⟨fun n _ => binderName_mem_words n, ?injective, ?surjective⟩, ?ordered, ?apart⟩
  case injective => exact fun i _ j _ h => binderName_inj.1 h
  case surjective =>
    intro w hw
    obtain ⟨n, hn⟩ := exists_binderName hw
    exact ⟨n, Set.mem_univ n, hn⟩
  case ordered => exact fun i j => shortlex_binderName_iff.symm
  case apart =>
    intro i k depth
    have hname : variableName (depth + k) depth = escapeName k := variableName_of_escape rfl
    exact ⟨hname, hname ▸ binderName_ne_escapeName i k⟩

example : [25, 26, 701, 702].map binderName = ["z", "aa", "zz", "aaa"] := by cbv

end SugaredLambda.Church
