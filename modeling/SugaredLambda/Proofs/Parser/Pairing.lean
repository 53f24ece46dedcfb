import Mathlib.Data.List.Forall2
import SugaredLambda.Parser.Character
import SugaredLambda.Parser.Repetition

/-! Two runs side by side: one on a text, the other on what is left of it behind an offset. -/
namespace SugaredLambda.Parser
variable {κ ω α β γ δ : Type} [BEq κ] [Hashable κ]

def moved (offset : Nat) (found : Results α) : Results α := found.map fun x => (x.1, offset + x.2)

/-- A text, what is left of it behind an offset, and a relation between the progress of the two runs
that holds on when both look at the same position. -/
structure Pairing (κ ω : Type) [BEq κ] [Hashable κ] where
  whole : Array Char
  part : Array Char
  offset : Nat
  offset_le : offset ≤ whole.size
  toList_part : part.toList = whole.toList.drop offset
  Related : Progress κ ω → Progress κ ω → Prop
  reach : ∀ {s s'} (i : Nat), Related s s' →
    Related { s with farthest := max s.farthest (offset + i) }
      { s' with farthest := max s'.farthest i }

namespace Pairing
variable (σ : Pairing κ ω)

theorem size_eq : σ.whole.size = σ.offset + σ.part.size := by
  have h := congrArg List.length σ.toList_part
  have hle := σ.offset_le
  simp only [Array.length_toList, List.length_drop] at h
  omega

theorem get_eq (i : Nat) : σ.whole[σ.offset + i]? = σ.part[i]? := by
  rw [← Array.getElem?_toList, ← Array.getElem?_toList, σ.toList_part, List.getElem?_drop]

theorem slice_eq (i j : Nat) : slice σ.whole (σ.offset + i) (σ.offset + j) = slice σ.part i j := by
  simp only [slice, Array.toList_extract, List.extract_eq_take_drop, σ.toList_part, List.drop_drop,
    Nat.add_sub_add_left]

def Kept (Related : Progress κ ω → Progress κ ω → Prop) : Prop :=
  ∀ s s' i, Related s s' →
    Related { s with farthest := max s.farthest i } { s' with farthest := max s'.farthest i }

theorem kept_eq : Kept (Eq (α := Progress κ ω)) := by
  rintro s _ i rfl
  rfl

def same (text : Array Char) (Related : Progress κ ω → Progress κ ω → Prop) (kept : Kept Related) :
    Pairing κ ω where
  whole := text
  part := text
  offset := 0
  offset_le := Nat.zero_le _
  toList_part := rfl
  Related := Related
  reach i h := by simpa only [Nat.zero_add] using kept _ _ i h

end Pairing

variable {σ : Pairing κ ω} {low gain more : Nat}

/-- Results with the same values at the same places, none before `first`. -/
def Agree (σ : Pairing κ ω) (first : Nat) (m m' : StateM (Progress κ ω) (Results α)) : Prop :=
  ∀ s s', σ.Related s s' →
    (m.run s).1 = moved σ.offset (m'.run s').1 ∧ σ.Related (m.run s).2 (m'.run s').2 ∧
      ∀ x ∈ (m'.run s').1, first ≤ x.2 ∧ x.2 ≤ σ.part.size

/-- From `low` on, two parsers read the same, and at least `gain` characters. -/
def Follows (σ : Pairing κ ω) (low gain : Nat) (p q : Parser κ ω α) : Prop :=
  ∀ i, low ≤ i → i ≤ σ.part.size → Agree σ (i + gain) (p σ.whole (σ.offset + i)) (q σ.part i)

@[simp] theorem moved_append (offset : Nat) (xs ys : Results α) :
    moved offset (xs ++ ys) = moved offset xs ++ moved offset ys := List.map_append

@[simp] theorem moved_zero (found : Results α) : moved 0 found = found := by simp [moved]

theorem follows_same_iff {text : Array Char} {Related : Progress κ ω → Progress κ ω → Prop}
    {kept : Pairing.Kept Related} {p q : Parser κ ω α} :
    Follows (.same text Related kept) low gain p q ↔ ∀ i, low ≤ i → i ≤ text.size →
      Agree (.same text Related kept) (i + gain) (p text i) (q text i) := by
  simp only [Follows, Pairing.same, Nat.zero_add]

theorem Agree.return (first : Nat) (found : Results α)
    (h : ∀ x ∈ found, first ≤ x.2 ∧ x.2 ≤ σ.part.size) :
    Agree σ first (return moved σ.offset found) (return found) :=
  fun _ _ hs => ⟨rfl, hs, h⟩

theorem Agree.mono {first later : Nat} {m m' : StateM (Progress κ ω) (Results α)}
    (h : Agree σ later m m') (hle : first ≤ later) : Agree σ first m m' := by
  intro s s' hs
  obtain ⟨hfound, hrelated, hbounds⟩ := h s s' hs
  exact ⟨hfound, hrelated, fun x hx => ⟨Nat.le_trans hle (hbounds x hx).1, (hbounds x hx).2⟩⟩

theorem Agree.bind {first later : Nat} {m m' : StateM (Progress κ ω) (Results α)}
    {f f' : Results α → StateM (Progress κ ω) (Results β)} (h : Agree σ first m m')
    (hf : ∀ found, (∀ x ∈ found, first ≤ x.2 ∧ x.2 ≤ σ.part.size) →
      Agree σ later (f (moved σ.offset found)) (f' found)) :
    Agree σ later (m >>= f) (m' >>= f') := by
  intro s s' hs
  obtain ⟨hfound, hrelated, hbounds⟩ := h s s' hs
  have hnext := hf _ hbounds _ _ hrelated
  rw [← hfound] at hnext
  exact hnext

theorem Agree.reach {first : Nat} (i : Nat) {m m' : StateM (Progress κ ω) (Results α)}
    (h : Agree σ first m m') :
    Agree σ first (do reach (σ.offset + i); m) (do reach i; m') :=
  fun _ _ hs => h _ _ (σ.reach i hs)

theorem Agree.append {first : Nat} {m m' n n' : StateM (Progress κ ω) (Results α)}
    (h : Agree σ first m m') (hn : Agree σ first n n') :
    Agree σ first (do let found ← m; return found ++ (← n))
      (do let found ← m'; return found ++ (← n')) :=
  h.bind fun found hfound => hn.bind fun others hothers => by
    rw [← moved_append]
    exact .return first _ fun x hx => (List.mem_append.1 hx).elim (hfound x) (hothers x)

theorem Agree.orElse {first : Nat} {m m' n n' : StateM (Progress κ ω) (Results α)}
    (h : Agree σ first m m') (hn : Agree σ first n n') :
    Agree σ first (do match ← m with | [] => n | found => return found)
      (do match ← m' with | [] => n' | found => return found) :=
  h.bind fun found hfound =>
    match found with
    | [] => hn
    | _ :: _ => .return first _ hfound

theorem Agree.after {first : Nat} {f f' : α → Nat → StateM (Progress κ ω) (Results β)}
    {found : Results α}
    (h : ∀ x ∈ found, Agree σ first (f x.1 (σ.offset + x.2)) (f' x.1 x.2)) :
    Agree σ first (after f (moved σ.offset found)) (after f' found) := by
  induction found with
  | nil => exact Agree.return first [] (by simp)
  | cons x found ih =>
    obtain ⟨hx, hfound⟩ := List.forall_mem_cons.1 h
    exact hx.append (ih hfound)

namespace Follows

theorem mono {p q : Parser κ ω α} (h : Follows σ low more p q) {low' : Nat} (hlow : low ≤ low')
    (hgain : gain ≤ more) : Follows σ low' gain p q :=
  fun i hi hsize => (h i (Nat.le_trans hlow hi) hsize).mono (by omega)

theorem pure (low : Nat) (v : α) : Follows σ low 0 (pure v : Parser κ ω α) (pure v) :=
  fun i _ hsize => Agree.return i [(v, i)] (by simpa using hsize)

theorem bind {p q : Parser κ ω α} {f g : α → Parser κ ω β} (h : Follows σ low gain p q)
    (hf : ∀ v, Follows σ (low + gain) more (f v) (g v)) :
    Follows σ low (gain + more) (p >>= f) (q >>= g) := by
  intro i hi hsize
  refine (h i hi hsize).bind fun found hfound => .after fun x hx => ?_
  obtain ⟨hfirst, hlast⟩ := hfound x hx
  exact (hf x.1 x.2 (by omega) hlast).mono (by omega)

/-- A parser that reads something leaves only later positions to the next one. -/
theorem andThen {p q : Parser κ ω α} {f g : α → Parser κ ω β} (h : Follows σ low 1 p q)
    (hf : ∀ v, Follows σ (low + 1) 0 (f v) (g v)) : Follows σ low 1 (p >>= f) (q >>= g) := h.bind hf

theorem map (f : α → β) {p q : Parser κ ω α} (h : Follows σ low gain p q) :
    Follows σ low gain (f <$> p) (f <$> q) := h.bind fun v => .pure _ (f v)

theorem seqRight {p q : Parser κ ω α} {p' q' : Parser κ ω β} (h : Follows σ low gain p q)
    (h' : Follows σ (low + gain) more p' q') : Follows σ low (gain + more) (p *> p') (q *> q') :=
  h.bind fun _ => h'

theorem fail (low gain : Nat) : Follows σ low gain (fail : Parser κ ω α) fail :=
  fun i _ _ => Agree.return (i + gain) [] (by simp)

theorem anyOf {ps qs : List (Parser κ ω α)} (h : List.Forall₂ (Follows σ low gain) ps qs) :
    Follows σ low gain (anyOf ps) (anyOf qs) := by
  induction h with
  | nil => exact .fail low gain
  | cons h _ ih => exact fun i hi hsize => (h i hi hsize).append (ih i hi hsize)

theorem firstOf {ps qs : List (Parser κ ω α)} (h : List.Forall₂ (Follows σ low gain) ps qs) :
    Follows σ low gain (firstOf ps) (firstOf qs) := by
  induction h with
  | nil => exact .fail low gain
  | cons h _ ih => exact fun i hi hsize => (h i hi hsize).orElse (ih i hi hsize)

theorem satisfy (low : Nat) (test : Char → Bool) :
    Follows σ low 1 (satisfy test : Parser κ ω Char) (satisfy test) := by
  intro i _ _
  refine Agree.reach i ?_
  rw [σ.get_eq]
  cases h : σ.part[i]? with
  | none => exact Agree.return (i + 1) [] (by simp)
  | some c =>
    have hi : i < σ.part.size := (Array.getElem?_eq_some_iff.1 h).1
    by_cases hc : test c
    · simp only [hc, if_true]
      exact Agree.return (i + 1) [(c, i + 1)] (by simp; omega)
    · simp only [hc]
      exact Agree.return (i + 1) [] (by simp)

theorem char (low : Nat) (c : Char) : Follows σ low 1 (char c : Parser κ ω Char) (char c) :=
  satisfy low _

theorem sharedLength_eq (σ : Pairing κ ω) (i : Nat) (word : List Char) :
    sharedLength σ.whole (σ.offset + i) word = sharedLength σ.part i word := by
  induction word generalizing i with
  | nil => rfl
  | cons c word ih => simp only [sharedLength, σ.get_eq, Nat.add_assoc, ih]

theorem add_sharedLength_le {text : Array Char} {i : Nat} (h : i ≤ text.size) (word : List Char) :
    i + sharedLength text i word ≤ text.size := by
  induction word generalizing i with
  | nil => exact h
  | cons c word ih =>
    by_cases hc : text[i]? = some c
    · have hi : i < text.size := (Array.getElem?_eq_some_iff.1 hc).1
      have := ih (i := i + 1) (by omega)
      simp only [sharedLength, hc, if_true]
      omega
    · simpa [sharedLength, hc] using h

theorem string (low : Nat) (word : List Char) :
    Follows σ low word.length (string word : Parser κ ω (List Char)) (string word) := by
  intro i _ hsize
  have hle := add_sharedLength_le hsize word
  have hin : σ.offset + i ≤ σ.whole.size := by rw [σ.size_eq]; omega
  simp only [Parser.string, sharedLength_eq, hsize, hin, and_true, Nat.add_assoc]
  refine Agree.reach _ ?_
  by_cases hword : sharedLength σ.part i word = word.length
  · simp only [hword, if_true]
    exact Agree.return (i + word.length) [(word, i + word.length)] (by simp; omega)
  · simp only [hword, if_false]
    exact Agree.return (i + word.length) [] (by simp)

theorem runEnd_eq (test : Char → Bool) (text : Array Char) (i : Nat) :
    runEnd test text i =
      match text[i]? with
      | some c => if test c then runEnd test text (i + 1) else i
      | none => i := by
  rw [runEnd]
  by_cases h : i < text.size
  · rw [dif_pos h, Array.getElem?_eq_getElem h]
  · rw [dif_neg h, Array.getElem?_eq_none (by omega)]

theorem runEnd_add (σ : Pairing κ ω) (test : Char → Bool) (i : Nat) :
    runEnd test σ.whole (σ.offset + i) = σ.offset + runEnd test σ.part i := by
  fun_induction runEnd test σ.part i with
  | case1 i hi hc ih =>
    rw [runEnd_eq, σ.get_eq, Array.getElem?_eq_getElem hi, ← ih]
    simp [hc, Nat.add_assoc]
  | case2 i hi hc => rw [runEnd_eq, σ.get_eq, Array.getElem?_eq_getElem hi]; simp [hc]
  | case3 i hi => rw [runEnd_eq, σ.get_eq, Array.getElem?_eq_none (by omega)]

theorem longest (low : Nat) (test : Char → Bool) :
    Follows σ low 0 (longest test : Parser κ ω (List Char)) (longest test) := by
  intro i _ hsize
  have hle := le_runEnd test σ.part i
  have hend := runEnd_le test hsize
  simp only [Parser.longest, runEnd_add, σ.slice_eq]
  exact Agree.reach _ (Agree.return (i + 0) [(_, runEnd test σ.part i)] (by simp; omega))

theorem runs (low : Nat) (test : Char → Bool) :
    Follows σ low 1 (runs test : Parser κ ω (List Char)) (runs test) := by
  intro i _ hsize
  have hend := runEnd_le test hsize
  have hfound :
      ((List.range' (σ.offset + i + 1) (σ.offset + runEnd test σ.part i - (σ.offset + i))).map
      fun j => (slice σ.whole (σ.offset + i) j, j)) =
      moved σ.offset ((List.range' (i + 1) (runEnd test σ.part i - i)).map
        fun j => (slice σ.part i j, j)) := by
    rw [Nat.add_sub_add_left, Nat.add_assoc, ← List.map_add_range', moved,
      List.map_map, List.map_map]
    exact List.map_congr_left fun j _ => by simp [σ.slice_eq]
  simp only [Parser.runs, runEnd_add, hfound]
  refine Agree.reach _ (Agree.return (i + 1) _ ?_)
  intro x hx
  obtain ⟨j, hj, rfl⟩ := List.mem_map.1 hx
  have := List.mem_range'_1.1 hj
  dsimp only
  omega

theorem extend {p q : Parser κ ω α} (h : Follows σ low 0 p q) {found : Results (List α)}
    (hfound : ∀ x ∈ found, low ≤ x.2 ∧ x.2 ≤ σ.part.size) :
    Agree σ (low + 1) (extend p σ.whole (moved σ.offset found)) (extend q σ.part found) := by
  refine .after fun x hx => ?_
  obtain ⟨hlow, hsize⟩ := hfound x hx
  refine (h x.2 hlow hsize).bind fun links hlinks => ?_
  have hmoved : ((moved σ.offset links).filter (·.2 != σ.offset + x.2)).map
      (fun y => (x.1 ++ [y.1], y.2)) =
      moved σ.offset ((links.filter (·.2 != x.2)).map fun y => (x.1 ++ [y.1], y.2)) := by
    simp only [moved, List.filter_map, List.map_map]
    congr 1
    refine List.filter_congr fun y _ => ?_
    simp [bne, Nat.add_left_cancel_iff]
  simp only [hmoved]
  refine .return (low + 1) _ fun y hy => ?_
  obtain ⟨z, hz, rfl⟩ := List.mem_map.1 hy
  obtain ⟨hz, hne⟩ := List.mem_filter.1 hz
  have hbounds := hlinks z hz
  have hne : z.2 ≠ x.2 := by simpa using hne
  dsimp only
  omega

theorem chains {p q : Parser κ ω α} (h : Follows σ low 0 p q) (rounds : Nat)
    {found : Results (List α)} (hfound : ∀ x ∈ found, low ≤ x.2 ∧ x.2 ≤ σ.part.size) :
    Agree σ low (chains p σ.whole rounds (moved σ.offset found))
      (chains q σ.part rounds found) := by
  induction rounds generalizing found with
  | zero => cases found <;> exact .return low _ hfound
  | succ rounds ih =>
    cases found with
    | nil => exact .return low _ hfound
    | cons x found =>
      refine ((h.extend hfound).mono (Nat.le_succ low)).bind fun longer hlonger =>
        (ih hlonger).bind fun more hmore => ?_
      rw [← moved_append]
      exact .return low _ fun y hy => (List.mem_append.1 hy).elim (hfound y) (hmore y)

theorem many {p q : Parser κ ω α} (h : Follows σ low 0 p q) :
    Follows σ low 0 (many p) (many q) := by
  intro i hi hsize
  have hrounds : σ.whole.size - (σ.offset + i) = σ.part.size - i := by rw [σ.size_eq]; omega
  simp only [Parser.many, hrounds]
  change Agree σ i (Parser.chains p σ.whole _ (moved σ.offset [([], i)])) _
  exact (h.mono hi (Nat.le_refl 0)).chains _ (by simpa using hsize)

theorem many1 {p q : Parser κ ω α} (h : Follows σ low 1 p q) :
    Follows σ low 1 (many1 p) (many1 q) :=
  h.andThen fun v => (h.mono (by omega) (by omega)).many.bind fun vs => .pure _ (v :: vs)

theorem sepBy1 {p q : Parser κ ω α} {sep sep' : Parser κ ω β} (h : Follows σ low 1 p q)
    (hsep : Follows σ low 0 sep sep') : Follows σ low 1 (sepBy1 p sep) (sepBy1 q sep') :=
  h.andThen fun v =>
    ((hsep.mono (by omega) (by omega)).bind fun _ =>
        h.mono (by omega) (Nat.zero_le 1)).many.bind fun vs =>
      .pure _ (v :: vs)

theorem sepBy {p q : Parser κ ω α} {sep sep' : Parser κ ω β} (h : Follows σ low 1 p q)
    (hsep : Follows σ low 0 sep sep') : Follows σ low 0 (sepBy p sep) (sepBy q sep') :=
  .anyOf (.cons (.pure low [])
    (.cons ((h.sepBy1 hsep).mono (Nat.le_refl low) (Nat.zero_le 1)) .nil))

theorem between {left left' : Parser κ ω α} {right right' : Parser κ ω β} {p q : Parser κ ω γ}
    (hleft : Follows σ low gain left left') (hp : Follows σ (low + gain) 0 p q)
    (hright : Follows σ (low + gain) 0 right right') :
    Follows σ low gain (between left right p) (between left' right' q) :=
  hleft.bind fun _ => hp.bind fun v => hright.bind fun _ => .pure _ v

end Follows
end SugaredLambda.Parser
