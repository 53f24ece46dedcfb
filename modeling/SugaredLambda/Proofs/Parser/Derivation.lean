import SugaredLambda.Proofs.Parser.Reading

/-! A derivation relates a text to the values at its beginning and to what is left of it, wherever
that is. -/
namespace SugaredLambda

/-- The values that a text may begin with, each with what is left of the text. -/
def Derivation (α : Type) := List Char → α → List Char → Prop

namespace Derivation
variable {α β γ : Type}

instance : Monad Derivation where
  pure v := fun text w rest => w = v ∧ rest = text
  bind P F := fun text w rest => ∃ v mid, P text v mid ∧ F v mid w rest

def satisfy (test : Char → Bool) : Derivation Char := fun text c rest => text = c :: rest ∧ test c

def char (c : Char) : Derivation Char := satisfy (· == c)

def string (word : List Char) : Derivation (List Char) :=
  fun text v rest => v = word ∧ text = word ++ rest

def longest (test : Char → Bool) : Derivation (List Char) := fun text v rest =>
  text = v ++ rest ∧ (∀ c ∈ v, test c) ∧ ∀ c ∈ rest.head?, test c = false

def runs (test : Char → Bool) : Derivation (List Char) := fun text v rest =>
  text = v ++ rest ∧ v ≠ [] ∧ ∀ c ∈ v, test c

def anyOf (Ps : List (Derivation α)) : Derivation α := fun text v rest => ∃ P ∈ Ps, P text v rest

/-- An alternative counts only where those before it derive nothing at all. -/
def firstOf : List (Derivation α) → Derivation α
  | [] => fun _ _ _ => False
  | P :: Ps =>
    fun text v rest => P text v rest ∨ (∀ w last, ¬P text w last) ∧ firstOf Ps text v rest

section
variable {P : Derivation α} {Ps : List (Derivation α)} {text rest : List Char} {v : α}

theorem anyOf_cons : anyOf (P :: Ps) text v rest ↔ P text v rest ∨ anyOf Ps text v rest := by
  simp [anyOf]

theorem firstOf_cons : firstOf (P :: Ps) text v rest ↔
    P text v rest ∨ (∀ w last, ¬P text w last) ∧ firstOf Ps text v rest := Iff.rfl

end

inductive Repeats (P : Derivation α) : List Char → List α → List Char → Prop
  | nil (text : List Char) : Repeats P text [] text
  | cons {text mid rest : List Char} {v : α} {vs : List α} :
    P text v mid → Repeats P mid vs rest → Repeats P text (v :: vs) rest

def many (P : Derivation α) : Derivation (List α) := Repeats P

def many1 (P : Derivation α) : Derivation (List α) := do
  let v ← P
  let vs ← many P
  return v :: vs

def sepBy1 (P : Derivation α) (S : Derivation β) : Derivation (List α) := do
  let v ← P
  let vs ← many (do let _ ← S; P)
  return v :: vs

def sepBy (P : Derivation α) (S : Derivation β) : Derivation (List α) :=
  anyOf [return [], sepBy1 P S]

def between (L : Derivation α) (R : Derivation β) (P : Derivation γ) : Derivation γ := do
  let _ ← L
  let v ← P
  let _ ← R
  return v

end Derivation

namespace Parser
variable {κ ω α β γ : Type} [BEq κ] [Hashable κ]

/-- On texts shorter than `n`, a parser reads what a derivation allows, and at least
`gain` characters. -/
structure Describes (n gain : Nat) (p : Parser κ ω α) (P : Derivation α) : Prop where
  isLocal : Local p
  mem_iff {text : List Char} (h : text.length < n) (v : α) (rest : List Char) :
    (v, rest) ∈ p.read text ↔ P text v rest
  gains {text : List Char} (h : text.length < n) {v : α} {rest : List Char} :
    P text v rest → rest.length + gain ≤ text.length

namespace Describes
variable {n gain more : Nat} {p left : Parser κ ω α} {P L : Derivation α}
  {q right : Parser κ ω β} {Q R : Derivation β}
  {m : Parser κ ω γ} {M : Derivation γ}

theorem zero (gain : Nat) (p : Parser κ ω α) (P : Derivation α) [hp : Local p] :
    Describes 0 gain p P :=
  ⟨hp, fun h => absurd h (Nat.not_lt_zero _), fun h => absurd h (Nat.not_lt_zero _)⟩

theorem mono (h : Describes n gain p P) {n' gain' : Nat} (hn : n' ≤ n) (hgain : gain' ≤ gain) :
    Describes n' gain' p P where
  isLocal := h.isLocal
  mem_iff ht := h.mem_iff (by omega)
  gains ht _ _ hv := by have := h.gains (by omega) hv; omega

theorem forget (h : Describes n gain p P) : Describes n 0 p P :=
  h.mono (Nat.le_refl n) (Nat.zero_le gain)

theorem guarded (h : Describes n gain p P) :
    Describes n gain p fun text v rest => ∃ _h : text.length < n, P text v rest where
  isLocal := h.isLocal
  mem_iff ht v rest := (h.mem_iff ht v rest).trans ⟨fun hv => ⟨ht, hv⟩, fun ⟨_, hv⟩ => hv⟩
  gains ht _ _ hv := h.gains ht hv.2

theorem read_eq_nil_iff (h : Describes n gain p P) {text : List Char} (ht : text.length < n) :
    p.read text = [] ↔ ∀ w last, ¬P text w last := by
  rw [List.eq_nil_iff_forall_not_mem]
  exact ⟨fun hnil w last hw => hnil (w, last) ((h.mem_iff ht w last).2 hw),
    fun hnone x hx => hnone x.1 x.2 ((h.mem_iff ht x.1 x.2).1 hx)⟩

theorem pure (n : Nat) (v : α) : Describes n 0 (pure v : Parser κ ω α) (pure v) where
  isLocal := inferInstance
  mem_iff _ _ _ := mem_read_pure.trans Prod.mk_inj
  gains _ _ _ hv := Nat.le_of_eq (congrArg List.length hv.2)

/-- What a parser reads is taken from the bound of those after it. -/
theorem bind {f : α → Parser κ ω β} {F : α → Derivation β} (h : Describes n gain p P)
    (hf : ∀ v, Describes (n - gain) more (f v) (F v)) :
    Describes n (gain + more) (p >>= f) (P >>= F) := by
  have := h.isLocal
  have := fun v => (hf v).isLocal
  refine ⟨inferInstance, fun {text} ht w rest => ?_, fun {text} ht {w rest} hw => ?_⟩
  · refine mem_read_bind.trans ⟨fun ⟨y, hy, hw⟩ => ?_, fun ⟨v, mid, hv, hw⟩ => ?_⟩
    · have hv := (h.mem_iff ht y.1 y.2).1 hy
      have hlt := h.gains ht hv
      exact ⟨y.1, y.2, hv, ((hf y.1).mem_iff (by omega) w rest).1 hw⟩
    · have hlt := h.gains ht hv
      have hw := ((hf v).mem_iff (by omega : mid.length < n - gain) w rest).2 hw
      exact ⟨(v, mid), (h.mem_iff ht v mid).2 hv, hw⟩
  · obtain ⟨v, mid, hv, hw⟩ := hw
    have hmid := h.gains ht hv
    have hrest := (hf v).gains (by omega) hw
    omega

theorem andThen {f : α → Parser κ ω β} {F : α → Derivation β} (h : Describes (n + 1) 1 p P)
    (hf : ∀ v, Describes n 0 (f v) (F v)) : Describes (n + 1) 1 (p >>= f) (P >>= F) := h.bind hf

theorem next {f : α → Parser κ ω β} {F : α → Derivation β} (h : Describes n gain p P)
    (hf : ∀ v, Describes n more (f v) (F v)) : Describes n more (p >>= f) (P >>= F) :=
  (h.bind fun v => (hf v).mono (Nat.sub_le n gain) (Nat.le_refl more)).mono (Nat.le_refl n)
    (Nat.le_add_left more gain)

theorem map (f : α → β) (h : Describes n gain p P) : Describes n gain (f <$> p) (f <$> P) :=
  h.bind fun v => .pure _ (f v)

theorem between (hleft : Describes (n + 1) 1 left L) (hm : Describes n 0 m M)
    (hright : Describes n 0 right R) : Describes (n + 1) 1 (between left right m) (L.between R M) :=
  hleft.andThen fun _ => hm.next fun v => hright.next fun _ => .pure n v

theorem anyOf {ps : List (Parser κ ω α)} {Ps : List (Derivation α)}
    (h : List.Forall₂ (Describes n gain) ps Ps) : Describes n gain (anyOf ps) (.anyOf Ps) := by
  induction h with
  | nil =>
    exact ⟨inferInstance, fun _ v rest => by simp [Derivation.anyOf],
      fun _ _ _ ⟨P, hP, _⟩ => absurd hP List.not_mem_nil⟩
  | @cons p P ps Ps h _ ih =>
    have := h.isLocal
    have := ih.isLocal
    refine ⟨inferInstance, fun {text} ht v rest => ?_, fun {text} ht {v rest} hv => ?_⟩
    · rw [mem_read_anyOf_cons, h.mem_iff ht, ih.mem_iff ht, Derivation.anyOf_cons]
    · exact (Derivation.anyOf_cons.1 hv).elim (h.gains ht) (ih.gains ht)

theorem firstOf {ps : List (Parser κ ω α)} {Ps : List (Derivation α)}
    (h : List.Forall₂ (Describes n gain) ps Ps) : Describes n gain (firstOf ps) (.firstOf Ps) := by
  induction h with
  | nil =>
    exact ⟨inferInstance, fun _ _ _ => iff_of_false List.not_mem_nil id, fun _ _ _ hv => hv.elim⟩
  | @cons p P ps Ps h _ ih =>
    have := h.isLocal
    have := ih.isLocal
    refine ⟨inferInstance, fun {text} ht v rest => ?_, fun {text} ht {v rest} hv => ?_⟩
    · rw [read_firstOf_cons, Derivation.firstOf_cons, ← h.read_eq_nil_iff ht, ← h.mem_iff ht,
        ← ih.mem_iff ht]
      split
      next hnil => simp [hnil]
      next hne => simp [hne]
    · exact hv.elim (h.gains ht) fun hv => ih.gains ht hv.2

theorem satisfy (n : Nat) (test : Char → Bool) :
    Describes n 1 (satisfy test : Parser κ ω Char) (.satisfy test) where
  isLocal := inferInstance
  mem_iff {text} _ c rest := by
    cases text with
    | nil => exact iff_of_false List.not_mem_nil (by simp [Derivation.satisfy])
    | cons d text =>
      rw [read_satisfy_cons, Derivation.satisfy]
      split <;> grind
  gains _ _ _ hv := by rw [hv.1]; exact Nat.le_refl _

theorem char (n : Nat) (c : Char) : Describes n 1 (char c : Parser κ ω Char) (.char c) :=
  satisfy n _

theorem string (n : Nat) (word : List Char) :
    Describes n word.length (string word : Parser κ ω (List Char)) (.string word) where
  isLocal := inferInstance
  mem_iff {text} _ v rest := by
    rw [read_string, Derivation.string]
    split
    next h =>
      obtain ⟨last, rfl⟩ := h
      rw [List.mem_singleton, Prod.mk_inj, List.drop_left]
      exact and_congr_right fun _ => ⟨fun h => by rw [h], fun h => (List.append_cancel_left h).symm⟩
    next h => exact ⟨fun hv => absurd hv List.not_mem_nil, fun hv => absurd ⟨rest, hv.2.symm⟩ h⟩
  gains _ _ _ hv := by rw [hv.2, List.length_append]; omega

theorem longest (n : Nat) (test : Char → Bool) :
    Describes n 0 (longest test : Parser κ ω (List Char)) (.longest test) where
  isLocal := inferInstance
  mem_iff {text} _ v rest := by
    rw [read_longest, List.mem_singleton, Prod.mk_inj]
    constructor
    · rintro ⟨rfl, rfl⟩
      refine ⟨List.takeWhile_append_dropWhile.symm,
        fun c hc => List.all_eq_true.1 List.all_takeWhile c hc, ?_⟩
      intro c hc
      have hhead := List.head?_dropWhile_not test text
      rwa [Option.mem_def.1 hc] at hhead
    · rintro ⟨rfl, hv, hrest⟩
      have hstop : rest.takeWhile test = [] ∧ rest.dropWhile test = rest := by
        cases rest with
        | nil => exact ⟨rfl, rfl⟩
        | cons c rest => simp [hrest c rfl]
      rw [List.takeWhile_append_of_pos hv, List.dropWhile_append_of_pos hv, hstop.1, hstop.2,
        List.append_nil]
      exact ⟨rfl, rfl⟩
  gains _ _ _ hv := by rw [hv.1, List.length_append]; omega

theorem runs (n : Nat) (test : Char → Bool) :
    Describes n 1 (runs test : Parser κ ω (List Char)) (.runs test) where
  isLocal := inferInstance
  mem_iff {text} _ v rest := by
    refine ⟨mem_read_runs, ?_⟩
    rintro ⟨rfl, hne, hv⟩
    exact mem_read_runs_append hne hv rest
  gains _ _ _ hv := by
    have := List.length_pos_iff.2 hv.2.1
    rw [hv.1, List.length_append]
    omega

/-- Each time reads something, so that no chain is left out. -/
theorem many (h : Describes n 1 p P) : Describes n 0 (many p) P.many := by
  have := h.isLocal
  have hgains {text rest : List Char} {vs : List α} (hvs : P.Repeats text vs rest)
      (ht : text.length < n) : rest.length ≤ text.length := by
    induction hvs with
    | nil => exact Nat.le_refl _
    | cons hv _ ih =>
      have hmid := h.gains ht hv
      have := ih (by omega)
      omega
  refine ⟨inferInstance, fun {text} ht vs rest => ⟨fun hvs => ?_, fun hvs => ?_⟩,
    fun ht _ _ hvs => hgains hvs ht⟩
  · refine many_induction (motive := fun text vs rest => text.length < n → P.Repeats text vs rest)
      (fun text _ => .nil text) (fun text v mid vs rest hv hvs ht => ?_) hvs ht
    have hv := (h.mem_iff ht v mid).1 hv
    have hmid := h.gains ht hv
    exact .cons hv (hvs (by omega))
  · change P.Repeats text vs rest at hvs
    induction hvs with
    | nil text => exact (read_many_perm p text).mem_iff.2 List.mem_cons_self
    | @cons text mid rest v vs hv _ ih =>
      have hmid := h.gains ht hv
      have hlink : (v, mid) ∈ p.steps text :=
        List.mem_filter.2 ⟨(h.mem_iff ht v mid).2 hv, by
          simpa using (by omega : mid.length < text.length)⟩
      refine (read_many_perm p text).mem_iff.2
        (List.mem_cons_of_mem _ (List.mem_flatMap.2 ⟨_, hlink, ?_⟩))
      exact List.mem_map.2 ⟨(vs, rest), ih (by omega), rfl⟩

theorem many1 (h : Describes (n + 1) 1 p P) : Describes (n + 1) 1 (many1 p) P.many1 :=
  h.andThen fun v => (h.mono (Nat.le_succ n) (Nat.le_refl 1)).many.next fun vs => .pure n (v :: vs)

theorem sepBy (h : Describes n 1 p P) (hsep : Describes n gain q Q) :
    Describes n 0 (sepBy p q) (P.sepBy Q) :=
  .anyOf (.cons (.pure n [])
    (.cons (h.next fun v => (hsep.next fun _ => h).many.next fun vs => .pure n (v :: vs)) .nil))

end Describes
end Parser
end SugaredLambda
