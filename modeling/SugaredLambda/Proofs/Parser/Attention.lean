import SugaredLambda.Proofs.Parser.Pairing

/-! An attentive parser reports each character that it has seen, so that it does the same on texts
that share them. -/
namespace SugaredLambda.Parser
variable {κ ω α β γ : Type} [BEq κ] [Hashable κ]

/-- Two texts that begin with the same `n` characters. -/
structure Shares (n : Nat) (text text' : Array Char) : Prop where
  le : n ≤ text.size
  le' : n ≤ text'.size
  take_eq : text.toList.take n = text'.toList.take n

theorem Shares.zero (text : Array Char) : Shares 0 text text := ⟨Nat.zero_le _, Nat.zero_le _, rfl⟩

section
variable {n : Nat} {text text' : Array Char} (h : Shares n text text')
include h

theorem Shares.get_eq {i : Nat} (hi : i < n) : text[i]? = text'[i]? := by
  rw [← Array.getElem?_toList, ← Array.getElem?_toList, ← List.getElem?_take_of_lt hi, h.take_eq,
    List.getElem?_take_of_lt hi]

theorem Shares.slice_eq (i : Nat) {j : Nat} (hj : j ≤ n) : slice text i j = slice text' i j := by
  have htake : text.toList.take j = text'.toList.take j := by
    rw [← Nat.min_eq_left hj, ← List.take_take, h.take_eq, List.take_take]
  simp only [slice, Array.toList_extract, List.extract_eq_take_drop, ← List.drop_take, htake]

theorem Shares.sharedLength_eq {i : Nat} {word : List Char}
    (hend : i + sharedLength text i word < n) :
    sharedLength text' i word = sharedLength text i word := by
  induction word generalizing i with
  | nil => rfl
  | cons c word ih =>
    have hget := h.get_eq (i := i) (by omega)
    by_cases hc : text[i]? = some c
    · simp only [sharedLength, hc, ← hget, if_true] at hend ⊢
      rw [ih (by omega)]
    · simp only [sharedLength, hc, ← hget, if_false]

theorem Shares.runEnd_eq {test : Char → Bool} {i : Nat} (hend : runEnd test text i < n) :
    runEnd test text' i = runEnd test text i := by
  fun_induction runEnd test text i with
  | case1 i hi hc ih =>
    have hget := h.get_eq
      (Nat.lt_of_le_of_lt (Nat.le_trans (Nat.le_succ i) (le_runEnd test text (i + 1))) hend)
    rw [← ih hend, Follows.runEnd_eq test text', ← hget, Array.getElem?_eq_getElem hi]
    simp [hc]
  | case2 i hi hc =>
    rw [Follows.runEnd_eq, ← h.get_eq hend, Array.getElem?_eq_getElem hi]
    simp [hc]
  | case3 i hi => exact absurd (Nat.lt_of_lt_of_le hend h.le) hi

end

/-- From a state on, results end at `i` or later, and at most one character behind those that were
looked at. While these are among the first `n`, a second computation does the same. -/
structure Watched (n i : Nat) (s : Progress κ ω) (m m' : StateM (Progress κ ω) (Results α)) :
    Prop where
  grows : s.farthest ≤ (m.run s).2.farthest
  bounds : ∀ x ∈ (m.run s).1, i ≤ x.2 ∧ x.2 ≤ (m.run s).2.farthest + 1
  same : (m.run s).2.farthest < n → m'.run s = m.run s

namespace Watched
variable {n i j : Nat} {s : Progress κ ω} {m m' : StateM (Progress κ ω) (Results α)}

theorem mono (h : Watched n j s m m') (hle : i ≤ j) : Watched n i s m m' :=
  ⟨h.grows, fun x hx => ⟨Nat.le_trans hle (h.bounds x hx).1, (h.bounds x hx).2⟩, h.same⟩

protected theorem pure {found : Results α} (h : ∀ x ∈ found, i ≤ x.2 ∧ x.2 ≤ s.farthest + 1) :
    Watched n i s (pure found) (pure found) := ⟨Nat.le_refl _, h, fun _ => rfl⟩

theorem bind {f f' : Results α → StateM (Progress κ ω) (Results β)} (h : Watched n i s m m')
    (hf : Watched n j (m.run s).2 (f (m.run s).1) (f' (m.run s).1)) :
    Watched n j s (m >>= f) (m' >>= f') where
  grows := Nat.le_trans h.grows hf.grows
  bounds := hf.bounds
  same hlt := by
    have hfirst := h.same (Nat.lt_of_le_of_lt hf.grows hlt)
    change (f' (m'.run s).1).run (m'.run s).2 = _
    rw [hfirst]
    exact hf.same hlt

/-- Once more is known than the texts share, nothing is said about the second computation. -/
theorem beyond {r : StateM (Progress κ ω) (Results α)} (h : Watched n i s m r)
    (hn : n ≤ s.farthest) : Watched n i s m m' :=
  ⟨h.grows, h.bounds, fun hlt => absurd (Nat.le_trans hn h.grows) (Nat.not_le.2 hlt)⟩

theorem look {k k' : Nat} {found found' : Results α} (hfound : ∀ x ∈ found, i ≤ x.2 ∧ x.2 ≤ k + 1)
    (hsame : k < n → k' = k ∧ found' = found) :
    Watched n i s (do reach k; return found) (do reach k'; return found') where
  grows := Nat.le_max_left _ _
  bounds x hx := ⟨(hfound x hx).1,
    Nat.le_trans (hfound x hx).2 (Nat.succ_le_succ (Nat.le_max_right _ _))⟩
  same hlt := by
    obtain ⟨rfl, rfl⟩ := hsame (Nat.lt_of_le_of_lt (Nat.le_max_right _ _) hlt)
    rfl

theorem append {r r' : StateM (Progress κ ω) (Results α)} (h : Watched n i s m m')
    (hr : ∀ s₁ : Progress κ ω, s.farthest ≤ s₁.farthest → Watched n i s₁ r r') :
    Watched n i s (do let found ← m; return found ++ (← r))
      (do let found ← m'; return found ++ (← r')) := by
  refine h.bind ((hr _ h.grows).bind (.pure fun x hx => ?_))
  have hgrows := (hr _ h.grows).grows
  rcases List.mem_append.1 hx with hx | hx
  · have := h.bounds x hx
    omega
  · exact (hr _ h.grows).bounds x hx

theorem orElse {r r' : StateM (Progress κ ω) (Results α)} (h : Watched n i s m m')
    (hr : ∀ s₁ : Progress κ ω, s.farthest ≤ s₁.farthest → Watched n i s₁ r r') :
    Watched n i s (do match ← m with | [] => r | found => return found)
      (do match ← m' with | [] => r' | found => return found) := by
  refine h.bind ?_
  have hbounds := h.bounds
  generalize (m.run s).1 = found at hbounds ⊢
  match found with
  | [] => exact hr _ h.grows
  | _ :: _ => exact .pure hbounds

theorem after {f f' : α → Nat → StateM (Progress κ ω) (Results β)} {found : Results α}
    (h : ∀ x ∈ found, ∀ s₁ : Progress κ ω, s.farthest ≤ s₁.farthest →
      Watched n i s₁ (f x.1 x.2) (f' x.1 x.2)) :
    Watched n i s (after f found) (after f' found) := by
  induction found generalizing s with
  | nil => exact .pure (by simp)
  | cons x found ih =>
    obtain ⟨hx, hfound⟩ := List.forall_mem_cons.1 h
    exact (hx s (Nat.le_refl _)).append fun s₁ hs =>
      ih fun y hy s₂ hs₂ => hfound y hy s₂ (Nat.le_trans hs hs₂)

theorem exists_of_mem_after {f : α → Nat → StateM (Progress κ ω) (Results β)} {found : Results α}
    (h : ∀ x ∈ found, ∀ s₁ : Progress κ ω, s.farthest ≤ s₁.farthest →
      Watched n i s₁ (f x.1 x.2) (f x.1 x.2)) :
    ∀ y ∈ ((Parser.after f found).run s).1, ∃ x ∈ found, ∃ s₁ : Progress κ ω,
      s.farthest ≤ s₁.farthest ∧ y ∈ ((f x.1 x.2).run s₁).1 ∧
        ((f x.1 x.2).run s₁).2.farthest ≤ ((Parser.after f found).run s).2.farthest := by
  induction found generalizing s with
  | nil => exact fun y hy => absurd hy List.not_mem_nil
  | cons x found ih =>
    obtain ⟨hx, hfound⟩ := List.forall_mem_cons.1 h
    have hgrows := (hx s (Nat.le_refl _)).grows
    have hrest : ∀ y ∈ found, ∀ s₁ : Progress κ ω, ((f x.1 x.2).run s).2.farthest ≤ s₁.farthest →
        Watched n i s₁ (f y.1 y.2) (f y.1 y.2) :=
      fun y hy s₁ hs => hfound y hy s₁ (Nat.le_trans hgrows hs)
    intro y hy
    rcases List.mem_append.1 hy with hy | hy
    · exact ⟨x, List.mem_cons_self, s, Nat.le_refl _, hy, (Watched.after hrest).grows⟩
    · obtain ⟨z, hz, s₁, hs, hy, hle⟩ := ih hrest y hy
      exact ⟨z, List.mem_cons_of_mem x hz, s₁, Nat.le_trans hgrows hs, hy, hle⟩

end Watched

/-- A parser that reports what it looks at: from any position up to one character behind, it does
the same on all texts that share what it has looked at. -/
class Attentive (p : Parser κ ω α) : Prop where
  watched : ∀ {n text text'}, Shares n text text' → ∀ i (s : Progress κ ω), i ≤ s.farthest + 1 →
    Watched n i s (p text i) (p text' i)

instance (v : α) : Attentive (pure v : Parser κ ω α) :=
  ⟨fun _ _ _ hi => .pure fun _ hx => by rw [List.mem_singleton.1 hx]; exact ⟨Nat.le_refl _, hi⟩⟩

section
variable (p : Parser κ ω α) (f : α → Parser κ ω β) [Attentive p]
  [hf : ∀ v, Attentive (f v)] {n i : Nat}
  {text text' : Array Char} {s : Progress κ ω} (h : Shares n text text') (hi : i ≤ s.farthest + 1)
include h hi

theorem watched_next : ∀ x ∈ ((p text i).run s).1, ∀ s₁ : Progress κ ω,
    ((p text i).run s).2.farthest ≤ s₁.farthest →
    Watched n i s₁ (f x.1 text x.2) (f x.1 text' x.2) := by
  intro x hx s₁ hs
  obtain ⟨hfirst, hlast⟩ := (Attentive.watched (p := p) h i s hi).bounds x hx
  exact ((hf x.1).watched h x.2 s₁ (by omega)).mono hfirst

theorem watched_rest : Watched n i ((p text i).run s).2
    (after (fun v j => f v text j) ((p text i).run s).1)
    (after (fun v j => f v text' j) ((p text i).run s).1) :=
  .after (watched_next p f h hi)

end

instance (p : Parser κ ω α) (f : α → Parser κ ω β) [Attentive p] [∀ v, Attentive (f v)] :
    Attentive (p >>= f) where
  watched h i s hi := (Attentive.watched h i s hi).bind (watched_rest p f h hi)

instance (f : α → β) (p : Parser κ ω α) [Attentive p] : Attentive (f <$> p) :=
  inferInstanceAs (Attentive (p >>= fun v => pure (f v)))

instance (p : Parser κ ω α) (q : Parser κ ω β) [Attentive p] [Attentive q] : Attentive (p *> q) :=
  inferInstanceAs (Attentive (p >>= fun _ => q))

instance (left : Parser κ ω α) (right : Parser κ ω β) (p : Parser κ ω γ) [Attentive left]
    [Attentive right] [Attentive p] : Attentive (between left right p) :=
  inferInstanceAs (Attentive (left >>= _))

instance : Attentive (fail : Parser κ ω α) := ⟨fun _ _ _ _ => .pure (by simp)⟩

instance : Attentive (anyOf ([] : List (Parser κ ω α))) := inferInstanceAs (Attentive fail)

instance (p : Parser κ ω α) (ps : List (Parser κ ω α)) [Attentive p] [Attentive (anyOf ps)] :
    Attentive (anyOf (p :: ps)) where
  watched h i s hi := (Attentive.watched (p := p) h i s hi).append fun s₁ hs =>
    Attentive.watched (p := anyOf ps) h i s₁ (Nat.le_trans hi (Nat.succ_le_succ hs))

instance : Attentive (firstOf ([] : List (Parser κ ω α))) := inferInstanceAs (Attentive fail)

instance (p : Parser κ ω α) (ps : List (Parser κ ω α)) [Attentive p] [Attentive (firstOf ps)] :
    Attentive (firstOf (p :: ps)) where
  watched h i s hi := (Attentive.watched (p := p) h i s hi).orElse fun s₁ hs =>
    Attentive.watched (p := firstOf ps) h i s₁ (Nat.le_trans hi (Nat.succ_le_succ hs))

theorem satisfy_eq (test : Char → Bool) (text : Array Char) (i : Nat) :
    (satisfy test : Parser κ ω Char) text i = do
      reach i
      return match text[i]? with
        | some c => if test c then [(c, i + 1)] else []
        | none => [] := by
  unfold satisfy
  cases text[i]? <;> rfl

instance (test : Char → Bool) : Attentive (satisfy test : Parser κ ω Char) where
  watched {n text text'} h i s hi := by
    rw [satisfy_eq, satisfy_eq]
    refine .look (fun x hx => ?_) fun hlt => ⟨rfl, by rw [h.get_eq hlt]⟩
    have hx : x.2 = i + 1 := by
      split at hx
      · split at hx <;> simp_all
      · simp at hx
    omega

instance (c : Char) : Attentive (char c : Parser κ ω Char) :=
  inferInstanceAs (Attentive (satisfy _))

instance (word : List Char) : Attentive (string word : Parser κ ω (List Char)) where
  watched {n text text'} h i s hi := by
    refine .look (fun x hx => ?_) fun hlt => ?_
    · split at hx
      · rw [List.mem_singleton.1 hx]
        dsimp only
        omega
      · simp at hx
    · have hle := h.le
      have hle' := h.le'
      have hin : i ≤ text.size ∧ i ≤ text'.size := by omega
      rw [h.sharedLength_eq hlt]
      simp only [hin, and_true]

instance (test : Char → Bool) : Attentive (longest test : Parser κ ω (List Char)) where
  watched {n text text'} h i s hi := by
    refine .look (fun x hx => ?_) fun hlt => ?_
    · rw [List.mem_singleton.1 hx]
      exact ⟨le_runEnd test text i, Nat.le_succ _⟩
    · rw [h.runEnd_eq hlt, h.slice_eq i (Nat.le_of_lt hlt)]
      exact ⟨rfl, rfl⟩

instance (test : Char → Bool) : Attentive (runs test : Parser κ ω (List Char)) where
  watched {n text text'} h i s hi := by
    refine .look (fun x hx => ?_) fun hlt => ?_
    · obtain ⟨j, hj, rfl⟩ := List.mem_map.1 hx
      have := List.mem_range'_1.1 hj
      dsimp only
      omega
    · rw [h.runEnd_eq hlt]
      refine ⟨rfl, List.map_congr_left fun j hj => ?_⟩
      have := List.mem_range'_1.1 hj
      rw [h.slice_eq i (by omega)]

section
variable {p : Parser κ ω α} [Attentive p] {n i k : Nat} {text text' : Array Char} {s : Progress κ ω}
  {found : Results (List α)}

theorem watched_extend (h : Shares n text text')
    (hfound : ∀ x ∈ found, k ≤ x.2 ∧ x.2 ≤ s.farthest + 1) :
    Watched n (k + 1) s (extend p text found) (extend p text' found) := by
  refine .after fun x hx s₁ hs => ?_
  obtain ⟨hfirst, hlast⟩ := hfound x hx
  have hp := Attentive.watched (p := p) h x.2 s₁ (by omega)
  refine hp.bind (.pure fun y hy => ?_)
  obtain ⟨z, hz, rfl⟩ := List.mem_map.1 hy
  obtain ⟨hz, hne⟩ := List.mem_filter.1 hz
  have hbounds := hp.bounds z hz
  have hne : z.2 ≠ x.2 := by simpa using hne
  dsimp only
  omega

/-- Enough rounds are as good as more of them: chains after too many rounds would end behind what
is shared. -/
theorem watched_chains (h : Shares n text text') {a b : Nat} (ha : n < k + a) (hb : n < k + b)
    (hfound : ∀ x ∈ found, k ≤ x.2 ∧ x.2 ≤ s.farthest + 1) :
    Watched n k s (chains p text a found) (chains p text' b found) := by
  induction a generalizing b k s found with
  | zero =>
    cases found with
    | nil => cases b <;> exact .pure hfound
    | cons x found =>
      have hx := hfound x List.mem_cons_self
      exact (Watched.pure hfound).beyond (by omega)
  | succ a ih =>
    cases found with
    | nil => cases b <;> exact .pure hfound
    | cons x found =>
      have hextend := watched_extend (p := p) h hfound
      have hsucc (b : Nat) (hb : n < k + (b + 1)) :
          Watched n k s (chains p text (a + 1) (x :: found))
          (chains p text' (b + 1) (x :: found)) := by
        have hchains := ih (b := b) (by omega) (by omega) hextend.bounds
        refine (hextend.mono (Nat.le_succ k)).bind
          ((hchains.mono (Nat.le_succ k)).bind (.pure fun y hy => ?_))
        have := hextend.grows
        have := hchains.grows
        rcases List.mem_append.1 hy with hy | hy
        · have := hfound y hy
          omega
        · have := hchains.bounds y hy
          omega
      cases b with
      | zero =>
        have hx := hfound x List.mem_cons_self
        exact (hsucc a ha).beyond (by omega)
      | succ b => exact hsucc b hb

end

instance (p : Parser κ ω α) [Attentive p] : Attentive (many p) where
  watched h i s hi := by
    have hle := h.le
    have hle' := h.le'
    refine watched_chains h (by omega) (by omega) fun x hx => ?_
    rw [List.mem_singleton.1 hx]
    exact ⟨Nat.le_refl i, hi⟩

instance (p : Parser κ ω α) [Attentive p] : Attentive (many1 p) :=
  inferInstanceAs (Attentive (p >>= _))

instance (p : Parser κ ω α) (sep : Parser κ ω β) [Attentive p] [Attentive sep] :
    Attentive (sepBy1 p sep) :=
  inferInstanceAs (Attentive (p >>= _))

instance (p : Parser κ ω α) (sep : Parser κ ω β) [Attentive p] [Attentive sep] :
    Attentive (sepBy p sep) :=
  inferInstanceAs (Attentive (anyOf _))

/-- A parser that, until it has looked behind the end of the text, reads nothing that it has not
looked behind. -/
def Settled (p : Parser κ ω α) : Prop :=
  ∀ text i (s : Progress κ ω), i ≤ s.farthest + 1 →
    let run := (p text i).run s
    run.2.farthest < text.size → ∀ x ∈ run.1, x.2 ≤ run.2.farthest

theorem exists_of_mem_bind (p : Parser κ ω α) (f : α → Parser κ ω β) [Attentive p]
    [∀ v, Attentive (f v)] {text : Array Char} {i : Nat} {s : Progress κ ω}
    (hi : i ≤ s.farthest + 1) :
    let first := (p text i).run s
    let run := ((p >>= f) text i).run s
    ∀ y ∈ run.1, ∃ x ∈ first.1, ∃ s₁ : Progress κ ω, first.2.farthest ≤ s₁.farthest ∧
    x.2 ≤ s₁.farthest + 1 ∧ y ∈ ((f x.1 text x.2).run s₁).1 ∧
    ((f x.1 text x.2).run s₁).2.farthest ≤ run.2.farthest := by
  intro first run y hy
  obtain ⟨x, hx, s₁, hs, hy, hle⟩ := Watched.exists_of_mem_after (f := fun v j => f v text j)
    (watched_next p f (.zero text) hi) y hy
  have hlast := ((Attentive.watched (p := p) (.zero text) i s hi).bounds x hx).2
  exact ⟨x, hx, s₁, hs, Nat.le_trans hlast (Nat.succ_le_succ hs), hy, hle⟩

theorem Settled.bind (p : Parser κ ω α) [Attentive p] {f : α → Parser κ ω β} [∀ v, Attentive (f v)]
    (hf : ∀ v, Settled (f v)) : Settled (p >>= f) := by
  intro text i s hi run hlt y hy
  obtain ⟨x, -, s₁, -, hx, hy, hle⟩ := exists_of_mem_bind p f hi y hy
  exact Nat.le_trans (hf x.1 text x.2 s₁ hx (Nat.lt_of_le_of_lt hle hlt) y hy) hle

theorem Settled.map (f : α → β) {p : Parser κ ω α} [Attentive p] (hp : Settled p) :
    Settled (f <$> p) := by
  intro text i s hi run hlt y hy
  obtain ⟨x, hx, s₁, hs, -, hy, hle⟩ := exists_of_mem_bind p (fun v => pure (f v)) hi y hy
  rw [List.mem_singleton.1 hy]
  have hfar := Nat.le_trans hs hle
  exact Nat.le_trans (hp text i s hi (Nat.lt_of_le_of_lt hfar hlt) x hx) hfar

section
variable {p : Parser κ ω α} [Attentive p] (hp : ∀ text i (s : Progress κ ω), i ≤ s.farthest + 1 →
  i ≤ ((p text i).run s).2.farthest)
  {text : Array Char} {k : Nat}
include hp

theorem le_farthest_extend {s : Progress κ ω} {found : Results (List α)}
    (hfound : ∀ x ∈ found, k ≤ x.2 ∧ x.2 ≤ s.farthest + 1) :
    ∀ x ∈ found, x.2 ≤ ((extend p text found).run s).2.farthest := by
  induction found generalizing s with
  | nil => simp
  | cons x found ih =>
    have hx := (hfound x List.mem_cons_self).2
    have hstep : s.farthest ≤ ((p text x.2).run s).2.farthest :=
      (Attentive.watched (p := p) (.zero text) x.2 s hx).grows
    have hrest : ∀ y ∈ found, k ≤ y.2 ∧ y.2 ≤ ((p text x.2).run s).2.farthest + 1 := fun y hy =>
      have hy := hfound y (List.mem_cons_of_mem x hy)
      ⟨hy.1, Nat.le_trans hy.2 (Nat.succ_le_succ hstep)⟩
    refine List.forall_mem_cons.2 ⟨?_, ih hrest⟩
    exact Nat.le_trans (hp text x.2 s hx) (watched_extend (p := p) (.zero text) hrest).grows

/-- Where one more link is always tried, chains end where the parser has looked. -/
theorem settled_chains {a : Nat} (ha : text.size < k + a) {s : Progress κ ω}
    {found : Results (List α)} (hfound : ∀ x ∈ found, k ≤ x.2 ∧ x.2 ≤ s.farthest + 1) :
    let run := (chains p text a found).run s
    run.2.farthest < text.size → ∀ x ∈ run.1, x.2 ≤ run.2.farthest := by
  intro run hlt
  induction a generalizing k s found with
  | zero =>
    cases found with
    | nil => exact fun x hx => absurd hx List.not_mem_nil
    | cons x found =>
      have hx := hfound x List.mem_cons_self
      have hlt : s.farthest < text.size := hlt
      omega
  | succ a ih =>
    cases found with
    | nil => exact fun x hx => absurd hx List.not_mem_nil
    | cons x found =>
      have hextend := watched_extend (p := p) (.zero text) hfound
      have hchains := watched_chains (p := p) (a := a) (b := a) (.zero text) (by omega)
        (by omega) hextend.bounds
      intro y hy
      rcases List.mem_append.1 hy with hy | hy
      · exact Nat.le_trans (le_farthest_extend hp hfound y hy) hchains.grows
      · exact ih (by omega) hextend.bounds hlt y hy

theorem settled_many : Settled (many p) := by
  intro text i s hi
  refine settled_chains hp (k := i) (by omega) fun x hx => ?_
  rw [List.mem_singleton.1 hx]
  exact ⟨Nat.le_refl i, hi⟩

end

theorem le_farthest_seqRight (p : Parser κ ω α) (q : Parser κ ω β) [Attentive p] [Attentive q]
    {text : Array Char} {i : Nat} {s : Progress κ ω} (hi : i ≤ s.farthest + 1) :
    ((p text i).run s).2.farthest ≤ (((p *> q) text i).run s).2.farthest :=
  (watched_rest p (fun _ => q) (.zero text) hi).grows

end SugaredLambda.Parser
