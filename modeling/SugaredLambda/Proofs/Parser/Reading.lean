import Mathlib.Data.Multiset.Bind
import SugaredLambda.Proofs.Parser.Pairing

/-! What a parser reads at the beginning of a text, where it looks at nothing before and remembers
nothing. -/
namespace SugaredLambda.Parser
variable {κ ω α β γ : Type} [BEq κ] [Hashable κ]

/-- Results with what is left of the text behind them. -/
def tails (text : Array Char) (found : Results α) : List (α × List Char) :=
  found.map fun x => (x.1, text.toList.drop x.2)

def read (p : Parser κ ω α) (text : List Char) : List (α × List Char) :=
  tails text.toArray ((p text.toArray 0).run {}).1

/-- A parser that reads the same wherever the same is left of a text, whatever was read before. -/
class Local (p : Parser κ ω α) : Prop where
  follows : ∀ σ : Pairing κ ω, Follows σ 0 0 p p

def Pairing.behind (κ ω : Type) [BEq κ] [Hashable κ] (text : Array Char) (i : Nat)
    (h : i ≤ text.size) : Pairing κ ω where
  whole := text
  part := (text.toList.drop i).toArray
  offset := i
  offset_le := h
  toList_part := rfl
  Related _ _ := True
  reach _ _ := trivial

section
variable (p : Parser κ ω α) [Local p] {text : Array Char} {i : Nat} (h : i ≤ text.size)
include h

theorem run_eq_moved (s : Progress κ ω) :
    ((p text i).run s).1 = moved i ((p (text.toList.drop i).toArray 0).run {}).1 :=
  (Local.follows (p := p) (.behind κ ω text i h) 0 (Nat.le_refl 0) (Nat.zero_le _) s {} trivial).1

theorem bounds_of_mem_run {s : Progress κ ω} {x : α × Nat} (hx : x ∈ ((p text i).run s).1) :
    i ≤ x.2 ∧ x.2 ≤ text.size := by
  have hbounds :=
    (Local.follows (p := p) (.behind κ ω text i h) 0 (Nat.le_refl 0) (Nat.zero_le _) s {}
    trivial).2.2
  rw [run_eq_moved p h] at hx
  obtain ⟨y, hy, rfl⟩ := List.mem_map.1 hx
  have hy := (hbounds y hy).2
  simp only [Pairing.behind, List.size_toArray, List.length_drop, Array.length_toList] at hy
  dsimp only
  omega

/-- What a parser reads at a position is what it reads at the beginning of the rest. -/
theorem tails_run (s : Progress κ ω) :
    tails text ((p text i).run s).1 = p.read (text.toList.drop i) := by
  rw [run_eq_moved p h, read, tails, tails, moved, List.map_map]
  exact List.map_congr_left fun x _ => by simp

end

theorem suffix_of_mem_read {p : Parser κ ω α} {text : List Char} {x : α × List Char}
    (h : x ∈ p.read text) : x.2 <:+ text := by
  obtain ⟨y, _, rfl⟩ := List.mem_map.1 h
  exact List.drop_suffix _ _

instance (v : α) : Local (pure v : Parser κ ω α) := ⟨fun _ => .pure 0 v⟩

instance (p : Parser κ ω α) (f : α → Parser κ ω β) [Local p] [h : ∀ v, Local (f v)] :
    Local (p >>= f) :=
  ⟨fun σ => (Local.follows σ).bind fun v => (h v).follows σ⟩

instance (f : α → β) (p : Parser κ ω α) [Local p] : Local (f <$> p) :=
  ⟨fun σ => (Local.follows σ).map f⟩

instance (p : Parser κ ω α) (q : Parser κ ω β) [Local p] [Local q] : Local (p *> q) :=
  ⟨fun σ => (Local.follows σ).seqRight (Local.follows σ)⟩

@[simp] theorem read_pure (v : α) (text : List Char) :
    (pure v : Parser κ ω α).read text = [(v, text)] := rfl

theorem mem_read_pure {v : α} {text : List Char} {x : α × List Char} :
    x ∈ (pure v : Parser κ ω α).read text ↔ x = (v, text) := List.mem_singleton

theorem tails_after {text : Array Char} {f : α → Nat → StateM (Progress κ ω) (Results β)}
    {g : α → List Char → List (β × List Char)}
    (hf : ∀ v i s, i ≤ text.size → tails text ((f v i).run s).1 = g v (text.toList.drop i))
    {found : Results α} (h : ∀ x ∈ found, x.2 ≤ text.size) (s : Progress κ ω) :
    tails text ((after f found).run s).1 = (tails text found).flatMap fun x => g x.1 x.2 := by
  induction found generalizing s with
  | nil => rfl
  | cons x found ih =>
    obtain ⟨hx, hfound⟩ := List.forall_mem_cons.1 h
    have hhead := hf x.1 x.2 s hx
    have htail := ih hfound ((f x.1 x.2).run s).2
    simp only [tails, List.map_cons, List.flatMap_cons] at hhead htail ⊢
    rw [← hhead, ← htail, ← List.map_append]
    rfl

theorem read_bind (p : Parser κ ω α) (f : α → Parser κ ω β) [Local p] [∀ v, Local (f v)]
    (text : List Char) :
    (p >>= f).read text = (p.read text).flatMap fun x => (f x.1).read x.2 :=
  tails_after (fun v _ s hi => tails_run (f v) hi s)
    (fun _ hx => (bounds_of_mem_run p (Nat.zero_le _) hx).2) _

theorem mem_read_bind {p : Parser κ ω α} {f : α → Parser κ ω β} [Local p] [∀ v, Local (f v)]
    {text : List Char} {x : β × List Char} :
    x ∈ (p >>= f).read text ↔ ∃ y ∈ p.read text, x ∈ (f y.1).read y.2 := by
  rw [read_bind, List.mem_flatMap]

theorem read_map (f : α → β) (p : Parser κ ω α) [Local p] (text : List Char) :
    (f <$> p).read text = (p.read text).map fun x => (f x.1, x.2) := by
  change (p >>= fun v => pure (f v)).read text = _
  simp only [read_bind, read_pure, List.map_eq_flatMap]

theorem read_seqRight (p : Parser κ ω α) (q : Parser κ ω β) [Local p] [Local q] (text : List Char) :
    (p *> q).read text = (p.read text).flatMap fun x => q.read x.2 := read_bind p (fun _ => q) text

instance : Local (anyOf ([] : List (Parser κ ω α))) := ⟨fun _ => .fail 0 0⟩

instance (p : Parser κ ω α) (ps : List (Parser κ ω α)) [Local p] [Local (anyOf ps)] :
    Local (anyOf (p :: ps)) :=
  ⟨fun σ i hi hsize => (Local.follows σ i hi hsize).append
    (Local.follows (p := anyOf ps) σ i hi hsize)⟩

instance : Local (firstOf ([] : List (Parser κ ω α))) := ⟨fun _ => .fail 0 0⟩

instance (p : Parser κ ω α) (ps : List (Parser κ ω α)) [Local p] [Local (firstOf ps)] :
    Local (firstOf (p :: ps)) :=
  ⟨fun σ i hi hsize => (Local.follows σ i hi hsize).orElse
    (Local.follows (p := firstOf ps) σ i hi hsize)⟩

@[simp] theorem read_anyOf_nil (text : List Char) :
    (anyOf ([] : List (Parser κ ω α))).read text = [] := rfl

theorem read_anyOf_cons (p : Parser κ ω α) (ps : List (Parser κ ω α)) [Local (anyOf ps)]
    (text : List Char) : (anyOf (p :: ps)).read text = p.read text ++ (anyOf ps).read text := by
  have hrest := tails_run (anyOf ps) (Nat.zero_le text.toArray.size) ((p text.toArray 0).run {}).2
  rw [List.drop_zero] at hrest
  rw [← hrest]
  exact List.map_append

theorem mem_read_anyOf_cons {p : Parser κ ω α} {ps : List (Parser κ ω α)} [Local (anyOf ps)]
    {text : List Char} {x : α × List Char} :
    x ∈ (anyOf (p :: ps)).read text ↔ x ∈ p.read text ∨ x ∈ (anyOf ps).read text := by
  rw [read_anyOf_cons, List.mem_append]

/-- What stands behind a first parser counts only where that one finds nothing. -/
theorem tails_orElse (text : Array Char) (run : Results α × Progress κ ω)
    (rest : StateM (Progress κ ω) (Results α)) :
    tails text ((match run.1 with | [] => rest | found => return found).run run.2).1 =
      if tails text run.1 = [] then tails text (rest.run run.2).1 else tails text run.1 := by
  obtain ⟨_ | _, _⟩ := run <;> rfl

theorem read_firstOf_cons (p : Parser κ ω α) (ps : List (Parser κ ω α)) [Local (firstOf ps)]
    (text : List Char) :
    (firstOf (p :: ps)).read text = if p.read text = [] then (firstOf ps).read text
    else p.read text := by
  have hrest := tails_run (firstOf ps) (Nat.zero_le text.toArray.size) ((p text.toArray 0).run {}).2
  rw [List.drop_zero] at hrest
  rw [← hrest]
  exact tails_orElse text.toArray ((p text.toArray 0).run {}) (firstOf ps text.toArray 0)

theorem mem_read_firstOf_cons {p : Parser κ ω α} {ps : List (Parser κ ω α)} [Local (firstOf ps)]
    {text : List Char} {x : α × List Char} (h : x ∈ (firstOf (p :: ps)).read text) :
    x ∈ p.read text ∨ p.read text = [] ∧ x ∈ (firstOf ps).read text := by
  rw [read_firstOf_cons] at h
  split at h
  next hnil => exact .inr ⟨hnil, h⟩
  next => exact .inl h

instance (test : Char → Bool) : Local (satisfy test : Parser κ ω Char) :=
  ⟨fun _ => (Follows.satisfy 0 test).mono (Nat.le_refl 0) (Nat.zero_le 1)⟩

instance (c : Char) : Local (char c : Parser κ ω Char) := inferInstanceAs (Local (satisfy _))

instance (word : List Char) : Local (string word : Parser κ ω (List Char)) :=
  ⟨fun _ => (Follows.string 0 word).mono (Nat.le_refl 0) (Nat.zero_le _)⟩

instance (test : Char → Bool) : Local (longest test : Parser κ ω (List Char)) :=
  ⟨fun _ => .longest 0 test⟩

instance (test : Char → Bool) : Local (runs test : Parser κ ω (List Char)) :=
  ⟨fun _ => (Follows.runs 0 test).mono (Nat.le_refl 0) (Nat.zero_le 1)⟩

@[simp] theorem read_satisfy_cons (test : Char → Bool) (c : Char) (text : List Char) :
    (satisfy test : Parser κ ω Char).read (c :: text) = if test c then [(c, text)] else [] := by
  change tails (c :: text).toArray (if test c then [(c, 1)] else []) = _
  split <;> rfl

@[simp] theorem read_char_cons (c d : Char) (text : List Char) :
    (char c : Parser κ ω Char).read (d :: text) = if d = c then [(d, text)] else [] := by
  simp [char]

theorem mem_read_char {c : Char} {text : List Char} {x : Char × List Char}
    (h : x ∈ (char c : Parser κ ω Char).read text) : text = c :: x.2 ∧ x.1 = c := by
  cases text with
  | nil => exact absurd h List.not_mem_nil
  | cons d text =>
    rw [read_char_cons] at h
    split at h
    next hd => rw [List.mem_singleton.1 h, hd]; exact ⟨rfl, rfl⟩
    next => simp at h

theorem sharedLength_eq_iff {text : Array Char} {i : Nat} {word : List Char} :
    sharedLength text i word = word.length ↔ word <+: text.toList.drop i := by
  induction word generalizing i with
  | nil => simp [sharedLength]
  | cons c word ih =>
    have hhead : (text.toList.drop i).head? = text[i]? := by
      rw [List.head?_drop, Array.getElem?_toList]
    have htail : (text.toList.drop i).tail = text.toList.drop (i + 1) := List.tail_drop
    cases h : text.toList.drop i with
    | nil =>
      rw [h] at hhead
      simp [sharedLength, ← hhead]
    | cons d rest =>
      rw [h] at hhead htail
      by_cases hd : d = c
      · simp [sharedLength, ← hhead, hd, ih, ← htail]
      · have hc : c ≠ d := fun hc => hd hc.symm
        simp [sharedLength, ← hhead, hd, hc]

theorem read_string (word text : List Char) :
    (string word : Parser κ ω (List Char)).read text =
      if word <+: text then [(word, text.drop word.length)] else [] := by
  have hshared :
      sharedLength text.toArray 0 word = word.length ↔ word <+: text.toArray.toList.drop 0 :=
    sharedLength_eq_iff
  change tails text.toArray (if sharedLength text.toArray 0 word = word.length ∧
    0 ≤ _ then _ else []) = _
  simp only [hshared, Nat.zero_le, and_true, List.drop_zero]
  split
  next h =>
    rw [hshared.2 h]
    simp [tails]
  next => rfl

theorem runEnd_toArray (test : Char → Bool) (text : List Char) :
    runEnd test text.toArray 0 = (text.takeWhile test).length := by
  have h : ∀ (text : Array Char) (i : Nat),
      runEnd test text i = i + ((text.toList.drop i).takeWhile test).length := by
    intro text i
    fun_induction runEnd test text i with
    | case1 i hi hc ih =>
      rw [List.drop_eq_getElem_cons (by simpa using hi), ih]
      simp [hc]
      omega
    | case2 i hi hc =>
      rw [List.drop_eq_getElem_cons (by simpa using hi)]
      simp [hc]
    | case3 i hi => rw [List.drop_eq_nil_of_le (by simpa using hi)]; rfl
  simpa using h text.toArray 0

theorem read_longest (test : Char → Bool) (text : List Char) :
    (longest test : Parser κ ω (List Char)).read text =
      [(text.takeWhile test, text.dropWhile test)] := by
  have hall := List.takeWhile_append_dropWhile (p := test) (l := text)
  have htake := congrArg (List.take (text.takeWhile test).length) hall
  have hdrop := congrArg (List.drop (text.takeWhile test).length) hall
  rw [List.take_left] at htake
  rw [List.drop_left] at hdrop
  change tails text.toArray
    [(slice text.toArray 0 (runEnd test text.toArray 0), runEnd test text.toArray 0)] = _
  rw [runEnd_toArray, htake, hdrop]
  simp [tails, slice]

theorem read_runs (test : Char → Bool) (text : List Char) :
    (runs test : Parser κ ω (List Char)).read text =
      (List.range' 1 (text.takeWhile test).length).map fun i => (text.take i, text.drop i) := by
  change tails text.toArray ((List.range' (0 + 1) (runEnd test text.toArray 0 - 0)).map
    fun i => (slice text.toArray 0 i, i)) = _
  rw [runEnd_toArray, tails, List.map_map]
  exact List.map_congr_left fun i _ => by simp [slice]

@[simp] theorem read_runs_nil (test : Char → Bool) :
    (runs test : Parser κ ω (List Char)).read [] = [] :=
  read_runs test []

/-- Every beginning of the longest run, shortest first. -/
theorem read_runs_cons (test : Char → Bool) (c : Char) (text : List Char) :
    (runs test : Parser κ ω (List Char)).read (c :: text) =
      if test c then
        ([c], text) :: ((runs test : Parser κ ω (List Char)).read text).map fun x => (c :: x.1, x.2)
      else [] := by
  by_cases hc : test c
  · rw [if_pos hc, read_runs, read_runs, List.takeWhile_cons_of_pos hc, List.length_cons,
      List.range'_succ, List.map_cons, List.map_map, ← List.map_add_range' 1, List.map_map]
    congr 1
    exact List.map_congr_left fun i _ => by simp [Nat.add_comm 1 i]
  · rw [if_neg hc, read_runs, List.takeWhile_cons_of_neg hc]
    rfl

theorem mem_read_runs {test : Char → Bool} {text : List Char} {x : List Char × List Char}
    (h : x ∈ (runs test : Parser κ ω (List Char)).read text) :
    text = x.1 ++ x.2 ∧ x.1 ≠ [] ∧ ∀ c ∈ x.1, test c := by
  rw [read_runs] at h
  obtain ⟨i, hi, rfl⟩ := List.mem_map.1 h
  have hi := List.mem_range'_1.1 hi
  have htake : text.take i = (text.takeWhile test).take i := by
    conv_lhs => rw [← List.takeWhile_append_dropWhile (p := test) (l := text)]
    rw [List.take_append_of_le_length (by omega)]
  refine ⟨(List.take_append_drop i text).symm, ?_, fun c hc => ?_⟩
  · rw [← List.length_pos_iff, htake, List.length_take]
    omega
  · dsimp only at hc
    rw [htake] at hc
    exact List.all_eq_true.1 List.all_takeWhile c (List.mem_of_mem_take hc)

theorem mem_read_runs_append {test : Char → Bool} {v : List Char} (hne : v ≠ [])
    (hv : ∀ c ∈ v, test c) (rest : List Char) :
    (v, rest) ∈ (runs test : Parser κ ω (List Char)).read (v ++ rest) := by
  induction v with
  | nil => exact absurd rfl hne
  | cons c v ih =>
    obtain ⟨hc, hv⟩ := List.forall_mem_cons.1 hv
    rw [List.cons_append, read_runs_cons, if_pos hc]
    cases v with
    | nil => exact List.mem_cons_self
    | cons d v =>
      exact List.mem_cons_of_mem _ (List.mem_map.2 ⟨_, ih (List.cons_ne_nil d v) hv, rfl⟩)

def steps (p : Parser κ ω α) (text : List Char) : List (α × List Char) :=
  (p.read text).filter fun x => x.2.length < text.length

theorem length_lt_of_mem_steps {p : Parser κ ω α} {text : List Char} {x : α × List Char}
    (h : x ∈ p.steps text) : x.2.length < text.length := by
  simpa using (List.mem_filter.1 h).2

/-- The chains of a number of links, each of which reads something. -/
def links (p : Parser κ ω α) : Nat → List Char → List (List α × List Char)
  | 0, text => [([], text)]
  | n+1, text => (p.steps text).flatMap fun x => (links p n x.2).map fun y => (x.1 :: y.1, y.2)

instance (p : Parser κ ω α) [Local p] : Local (many p) := ⟨fun σ => (Local.follows σ).many⟩

theorem tails_extend (p : Parser κ ω α) [Local p] {text : Array Char} {found : Results (List α)}
    (h : ∀ x ∈ found, x.2 ≤ text.size) (s : Progress κ ω) :
    tails text ((extend p text found).run s).1 =
      (tails text found).flatMap fun x => (links p 1 x.2).map fun y => (x.1 ++ y.1, y.2) := by
  refine tails_after (g := fun v rest => (links p 1 rest).map fun y => (v ++ y.1, y.2)) ?_ h s
  intro v i s hi
  have hlinks : links p 1 (text.toList.drop i) =
      (((p text i).run s).1.filter (·.2 != i)).map fun x => ([x.1], text.toList.drop x.2) := by
    rw [links, steps, ← tails_run p hi s, tails, List.filter_map, List.flatMap_map,
      List.map_eq_flatMap]
    refine congrArg (List.flatMap _) (List.filter_congr fun x hx => ?_)
    have hbounds := bounds_of_mem_run p hi hx
    simp only [Function.comp_apply, List.length_drop, Array.length_toList]
    by_cases hne : x.2 = i
    · simp [hne]
    · simp only [bne_iff_ne.2 hne, decide_eq_true_eq]
      omega
  rw [hlinks, List.map_map]
  exact List.map_map

theorem links_succ_append (p : Parser κ ω α) (n : Nat) (x : List α × List Char) :
    ((links p (n + 1) x.2).map fun y => (x.1 ++ y.1, y.2)) =
      ((links p 1 x.2).map fun y => (x.1 ++ y.1, y.2)).flatMap fun z =>
        (links p n z.2).map fun y => (z.1 ++ y.1, y.2) := by
  simp only [links, List.map_flatMap, List.map_map, List.map_cons, List.map_nil, List.flatMap_assoc,
    List.flatMap_cons, List.flatMap_nil, List.append_nil]
  exact List.flatMap_congr fun y _ => List.map_congr_left fun z _ => by simp

theorem tails_chains (p : Parser κ ω α) [Local p] {text : Array Char} (rounds : Nat)
    {found : Results (List α)} (h : ∀ x ∈ found, x.2 ≤ text.size) (s : Progress κ ω) :
    tails text ((chains p text rounds found).run s).1 =
      (List.range (rounds + 1)).flatMap fun n =>
        (tails text found).flatMap fun x => (links p n x.2).map fun y => (x.1 ++ y.1, y.2) := by
  have hzero (found : Results (List α)) : (tails text found).flatMap
      (fun x => (links p 0 x.2).map fun y => (x.1 ++ y.1, y.2)) = tails text found := by
    simp [links, List.flatMap_singleton']
  induction rounds generalizing found s with
  | zero =>
    have hrun : ((chains p text 0 found).run s).1 = found := by cases found <;> rfl
    rw [hrun]
    simpa using (hzero found).symm
  | succ rounds ih =>
    have hrun : ((chains p text (rounds + 1) found).run s).1 = found ++
        ((chains p text rounds ((extend p text found).run s).1).run
          ((extend p text found).run s).2).1 := by
      rw [chains_succ]
      rfl
    have hlonger : ∀ x ∈ ((extend p text found).run s).1, x.2 ≤ text.size := fun x hx =>
      ((Follows.extend (Local.follows (p := p) (.behind κ ω text 0 (Nat.zero_le _)))
        (fun y hy => ⟨Nat.zero_le _, h y hy⟩) s s trivial).2.2 x hx).2
    have hmore := ih hlonger ((extend p text found).run s).2
    rw [tails_extend p h] at hmore
    rw [List.range_succ_eq_map, List.flatMap_cons, List.flatMap_map, hzero, hrun, tails,
      List.map_append]
    refine congrArg (_ ++ ·) (hmore.trans (List.flatMap_congr fun n _ => ?_))
    rw [List.flatMap_assoc]
    exact List.flatMap_congr fun x _ => (links_succ_append p n x).symm

/-- Every chain, by the number of its links. -/
theorem read_many (p : Parser κ ω α) [Local p] (text : List Char) :
    (many p).read text = (List.range (text.length + 2)).flatMap fun n => links p n text := by
  have hstart : ∀ x ∈ ([([], 0)] : Results (List α)), x.2 ≤ text.toArray.size := by simp
  have h := tails_chains p (text.length + 1) hstart {}
  refine Eq.trans ?_ (h.trans ?_)
  · rfl
  · simp [tails]

theorem links_eq_nil (p : Parser κ ω α) {n : Nat} {text : List Char} (h : text.length < n) :
    links p n text = [] := by
  induction n generalizing text with
  | zero => omega
  | succ n ih =>
    refine List.flatMap_eq_nil_iff.2 fun x hx => ?_
    have hlt := length_lt_of_mem_steps hx
    rw [ih (by omega), List.map_nil]

theorem range_flatMap_links (p : Parser κ ω α) {text : List Char} {n : Nat} (h : text.length < n) :
    ((List.range n).flatMap fun k => links p k text) =
      (List.range (text.length + 1)).flatMap fun k => links p k text := by
  induction n, (show text.length + 1 ≤ n from h) using Nat.le_induction with
  | base => rfl
  | succ n hn ih =>
    rw [List.range_succ, List.flatMap_append, ih hn, List.flatMap_singleton, links_eq_nil p hn,
      List.append_nil]

theorem flatMap_swap {δ : Type} (xs : List α) (ys : List β) (f : α → β → List δ) :
    (xs.flatMap fun x => ys.flatMap fun y => f x y).Perm
    (ys.flatMap fun y => xs.flatMap fun x => f x y) := by
  rw [← Multiset.coe_eq_coe]
  simpa only [Multiset.coe_bind] using
    Multiset.bind_bind (xs : Multiset α) (ys : Multiset β) (f := fun x y => (f x y : Multiset δ))

/-- Up to the order, a repetition reads nothing at all, or one link and then a repetition. -/
theorem read_many_perm (p : Parser κ ω α) [Local p] (text : List Char) :
    ((many p).read text).Perm (([], text) :: (p.steps text).flatMap fun x =>
      ((many p).read x.2).map fun y => (x.1 :: y.1, y.2)) := by
  rw [read_many, List.range_succ_eq_map, List.flatMap_cons, List.flatMap_map]
  refine .cons _ ((flatMap_swap _ _ _).trans (.of_eq (List.flatMap_congr fun x hx => ?_)))
  have hlt := length_lt_of_mem_steps hx
  rw [← List.map_flatMap, read_many, range_flatMap_links p (Nat.lt_succ_of_lt hlt)]
  exact congrArg _ (range_flatMap_links p (Nat.lt_succ_of_lt (Nat.lt_succ_self _))).symm

instance (p : Parser κ ω α) [Local p] : Local (many1 p) := inferInstanceAs (Local (p >>= _))

instance (p : Parser κ ω α) (sep : Parser κ ω β) [Local p] [Local sep] : Local (sepBy1 p sep) :=
  inferInstanceAs (Local (p >>= _))

instance (p : Parser κ ω α) (sep : Parser κ ω β) [Local p] [Local sep] : Local (sepBy p sep) :=
  inferInstanceAs (Local (anyOf _))

instance (left : Parser κ ω α) (right : Parser κ ω β) (p : Parser κ ω γ) [Local left] [Local right]
    [Local p] : Local (between left right p) := inferInstanceAs (Local (left >>= _))

/-- What a parser reads, where what is left passes a test. -/
def ends (p : Parser κ ω α) (ok : List Char → Bool) (text : List Char) : List (α × List Char) :=
  (p.read text).filter fun x => ok x.2

@[simp] theorem ends_true (p : Parser κ ω α) (text : List Char) :
    p.ends (fun _ => true) text = p.read text := List.filter_true _

theorem ends_eq_nil {p : Parser κ ω α} {text : List Char} (h : p.read text = [])
    (ok : List Char → Bool) : p.ends ok text = [] := by
  rw [ends, h]
  rfl

theorem read_ne_nil_of_ends {p : Parser κ ω α} (ok : List Char → Bool) {text : List Char}
    (h : p.ends ok text ≠ []) : p.read text ≠ [] := fun hnil => h (ends_eq_nil hnil ok)

theorem ends_map (f : α → β) (p : Parser κ ω α) [Local p] (ok : List Char → Bool)
    (text : List Char) : (f <$> p).ends ok text = (p.ends ok text).map fun x => (f x.1, x.2) := by
  rw [ends, read_map, List.filter_map]
  rfl

@[simp] theorem ends_anyOf_nil (ok : List Char → Bool) (text : List Char) :
    (anyOf ([] : List (Parser κ ω α))).ends ok text = [] := rfl

theorem ends_anyOf_cons (p : Parser κ ω α) (ps : List (Parser κ ω α)) [Local (anyOf ps)]
    (ok : List Char → Bool) (text : List Char) :
    (anyOf (p :: ps)).ends ok text = p.ends ok text ++ (anyOf ps).ends ok text := by
  rw [ends, read_anyOf_cons, List.filter_append]
  rfl

theorem ends_firstOf_of_nil {p : Parser κ ω α} {ps : List (Parser κ ω α)} [Local (firstOf ps)]
    {text : List Char} (h : p.read text = []) (ok : List Char → Bool) :
    (firstOf (p :: ps)).ends ok text = (firstOf ps).ends ok text := by
  rw [ends, read_firstOf_cons, if_pos h]
  rfl

theorem ends_firstOf_of_ne_nil {p : Parser κ ω α} {ps : List (Parser κ ω α)} [Local (firstOf ps)]
    {text : List Char} (h : p.read text ≠ []) (ok : List Char → Bool) :
    (firstOf (p :: ps)).ends ok text = p.ends ok text := by
  rw [ends, read_firstOf_cons, if_neg h]
  rfl

theorem ends_runs {test : Char → Bool} {ok : List Char → Bool} {w rest : List Char} (hne : w ≠ [])
    (hw : ∀ c ∈ w, test c) (hinside : ∀ c l, test c → ok (c :: l) = false) (hok : ok rest) :
    (runs test : Parser κ ω (List Char)).ends ok (w ++ rest) = [(w, rest)] := by
  induction w with
  | nil => exact absurd rfl hne
  | cons c w ih =>
    obtain ⟨hc, hw⟩ := List.forall_mem_cons.1 hw
    rw [List.cons_append, ends, read_runs_cons, if_pos hc]
    cases w with
    | nil =>
      have hrest : (runs test : Parser κ ω (List Char)).read rest = [] := by
        cases rest with
        | nil => exact read_runs_nil test
        | cons d rest =>
          rw [read_runs_cons, if_neg fun hd => absurd hok (by simp [hinside d rest hd])]
      simp [hrest, hok]
    | cons d w =>
      have hd := hinside d (w ++ rest) (hw d List.mem_cons_self)
      rw [List.filter_cons_of_neg (by simp [hd]), List.filter_map]
      exact congrArg (List.map _) (ih (by simp) hw)

theorem ends_bind (p : Parser κ ω α) (f : α → Parser κ ω β) [Local p] [∀ v, Local (f v)]
    (ok : List Char → Bool) (text : List Char) :
    (p >>= f).ends ok text = (p.read text).flatMap fun x => (f x.1).ends ok x.2 := by
  rw [ends, read_bind, List.filter_flatMap]
  rfl

theorem ends_bind_assoc (p : Parser κ ω α) (f : α → Parser κ ω β) (g : β → Parser κ ω γ) [Local p]
    [∀ v, Local (f v)] [∀ v, Local (g v)] (ok : List Char → Bool) (text : List Char) :
    ((p >>= f) >>= g).ends ok text = (p >>= fun v => f v >>= g).ends ok text := by
  simp only [ends_bind, read_bind, List.flatMap_assoc]

theorem ends_bind_pure (p : Parser κ ω α) [Local p] (ok : List Char → Bool) (text : List Char) :
    (p >>= fun v => pure v).ends ok text = p.ends ok text := by
  rw [ends, read_bind]
  simp only [read_pure, List.flatMap_singleton']
  rfl

/-- Only those rests count behind which the next parser comes to an end. -/
theorem ends_bind_of {p : Parser κ ω α} {f : α → Parser κ ω β} [Local p] [∀ v, Local (f v)]
    {ok : List Char → Bool} (good : List Char → Bool) {text : List Char}
    (h : ∀ x ∈ p.read text, good x.2 = false → (f x.1).ends ok x.2 = []) :
    (p >>= f).ends ok text = (p.ends good text).flatMap fun x => (f x.1).ends ok x.2 := by
  rw [ends_bind, ends]
  generalize p.read text = found at h ⊢
  induction found with
  | nil => rfl
  | cons x found ih =>
    obtain ⟨hx, hfound⟩ := List.forall_mem_cons.1 h
    rw [List.flatMap_cons, ih hfound]
    cases hok : good x.2 with
    | false =>
      simp only [List.filter_cons, hok, hx hok, List.nil_append, Bool.false_eq_true, if_false]
    | true => simp only [List.filter_cons, hok, if_true, List.flatMap_cons]

theorem ends_many_bind_perm (p : Parser κ ω α) (f : List α → Parser κ ω β) [Local p]
    [∀ vs, Local (f vs)] (ok : List Char → Bool) (text : List Char) :
    ((many p >>= f).ends ok text).Perm ((f []).ends ok text ++
      (p.steps text).flatMap fun x => (many p >>= fun vs => f (x.1 :: vs)).ends ok x.2) := by
  simp only [ends_bind]
  refine ((read_many_perm p text).flatMap_right _).trans (.of_eq ?_)
  rw [List.flatMap_cons, List.flatMap_assoc]
  exact congrArg (_ ++ ·) (List.flatMap_congr fun x _ => List.flatMap_map ..)

@[elab_as_elim]
theorem many_induction {p : Parser κ ω α} [Local p] {motive : List Char → List α → List Char → Prop}
    (nil : ∀ text, motive text [] text)
    (cons : ∀ text v rest vs last, (v, rest) ∈ p.read text → motive rest vs last →
      motive text (v :: vs) last)
    {text : List Char} {x : List α × List Char} (h : x ∈ (many p).read text) :
    motive text x.1 x.2 := by
  induction hn : text.length using Nat.strongRecOn generalizing text x with
  | ind n ih =>
    rcases List.mem_cons.1 ((read_many_perm p text).mem_iff.1 h) with rfl | hmore
    · exact nil text
    · obtain ⟨y, hy, hmore⟩ := List.mem_flatMap.1 hmore
      obtain ⟨z, hz, rfl⟩ := List.mem_map.1 hmore
      have hlt := length_lt_of_mem_steps hy
      exact cons text y.1 y.2 z.1 z.2 (List.mem_filter.1 hy).1 (ih _ (by omega) hz rfl)

theorem read_many_of_nil {p : Parser κ ω α} [Local p] {text : List Char} (h : p.read text = []) :
    (many p).read text = [([], text)] := by
  have hperm := read_many_perm p text
  rw [steps, h] at hperm
  exact List.perm_singleton.1 hperm

theorem ends_many_bind_of_nil {p : Parser κ ω α} {f : List α → Parser κ ω β} [Local p]
    [∀ vs, Local (f vs)] {ok : List Char → Bool} {text : List Char} (h : p.read text = []) :
    (many p >>= f).ends ok text = (f []).ends ok text := by
  rw [ends_bind, read_many_of_nil h]
  exact List.append_nil _

theorem flatMap_append_of {V : List Char → Prop} {xs : List γ} {written : γ → List Char}
    {last : List Char} (h : ∀ x ∈ xs, ∀ rest, V rest → V (written x ++ rest)) (hlast : V last) :
    V (xs.flatMap written ++ last) := by
  induction xs with
  | nil => exact hlast
  | cons x xs ih =>
    obtain ⟨hx, hxs⟩ := List.forall_mem_cons.1 h
    rw [List.flatMap_cons, List.append_assoc]
    exact hx _ (ih hxs)

theorem flatMap_steps {p : Parser κ ω α} {f : List α → Parser κ ω β} {ok good : List Char → Bool}
    (hdead : ∀ v rest, good rest = false →
      (many p >>= fun vs => f (v :: vs)).ends ok rest = [])
    (text : List Char) :
    ((p.steps text).flatMap fun x => (many p >>= fun vs => f (x.1 :: vs)).ends ok x.2) =
      ((p.ends good text).filter fun x => x.2.length < text.length).flatMap
        fun x => (many p >>= fun vs => f (x.1 :: vs)).ends ok x.2 := by
  rw [steps, ends, List.filter_comm]
  generalize (p.read text).filter _ = found
  induction found with
  | nil => rfl
  | cons x found ih =>
    cases hx : good x.2 with
    | false =>
      rw [List.flatMap_cons, hdead _ _ hx, ih, List.filter_cons_of_neg (by simp [hx]),
        List.nil_append]
    | true => rw [List.flatMap_cons, ih, List.filter_cons_of_pos (by simp [hx]), List.flatMap_cons]

/-- A repetition over a row of texts, each of which is read as one link and in no other way. -/
theorem ends_many_row (p : Parser κ ω α) [Local p] (f : List α → Parser κ ω β) [∀ vs, Local (f vs)]
    (ok good : List Char → Bool) (V : List Char → Prop) (written : α → List Char) (xs : List α)
    (last : List Char)
    (hdead : ∀ vs rest, good rest = false →
      (many p >>= fun more => f (vs ++ more)).ends ok rest = [])
    (hnext : ∀ x ∈ xs, ∀ rest, V rest → written x ≠ [] ∧ V (written x ++ rest) ∧
      p.ends good (written x ++ rest) = [(x, rest)] ∧ ∀ vs, (f vs).ends ok (written x ++ rest) = [])
    (hV : V last) (hlast : p.ends good last = []) :
    ((many p >>= f).ends ok (xs.flatMap written ++ last)).Perm ((f xs).ends ok last) := by
  induction xs generalizing f with
  | nil =>
    refine (ends_many_bind_perm p f ok last).trans (.of_eq ?_)
    rw [flatMap_steps fun v rest h => hdead [v] rest h, hlast]
    exact List.append_nil _
  | cons x xs ih =>
    obtain ⟨hx, hxs⟩ := List.forall_mem_cons.1 hnext
    obtain ⟨hne, _, hread, hnone⟩ :=
      hx _ (flatMap_append_of (fun y hy rest h => (hxs y hy rest h).2.1) hV)
    have hlt : (xs.flatMap written ++ last).length <
        (written x ++ (xs.flatMap written ++ last)).length := by
      have := List.length_pos_iff.2 hne
      rw [(List.length_append : (written x ++ _).length = _)]
      omega
    rw [List.flatMap_cons, List.append_assoc]
    refine (ends_many_bind_perm p f ok _).trans (.trans (.of_eq ?_)
      (ih (fun vs => f (x :: vs)) (fun vs => hdead (x :: vs)) fun y hy rest hV => ?_))
    · rw [flatMap_steps fun v rest h => hdead [v] rest h, hread, hnone, List.nil_append,
        List.filter_cons_of_pos (by simpa using hlt)]
      exact List.append_nil _
    · obtain ⟨hne, hV, hread, hnone⟩ := hxs y hy rest hV
      exact ⟨hne, hV, hread, fun vs => hnone (x :: vs)⟩

theorem ends_sepBy_bind (p : Parser κ ω α) (sep : Parser κ ω β)
    (f : List α → Parser κ ω γ) [Local p] [Local sep] [∀ vs, Local (f vs)] (ok : List Char → Bool)
    (text : List Char) :
    (sepBy p sep >>= f).ends ok text = (f []).ends ok text ++
      (p >>= fun v => many (sep >>= fun _ => p) >>= fun vs => f (v :: vs)).ends ok text := by
  have hread : (sepBy p sep).read text = ([], text) :: (sepBy1 p sep).read text := by
    rw [sepBy, read_anyOf_cons, read_anyOf_cons, read_anyOf_nil, List.append_nil]
    rfl
  rw [ends_bind, hread, List.flatMap_cons, ends_bind]
  simp only [sepBy1, read_bind, ends_bind, List.flatMap_assoc, read_pure, List.flatMap_singleton]

theorem mem_read_map {f : α → β} {p : Parser κ ω α} [Local p] {text : List Char}
    {x : β × List Char} : x ∈ (f <$> p).read text ↔ ∃ y ∈ p.read text, (f y.1, y.2) = x := by
  rw [read_map, List.mem_map]

theorem exists_of_mem_many {p : Parser κ ω α} [Local p] {text : List Char} {x : List α × List Char}
    (h : x ∈ (many p).read text) :
    ∀ v ∈ x.1, ∃ part, part <:+ text ∧ ∃ rest, (v, rest) ∈ p.read part := by
  refine many_induction (motive := fun text vs _ => ∀ v ∈ vs, ∃ part, part <:+ text ∧ ∃ rest,
    (v, rest) ∈ p.read part) (fun text => by simp) (fun text v rest vs last hv hvs => ?_) h
  refine List.forall_mem_cons.2 ⟨⟨text, List.suffix_rfl, rest, hv⟩, fun w hw => ?_⟩
  obtain ⟨part, hpart, hread⟩ := hvs w hw
  exact ⟨part, hpart.trans (suffix_of_mem_read hv), hread⟩

theorem mem_read_sepBy {p : Parser κ ω α} {sep : Parser κ ω β} [Local p] [Local sep]
    {text : List Char} {x : List α × List Char} :
    x ∈ (sepBy p sep).read text ↔ x = ([], text) ∨ ∃ y ∈ p.read text,
      ∃ z ∈ (many (sep >>= fun _ => p)).read y.2, x = (y.1 :: z.1, z.2) := by
  rw [← ends_true, ← ends_bind_pure, ends_sepBy_bind, ends_true, ends_true,
    List.mem_append, read_pure, List.mem_singleton]
  simp only [mem_read_bind, read_pure, List.mem_singleton]

theorem exists_of_mem_sepBy {p : Parser κ ω α} {sep : Parser κ ω β} [Local p] [Local sep]
    {text : List Char} {x : List α × List Char} (h : x ∈ (sepBy p sep).read text) :
    ∀ v ∈ x.1, ∃ part, part <:+ text ∧ ∃ rest, (v, rest) ∈ p.read part := by
  rcases mem_read_sepBy.1 h with rfl | ⟨y, hy, z, hz, rfl⟩
  · simp
  · refine List.forall_mem_cons.2 ⟨⟨text, List.suffix_rfl, y.2, hy⟩, fun v hv => ?_⟩
    obtain ⟨part, hpart, rest, hread⟩ := exists_of_mem_many hz v hv
    obtain ⟨w, hw, hread⟩ := mem_read_bind.1 hread
    exact ⟨w.2, (suffix_of_mem_read hw).trans (hpart.trans (suffix_of_mem_read hy)), rest, hread⟩

theorem eq_of_mem_many_nil {p : Parser κ ω α} [Local p] {text rest : List Char}
    (h : (([] : List α), rest) ∈ (many p).read text) : rest = text := by
  rcases List.mem_cons.1 ((read_many_perm p text).mem_iff.1 h) with h | h
  · exact (Prod.mk.inj h).2
  · obtain ⟨y, -, h⟩ := List.mem_flatMap.1 h
    obtain ⟨z, -, h⟩ := List.mem_map.1 h
    exact absurd (Prod.mk.inj h).1 (List.cons_ne_nil _ _)

theorem mem_read_sepBy_of_le_one {p : Parser κ ω α} {sep sep' : Parser κ ω β} [Local p]
    [Local sep] [Local sep'] {text : List Char} {x : List α × List Char}
    (h : x ∈ (sepBy p sep).read text) (hle : x.1.length ≤ 1) : x ∈ (sepBy p sep').read text := by
  rcases mem_read_sepBy.1 h with rfl | ⟨y, hy, ⟨vs, rest⟩, hz, rfl⟩
  · exact mem_read_sepBy.2 (.inl rfl)
  · obtain rfl : vs = [] := List.eq_nil_of_length_eq_zero (by simpa using hle)
    have hnil : (([] : List α), rest) ∈ (many (sep' >>= fun _ => p)).read y.2 := by
      rw [eq_of_mem_many_nil hz]
      exact (read_many_perm _ _).mem_iff.2 List.mem_cons_self
    exact mem_read_sepBy.2 (.inr ⟨y, hy, _, hnil, rfl⟩)

theorem run_remember (key : κ) (p : Parser κ ω ω) (text : Array Char) (i : Nat) (s : Progress κ ω) :
    (remember key p text i).run s =
      match s.remembered[(key, i)]? with
      | some found => (found, s)
      | none =>
        let later := (p text i).run s
        (later.1, { later.2 with remembered := later.2.remembered.insert (key, i) later.1 }) := by
  cases h : s.remembered[(key, i)]? with
  | some found => simp [remember, h]; rfl
  | none => simp [remember, h]; rfl

end SugaredLambda.Parser
