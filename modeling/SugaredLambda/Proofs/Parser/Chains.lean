import SugaredLambda.Parser.Character
import SugaredLambda.Proofs.Parser.Enumeration

/-! Repetition, for parsers of which nothing is known but that they read the same whenever they are
at the same position. -/
namespace SugaredLambda.Parser
variable {κ ω ι α β : Type} [BEq κ] [Hashable κ]

/-- From all progress that is valid, a computation returns the same, and leaves valid progress. -/
def Yields (Valid : Progress κ ω → Prop) (m : StateM (Progress κ ω) (Results α))
    (found : Results α) : Prop :=
  ∀ s, Valid s → (m.run s).1 = found ∧ Valid (m.run s).2

/-- What a parser finds in a text depends on the position only, where the progress is valid. No
result ends before it begins, and none past the end of the text, unless it begins there. -/
structure Steady (Valid : Progress κ ω → Prop) (text : Array Char) (p : Parser κ ω α)
    (found : Nat → Results α) : Prop where
  yields : ∀ i, Yields Valid (p text i) (found i)
  bounds : ∀ i, ∀ x ∈ found i, i ≤ x.2 ∧ x.2 ≤ max i text.size

section
variable {Valid : Progress κ ω → Prop} {text : Array Char} {found : Results α}
  {m : StateM (Progress κ ω) (Results α)}

theorem Yields.return (found : Results α) : Yields Valid (return found) found :=
  fun _ hs => ⟨rfl, hs⟩

theorem Yields.bind {more : Results β} {f : Results α → StateM (Progress κ ω) (Results β)}
    (h : Yields Valid m found) (hf : Yields Valid (f found) more) :
    Yields Valid (m >>= f) more := by
  intro s hs
  obtain ⟨hfound, hvalid⟩ := h s hs
  have hnext := hf _ hvalid
  rw [← hfound] at hnext
  exact hnext

theorem Yields.append {more : Results α} {n : StateM (Progress κ ω) (Results α)}
    (h : Yields Valid m found) (hn : Yields Valid n more) :
    Yields Valid (do let found ← m; return found ++ (← n)) (found ++ more) :=
  h.bind (hn.bind (.return _))

theorem Yields.after {f : α → Nat → StateM (Progress κ ω) (Results β)} {next : α × Nat → Results β}
    (hf : ∀ x, Yields Valid (f x.1 x.2) (next x)) (found : Results α) :
    Yields Valid (after f found) (found.flatMap next) := by
  induction found with
  | nil => exact .return []
  | cons x found ih => exact (hf x).append ih

theorem Yields.next {p : Parser κ ω α} {f : α → Parser κ ω β} {i : Nat} {next : α × Nat → Results β}
    (h : Yields Valid (p text i) found) (hf : ∀ x, Yields Valid (f x.1 text x.2) (next x)) :
    Yields Valid ((p >>= f) text i) (found.flatMap next) := h.bind (.after hf found)

theorem Steady.bind {p : Parser κ ω α} {f : α → Parser κ ω β} {found : Nat → Results α}
    {next : α → Nat → Results β} (h : Steady Valid text p found)
    (hf : ∀ v, Steady Valid text (f v) (next v)) :
    Steady Valid text (p >>= f) fun i => (found i).flatMap fun x => next x.1 x.2 where
  yields i := (h.yields i).next fun x => (hf x.1).yields x.2
  bounds i y hy := by
    obtain ⟨x, hx, hy⟩ := List.mem_flatMap.1 hy
    have hx := h.bounds i x hx
    have hy := (hf x.1).bounds x.2 y hy
    omega

def prefixes (test : Char → Bool) (text : Array Char) (i : Nat) : Results (List Char) :=
  (List.range' (i + 1) (runEnd test text i - i)).map fun j => (slice text i j, j)

theorem Steady.runs (hreach : ∀ s i, Valid s → Valid { s with farthest := max s.farthest i })
    (test : Char → Bool) : Steady Valid text (runs test) (prefixes test text) where
  yields i s hs := ⟨rfl, hreach s (runEnd test text i) hs⟩
  bounds i x hx := by
    have hend : runEnd test text i ≤ max i text.size := by
      obtain hi | hi := Nat.lt_or_ge text.size i
      · rw [runEnd, dif_neg (Nat.lt_asymm hi)]
        exact Nat.le_max_left i text.size
      · exact Nat.le_trans (runEnd_le test hi) (Nat.le_max_right i text.size)
    obtain ⟨j, hj, rfl⟩ := List.mem_map.1 hx
    have hj := List.mem_range'_1.1 hj
    dsimp only
    omega

end

/-- A chain of links from a position, with the values that it reads and where it ends. Each link
reads something. -/
inductive Chain (Link : Nat → ι → α × Nat → Prop) : Nat → List ι → List α × Nat → Prop
  | nil (i : Nat) : Chain Link i [] ([], i)
  | cons {i k ks} {x : α × Nat} {xs : List α × Nat} :
    Link i k x → i < x.2 → Chain Link x.2 ks xs → Chain Link i (k :: ks) (x.1 :: xs.1, xs.2)

def Nth (found : Nat → Results α) (i k : Nat) (x : α × Nat) : Prop := (found i)[k]? = some x

def Separated (seps : Nat → Results β) (items : Nat → Results α) (i : Nat) (k : Nat × Nat)
    (x : α × Nat) : Prop :=
  ∃ y, Nth seps i k.1 y ∧ Nth items y.2 k.2 x

def Alternation (seps : Nat → Results β) (items : Nat → Results α) (i : Nat)
    (w : Nat × List (Nat × Nat)) (x : List α × Nat) : Prop :=
  ∃ y, Nth items i w.1 y ∧ ∃ ys, Chain (Separated seps items) y.2 w.2 ys ∧ (y.1 :: ys.1, ys.2) = x

/-- The first items decide, then how many others there are, then the separators and items one
after another. -/
abbrev Alternation.Before : Nat × List (Nat × Nat) → Nat × List (Nat × Nat) → Prop :=
  Prod.Lex (· < ·) (List.Shortlex (Prod.Lex (· < ·) (· < ·)))

section
variable {Link : Nat → ι → α × Nat → Prop} {i : Nat} {ks : List ι} {k : ι} {x : List α × Nat}

theorem chain_concat_iff : Chain Link i (ks ++ [k]) x ↔
    ∃ y, Chain Link i ks y ∧ ∃ z, (Link y.2 k z ∧ y.2 < z.2) ∧ (y.1 ++ [z.1], z.2) = x := by
  constructor
  · intro h
    induction ks generalizing i x with
    | nil =>
      obtain _ | ⟨hlink, hlt, hrest⟩ := h
      cases hrest
      exact ⟨_, .nil i, _, ⟨hlink, hlt⟩, rfl⟩
    | cons k' ks ih =>
      obtain _ | ⟨hlink, hlt, hrest⟩ := h
      obtain ⟨y, hy, z, hz, rfl⟩ := ih hrest
      exact ⟨_, .cons hlink hlt hy, z, hz, rfl⟩
  · rintro ⟨y, hy, z, ⟨hlink, hlt⟩, rfl⟩
    induction hy with
    | nil i => exact .cons hlink hlt (.nil z.2)
    | cons hfirst hpos _ ih => exact .cons hfirst hpos (ih hlink hlt)

theorem Chain.add_length_le (h : Chain Link i ks x) : i + ks.length ≤ x.2 := by
  induction h with
  | nil i => exact Nat.le_refl i
  | cons _ hlt _ ih =>
    rw [List.length_cons]
    dsimp only
    omega

theorem Chain.le_max {size : Nat} (hlink : ∀ i k x, Link i k x → x.2 ≤ max i size)
    (h : Chain Link i ks x) : x.2 ≤ max i size := by
  induction h with
  | nil i => exact Nat.le_max_left i size
  | cons hfirst _ _ ih =>
    have hfirst := hlink _ _ _ hfirst
    dsimp only
    omega

end

section
variable {r : ι → ι → Prop} {ks ks' : List ι} {k k' : ι}

theorem lex_append (h : List.Lex r ks ks') (hlength : ks.length = ks'.length)
    (more more' : List ι) : List.Lex r (ks ++ more) (ks' ++ more') := by
  induction h with
  | nil => exact absurd hlength (Nat.succ_ne_zero _).symm
  | cons _ ih => exact .cons (ih (Nat.succ.inj hlength))
  | rel h => exact .rel h

/-- Chains of one length stay in order when there is one more link, and the links decide between
equal ones. -/
theorem shortlex_concat (hlength : ks.length = ks'.length)
    (h : Prod.Lex (List.Shortlex r) r (ks, k) (ks', k')) :
    List.Shortlex r (ks ++ [k]) (ks' ++ [k']) := by
  cases h with
  | left _ _ h =>
    have hlex := lex_append ((List.shortlex_iff_lex hlength).1 h) hlength [k] [k']
    exact .of_lex (by simp only [List.length_append, List.length_singleton, hlength]) hlex
  | right _ h => exact ((List.shortlex_singleton_iff k k').2 h).append_left ks

end

section
variable {Valid : Progress κ ω → Prop} {text : Array Char} {p : Parser κ ω α}
  {found : Nat → Results α}
  {Link : Nat → ι → α × Nat → Prop} {r : ι → ι → Prop} {i n : Nat} {frontier : Results (List α)}

def longer (found : Nat → Results α) (frontier : Results (List α)) : Results (List α) :=
  frontier.flatMap fun x => ((found x.2).filter (·.2 != x.2)).map fun y => (x.1 ++ [y.1], y.2)

theorem Steady.yields_extend (h : Steady Valid text p found) (frontier : Results (List α)) :
    Yields Valid (extend p text frontier) (longer found frontier) := by
  refine .after (fun x => ?_) frontier
  exact (h.yields x.2).bind (.return _)

/-- A round finds the chains that are one link longer, in their order. -/
theorem enumerates_longer (hlinks : ∀ i, Enumerates r (Link i) (found i))
    (hle : ∀ i k x, Link i k x → i ≤ x.2)
    (h : Enumerates (List.Shortlex r) (fun ks x => ks.length = n ∧ Chain Link i ks x) frontier) :
    Enumerates (List.Shortlex r) (fun ks x => ks.length = n + 1 ∧ Chain Link i ks x)
      (longer found frontier) := by
  have hnext (x : List α × Nat) :=
    ((hlinks x.2).filter (·.2 != x.2)).map fun y => (x.1 ++ [y.1], y.2)
  refine ((h.flatMap fun x _ => hnext x).relabel (fun w => w.1 ++ [w.2]) ?_).congr fun ks x =>
    ⟨?_, ?_⟩
  · rintro w - w' - ⟨-, ⟨hw, -⟩, -⟩ ⟨-, ⟨hw', -⟩, -⟩ hlex
    exact shortlex_concat (hw.trans hw'.symm) hlex
  · rintro ⟨⟨ks, k⟩, ⟨y, ⟨hlength, hy⟩, z, ⟨hlink, hne⟩, rfl⟩, rfl⟩
    have hle := hle _ _ _ hlink
    have hne : z.2 ≠ y.2 := bne_iff_ne.1 hne
    exact ⟨by rw [List.length_append, hlength, List.length_singleton],
      chain_concat_iff.2 ⟨y, hy, z, ⟨hlink, by omega⟩, rfl⟩⟩
  · -- what is found in this round is the last link of its chain
    rintro ⟨hlength, hx⟩
    obtain rfl | ⟨ks, k, rfl⟩ := List.eq_nil_or_concat' ks
    · exact absurd hlength (Nat.succ_ne_zero n).symm
    · obtain ⟨y, hy, z, ⟨hlink, hlt⟩, rfl⟩ := chain_concat_iff.1 hx
      rw [List.length_append, List.length_singleton] at hlength
      exact ⟨(ks, k), ⟨y, ⟨Nat.succ.inj hlength, hy⟩, z, ⟨hlink, bne_iff_ne.2 (by omega)⟩, rfl⟩,
        rfl⟩

section
variable (hp : Steady Valid text p found) (hlinks : ∀ i, Enumerates r (Link i) (found i))
include hp hlinks

theorem exists_yields_chains (rounds : Nat) (hrounds : max i text.size < i + n + rounds)
    (h : Enumerates (List.Shortlex r) (fun ks x => ks.length = n ∧ Chain Link i ks x) frontier) :
    ∃ all, Yields Valid (chains p text rounds frontier) all ∧
      Enumerates (List.Shortlex r) (fun ks x => n ≤ ks.length ∧ Chain Link i ks x) all := by
  have hbounds (i : Nat) (k : ι) (x : α × Nat) (hx : Link i k x) :=
    hp.bounds i x ((hlinks i).mem hx)
  induction rounds generalizing n frontier with
  | zero =>
    -- so many links would go past the end of the text
    have hnone {ks : List ι} {x : List α × Nat} (hn : n ≤ ks.length) (hx : Chain Link i ks x) :
        False := by
      have hlength := hx.add_length_le
      have hmax := hx.le_max fun i k x hx => (hbounds i k x hx).2
      omega
    refine ⟨frontier, ?_, h.congr fun ks x => ⟨fun hx => (hnone hx.1.ge hx.2).elim,
      fun hx => (hnone hx.1 hx.2).elim⟩⟩
    cases frontier <;> exact .return _
  | succ rounds ih =>
    obtain ⟨all, hall, hchains⟩ :=
      ih (by omega) (enumerates_longer hlinks (fun i k x hx => (hbounds i k x hx).1) h)
    refine ⟨frontier ++ all, ?_, (h.append hchains ?_).congr fun ks x => ?_⟩
    · rw [chains_succ]
      exact (hp.yields_extend frontier).bind (hall.bind (.return _))
    · rintro ks - ks' - ⟨hn, -⟩ ⟨hn', -⟩
      exact .of_length_lt (by omega)
    · rw [← or_and_right]
      exact and_congr_left fun _ => by omega

theorem exists_yields_many (i : Nat) :
    ∃ all, Yields Valid (many p text i) all ∧ Enumerates (List.Shortlex r) (Chain Link i) all := by
  have hstart :
      Enumerates (List.Shortlex r) (fun ks x => ks.length = 0 ∧ Chain Link i ks x) [([], i)] := by
    refine (Enumerates.singleton [] ([], i)).congr fun ks x => ⟨?_, ?_⟩
    · rintro ⟨rfl, rfl⟩
      exact ⟨rfl, .nil i⟩
    · rintro ⟨hlength, hx⟩
      cases hx with
      | nil => exact ⟨rfl, rfl⟩
      | cons => exact absurd hlength (Nat.succ_ne_zero _)
  obtain ⟨all, hall, hchains⟩ :=
    exists_yields_chains hp hlinks (text.size - i + 1) (by omega) hstart
  exact ⟨all, hall, hchains.congr fun ks x => and_iff_right (Nat.zero_le _)⟩

end

theorem exists_yields_sepBy1 {sep : Parser κ ω β} {seps : Nat → Results β}
    (hp : Steady Valid text p found) (hsep : Steady Valid text sep seps) (i : Nat) :
    ∃ all, Yields Valid (sepBy1 p sep text i) all ∧
      Enumerates Alternation.Before (Alternation seps found i) all := by
  -- a separator and its item are one link, with the numbers of both
  have hpairs (i : Nat) : Enumerates (Prod.Lex (· < ·) (· < ·)) (Separated seps found i)
      ((seps i).flatMap fun x => found x.2) :=
    (Enumerates.numbered (seps i)).flatMap fun x _ => .numbered (found x.2)
  choose rest hrest hchains using exists_yields_many (hsep.bind fun _ => hp) hpairs
  have hlists (x : α × Nat) : Enumerates (List.Shortlex (Prod.Lex (· < ·) (· < ·)))
      (fun w y => ∃ ys, Chain (Separated seps found) x.2 w ys ∧ (x.1 :: ys.1, ys.2) = y)
      ((rest x.2).map fun ys => (x.1 :: ys.1, ys.2)) := (hchains x.2).map _
  refine ⟨_, (hp.yields i).next fun x => ?_,
    (Enumerates.numbered (found i)).flatMap fun x _ => hlists x⟩
  rw [List.map_eq_flatMap]
  exact (hrest x.2).next fun ys => .return [(x.1 :: ys.1, ys.2)]

theorem exists_yields_sepBy {sep : Parser κ ω β} {seps : Nat → Results β}
    (hp : Steady Valid text p found) (hsep : Steady Valid text sep seps) (i : Nat) :
    ∃ rest, Yields Valid (sepBy p sep text i) (([], i) :: rest) ∧
      Enumerates Alternation.Before (Alternation seps found i) rest := by
  obtain ⟨rest, hrest, halternations⟩ := exists_yields_sepBy1 hp hsep i
  have hboth : Yields Valid (sepBy p sep text i) ([([], i)] ++ (rest ++ [])) :=
    (Yields.return [([], i)]).append (hrest.append (.return []))
  rw [List.append_nil] at hboth
  exact ⟨rest, hboth, halternations⟩

/-- Repetition finds each chain of links that a parser finds one behind the other and that read
something: shorter ones come first, and those of one length are in the order in which the links are
found. With separators, it finds the empty list first, and then each alternation of items and
separators where each separator with its item reads something, in the order of the first items and
then in that of the chains behind them. -/
theorem repetition_enumerates (hp : Steady Valid text p found) (i : Nat) {s : Progress κ ω}
    (hs : Valid s) :
    (∀ results, ((many p text i).run s).1 = results ↔
      Enumerates (List.Shortlex (· < ·)) (Chain (Nth found) i) results) ∧
    ∀ {β : Type} {sep : Parser κ ω β} {seps : Nat → Results β}, Steady Valid text sep seps →
      ∀ results, ((sepBy p sep text i).run s).1 = results ↔ ∃ rest, results = ([], i) :: rest ∧
        Enumerates Alternation.Before (Alternation seps found i) rest := by
  constructor
  · intro results
    obtain ⟨all, hall, hchains⟩ := exists_yields_many hp (fun i => Enumerates.numbered (found i)) i
    rw [(hall s hs).1]
    exact ⟨fun h => h ▸ hchains, hchains.unique⟩
  · intro β sep seps hsep results
    obtain ⟨rest, hrest, halternations⟩ := exists_yields_sepBy hp hsep i
    rw [(hrest s hs).1]
    constructor
    · rintro rfl
      exact ⟨rest, rfl, halternations⟩
    · rintro ⟨others, rfl, hothers⟩
      rw [halternations.unique hothers]

theorem repetition_enumerates_runs :
    let text := #['a', 'a', ',', 'a']
    let p : Parser Nat Nat (List Char) := runs (· == 'a')
    let sep : Parser Nat Nat (List Char) := runs (· == ',')
    let found := prefixes (· == 'a') text
    Steady (fun _ => True) text p found ∧
      Steady (fun _ => True) text sep (prefixes (· == ',') text) ∧
      Enumerates (List.Shortlex (· < ·)) (Chain (Nth found) 0)
        [([], 0), ([['a']], 1), ([['a', 'a']], 2), ([['a'], ['a']], 2)] ∧
      ∃ rest, [([], 0), ([['a']], 1), ([['a', 'a']], 2), ([['a', 'a'], ['a']], 4)] =
        ([], 0) :: rest ∧ Enumerates Alternation.Before
        (Alternation (prefixes (· == ',') text) found 0) rest := by
  intro text p sep found
  have hp : Steady (fun _ => True) text p found := .runs (fun _ _ _ => trivial) _
  have hsep : Steady (fun _ => True) text sep (prefixes (· == ',') text) :=
    .runs (fun _ _ _ => trivial) _
  have hmany : ((many p text 0).run {}).1 =
      [([], 0), ([['a']], 1), ([['a', 'a']], 2), ([['a'], ['a']], 2)] := by
    decide +kernel
  have hsepBy : ((sepBy p sep text 0).run {}).1 =
      [([], 0), ([['a']], 1), ([['a', 'a']], 2), ([['a', 'a'], ['a']], 4)] := by decide +kernel
  obtain ⟨hchains, halternations⟩ := repetition_enumerates hp 0 (s := {}) trivial
  exact ⟨hp, hsep, (hchains _).1 hmany, (halternations hsep _).1 hsepBy⟩

end
end SugaredLambda.Parser
