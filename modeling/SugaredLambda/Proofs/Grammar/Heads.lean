import SugaredLambda.Proofs.Grammar.Signs

/-! The names before a sign are read in one way: they cannot stop earlier or later, as no term spans
what is then left. -/
namespace SugaredLambda.Grammar
open SugaredLambda.Parser

structure ReadsSign {α : Type} (rule : Rule α) (sign : List Char) : Prop where
  reads : ∀ text, ∃ v, rule.read (sign ++ text) = [(v, text)]
  only : ∀ text x, x ∈ rule.read text → text = sign ++ x.2

theorem readsSign_arrow : ReadsSign (string arrow) arrow where
  reads text := ⟨arrow, by rw [read_string, if_pos (List.prefix_append _ _), List.drop_left]⟩
  only text x hx := by
    rw [read_string] at hx
    split at hx
    next h =>
      obtain ⟨rest, rfl⟩ := h
      rw [List.drop_left] at hx
      rw [List.mem_singleton.1 hx]
    next => simp at hx

theorem readsSign_equals : ReadsSign (char '=') equals where
  reads text := ⟨'=', by rw [equals, List.singleton_append, read_char_cons, if_pos rfl]⟩
  only _ _ hx := (mem_read_char hx).1

section
variable {α : Type} {rule : Rule α} [Local rule] {sign : List Char} (hrule : ReadsSign rule sign)
include hrule

theorem mem_read_spaced {text : List Char} {x : α × List Char} (h : x ∈ (spaced rule).read text) :
    ∃ blanks rest, text = blanks ++ (sign ++ rest) ∧ (∀ c ∈ blanks, Text.isBlank c) ∧
      x.2 = rest.dropWhile Text.isBlank := by
  rw [read_spaced] at h
  obtain ⟨y, hy, rfl⟩ := List.mem_map.1 h
  refine ⟨text.takeWhile Text.isBlank, y.2, ?_,
    fun c hc => List.all_eq_true.1 List.all_takeWhile c hc, rfl⟩
  rw [← hrule.only _ y hy, List.takeWhile_append_dropWhile]

theorem read_spaced_sign (hsign : IsSign sign) (text : List Char) {c : Char} (hc : isBeginning c) :
    ∃ v, (spaced rule).read (' ' :: (sign ++ ' ' :: c :: text)) = [(v, c :: text)] := by
  obtain ⟨v, hread⟩ := hrule.reads (' ' :: c :: text)
  obtain ⟨d, l, hd⟩ := List.exists_cons_of_ne_nil hsign.ne_nil
  have hblank : Text.isBlank d = false :=
    isBlank_of_isBeginning
      (isBeginning_of_isToken (isToken_of_isWordChar (hsign.wordChars d (by simp [hd]))))
  have hdrop :
      (' ' :: (sign ++ ' ' :: c :: text)).dropWhile Text.isBlank = sign ++ ' ' :: c :: text := by
    rw [List.dropWhile_cons_of_pos (by decide), hd]
    exact List.dropWhile_cons_of_neg (by simp [hblank])
  refine ⟨v, ?_⟩
  rw [read_spaced, hdrop, hread, List.map_singleton, List.dropWhile_cons_of_pos (by decide),
    dropWhile_isBlank_cons hc]

end

/-- What names take: words and blanks, with a word last. -/
structure IsHead (head : List Char) : Prop where
  loose : ∀ c ∈ head, isLoose c
  last : ∀ c ∈ head.getLast?, isWordChar c

/-- Behind a place within a head a word begins, and behind that word a blank and another one, or
the text. -/
theorem within_head {sign : List Char} (hsign : IsSign sign) (text : List Char) {c : Char}
    (hc : isBeginning c) {later : List Char} (hlater : ∀ d ∈ later, isWordChar d ∨ d = ' ') :
    ∃ w l, (later ++ ' ' :: (sign ++ ' ' :: c :: text)).dropWhile Text.isBlank =
      w ++ ' ' :: l ∧ w ≠ [] ∧ (∀ d ∈ w, isWordChar d) ∧ ∃ d m, l.dropWhile Text.isBlank = d :: m ∧
      isBeginning d := by
  have hword {d : Char} (h : isWordChar d) : isBeginning d :=
    isBeginning_of_isToken (isToken_of_isWordChar h)
  obtain ⟨s, sign', hs⟩ := List.exists_cons_of_ne_nil hsign.ne_nil
  have hbegin := hword (hsign.wordChars s (by simp [hs]))
  induction later with
  | nil =>
    refine ⟨sign, c :: text, ?_, hsign.ne_nil, hsign.wordChars, c, text,
      dropWhile_isBlank_cons hc _, hc⟩
    rw [List.nil_append, List.dropWhile_cons_of_pos (by decide), hs]
    exact dropWhile_isBlank_cons hbegin _
  | cons d later ih =>
    obtain ⟨hd, hlater⟩ := List.forall_mem_cons.1 hlater
    obtain ⟨w, l, hdrop, hne, hw, e, m, hl, he⟩ := ih hlater
    rcases hd with hd | rfl
    · rw [List.cons_append, dropWhile_isBlank_cons (hword hd)]
      cases later with
      | nil =>
        refine ⟨[d], sign ++ ' ' :: c :: text, rfl, by simp, by simpa using hd, s,
          sign' ++ ' ' :: c :: text, ?_, hbegin⟩
        rw [hs]
        exact dropWhile_isBlank_cons hbegin _
      | cons f later =>
        rcases (List.forall_mem_cons.1 hlater).1 with hf | rfl
        · rw [List.cons_append, dropWhile_isBlank_cons (hword hf)] at hdrop
          exact ⟨d :: w, l, congrArg (d :: ·) hdrop, by simp,
            List.forall_mem_cons.2 ⟨hd, hw⟩, e, m, hl, he⟩
        · obtain ⟨g, w, rfl⟩ := List.exists_cons_of_ne_nil hne
          rw [List.cons_append, List.dropWhile_cons_of_pos (by decide)] at hdrop
          exact ⟨[d], _, rfl, by simp, by simpa using hd, g, _, hdrop,
            hword (hw g List.mem_cons_self)⟩
    · rw [List.cons_append, List.dropWhile_cons_of_pos (by decide)]
      exact ⟨w, l, hdrop, hne, hw, e, m, hl, he⟩

theorem head_unique {head head' blanks : List Char} (h : IsHead head) (h' : IsHead head')
    (hblanks : ∀ c ∈ blanks, Text.isBlank c) (heq : head ++ blanks = head' ++ [' ']) :
    head = head' := by
  rcases List.append_eq_append_iff.1 heq with ⟨more, rfl, hmore⟩ | ⟨more, rfl, hmore⟩
  · cases hlast : more.getLast? with
    | none => rw [List.getLast?_eq_none_iff.1 hlast, List.append_nil]
    | some c =>
      have hblank := hblanks c (by simp [hmore, List.mem_of_getLast? hlast])
      have hword := h'.last c (by simp [List.getLast?_append, hlast])
      simp [isWordChar_of_isBlank hblank] at hword
  · cases more with
    | nil => exact List.append_nil _
    | cons c more =>
      obtain ⟨rfl, hnil⟩ := List.cons.inj hmore
      obtain ⟨rfl, -⟩ := List.append_eq_nil_iff.1 hnil.symm
      have hspace := h.last ' ' (by simp)
      exact absurd hspace (by decide)

section
variable {α β γ : Type} {rule : Rule α} [Local rule] {sign : List Char}
  (hrule : ReadsSign rule sign)
  {names : Rule β} [Local names]
  (hnames : ∀ text, ∀ x ∈ names.read text, ∃ head, text = head ++ x.2 ∧ IsHead head)
  {f : β → Rule γ} [∀ v, Local (f v)] {ok : List Char → Bool}
include hrule hnames

/-- Nothing is read where nothing can be read behind any of the signs. -/
theorem ends_headed_eq_nil {text : List Char}
    (hdead : ∀ before rest, text = before ++ (sign ++ rest) →
      (∀ c ∈ before, isLoose c) → ∀ v, (f v).ends ok (rest.dropWhile Text.isBlank) = []) :
    (names >>= fun v => spaced rule >>= fun _ => f v).ends ok text = [] := by
  rw [ends_bind, List.flatMap_eq_nil_iff]
  intro x hx
  rw [ends_bind, List.flatMap_eq_nil_iff]
  intro y hy
  obtain ⟨head, htext, hhead⟩ := hnames text x hx
  obtain ⟨blanks, rest, hrest, hblanks, hy⟩ := mem_read_spaced hrule hy
  rw [hy]
  refine hdead (head ++ blanks) rest (by rw [htext, hrest, List.append_assoc]) (fun c hc => ?_) x.1
  rcases List.mem_append.1 hc with hc | hc
  · exact hhead.loose c hc
  · simp [isLoose, hblanks c hc]

section
variable (hsign : IsSign sign) {head text : List Char} {c : Char} {v : β} (hhead : IsHead head)
  (hspaces : ∀ d ∈ head, isWordChar d ∨ d = ' ') (hc : isBeginning c)
  (hread : names.ends (· == ' ' :: (sign ++ ' ' :: c :: text))
    (head ++ ' ' :: (sign ++ ' ' :: c :: text)) = [(v, ' ' :: (sign ++ ' ' :: c :: text))])
  (hdead : ∀ v w l d m, w ≠ [] → (∀ d ∈ w, isWordChar d) → l.dropWhile Text.isBlank = d :: m →
    isBeginning d → (f v).ends ok (w ++ ' ' :: l) = [])
include hsign hhead hspaces hc hread hdead

/-- A head that is written with a sign and a text behind it is read in one way, if no names go on to
a sign in that text. -/
theorem ends_headed_of_names (hlate : ∀ x ∈ names.read (head ++ ' ' :: (sign ++ ' ' :: c :: text)),
      ∀ blanks later rest, (∀ d ∈ blanks, Text.isBlank d) → x.2 = blanks ++ (sign ++ rest) →
        (∀ d ∈ later, isLoose d) → c :: text ≠ later ++ (sign ++ rest)) :
    (names >>= fun v => spaced rule >>= fun _ => f v).ends ok
    (head ++ ' ' :: (sign ++ ' ' :: c :: text)) = (f v).ends ok (c :: text) := by
  rw [ends_bind_of (· == ' ' :: (sign ++ ' ' :: c :: text)) fun x hx hother => ?_, hread,
    List.flatMap_singleton]
  · obtain ⟨v', hsigned⟩ := read_spaced_sign hrule hsign text hc
    rw [ends_bind, hsigned, List.flatMap_singleton]
  · rw [ends_bind, List.flatMap_eq_nil_iff]
    intro y hy
    obtain ⟨before, htext, hbefore⟩ := hnames _ x hx
    obtain ⟨blanks, rest, hrest, hblanks, hy⟩ := mem_read_spaced hrule hy
    have hloose : ∀ d ∈ before ++ blanks, isLoose d := fun d hd => by
      rcases List.mem_append.1 hd with hd | hd
      · exact hbefore.loose d hd
      · simp [isLoose, hblanks d hd]
    have hcut := htext
    rw [hrest, ← List.append_assoc] at hcut
    rcases cut_head hsign hcut
      hloose with ⟨later, hlater, rfl⟩ | ⟨hend, -⟩ | ⟨later, hbehind, hlater⟩
    · obtain ⟨w, l, hdrop, hne, hw, d, m, hl, hd⟩ := within_head hsign text hc
        fun d hd => hspaces d (hlater.subset hd)
      rw [hy, hdrop]
      exact hdead x.1 w l d m hne hw hl hd
    · obtain rfl := head_unique hbefore hhead hblanks hend
      have hx := List.append_cancel_left htext
      simp [← hx] at hother
    · exact absurd hbehind (hlate x hx blanks later rest hblanks hrest hlater)

theorem ends_headed (hreach : ¬Reaches sign (c :: text)) :
    (names >>= fun v => spaced rule >>= fun _ => f v).ends ok
    (head ++ ' ' :: (sign ++ ' ' :: c :: text)) = (f v).ends ok (c :: text) :=
  ends_headed_of_names hrule hnames hsign hhead hspaces hc hread hdead
      fun _ _ _ later rest _ _ hlater htext =>
    hreach ⟨later, rest, htext, hlater⟩

end

end

theorem separates_opening (g : Char) : Separates (opening g) g where
  between c text hc := ⟨g, by rw [read_opening, dropWhile_isBlank_cons hc]⟩
  apart text h := startsWith_opening g text fun hg => (h g hg).2 rfl

def TakesBlanks {α : Type} (sep : Rule α) : Prop :=
  ∀ text, ∀ x ∈ sep.read text, ∃ blanks, text = blanks ++ x.2 ∧ ∀ c ∈ blanks, Text.isBlank c

theorem takesBlanks_char : TakesBlanks (char ' ') := fun _ _ hx =>
  ⟨[' '], (mem_read_char hx).1, List.forall_mem_singleton.2 (by decide)⟩

theorem takesBlanks_opening : TakesBlanks (opening ' ') := by
  intro text x hx
  obtain ⟨⟨c, rest⟩, hc, hblank⟩ := mem_read_bind.1 hx
  obtain ⟨rfl, rfl⟩ := mem_read_char hc
  obtain ⟨y, hy, hend⟩ := mem_read_bind.1 hblank
  rw [read_blank] at hy
  obtain rfl := List.mem_singleton.1 hy
  obtain rfl := mem_read_pure.1 hend
  refine ⟨' ' :: rest.takeWhile Text.isBlank, by simp,
    List.forall_mem_cons.2 ⟨by decide, fun d hd => ?_⟩⟩
  exact List.all_eq_true.1 List.all_takeWhile d hd

section
variable {α : Type} {sep : Rule α} [Local sep] (hsep : Separates sep ' ')
  (hblanks : TakesBlanks sep)

def namesBy (sep : Rule α) : Rule (String × List String) := do
  let x ← word
  let xs ← many (do let _ ← sep; word)
  return (x, xs)

instance : Local (namesBy sep) := inferInstanceAs (Local (_ >>= _))

include hblanks in
theorem mem_read_link {text : List Char} {x : String × List Char}
    (h : x ∈ (sep >>= fun _ => word).read text) :
    ∃ blanks, text = blanks ++ (x.1.toList ++ x.2) ∧ (∀ c ∈ blanks, Text.isBlank c) ∧
    IsWord x.1 := by
  obtain ⟨y, hy, hx⟩ := mem_read_bind.1 h
  obtain ⟨hword, hrest⟩ := mem_read_word hx
  obtain ⟨blanks, htext, hall⟩ := hblanks text y hy
  exact ⟨blanks, by rw [htext, hrest], hall, hword⟩

omit [Local sep] in
theorem isHead_append {more : List Char} {x : String} (blanks : List Char)
    (hall : ∀ c ∈ blanks, Text.isBlank c) (hx : IsWord x) (hmore : IsHead more) :
    IsHead (blanks ++ (x.toList ++ more)) where
  loose c hc := by
    rcases List.mem_append.1 hc with hc | hc
    · simp [isLoose, hall c hc]
    · rcases List.mem_append.1 hc with hc | hc
      · simp [isLoose, hx.2 c hc]
      · exact hmore.loose c hc
  last c hc := by
    rw [List.getLast?_append, List.getLast?_append, Option.mem_def, Option.or_eq_some_iff] at hc
    rcases hc with hc | ⟨hnone, -⟩
    · rcases Option.or_eq_some_iff.1 hc with hc | ⟨-, hc⟩
      · exact hmore.last c hc
      · exact hx.2 c (List.mem_of_getLast? hc)
    · exact absurd (List.getLast?_eq_none_iff.1 (Option.or_eq_none_iff.1 hnone).2) hx.1

include hblanks in
theorem mem_read_links {text : List Char} {x : List String × List Char}
    (h : x ∈ (many (sep >>= fun _ => word)).read text) :
    ∃ head, text = head ++ x.2 ∧ IsHead head := by
  refine many_induction (motive := fun text _ last => ∃ head, text = head ++ last ∧ IsHead head)
    (fun text => ⟨[], rfl, by simp, by simp⟩) (fun text v rest vs last h hrest => ?_) h
  obtain ⟨blanks, htext, hall, hword⟩ := mem_read_link hblanks h
  obtain ⟨head, hrest, hhead⟩ := hrest
  exact ⟨blanks ++ (v.toList ++ head), by rw [htext, hrest]; simp,
    isHead_append blanks hall hword hhead⟩

include hblanks in
theorem mem_read_namesBy {text : List Char} {x : (String × List String) × List Char}
    (h : x ∈ (namesBy sep).read text) : ∃ head, text = head ++ x.2 ∧ IsHead head := by
  obtain ⟨y, hy, h⟩ := mem_read_bind.1 h
  obtain ⟨z, hz, h⟩ := mem_read_bind.1 h
  obtain rfl := mem_read_pure.1 h
  obtain ⟨hword, htext⟩ := mem_read_word hy
  obtain ⟨head, hrest, hhead⟩ := mem_read_links hblanks hz
  exact ⟨[] ++ (y.1.toList ++ head), by rw [htext, hrest]; simp,
    isHead_append [] (by simp) hword hhead⟩

/-- Whether a name is over at the beginning of a text that goes on beyond `rest`: where the next
name may be read, while the last one is to be followed by a blank and `rest`. -/
def goesOn (rest text : List Char) : Bool := decide (rest.length < text.length) && stops text

omit [Local sep] in
theorem ends_eq_nil_of_length {p : Rule α} [Local p] {c : Char} {rest text : List Char}
    (h : text.length ≤ rest.length) : p.ends (· == c :: rest) text = [] := by
  refine List.filter_eq_nil_iff.2 fun y hy heq => ?_
  have hmem : y ∈ p.read text := hy
  have hle := (suffix_of_mem_read hmem).length_le
  rw [eq_of_beq heq, List.length_cons] at hle
  omega

theorem ne_of_not_stops {rest text : List Char} (h : stops text = false) : text ≠ ' ' :: rest := by
  rintro rfl
  rw [stops_cons] at h
  exact absurd h (by decide)

include hsep in
theorem read_link_of_not_stops {text : List Char} (h : stops text = false) :
    (sep >>= fun _ => word).read text = [] := by
  refine read_link_eq_nil hsep fun c hc => ?_
  obtain ⟨text, rfl⟩ := List.head?_eq_some_iff.1 hc
  have hc : isToken c := by simpa using h
  exact ⟨isBlank_of_isBeginning (isBeginning_of_isToken hc), by
    rintro rfl
    exact absurd hc (by decide)⟩

include hsep in
theorem ends_links_eq_nil (x : String) (vs : List String) {rest text : List Char}
    (h : goesOn rest text = false) :
    (many (sep >>= fun _ => word) >>= fun more => pure (x, vs ++ more)).ends
    (· == ' ' :: rest) text = [] := by
  rcases Bool.and_eq_false_iff.1 h with hle | hstop
  · exact ends_eq_nil_of_length (by simpa using hle)
  · rw [ends_many_bind_of_nil (read_link_of_not_stops hsep hstop), ends]
    simpa using ne_of_not_stops hstop

include hsep in
theorem ends_link_goesOn {y : String} (hy : IsWord y) {rest text : List Char} (hstop : stops text)
    (hlt : rest.length < text.length) :
    (sep >>= fun _ => word).ends (goesOn rest) (' ' :: y.toList ++ text) = [(y, text)] := by
  obtain ⟨c, l, hchars, hc⟩ := exists_cons_of_isWord hy
  obtain ⟨v, hread⟩ :=
    hsep.between c (l ++ text) (isBeginning_of_isToken (isToken_of_isWordChar hc))
  rw [ends_bind, List.cons_append, hchars, List.cons_append, hread, List.flatMap_singleton,
    ← List.cons_append, ← hchars]
  have hfilter : word.ends (goesOn rest) (y.toList ++ text) =
      (word.ends stops (y.toList ++ text)).filter fun x => decide (rest.length < x.2.length) :=
    List.filter_filter.symm
  rw [hfilter, ends_word hy.1 hstop hy.2, String.ofList_toList,
    List.filter_cons_of_pos (by simpa using hlt)]
  rfl

include hblanks in
theorem ends_link_eq_nil (rest : List Char) :
    (sep >>= fun _ => word).ends (goesOn rest) (' ' :: rest) = [] := by
  refine List.filter_eq_nil_iff.2 fun y hy hgood => ?_
  obtain ⟨blanks, htext, -, hword⟩ := mem_read_link hblanks hy
  have hlength := congrArg List.length htext
  have hpos := List.length_pos_iff.2 hword.1
  simp only [List.length_cons, List.length_append] at hlength
  simp only [goesOn, Bool.and_eq_true, decide_eq_true_eq] at hgood
  omega

include hsep hblanks in
theorem ends_links (x : String) {xs : List String} (hxs : ∀ y ∈ xs, IsWord y) (rest : List Char) :
    (many (sep >>= fun _ => word) >>= fun more => pure (x, more)).ends (· == ' ' :: rest)
      (xs.flatMap (fun y => ' ' :: y.toList) ++ ' ' :: rest) = [((x, xs), ' ' :: rest)] := by
  refine List.perm_singleton.1
    (.trans (ends_many_row (sep >>= fun _ => word) (fun vs => pure (x, vs)) _
    (goesOn rest) (fun text => rest.length < text.length ∧ text.head? = some ' ') _ xs (' ' :: rest)
    (fun vs _ => ends_links_eq_nil hsep x vs) (fun y hy text htext => ?_) (by simp)
    (ends_link_eq_nil hblanks rest)) (.of_eq (by simp [ends])))
  have hstop : stops text := by
    obtain ⟨text, rfl⟩ := List.head?_eq_some_iff.1 htext.2
    rfl
  have hlt : (' ' :: rest).length < (' ' :: y.toList ++ text).length := by
    have := List.length_pos_iff.2 (hxs y hy).1
    simp only [List.length_append, List.length_cons]
    omega
  refine ⟨List.cons_ne_nil _ _, ⟨Nat.lt_of_succ_lt hlt, rfl⟩,
    ends_link_goesOn hsep (hxs y hy) hstop htext.1, fun vs => ?_⟩
  have hne : ' ' :: y.toList ++ text ≠ ' ' :: rest :=
    fun heq => absurd hlt (by rw [heq]; exact Nat.lt_irrefl _)
  simpa [ends] using hne

include hsep hblanks in
theorem ends_namesBy {x : String} {xs : List String} (hx : IsWord x) (hxs : ∀ y ∈ xs, IsWord y)
    (rest : List Char) :
    (namesBy sep).ends (· == ' ' :: rest)
    ([' '].intercalate ((x :: xs).map (·.toList)) ++ ' ' :: rest) = [((x, xs), ' ' :: rest)] := by
  have hbehind : stops (xs.flatMap (fun y => ' ' :: y.toList) ++ ' ' :: rest) := by cases xs <;> rfl
  rw [List.map_cons, Text.intercalate_cons, List.flatMap_map, List.append_assoc, namesBy,
    ends_bind_of stops fun y _ hy => ?_, ends_word hx.1 hbehind hx.2, List.flatMap_singleton,
    String.ofList_toList]
  · exact ends_links hsep hblanks x hxs rest
  · rw [ends_many_bind_of_nil (read_link_of_not_stops hsep hy), ends]
    simpa using ne_of_not_stops hy

end

theorem isHead_names {xs : List String} (hxs : ∀ y ∈ xs, IsWord y) :
    IsHead ([' '].intercalate (xs.map (·.toList))) := by
  cases xs with
  | nil => exact ⟨by simp, by simp⟩
  | cons x xs =>
    obtain ⟨hx, hxs⟩ := List.forall_mem_cons.1 hxs
    have hmore : IsHead (xs.flatMap fun y => ' ' :: y.toList) := by
      induction xs with
      | nil => exact ⟨by simp, by simp⟩
      | cons y ys ih =>
        obtain ⟨hy, hys⟩ := List.forall_mem_cons.1 hxs
        exact isHead_append [' '] (List.forall_mem_singleton.2 (by decide)) hy
          (ih (by simpa using ⟨hx, hys⟩) hys)
    rw [List.map_cons, Text.intercalate_cons, List.flatMap_map]
    exact isHead_append [] (by simp) hx hmore

theorem spaces_names {xs : List String} (hxs : ∀ y ∈ xs, IsWord y) :
    ∀ d ∈ [' '].intercalate (xs.map (·.toList)), isWordChar d ∨ d = ' ' := by
  cases xs with
  | nil => simp
  | cons x xs =>
    obtain ⟨hx, hxs⟩ := List.forall_mem_cons.1 hxs
    rw [List.map_cons, Text.intercalate_cons]
    intro d hd
    rcases List.mem_append.1 hd with hd | hd
    · exact .inl (hx.2 d hd)
    · simp only [List.flatMap_map, List.mem_flatMap, List.mem_cons] at hd
      obtain ⟨y, hy, rfl | hd⟩ := hd
      · exact .inr rfl
      · exact .inl ((hxs y hy).2 d hd)

theorem ends_sepBy_word (ok : List Char → Bool) (text : List Char) :
    (sepBy word (char ' ')).ends ok text = (pure [] : Rule (List String)).ends ok text ++
      ((namesBy (char ' ')).ends ok text).map fun x => (x.1.1 :: x.1.2, x.2) := by
  have hmap : ((namesBy (char ' ')).ends ok text).map (fun x => (x.1.1 :: x.1.2, x.2)) =
      (namesBy (char ' ') >>= fun x => pure (x.1 :: x.2)).ends ok text :=
    (ends_map (fun x : String × List String => x.1 :: x.2) ..).symm
  rw [← ends_bind_pure, ends_sepBy_bind, hmap, namesBy, ends_bind_assoc, ends_bind word,
    ends_bind word]
  refine congrArg _ ?_
  refine List.flatMap_congr fun x _ => ?_
  simp only [ends_bind, read_bind, read_pure, List.flatMap_assoc, List.flatMap_singleton]

/-- The parameters of an abstraction are read in one way. -/
theorem ends_sepBy_word_once {xs : List String} (hxs : ∀ y ∈ xs, IsWord y) (rest : List Char) :
    (sepBy word (char ' ')).ends (· == ' ' :: rest)
    ([' '].intercalate (xs.map (·.toList)) ++ ' ' :: rest) = [(xs, ' ' :: rest)] := by
  rw [ends_sepBy_word]
  cases xs with
  | nil =>
    have hnone : (namesBy (char ' ')).read (' ' :: rest) = [] := by
      rw [namesBy, read_bind, read_word_of_head (by decide)]
      rfl
    rw [List.map_nil, List.intercalate_nil, List.nil_append, ends_eq_nil hnone]
    simp [ends]
  | cons x xs =>
    obtain ⟨hx, hxs⟩ := List.forall_mem_cons.1 hxs
    rw [ends_namesBy (separates_char ' ') takesBlanks_char hx hxs]
    have hne : [' '].intercalate ((x :: xs).map (·.toList)) ++ ' ' :: rest ≠ ' ' :: rest := by
      obtain ⟨c, l, hchars, hc⟩ := exists_cons_of_isWord hx
      rw [List.map_cons, Text.intercalate_cons, hchars]
      intro heq
      exact ne_of_isWordChar hc (by decide) (List.cons.inj heq).1
    rw [ends, read_pure, List.filter_cons_of_neg (by simpa only [beq_iff_eq] using hne)]
    rfl

theorem mem_read_sepBy_word {text : List Char} {x : List String × List Char}
    (h : x ∈ (sepBy word (char ' ')).read text) : ∃ head, text = head ++ x.2 ∧ IsHead head := by
  rw [← ends_true, ends_sepBy_word] at h
  rcases List.mem_append.1 h with h | h
  · rw [ends_true, read_pure, List.mem_singleton] at h
    exact ⟨[], by rw [h]; rfl, by simp, by simp⟩
  · obtain ⟨y, hy, rfl⟩ := List.mem_map.1 h
    rw [ends_true] at hy
    exact mem_read_namesBy takesBlanks_char hy

end SugaredLambda.Grammar
