import SugaredLambda.Proofs.Grammar.Printed

/-! Printable terms: plain names, literals on one line, and no tagged records. -/
namespace SugaredLambda
open SugaredLambda.Grammar SugaredLambda.Text

/-- A word character that is part of no sign but the `>` of an arrow. -/
def isPlainChar (c : Char) : Bool := isAlphanumeric c || "_.@:?$!^&|*+<>~/".toList.contains c

def isPlainName (x : String) : Bool := !x.toList.isEmpty && x.toList.all isPlainChar

def isPlainVariable (x : String) : Bool :=
  isPlainName x && !x.toList.head?.any Char.isDigit || !x.toList.isEmpty && x.toList.all (· == '#')

def isPlainText (s : String) : Bool :=
  s.toList.all (!endsLine ·) && !decide (['-', '-'] <:+: s.toList)

namespace Term

/-- Plain names, applications of several terms, no tagged records, and literals with contents of
some kinds. -/
def isPlainWith (chars strs : String → Bool) : Term → Bool := fold
  { abs := fun ps b => ps.all isPlainName && b
    app := fun ts => decide (2 ≤ ts.length) && ts.all id
    var := isPlainVariable
    nat := fun _ => true
    list := fun ts => ts.all id
    tuple := fun ts => ts.all id
    char := fun s => decide (s.toList.length = 1) && chars s
    str := strs
    word := fun n => decide (n < Bits.capacity Bits.wordWidth)
    record := fun _ => false
    letIn := fun bs b => (bs.all fun x => isPlainName x.name && x.params.all isPlainName &&
      x.body) && b }

def isPrintable : Term → Bool :=
  isPlainWith isPlainText fun s => !s.toList.contains '"' && isPlainText s

theorem isWordChar_of_isPlainChar {c : Char} (h : isPlainChar c) : isWordChar c := by
  have hsub : ∀ d ∈ "_.@:?$!^&|*+<>~/".toList, wordPunctuation.contains d :=
    List.all_eq_true.1 (by decide)
  rcases Bool.or_eq_true_iff.1 h with h | h
  · simp [isWordChar, h]
  · have hmem := hsub c (by simpa using h)
    simp [isWordChar] at hmem ⊢
    exact .inr hmem

theorem isWord_of_isPlainName {x : String} (h : isPlainName x) : IsWord x := by
  simp only [isPlainName, Bool.and_eq_true, Bool.not_eq_true', List.isEmpty_eq_false_iff,
    List.all_eq_true] at h
  exact ⟨h.1, fun c hc => isWordChar_of_isPlainChar (h.2 c hc)⟩

theorem not_mem_of_isPlainName {x : String} (h : isPlainName x) {c : Char}
    (hc : isPlainChar c = false) : c ∉ x.toList := by
  simp only [isPlainName, Bool.and_eq_true, List.all_eq_true] at h
  exact fun hmem => by simp [h.2 c hmem] at hc

theorem isPlainVariable_cases {x : String} (h : isPlainVariable x) :
    (isPlainName x ∧ ∀ c ∈ x.toList.head?, c.isDigit = false) ∨
    ∃ n, x.toList = List.replicate (n + 1) '#' := by
  rcases Bool.or_eq_true_iff.1 h with h | h
  · rw [Bool.and_eq_true, Bool.not_eq_true'] at h
    refine .inl ⟨h.1, fun c hc => ?_⟩
    simpa [Option.mem_def.1 hc] using h.2
  · rw [Bool.and_eq_true, Bool.not_eq_true', List.isEmpty_eq_false_iff, List.all_eq_true] at h
    obtain ⟨c, l, hx⟩ := List.exists_cons_of_ne_nil h.1
    refine .inr ⟨l.length, List.eq_replicate_iff.2 ⟨by simp [hx],
      fun c hc => by simpa using h.2 c hc⟩⟩

theorem isName_of_isPlainVariable {x : String} (h : isPlainVariable x) : IsName x :=
  (isPlainVariable_cases h).imp_left fun hplain => ⟨isWord_of_isPlainName hplain.1, hplain.2⟩

theorem not_mem_of_isPlainVariable {x : String} (h : isPlainVariable x) {c : Char}
    (hc : isPlainChar c = false) (hne : c ≠ '#') : c ∉ x.toList := by
  rcases isPlainVariable_cases h with ⟨hplain, -⟩ | ⟨n, hhash⟩
  · exact not_mem_of_isPlainName hplain hc
  · rw [hhash]
    exact fun hmem => hne (List.eq_of_mem_replicate hmem)

section
variable {chars strs : String → Bool}

theorem not_hides_of_isPlainWith {t : Term} (h : t.isPlainWith chars strs) {sign : List Char}
    (hsign : sign = arrow ∨ sign = equals) : ¬t.Hides sign := by
  rintro ⟨x, rfl, hsign'⟩
  rcases hsign with rfl | rfl
  · exact not_mem_of_isPlainVariable (c := '-') h (by decide) (by decide)
      (hsign'.subset (by decide))
  · exact not_mem_of_isPlainVariable (c := '=') h (by decide) (by decide)
      (hsign'.subset (by decide))

end

theorem smooth_of_forall {text : List Char} (hline : ∀ c ∈ text, endsLine c = false)
    (hcomment : ¬['-', '-'] <:+: text) : Smooth text := by
  intro bad hbad hforbidden
  have hnewline : '\n' ∉ bad := fun hmem => absurd (hline '\n' (hbad.subset hmem)) (by decide)
  cases hforbidden with
  | @line c ends other => simp [hline c (hbad.subset (by simp))] at ends
  | comment => exact hcomment hbad
  | trailing => simp at hnewline
  | blank => simp at hnewline

theorem smooth_of_not_mem {text : List Char} (hblank : ∀ c ∈ text, isBlank c = false)
    (hdash : '-' ∉ text) : Smooth text :=
  smooth_of_forall (fun c hc => endsLine_of_not_isBlank (hblank c hc)) fun hcomment =>
    hdash (hcomment.subset (by decide))

theorem smooth_of_isPlainName {x : String} (h : isPlainName x) : Smooth x.toList :=
  smooth_of_not_mem (fun c hc => isBlank_of_isWordChar ((isWord_of_isPlainName h).2 c hc))
    (not_mem_of_isPlainName h (by decide))

theorem smooth_of_mem_names {xs : List String} (h : ∀ x ∈ xs, isPlainName x) :
    ∀ a ∈ xs.map (·.toList), Smooth a := by
  intro a ha
  obtain ⟨x, hx, rfl⟩ := List.mem_map.1 ha
  exact smooth_of_isPlainName (h x hx)

theorem smooth_of_isPlainVariable {x : String} (h : isPlainVariable x) : Smooth x.toList := by
  refine smooth_of_not_mem (fun c hc => ?_) (not_mem_of_isPlainVariable h (by decide) (by decide))
  rcases isPlainVariable_cases h with ⟨hplain, -⟩ | ⟨n, hhash⟩
  · exact isBlank_of_isWordChar ((isWord_of_isPlainName hplain).2 c hc)
  · rw [hhash] at hc
    rw [List.eq_of_mem_replicate hc]
    decide

theorem smooth_of_isPlainText {s : String} (h : isPlainText s) : Smooth s.toList := by
  simp only [isPlainText, Bool.and_eq_true, List.all_eq_true, Bool.not_eq_true',
    decide_eq_false_iff_not] at h
  exact smooth_of_forall h.1 h.2

section
variable {chars strs : String → Bool}

theorem isPlainWith_abs (ps : List String) (b : Term) :
    (abs ps b).isPlainWith chars strs ↔ (∀ p ∈ ps, isPlainName p) ∧ b.isPlainWith chars strs := by
  simp [isPlainWith, fold]

theorem isPlainWith_app (ts : List Term) :
    (app ts).isPlainWith chars strs ↔ 2 ≤ ts.length ∧ ∀ t ∈ ts, t.isPlainWith chars strs := by
  simp [isPlainWith, fold]

theorem isPlainWith_list (ts : List Term) :
    (list ts).isPlainWith chars strs ↔ ∀ t ∈ ts, t.isPlainWith chars strs := by
  simp [isPlainWith, fold]

theorem isPlainWith_tuple (ts : List Term) :
    (tuple ts).isPlainWith chars strs ↔ ∀ t ∈ ts, t.isPlainWith chars strs := by
  simp [isPlainWith, fold]

theorem isPlainWith_letIn (bs : List (Binding Term)) (b : Term) :
    (letIn bs b).isPlainWith chars strs ↔
    (∀ x ∈ bs, (∀ y ∈ x.name :: x.params, isPlainName y) ∧ x.body.isPlainWith chars strs) ∧
      b.isPlainWith chars strs := by
  simp [isPlainWith, fold, Binding.map]

theorem hasRecord_of_isPlainWith {t : Term} (h : t.isPlainWith chars strs) :
    t.hasRecord = false := by
  induction t using Term.induction with
  | abs ps b ih => exact ih ((isPlainWith_abs ps b).1 h).2
  | app ts ih =>
    exact hasRecord_app ts ▸ any_hasRecord.2 fun t ht => ih t ht (((isPlainWith_app ts).1 h).2 t ht)
  | list ts ih =>
    exact hasRecord_list ts ▸ any_hasRecord.2 fun t ht => ih t ht ((isPlainWith_list ts).1 h t ht)
  | tuple ts ih =>
    exact hasRecord_tuple ts ▸ any_hasRecord.2 fun t ht => ih t ht ((isPlainWith_tuple ts).1 h t ht)
  | record cs => simp [isPlainWith, fold] at h
  | letIn bs b ihs ih =>
    obtain ⟨hbs, hb⟩ := (isPlainWith_letIn bs b).1 h
    exact hasRecord_letIn_eq_false.2 ⟨fun x hx => ihs x hx (hbs x hx).2, ih hb⟩
  | _ => rfl

theorem print_of_isPlainWith {t : Term} (h : t.isPlainWith chars strs) :
    t.print = .ok (String.ofList t.chars) := by
  rw [print, hasRecord_of_isPlainWith h]
  rfl

end

/-- What it takes for the printed form of a term to be read as the term. -/
structure Prints (t : Term) : Prop where
  written : t.Written
  clear : t.Clear
  smooth : ∀ a ∈ t.atoms, Smooth a

theorem smooth_flatMap {ts : List Term} (h : ∀ t ∈ ts, t.Prints) :
    ∀ a ∈ ts.flatMap atoms, Smooth a := by
  intro a ha
  obtain ⟨t, ht, ha⟩ := List.mem_flatMap.1 ha
  exact (h t ht).smooth a ha

section
variable {chars strs : String → Bool} (hchars : ∀ s, chars s → Smooth s.toList)
  (hstrs : ∀ s, strs s → '"' ∉ s.toList ∧ Smooth s.toList)
include hchars hstrs

theorem prints_of_isPlainWith {t : Term} (h : t.isPlainWith chars strs) : t.Prints := by
  induction t using Term.induction with
  | abs ps b ih =>
    obtain ⟨hps, hb⟩ := (isPlainWith_abs ps b).1 h
    have hbody := ih hb
    refine ⟨.abs (fun p hp => isWord_of_isPlainName (hps p hp)) hbody.written,
      .abs (not_hides_of_isPlainWith hb (.inl rfl)) hbody.clear, fun a ha => ?_⟩
    rcases List.mem_append.1 ha with ha | ha
    · exact smooth_of_mem_names hps a ha
    · exact hbody.smooth a ha
  | app ts ih =>
    obtain ⟨hseveral, hts⟩ := (isPlainWith_app ts).1 h
    have hterms := fun t ht => ih t ht (hts t ht)
    exact ⟨.app hseveral fun t ht => (hterms t ht).written,
      .app (fun t ht => not_hides_of_isPlainWith (hts t ht) (.inl rfl)) fun t ht =>
        (hterms t ht).clear, atoms_app ts ▸ smooth_flatMap hterms⟩
  | list ts ih =>
    have hterms := fun t ht => ih t ht ((isPlainWith_list ts).1 h t ht)
    exact ⟨.list fun t ht => (hterms t ht).written, .list fun t ht => (hterms t ht).clear,
      atoms_list ts ▸ smooth_flatMap hterms⟩
  | tuple ts ih =>
    have hts := (isPlainWith_tuple ts).1 h
    have hterms := fun t ht => ih t ht (hts t ht)
    exact ⟨.tuple fun t ht => (hterms t ht).written,
      .tuple (fun t ht => not_hides_of_isPlainWith (hts t (by simp [ht])) (.inl rfl)) fun t ht =>
        (hterms t ht).clear, atoms_tuple ts ▸ smooth_flatMap hterms⟩
  | var x => exact ⟨.var (isName_of_isPlainVariable h), .var x,
      fun a ha => List.mem_singleton.1 ha ▸ smooth_of_isPlainVariable h⟩
  | nat n => exact ⟨.nat n, .nat n, fun a ha => absurd ha List.not_mem_nil⟩
  | char s =>
    obtain ⟨hone, htext⟩ : decide (s.toList.length = 1) ∧ chars s := Bool.and_eq_true_iff.1 h
    obtain ⟨c, hc⟩ := List.length_eq_one_iff.1 (of_decide_eq_true hone)
    obtain rfl : s = String.singleton c := by
      rw [← String.toList_inj, hc]
      simp
    exact ⟨.char c, .char _, fun a ha => List.mem_singleton.1 ha ▸ hchars _ htext⟩
  | str s =>
    obtain ⟨hquote, hsmooth⟩ := hstrs s h
    exact ⟨.str hquote, .str s, fun a ha => List.mem_singleton.1 ha ▸ hsmooth⟩
  | word n => exact ⟨.word (of_decide_eq_true h), .word n, fun a ha => absurd ha List.not_mem_nil⟩
  | record cs => simp [isPlainWith, fold] at h
  | letIn bs b ihs ih =>
    obtain ⟨hbs, hb⟩ := (isPlainWith_letIn bs b).1 h
    have hbody := ih hb
    have hbodies := fun x hx => ihs x hx (hbs x hx).2
    have hnames := fun x hx => List.forall_mem_cons.1 (hbs x hx).1
    refine ⟨.letIn (fun x hx => ⟨isWord_of_isPlainName (hnames x hx).1,
        fun p hp => isWord_of_isPlainName ((hnames x hx).2 p hp)⟩) (fun x hx =>
          (hbodies x hx).written) hbody.written,
      .letIn (fun x hx => not_hides_of_isPlainWith (hbs x hx).2 (.inr rfl))
        (fun x hx => (hbodies x hx).clear) hbody.clear,
      fun a ha => ?_⟩
    rw [atoms_letIn] at ha
    rcases List.mem_append.1 ha with ha | ha
    · obtain ⟨x, hx, ha⟩ := List.mem_flatMap.1 ha
      rcases List.mem_cons.1 ha with rfl | ha
      · exact smooth_of_isPlainName (hnames x hx).1
      · rcases List.mem_append.1 ha with ha | ha
        · exact smooth_of_mem_names (hnames x hx).2 a ha
        · exact (hbodies x hx).smooth a ha
    · exact hbody.smooth a ha

end

theorem prints_of_isPrintable {t : Term} (h : t.isPrintable) : t.Prints := by
  rw [isPrintable] at h
  refine prints_of_isPlainWith (fun s => smooth_of_isPlainText) (fun s hs => ?_) h
  obtain ⟨hquote, htext⟩ := Bool.and_eq_true_iff.1 hs
  exact ⟨by simpa using hquote, smooth_of_isPlainText htext⟩

end Term

/-- Printing a printable term succeeds, and the program has that term for its only reading. -/
theorem Grammar.parseAll_print {t : Term} (h : t.isPrintable) :
    ∃ s, t.print = .ok s ∧ parseAll s = .ok [t] := by
  have hprints := Term.prints_of_isPrintable h
  exact ⟨String.ofList t.chars, Term.print_of_isPlainWith h,
    parseAll_chars hprints.written hprints.clear hprints.smooth⟩

def Term.sampler : Term :=
  .letIn [⟨"2nd", ["x"], .app [.var "##", .list [.nat 12, .word 7], .char "'"]⟩]
    (.abs ["f", ">"] (.tuple [.var "f", .app [.var "second", .str "a - b"]]))

theorem Grammar.parseAll_print_sampler :
    Term.sampler.isPrintable ∧ ∃ s, Term.sampler.print = .ok s ∧ parseAll s = .ok [Term.sampler] :=
  ⟨by decide, parseAll_print (by decide)⟩

end SugaredLambda
