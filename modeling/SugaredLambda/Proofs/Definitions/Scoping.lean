import SugaredLambda.Term.Equality
import SugaredLambda.Proofs.Church.Demands
import SugaredLambda.Proofs.Definitions.Sort

/-! Definitions see one another but are encoded in turn. Without cycles a sorted term asks just for
the names it needs. -/
namespace SugaredLambda
open Definitions Relation

/-- No siblings depend on each other in a cycle, in no block. -/
inductive Term.Acyclic : Term → Prop
  | abs {ps : List String} {b : Term} (body : b.Acyclic) : Acyclic (.abs ps b)
  | app {ts : List Term} (terms : ∀ t ∈ ts, t.Acyclic) : Acyclic (.app ts)
  | var (x : String) : Acyclic (.var x)
  | nat (n : Nat) : Acyclic (.nat n)
  | list {ts : List Term} (terms : ∀ t ∈ ts, t.Acyclic) : Acyclic (.list ts)
  | tuple {ts : List Term} (terms : ∀ t ∈ ts, t.Acyclic) : Acyclic (.tuple ts)
  | char (s : String) : Acyclic (.char s)
  | str (s : String) : Acyclic (.str s)
  | word (n : Nat) : Acyclic (.word n)
  | record {cs : List (Constructor Term)} (bodies : ∀ t ∈ fieldBodies cs, t.Acyclic) :
      Acyclic (.record cs)
  | letIn {bs : List (Binding Term)} {b : Term} (siblings : ∀ n, ¬TransGen (Depends bs) n n)
    (bodies : ∀ d ∈ bs, d.body.Acyclic) (body : b.Acyclic) : Acyclic (.letIn bs b)

namespace Definitions
open Church Term
variable {x : String}

theorem mem_demanded_letIn {bs : List (Binding Term)} {b : Term} : x ∈ (Term.letIn bs b).demanded ↔
    (∃ before d after, bs = before ++ d :: after ∧ x ∈ d.body.demanded ∧ x ∉ d.params ∧
      x ∉ before.map (·.name)) ∨ x ∈ b.demanded ∧ x ∉ bs.map (·.name) := by
  induction bs with
  | nil => simp [demanded_letIn_nil]
  | cons d bs ih =>
    rw [demanded_letIn_cons, List.mem_append, mem_without, mem_without, ih, List.mem_singleton,
      List.map_cons, List.mem_cons, not_or]
    constructor
    · rintro (⟨hx, hparams⟩ | ⟨⟨before, e, after, rfl, hx, hparams, hbefore⟩ | ⟨hx, hbs⟩, hname⟩)
      · exact .inl ⟨[], d, bs, rfl, hx, hparams, List.not_mem_nil⟩
      · exact .inl ⟨d :: before, e, after, rfl, hx, hparams,
          List.not_mem_cons_of_ne_of_not_mem hname hbefore⟩
      · exact .inr ⟨hx, hname, hbs⟩
    · rintro (⟨before, e, after, hbs, hx, hparams, hbefore⟩ | ⟨hx, hname, hbs⟩)
      · cases before with
        | nil =>
          obtain ⟨rfl, rfl⟩ := List.cons.inj hbs
          exact .inl ⟨hx, hparams⟩
        | cons f before =>
          obtain ⟨rfl, rfl⟩ := List.cons.inj hbs
          obtain ⟨hname, hbefore⟩ := List.ne_and_not_mem_of_not_mem_cons hbefore
          exact .inr ⟨.inl ⟨before, e, after, rfl, hx, hparams, hbefore⟩, hname⟩
      · exact .inr ⟨.inr ⟨hx, hbs⟩, hname⟩

theorem mem_demanded_arrange {bs before after : List (Binding Term)} {b : Term} {e : Binding Term}
    (h : (arrange bs).map (·.binding) = before ++ (pendingOf (bs.map (·.name)) e).binding :: after)
    (hbody : x ∈ e.body.demanded) (hparams : x ∉ e.params) (hname : x ≠ e.name)
    (hbefore : x ∉ before.map (·.name)) :
    x ∈ (Term.letIn ((arrange bs).map (·.binding)) b).demanded := by
  obtain ⟨-, hsame, hmem⟩ := binding_pendingOf (bs.map (·.name)) e
  refine mem_demanded_letIn.2 (.inl ⟨before, _, after, h, hsame ▸ hbody, fun hx => ?_, hbefore⟩)
  exact ((hmem x).1 hx).elim hparams fun hself => hname hself.1

theorem mem_demanded_map_sort {ts : List Term}
    (ih : ∀ t ∈ ts, x ∈ t.neededNames → x ∈ (sort t).demanded) (h : ∃ t ∈ ts, x ∈ t.neededNames) :
    x ∈ (ts.map sort).flatMap demanded := by
  obtain ⟨t, ht, h⟩ := h
  exact List.mem_flatMap_of_mem (List.mem_map_of_mem ht) (ih t ht h)

theorem exists_of_mem_demanded_map_sort {ts : List Term}
    (ih : ∀ t ∈ ts, x ∈ (sort t).demanded → x ∈ t.neededNames)
    (h : x ∈ (ts.map sort).flatMap demanded) : ∃ t ∈ ts, x ∈ t.neededNames := by
  obtain ⟨u, hu, h⟩ := List.mem_flatMap.1 h
  obtain ⟨t, ht, rfl⟩ := List.mem_map.1 hu
  exact ⟨t, ht, ih t ht h⟩

/-- A sorted term asks at least for what the term needs: siblings in turn see no more of
each other. -/
theorem mem_demanded_sort {t : Term} (h : x ∈ t.neededNames) : x ∈ (sort t).demanded := by
  induction t using Term.induction with
  | abs ps b ih =>
    obtain ⟨hb, hps⟩ := mem_namesHiding_abs.1 h
    exact mem_without.2 ⟨ih hb, hps⟩
  | app ts ih =>
    rw [sort_app, demanded_app]
    exact mem_demanded_map_sort ih (mem_namesHiding_app.1 h)
  | var y => exact List.mem_singleton.2 (mem_namesHiding_var.1 h)
  | list ts ih =>
    rw [sort_list, demanded_list]
    exact mem_demanded_map_sort ih (mem_namesHiding_list.1 h)
  | tuple ts ih =>
    rw [sort_tuple, demanded_tuple]
    exact mem_demanded_map_sort ih (mem_namesHiding_tuple.1 h)
  | record cs ih =>
    obtain ⟨h, hself⟩ := mem_namesHiding_record.1 h
    have ih' : ∀ t ∈ fieldBodies cs, x ∈ t.neededNames → x ∈ (sort t).demanded :=
      forall_mem_fieldBodies.2 ih
    rw [sort_record, demanded_record, fieldBodies_map]
    exact mem_without.2 ⟨mem_demanded_map_sort ih' h, hself⟩
  | letIn bs b ihs ih =>
    obtain ⟨h, hnames⟩ := mem_namesHiding_letIn.1 h
    rw [← map_name_map sort] at hnames
    rw [sort_letIn]
    rcases h with h | ⟨d, hd, h, hparams⟩
    · exact mem_demanded_letIn.2 (.inr ⟨ih h, mt mem_names_arrange.1 hnames⟩)
    · have hmem : d.map sort ∈ bs.map (Binding.map sort) := List.mem_map_of_mem hd
      obtain ⟨before, after, hsplit⟩ := List.append_of_mem (mem_arrange.2 ⟨d.map sort, hmem, rfl⟩)
      refine mem_demanded_arrange hsplit (ihs d hd h) hparams (fun hname => ?_) fun hbefore => ?_
      · exact hnames (hname ▸ List.mem_map_of_mem hmem)
      · refine hnames (mem_names_arrange.1 ?_)
        rw [hsplit, List.map_append]
        exact List.mem_append_left _ hbefore
  | _ => exact absurd h List.not_mem_nil

theorem exists_of_mem_demanded_arrange {bs before after : List (Binding Term)} {d' : Binding Term}
    (hsiblings : ∀ n, ¬TransGen (Depends bs) n n)
    (hsplit : (arrange (bs.map (Binding.map sort))).map (·.binding) = before ++ d' :: after)
    (h : x ∈ d'.body.demanded) (hparams : x ∉ d'.params) (hbefore : x ∉ before.map (·.name)) :
    ∃ d ∈ bs, x ∈ (sort d.body).demanded ∧ x ∉ d.params ∧
    (x ∈ d.body.neededNames → x ∉ bs.map (·.name)) := by
  rw [← depends_sort] at hsiblings
  obtain ⟨e, he, rfl, hneeds⟩ := needs_before hsplit fun n _ => hsiblings n
  obtain ⟨d, hd, rfl⟩ := List.mem_map.1 he
  obtain ⟨-, hsame, hmem⟩ :=
    binding_pendingOf ((bs.map (Binding.map sort)).map (·.name)) (d.map sort)
  obtain ⟨hownParams, hself⟩ := not_or.1 (mt (hmem x).2 hparams)
  rw [hsame] at h
  refine ⟨d, hd, h, hownParams, fun hneeded hsibling => hbefore (hneeds x ?_)⟩
  have hfree : x ∈ (Term.abs d.params (sort d.body)).freeNames := by
    rw [freeNames_eq, mem_namesHiding_abs, mem_namesHiding_sort]
    exact ⟨mem_freeNames_of_mem_namesHiding hneeded, hownParams⟩
  have hname : x ≠ d.name := fun hname => hself ⟨hname, hfree⟩
  exact mem_needs_pendingOf.2 ⟨hfree, (map_name_map sort bs).symm ▸ hsibling, hname⟩

/-- Without cycles, a sorted term asks for no more than the term needs: siblings find each other. -/
theorem mem_neededNames_of_mem_demanded {t : Term} (ht : t.Acyclic) (h : x ∈ (sort t).demanded) :
    x ∈ t.neededNames := by
  induction ht with
  | abs body ih =>
    obtain ⟨hb, hps⟩ := mem_without.1 h
    exact mem_namesHiding_abs.2 ⟨ih hb, hps⟩
  | app terms ih =>
    rw [sort_app, demanded_app] at h
    exact mem_namesHiding_app.2 (exists_of_mem_demanded_map_sort ih h)
  | var y => exact mem_namesHiding_var.2 (List.mem_singleton.1 h)
  | list terms ih =>
    rw [sort_list, demanded_list] at h
    exact mem_namesHiding_list.2 (exists_of_mem_demanded_map_sort ih h)
  | tuple terms ih =>
    rw [sort_tuple, demanded_tuple] at h
    exact mem_namesHiding_tuple.2 (exists_of_mem_demanded_map_sort ih h)
  | record bodies ih =>
    rw [sort_record, demanded_record, fieldBodies_map] at h
    obtain ⟨h, hself⟩ := mem_without.1 h
    exact mem_namesHiding_record.2 ⟨exists_of_mem_demanded_map_sort ih h, hself⟩
  | @letIn bs b siblings bodies body ihs ih =>
    rw [sort_letIn] at h
    refine mem_namesHiding_letIn.2 ?_
    rcases mem_demanded_letIn.1
      h with ⟨before, d', after, hsplit, h, hparams, hbefore⟩ | ⟨h, hnames⟩
    · obtain ⟨d, hd, h, hown, hsibling⟩ :=
        exists_of_mem_demanded_arrange siblings hsplit h hparams hbefore
      have hneeded : x ∈ d.body.neededNames := ihs d hd h
      exact ⟨.inr ⟨d, hd, hneeded, hown⟩, hsibling hneeded⟩
    · rw [mem_names_arrange, map_name_map] at hnames
      exact ⟨.inl (ih h), hnames⟩
  | _ => exact absurd h List.not_mem_nil

theorem asks_sort {t : Term} (happ : t.hasEmptyApplication = false) :
    Asks (sort t).demanded (encode (sort t)) := by
  have h : (sort t).hasEmptyApplication = false := (hasEmptyApplication_sort t).trans happ
  have hencode : encode (sort t) = place (sort t) := by
    funext scope depth
    rw [encode, h]
    rfl
  rw [hencode]
  exact asks_place h

/-- Without cycles, encoding fails just when the scope misses a needed name, by such a name, and
depends on the scope at the needed names only. -/
theorem encode_sort {t : Term} (happ : t.hasEmptyApplication = false) (hacyclic : t.Acyclic)
    (scope : Scope) (depth : Int) :
    ((∃ x, encode (sort t) scope depth = .error (.unbound x)) ↔
      ∃ x ∈ t.neededNames, scope.lookup x = none) ∧
    (∀ x, encode (sort t) scope depth = .error (.unbound x) →
      x ∈ t.neededNames ∧ scope.lookup x = none) ∧
    ((∀ x ∈ t.neededNames, scope.lookup x ≠ none) → ∃ l, encode (sort t) scope depth = .ok l) ∧
    ∀ scope', Agree t.neededNames scope scope' →
    encode (sort t) scope depth = encode (sort t) scope' depth := by
  have hasks := asks_sort happ
  have hneeded (x : String) : x ∈ (sort t).demanded ↔ x ∈ t.neededNames :=
    ⟨mem_neededNames_of_mem_demanded hacyclic, mem_demanded_sort⟩
  have hanswers :
      Answers {x | x ∈ t.neededNames ∧ scope.lookup x = none} (encode (sort t) scope depth) := by
    have hmissing :
        missing (sort t).demanded scope = {x | x ∈ t.neededNames ∧ scope.lookup x = none} :=
      Set.ext fun x => and_congr_left' (hneeded x)
    exact hmissing ▸ hasks.answers scope depth
  refine ⟨⟨fun ⟨x, hx⟩ => ⟨x, hanswers.mem_of_unbound hx⟩,
    fun ⟨x, hx⟩ => hanswers.exists_unbound hx⟩,
    fun x hx => hanswers.mem_of_unbound hx, fun h => hanswers.exists_ok fun x hx => h x hx.1 hx.2,
    fun scope' h => ?_⟩
  exact hasks.dependsOn _ _ _ (h.mono fun x => (hneeded x).1)

def recursive : List (Binding Term) :=
  [⟨"f", ["n"], .app [.var "g", .var "f", .var "n"]⟩,
    ⟨"g", [], .record [⟨"C", [⟨"again", .app [.var "#", .var "h"]⟩]⟩]⟩]

theorem acyclic_app_var (xs : List String) : (Term.app (xs.map .var)).Acyclic :=
  .app fun t ht => by
    obtain ⟨x, -, rfl⟩ := List.mem_map.1 ht
    exact .var x

theorem encode_sort_recursive : (Term.letIn recursive (.var "f")).neededNames = ["h"] ∧
    (∃ l, encode (sort (.letIn recursive (.var "f"))) [("h", 0)] 1 = .ok l) ∧
    encode (sort (.letIn recursive (.var "f"))) [] 0 = .error (.unbound "h") := by
  have hdepends : ∀ n m, Depends recursive n m → n = "f" ∧ m = "g" := by
    rintro n m ⟨d, hd, rfl, hne, hsibling, hfree⟩
    rcases List.mem_pair.1 hd with rfl | rfl <;> rcases List.mem_pair.1 hsibling with rfl | rfl
    · exact absurd rfl hne
    · exact ⟨rfl, rfl⟩
    · exact absurd hfree (by decide)
    · exact absurd rfl hne
  have hsiblings : ∀ n, ¬TransGen (Depends recursive) n n := fun n hn => by
    obtain ⟨m, hfirst, -⟩ := TransGen.head'_iff.1 hn
    obtain ⟨k, -, hlast⟩ := TransGen.tail'_iff.1 hn
    exact absurd ((hdepends n m hfirst).1.symm.trans (hdepends k n hlast).2) (by decide)
  have hacyclic : (Term.letIn recursive (.var "f")).Acyclic := by
    refine .letIn hsiblings (fun d hd => ?_) (.var "f")
    rcases List.mem_pair.1 hd with rfl | rfl
    · exact acyclic_app_var ["g", "f", "n"]
    · exact .record fun t ht => List.mem_singleton.1 ht ▸ acyclic_app_var ["#", "h"]
  have hneeded : (Term.letIn recursive (.var "f")).neededNames = ["h"] := rfl
  obtain ⟨-, -, hok, -⟩ := encode_sort (by decide) hacyclic [("h", 0)] 1
  obtain ⟨herror, hname, -, -⟩ := encode_sort (by decide) hacyclic [] 0
  obtain ⟨x, hx⟩ := herror.2 ⟨"h", by rw [hneeded]; exact List.mem_singleton_self _, rfl⟩
  have hmem := (hname x hx).1
  rw [hneeded] at hmem
  obtain rfl := List.mem_singleton.1 hmem
  refine ⟨hneeded, hok fun x hx => ?_, hx⟩
  rw [hneeded] at hx
  obtain rfl := List.mem_singleton.1 hx
  decide

/-- A block of distinct names with a cycle of siblings has no encoding where the scope knows none of
these siblings. -/
theorem encode_sort_of_cycle {bs : List (Binding Term)} {b : Term}
    (hdistinct : (bs.map (·.name)).Nodup) (happ : (Term.letIn bs b).hasEmptyApplication = false)
    {n : String} (hcycle : TransGen (Depends bs) n n) {scope : Scope}
    (hscope : ∀ m, TransGen (Depends bs) n m → TransGen (Depends bs) m n →
      m ≠ selfName ∧ scope.lookup m = none) (depth : Int) :
    ∃ x, scope.lookup x = none ∧ encode (sort (.letIn bs b)) scope depth = .error (.unbound x) := by
  have hdemanded : ∃ m ∈ (sort (.letIn bs b)).demanded, scope.lookup m = none := by
    rw [← map_name_map sort] at hdistinct
    rw [← depends_sort] at hcycle
    obtain ⟨before, e, he, after, m, hsplit, hneeds, hbefore, hto, hback⟩ :=
      exists_needs_after hdistinct hcycle
    obtain ⟨d, hd, rfl⟩ := List.mem_map.1 he
    obtain ⟨hfree, -, hname⟩ := mem_needs_pendingOf.1 hneeds
    rw [depends_sort] at hto hback
    obtain ⟨hself, hlookup⟩ := hscope m hto hback
    obtain ⟨hfree, hparams⟩ := mem_namesHiding_abs.1 (freeNames_eq _ ▸ hfree)
    have hbody := (mem_namesHiding_sort d.body).1 hfree
    have hneeded : m ∈ d.body.neededNames :=
      mem_namesHiding_of_mem_freeNames (mt List.mem_singleton.1 hself) hbody
    refine ⟨m, ?_, hlookup⟩
    rw [sort_letIn]
    exact mem_demanded_arrange hsplit (mem_demanded_sort hneeded) hparams hname hbefore
  obtain ⟨m, hm⟩ := hdemanded
  have hanswers := (asks_sort happ).answers scope depth
  obtain ⟨x, hx⟩ := hanswers.exists_unbound hm
  exact ⟨x, (hanswers.mem_of_unbound hx).2, hx⟩

def twins : List (Binding Term) := [⟨"a", [], .var "b"⟩, ⟨"b", [], .var "a"⟩]

theorem depends_twins : TransGen (Depends twins) "a" "a" := by
  refine .tail (.single (b := "b") ⟨⟨"a", [], .var "b"⟩, ?_⟩) ⟨⟨"b", [], .var "a"⟩, ?_⟩ <;>
    simp [twins] <;> decide

theorem encode_sort_of_cycle_twins : (twins.map (·.name)).Nodup ∧
    (Term.letIn twins (.var "a")).hasEmptyApplication = false ∧ TransGen (Depends twins) "a" "a" ∧
    ∃ x, encode (sort (.letIn twins (.var "a"))) [] 0 = .error (.unbound x) := by
  have hscope : ∀ m, TransGen (Depends twins) "a" m → TransGen (Depends twins) m "a" →
      m ≠ selfName ∧ ([] : Scope).lookup m = none := fun m _ hback => by
    obtain ⟨k, ⟨d, hd, rfl, -⟩, -⟩ := TransGen.head'_iff.1 hback
    refine ⟨?_, rfl⟩
    rcases List.mem_pair.1 hd with rfl | rfl <;> decide
  obtain ⟨x, -, hx⟩ := encode_sort_of_cycle (b := .var "a") (by decide)
    (by decide) depends_twins hscope 0
  exact ⟨by decide, by decide, depends_twins, x, hx⟩

/-- Under an outer `b`, the first of the two takes that one for its sibling, and the block has
an encoding. -/
theorem encode_sort_twins_captured : (twins.map (·.name)).Nodup ∧
    (Term.letIn twins (.var "a")).hasEmptyApplication = false ∧ TransGen (Depends twins) "a" "a" ∧
    encode (sort (.letIn twins (.var "a"))) [("b", 0)] 1 =
      .ok (.app (.abs (.app (.abs (.var 1)) (.var 0))) (.var 0)) := by
  have hsort : sort (.letIn twins (.var "a")) = .letIn twins (.var "a") := by decide +kernel
  exact ⟨by decide, by decide, depends_twins, by rw [hsort]; rfl⟩

end Definitions
end SugaredLambda
