import SugaredLambda.Proofs.Church.Context
import SugaredLambda.Proofs.Church.Environment
import SugaredLambda.Proofs.Definitions.Scoping

/-! Blocks of the same definitions evaluate alike, whatever order these were written in. -/
namespace SugaredLambda.Definitions
open Church Term Relation
variable {bs bs' : List (Binding Term)} {b : Term}

theorem depends_perm (h : bs.Perm bs') : Depends bs = Depends bs' := by
  ext n m
  simp only [Depends, h.mem_iff, (h.map (·.name)).mem_iff]

/-- A sorted block holds each definition of the block, with a parameter of its own name if it
needs itself. -/
theorem arrange_perm (bs : List (Binding Term)) :
    ((arrange bs).map (·.binding)).Perm (bs.map fun d => (pendingOf [] d).binding) := by
  obtain ⟨ps, hperm, -, harrange⟩ := arrange_eq bs
  rw [harrange, map_binding_placeInTurn]
  exact (hperm.map (·.binding)).trans (.of_eq (List.map_map ..))

theorem arrange_perm_arrange (h : bs.Perm bs') :
    ((arrange bs).map (·.binding)).Perm ((arrange bs').map (·.binding)) :=
  (arrange_perm bs).trans ((h.map _).trans (arrange_perm bs').symm)

theorem nodup_arrange (h : (bs.map (·.name)).Nodup) :
    (((arrange bs).map (·.binding)).map (·.name)).Nodup := by
  refine (((arrange_perm bs).map (·.name)).trans (.of_eq ?_)).nodup_iff.2 h
  rw [List.map_map]
  exact List.map_congr_left fun d _ => (binding_pendingOf [] d).1

theorem evaluate_sort_eq (hdistinct : (bs.map (·.name)).Nodup) (hperm : bs.Perm bs') {l l' : Lambda}
    (h : (sort (.letIn bs b)).encoded = .ok l)
    (h' : (sort (.letIn bs' b)).encoded = .ok l') (N : Nat) :
    (sort (.letIn bs b)).evaluate N = (sort (.letIn bs' b)).evaluate N := by
  have hsorted := arrange_perm_arrange (hperm.map (Binding.map sort))
  have hnames := nodup_arrange ((map_name_map sort bs).symm ▸ hdistinct)
  rw [sort_letIn] at h h' ⊢
  rw [sort_letIn]
  obtain ⟨w, hsteps, hsteps'⟩ := leftmostAfter_perm hsorted hnames h h'
  rw [evaluate_of_encoded h, evaluate_of_encoded h', Lambda.normalize_congr hsteps hsteps' N]

/-- A definition that misses a sibling in another order needs nothing of it, but asks for it. -/
theorem exists_not_acyclic (hacyclic : ∀ n, ¬TransGen (Depends bs) n n)
    (hperm : bs.Perm bs') {l : Lambda} (h : (sort (.letIn bs b)).encoded = .ok l) {x : String}
    (hx : x ∈ (sort (.letIn bs' b)).demanded) :
    x ∈ bs.map (·.name) ∧ ∃ d ∈ bs, ¬d.body.Acyclic := by
  have hnone := demanded_of_encoded h
  have hsorted := arrange_perm_arrange (hperm.map (Binding.map sort))
  rw [sort_letIn] at hx hnone
  have hnot :
      x ∉ (Term.letIn ((arrange (bs.map (Binding.map sort))).map (·.binding)) (sort b)).demanded :=
    hnone ▸ List.not_mem_nil
  rcases mem_demanded_letIn.1
    hx with ⟨before, d', after, hsplit, hbody, hparams, hbefore⟩ | ⟨hb, hnames⟩
  · have hsibling : x ∈ bs.map (·.name) := by
      have hmem : d' ∈ (arrange (bs.map (Binding.map sort))).map (·.binding) :=
        hsorted.mem_iff.2 (hsplit ▸ List.mem_append_right _ List.mem_cons_self)
      obtain ⟨first, rest, hfirst⟩ := List.append_of_mem hmem
      by_contra hnew
      refine hnot (mem_demanded_letIn.2
        (.inl ⟨first, d', rest, hfirst, hbody, hparams, fun hearlier => hnew ?_⟩))
      rw [← map_name_map sort, ← mem_names_arrange, hfirst, List.map_append]
      exact List.mem_append_left _ hearlier
    obtain ⟨d, hd, hasked, -, hneeds⟩ :=
      exists_of_mem_demanded_arrange (depends_perm hperm ▸ hacyclic) hsplit hbody hparams hbefore
    refine ⟨hsibling, d, hperm.mem_iff.2 hd, fun hcyclefree => ?_⟩
    exact hneeds (mem_neededNames_of_mem_demanded hcyclefree hasked)
      ((hperm.map (·.name)).mem_iff.1 hsibling)
  · rw [← (hsorted.map (·.name)).mem_iff] at hnames
    exact absurd (mem_demanded_letIn.2 (.inr ⟨hb, hnames⟩)) hnot

theorem encoded_sort_perm (hacyclic : ∀ n, ¬TransGen (Depends bs) n n)
    (hperm : bs.Perm bs') {l : Lambda} (h : (sort (.letIn bs b)).encoded = .ok l) :
    (∃ l', (sort (.letIn bs' b)).encoded = .ok l') ∨
      ∃ d ∈ bs, ¬d.body.Acyclic ∧ ∃ x ∈ bs.map (·.name),
        (sort (.letIn bs' b)).encoded = .error (.unbound x) := by
  have happ : (Term.letIn bs' b).hasEmptyApplication = false := by
    rw [← (encoded_eq_ok_iff.1 h).1, hasEmptyApplication_sort, hasEmptyApplication_letIn,
      hasEmptyApplication_letIn, hperm.any_eq]
  have hanswers : Answers _ (sort (.letIn bs' b)).encoded := (asks_sort happ).answers [] 0
  generalize hp : (sort (.letIn bs' b)).encoded = p at hanswers
  cases hanswers with
  | found l' => exact .inl ⟨l', rfl⟩
  | unbound x hx =>
    obtain ⟨hsibling, d, hd, hcyclic⟩ := exists_not_acyclic hacyclic hperm h hx.1
    exact .inr ⟨d, hd, hcyclic, x, hsibling, rfl⟩

/-- In another order of its definitions, a program evaluates to the same value or fails with the
same limit. The exception is a definition with a cycle inside, which may take a sibling before it
for one of the cycle: behind it this sibling is missing. -/
theorem evaluate_sort_perm (hdistinct : (bs.map (·.name)).Nodup)
    (hacyclic : ∀ n, ¬TransGen (Depends bs) n n)
    (hencoded : ∃ l, (sort (.letIn bs b)).encoded = .ok l) (hperm : bs.Perm bs') :
    (∀ N, (∃ r, (sort (.letIn bs b)).evaluate N = .ok r ∧
      (sort (.letIn bs' b)).evaluate N = .ok r) ∨
      (sort (.letIn bs b)).evaluate N = .error (.stepLimit N) ∧
        (sort (.letIn bs' b)).evaluate N = .error (.stepLimit N)) ∨
    ∃ d ∈ bs, ¬d.body.Acyclic ∧ ∃ x ∈ bs.map (·.name),
      (sort (.letIn bs' b)).encoded = .error (.unbound x) := by
  obtain ⟨l, hl⟩ := hencoded
  refine (encoded_sort_perm hacyclic hperm hl).imp_left fun ⟨l', hl'⟩ N => ?_
  rw [← evaluate_sort_eq hdistinct hperm hl hl' N]
  exact (evaluate_eq_ok_or hl N).imp (fun ⟨r, hr⟩ => ⟨r, hr, hr⟩) fun herror => ⟨herror, herror⟩

def pair : List (Binding Term) := [⟨"x", [], .nat 2⟩, ⟨"f", ["y"], .tuple [.var "x", .var "y"]⟩]

theorem evaluate_sort_perm_pair :
    (∀ n, ¬TransGen (Depends pair) n n) ∧ ∀ N,
      (∃ r, (sort (.letIn pair (.var "f"))).evaluate N = .ok r ∧
        (sort (.letIn pair.reverse (.var "f"))).evaluate N = .ok r) ∨
      (sort (.letIn pair (.var "f"))).evaluate N = .error (.stepLimit N) ∧
        (sort (.letIn pair.reverse (.var "f"))).evaluate N = .error (.stepLimit N) := by
  have hdepends : ∀ n m, Depends pair n m → n = "f" ∧ m = "x" := by
    rintro n m ⟨d, hd, rfl, hne, hsibling, hfree⟩
    rcases List.mem_pair.1 hd with rfl | rfl <;> rcases List.mem_pair.1 hsibling with rfl | rfl
    · exact absurd rfl hne
    · exact absurd hfree (by decide)
    · exact ⟨rfl, rfl⟩
    · exact absurd rfl hne
  have hacyclic : ∀ n, ¬TransGen (Depends pair) n n := fun n hn => by
    obtain ⟨m, hfirst, -⟩ := TransGen.head'_iff.1 hn
    obtain ⟨k, -, hlast⟩ := TransGen.tail'_iff.1 hn
    exact absurd ((hdepends n m hfirst).1.symm.trans (hdepends k n hlast).2) (by decide)
  have hsort : sort (.letIn pair (.var "f")) = .letIn pair (.var "f") := by decide +kernel
  have hencoded : ∃ l, (sort (.letIn pair (.var "f"))).encoded = .ok l := by
    rw [hsort]
    exact ⟨_, rfl⟩
  have hbodies : ∀ d ∈ pair, d.body.Acyclic := fun d hd => by
    rcases List.mem_pair.1 hd with rfl | rfl
    · exact .nat 2
    · refine .tuple fun t ht => ?_
      rcases List.mem_pair.1 ht with rfl | rfl
      · exact .var "x"
      · exact .var "y"
  refine ⟨hacyclic, (evaluate_sort_perm (by decide) hacyclic hencoded
    (List.reverse_perm pair).symm).resolve_right ?_⟩
  rintro ⟨d, hd, hcyclic, -⟩
  exact hcyclic (hbodies d hd)

/-- A definition, and one with a cycle inside that takes it for its own. -/
def captured : List (Binding Term) := [⟨"b", [], .nat 2⟩, ⟨"c", [], .letIn twins (.var "a")⟩]

/-- The value of `c` is that of `b`, but only behind it. -/
theorem evaluate_sort_captured :
    (captured.map (·.name)).Nodup ∧ (∀ n, ¬TransGen (Depends captured) n n) ∧
    (Term.letIn captured (.var "c")).freeNames = [] ∧ captured.Perm captured.reverse ∧
    (sort (.letIn captured (.var "c"))).evaluate 4 = .ok (.nat 2) ∧
    ∀ N, (sort (.letIn captured.reverse (.var "c"))).evaluate N = .error (.unbound "b") := by
  have hacyclic : ∀ n, ¬TransGen (Depends captured) n n := fun n hn => by
    obtain ⟨m, ⟨d, hd, -, -, -, hfree⟩, -⟩ := TransGen.head'_iff.1 hn
    rcases List.mem_pair.1 hd with rfl | rfl <;> cases hfree
  have hsort : sort (.letIn captured (.var "c")) = .letIn captured (.var "c") := by decide +kernel
  have hsort' : sort (.letIn captured.reverse (.var "c")) = .letIn captured.reverse (.var "c") := by
    decide +kernel
  refine ⟨by decide, hacyclic, rfl, (List.reverse_perm captured).symm, ?_, fun N => ?_⟩
  · rw [hsort]
    exact evaluate_eq_ok_iff.2 ⟨_, _, rfl,
      Lambda.normalize_eq_ok_iff.2 ⟨rfl, 4, Nat.le_refl 4, rfl⟩, by cbv⟩
  · rw [hsort']
    exact evaluate_of_error rfl

end SugaredLambda.Definitions
