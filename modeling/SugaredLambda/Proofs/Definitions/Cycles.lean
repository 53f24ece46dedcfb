import Mathlib.Logic.Function.Iterate
import SugaredLambda.Proofs.Definitions.Permutation

/-! Sorting as a loop of rounds, and what of its order holds whatever cycles there are elsewhere. -/
namespace SugaredLambda.Definitions
open Term Relation

/-- The loop between two rounds: what is in its place, the names of that, and what is pending. -/
structure Loop where
  placed : List Placed
  ready : List String
  pending : List Pending

namespace Loop

/-- A pass, or where it places nothing, the first pending definition. -/
def round (s : Loop) : Loop :=
  match pass s.ready s.pending with
  | ([], p :: left) => ⟨s.placed ++ [p.place s.ready], p.name :: s.ready, left⟩
  | (placed, left) => ⟨s.placed ++ placed, placed.map (·.name) ++ s.ready, left⟩

theorem order_round (s : Loop) :
    s.round.placed ++ order s.round.ready s.round.pending =
      s.placed ++ order s.ready s.pending := by
  obtain ⟨placed, ready, pending⟩ := s
  have hnil (names : List String) : order names [] = [] := by rw [order]; rfl
  fun_cases order ready pending with
  | case1 more h => simp only [round, h, hnil, List.append_nil]
  | case2 p left h => simp only [round, h, List.append_assoc, List.singleton_append]
  | case3 p more left hleft h => simp only [round, h, List.append_assoc]

theorem length_round {s : Loop} (h : s.pending ≠ []) :
    s.round.pending.length < s.pending.length := by
  obtain ⟨placed, ready, pending⟩ := s
  have hlength := length_pass ready pending
  have hpos : 0 < pending.length := List.length_pos_iff.2 h
  fun_cases order ready pending with
  | case1 more hpass =>
    simp only [round, hpass, List.length_nil]
    exact hpos
  | case2 p left hpass =>
    simp only [round, hpass, List.length_nil, List.length_cons] at hlength ⊢
    omega
  | case3 p more left hleft hpass =>
    simp only [round, hpass, List.length_cons] at hlength ⊢
    omega

/-- The loop ends, after no more rounds than there are definitions, with the order. -/
theorem exists_rounds (s : Loop) : ∃ n ≤ s.pending.length, (round^[n] s).pending = [] ∧
    (round^[n] s).placed = s.placed ++ order s.ready s.pending := by
  induction hlength : s.pending.length using Nat.strong_induction_on generalizing s with
  | _ k ih =>
    by_cases hnil : s.pending = []
    · have horder : order s.ready s.pending = [] := by rw [hnil, order]; rfl
      exact ⟨0, Nat.zero_le k, hnil, by rw [horder, List.append_nil]; rfl⟩
    · have hlt := length_round hnil
      obtain ⟨n, hn, hend, hplaced⟩ := ih _ (hlength ▸ hlt) s.round rfl
      exact ⟨n + 1, by omega, hend, hplaced.trans (order_round s)⟩

end Loop

variable {bs : List (Binding Term)} {b : Term}

/-- A definition with its blocks sorted, which takes its own name as its first parameter if it
needs itself. -/
def slotted (d : Binding Term) : Binding Term where
  name := d.name
  params := if d.name ∈ (abs d.params d.body).freeNames then d.name :: d.params else d.params
  body := sort d.body

theorem binding_pendingOf_sort (siblings : List String) (d : Binding Term) :
    (pendingOf siblings (d.map sort)).binding = slotted d := by
  have hself : d.name ∈ (abs d.params (sort d.body)).freeNames ↔
      d.name ∈ (abs d.params d.body).freeNames := by
    simp only [freeNames_eq, mem_namesHiding_abs, mem_namesHiding_sort]
  have hcontains : (abs d.params (sort d.body)).freeNames.contains d.name =
      decide (d.name ∈ (abs d.params d.body).freeNames) := by simp [hself]
  by_cases h : d.name ∈ (abs d.params d.body).freeNames
  · simp only [pendingOf, Binding.map, hcontains, slotted, h, decide_true, ↓reduceIte]
  · simp only [pendingOf, Binding.map, hcontains, slotted, h, decide_false, ↓reduceIte,
      Bool.false_eq_true]

def loopOf (bs : List (Binding Term)) : Loop :=
  ⟨[], [], (bs.map (Binding.map sort)).map (pendingOf (bs.map (·.name)))⟩

theorem arrange_sort_eq (bs : List (Binding Term)) :
    ∃ n ≤ bs.length, (Loop.round^[n] (loopOf bs)).pending = [] ∧
      (Loop.round^[n] (loopOf bs)).placed = arrange (bs.map (Binding.map sort)) := by
  obtain ⟨n, hn, hend, hplaced⟩ := (loopOf bs).exists_rounds
  refine ⟨n, by simpa [loopOf] using hn, hend, hplaced.trans ?_⟩
  rw [arrange, map_name_map]
  rfl

/-- With distinct names, sorting permutes the definitions of a block and gives to each that needs
itself its slot. One from which no cycle of siblings is reached comes behind all those that it
depends on. The loop that places them ends. -/
theorem sort_letIn_of_distinct (hdistinct : (bs.map (·.name)).Nodup) :
    ∃ ds, sort (.letIn bs b) = .letIn ds (sort b) ∧ ds.Perm (bs.map slotted) ∧
    (∀ d ∈ bs, (∀ n, ReflTransGen (Depends bs) d.name n → ¬TransGen (Depends bs) n n) →
      ∃ before after, ds = before ++ slotted d :: after ∧ ∀ m, Depends bs d.name m →
      m ∈ before.map (·.name)) ∧
    ∃ n ≤ bs.length, (Loop.round^[n] (loopOf bs)).pending = [] ∧
      (Loop.round^[n] (loopOf bs)).placed.map (·.binding) = ds := by
  have hperm : ((arrange (bs.map (Binding.map sort))).map (·.binding)).Perm (bs.map slotted) := by
    refine (arrange_perm _).trans (.of_eq ?_)
    rw [List.map_map]
    exact List.map_congr_left fun d _ => binding_pendingOf_sort [] d
  refine ⟨_, sort_letIn bs b, hperm, fun d hd hclear => ?_, ?_⟩
  · obtain ⟨before, after, hsplit⟩ := List.append_of_mem (hperm.mem_iff.2 (List.mem_map_of_mem hd))
    refine ⟨before, after, hsplit, fun m hm => ?_⟩
    rw [← map_name_map sort] at hdistinct
    rw [← depends_sort] at hclear hm
    obtain ⟨e, he, hslot, hneeds⟩ := needs_before hsplit hclear
    rw [← needs_iff_depends] at hm
    obtain ⟨p, hp, hname, hm⟩ := hm
    obtain ⟨e', he', rfl⟩ := List.mem_map.1 hp
    -- names being distinct, the definition that depends on the sibling is the one in this place
    have hsame : e'.name = e.name :=
      hname.trans ((congrArg Binding.name hslot).trans (binding_pendingOf _ e).1)
    obtain rfl : e' = e := List.inj_on_of_nodup_map hdistinct he' he hsame
    exact hneeds m hm
  · obtain ⟨n, hn, hend, hplaced⟩ := arrange_sort_eq bs
    exact ⟨n, hn, hend, congrArg (List.map Placed.binding) hplaced⟩

/-- A definition that needs itself and the last one, around two that need each other. -/
def knotted : List (Binding Term) :=
  [⟨"f", ["n"], .app [.var "f", .var "g", .var "n"]⟩, ⟨"a", [], .var "b"⟩, ⟨"b", [], .var "a"⟩,
    ⟨"g", [], .nat 1⟩]

theorem sort_letIn_of_distinct_knotted :
    let f : Binding Term := ⟨"f", ["n"], .app [.var "f", .var "g", .var "n"]⟩
    (knotted.map (·.name)).Nodup ∧ TransGen (Depends knotted) "a" "a" ∧ f ∈ knotted ∧
    (slotted f).params = ["f", "n"] ∧
    ∃ before after, sort (.letIn knotted (.var "f")) =
      .letIn (before ++ slotted f :: after) (.var "f") ∧ "g" ∈ before.map (·.name) := by
  intro f
  have hdistinct : (knotted.map (·.name)).Nodup := by decide
  have hmem : f ∈ knotted := List.mem_cons_self
  have hedge : ∀ m, Depends knotted "f" m ↔ m = "g" := fun m => by
    constructor
    · rintro ⟨d, hd, hname, hne, hsibling, hfree⟩
      obtain rfl : d = f := List.inj_on_of_nodup_map hdistinct hd hmem hname
      rcases List.mem_cons.1 hsibling with rfl | hsibling
      · exact absurd rfl hne
      · rcases List.mem_cons.1 hsibling with rfl | hsibling
        · exact absurd hfree (by decide)
        · rcases List.mem_pair.1 hsibling with rfl | rfl
          · exact absurd hfree (by decide)
          · rfl
    · rintro rfl
      exact ⟨f, hmem, rfl, by decide, by decide, by decide⟩
  have hsink : ∀ m, ¬Depends knotted "g" m := by
    rintro m ⟨d, hd, hname, -, -, hfree⟩
    obtain rfl : d = ⟨"g", [], .nat 1⟩ :=
      List.inj_on_of_nodup_map hdistinct hd (by simp [knotted]) hname
    cases hfree
  have hend : ∀ n, ReflTransGen (Depends knotted) "g" n → n = "g" := fun n hn => by
    rcases hn.cases_head with rfl | ⟨m, hm, -⟩
    · rfl
    · exact absurd hm (hsink m)
  have hclear : ∀ n, ReflTransGen (Depends knotted) "f" n →
      ¬TransGen (Depends knotted) n n := fun n hn hcycle => by
    obtain ⟨m, hm, hback⟩ := TransGen.head'_iff.1 hcycle
    rcases hn.cases_head with rfl | ⟨k, hk, hrest⟩
    · obtain rfl := (hedge m).1 hm
      exact absurd (hend _ hback) (by decide)
    · obtain rfl := (hedge k).1 hk
      obtain rfl := hend n hrest
      exact hsink m hm
  have hcycle : TransGen (Depends knotted) "a" "a" := by
    refine .tail (.single (b := "b") ⟨⟨"a", [], .var "b"⟩, ?_⟩) ⟨⟨"b", [], .var "a"⟩, ?_⟩ <;>
      simp [knotted] <;> decide
  obtain ⟨ds, hsort, -, hbehind, -⟩ := sort_letIn_of_distinct (b := .var "f") hdistinct
  obtain ⟨before, after, rfl, hneeds⟩ := hbehind f hmem hclear
  exact ⟨hdistinct, hcycle, hmem, by decide, before, after, hsort, hneeds "g" ((hedge "g").2 rfl)⟩

-- the cycle comes last, beginning with the first definition on it
example : (arrange knotted).map (·.name) = ["g", "f", "a", "b"] := by decide +kernel

end SugaredLambda.Definitions
