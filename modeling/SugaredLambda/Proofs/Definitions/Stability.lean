import SugaredLambda.Proofs.Definitions.Permutation

/-! Names become ready while a pass goes on, so that a later definition may overtake one with the
same needs. -/
namespace SugaredLambda.Definitions
open Term Relation List

section
variable {α : Type} {x y z : α} {xs ys zs : List α}

theorem pair_sublist_append :
    [x, y] <+ xs ++ ys ↔ [x, y] <+ xs ∨ x ∈ xs ∧ y ∈ ys ∨ [x, y] <+ ys := by
  constructor
  · intro h
    obtain ⟨first, last, hpair, hfirst, hlast⟩ := sublist_append_iff.1 h
    match first, hpair with
    | [], hpair => exact .inr (.inr (hpair ▸ hlast))
    | [_], hpair =>
      obtain ⟨rfl, rfl⟩ := cons.inj hpair
      exact .inr (.inl ⟨singleton_sublist.1 hfirst, singleton_sublist.1 hlast⟩)
    | [_, _], hpair =>
      obtain ⟨rfl, hrest⟩ := cons.inj hpair
      obtain ⟨rfl, -⟩ := cons.inj hrest
      exact .inl hfirst
    | _ :: _ :: _ :: _, hpair => simp at hpair
  · rintro (h | ⟨hx, hy⟩ | h)
    · exact h.trans (sublist_append_left xs ys)
    · exact (singleton_sublist.2 hx).append (singleton_sublist.2 hy)
    · exact h.trans (sublist_append_right xs ys)

theorem pair_sublist_of_nodup_left (h : (xs ++ y :: ys).Nodup) :
    [x, y] <+ xs ++ y :: ys ↔ x ∈ xs := by
  rw [pair_sublist_append]
  grind

theorem pair_sublist_of_nodup_right (h : (xs ++ x :: ys).Nodup) :
    [x, y] <+ xs ++ x :: ys ↔ y ∈ ys := by
  rw [pair_sublist_append]
  grind

theorem exists_of_pair_sublist (h : [x, y] <+ zs) :
    ∃ as bs cs, zs = as ++ x :: (bs ++ y :: cs) := by
  obtain ⟨first, last, rfl, hx, hlast⟩ := cons_sublist_iff.1 h
  obtain ⟨as, before, rfl⟩ := append_of_mem hx
  obtain ⟨behind, cs, rfl⟩ := append_of_mem (singleton_sublist.1 hlast)
  exact ⟨as, before ++ behind, cs, by simp⟩

theorem triple_sublist_of_nodup (h : (xs ++ x :: (ys ++ y :: zs)).Nodup) :
    [x, z, y] <+ xs ++ x :: (ys ++ y :: zs) ↔ z ∈ ys := by
  constructor
  · intro hsub
    have hleft : z ∈ ys ++ y :: zs := (pair_sublist_of_nodup_right h).1 (.trans (by simp) hsub)
    rw [← cons_append, ← append_assoc] at h hsub
    have hright : z ∈ xs ++ x :: ys := (pair_sublist_of_nodup_left h).1 (.trans (by simp) hsub)
    grind
  · intro hz
    have hbetween : [z, y] <+ ys ++ y :: zs :=
      (singleton_sublist.2 hz).append (singleton_sublist.2 mem_cons_self)
    exact (hbetween.cons_cons x).trans (sublist_append_right xs _)

theorem pair_sublist_or (hx : x ∈ zs) (hy : y ∈ zs) (hne : x ≠ y) :
    [x, y] <+ zs ∨ [y, x] <+ zs := by
  obtain ⟨before, behind, rfl⟩ := append_of_mem hx
  rcases mem_append.1 hy with hy | hy
  · exact .inr ((singleton_sublist.2 hy).append (singleton_sublist.2 mem_cons_self))
  · refine .inl (pair_sublist_append.2 (.inr (.inr (.cons_cons x (singleton_sublist.2 ?_)))))
    exact (mem_cons.1 hy).resolve_left hne.symm

theorem not_pair_sublist (h : zs.Nodup) (hpair : [x, y] <+ zs) : ¬[y, x] <+ zs := by
  obtain ⟨as, bs, cs, rfl⟩ := exists_of_pair_sublist hpair
  rw [pair_sublist_of_nodup_left h]
  grind

theorem exists_last {p : α → Prop} (h : ∃ x ∈ zs, p x) :
    ∃ before x behind, zs = before ++ x :: behind ∧ p x ∧ ∀ y ∈ behind, ¬p y := by
  obtain ⟨behind, x, before, hsplit, hx, hbehind⟩ :=
    exists_first (l := zs.reverse) (p := p) (by simpa using h)
  refine ⟨before.reverse, x, behind.reverse, ?_, hx, by simpa using hbehind⟩
  rw [← zs.reverse_reverse, hsplit]
  simp

end

section
variable {ready ready' : List String} {p q : Pending} {A B C : List Pending}

theorem pass_congr (h : ∀ x, x ∈ ready ↔ x ∈ ready') (ps : List Pending) :
    pass ready ps = pass ready' ps := by
  induction ps generalizing ready ready' with
  | nil => rfl
  | cons p ps ih =>
    have hplace : p.place ready = p.place ready' := by simp only [Pending.place, contains_eq_mem, h]
    have hready : ∀ x, x ∈ p.name :: ready ↔ x ∈ p.name :: ready' := fun x => by
      simp only [mem_cons, h]
    rw [pass, pass, hplace, ih hready, ih h]

def namesPlaced (ready : List String) (ps : List Pending) : List String :=
  (pass ready ps).1.map (·.name)

def leftOver (ready : List String) (ps : List Pending) : List Pending := (pass ready ps).2

theorem pass_cons_of_subset (h : p.needs ⊆ ready) (ps : List Pending) :
    namesPlaced ready (p :: ps) = p.name :: namesPlaced (p.name :: ready) ps ∧
      leftOver ready (p :: ps) = leftOver (p.name :: ready) ps := by
  rw [namesPlaced, leftOver, pass, if_pos (List.isEmpty_iff.2 (missing_place.2 h))]
  exact ⟨rfl, rfl⟩

theorem pass_cons_of_not_subset (h : ¬p.needs ⊆ ready) (ps : List Pending) :
    namesPlaced ready (p :: ps) = namesPlaced ready ps ∧
    leftOver ready (p :: ps) = p :: leftOver ready ps := by
  rw [namesPlaced, leftOver, pass, if_neg (mt List.isEmpty_iff.1 (mt missing_place.1 h))]
  exact ⟨rfl, rfl⟩

theorem pass_append (ready : List String) (ps qs : List Pending) :
    namesPlaced ready (ps ++ qs) =
      namesPlaced ready ps ++ namesPlaced (namesPlaced ready ps ++ ready) qs ∧
      leftOver ready (ps ++ qs) =
        leftOver ready ps ++ leftOver (namesPlaced ready ps ++ ready) qs := by
  induction ps generalizing ready with
  | nil => exact ⟨rfl, rfl⟩
  | cons p ps ih =>
    by_cases h : p.needs ⊆ ready
    · obtain ⟨hplaced, hleft⟩ := ih (p.name :: ready)
      have hready : ∀ x, x ∈ namesPlaced (p.name :: ready) ps ++ p.name :: ready ↔
          x ∈ p.name :: namesPlaced (p.name :: ready) ps ++ ready := fun x => by simp [or_left_comm]
      have hpass := pass_congr hready qs
      rw [cons_append, (pass_cons_of_subset h _).1, (pass_cons_of_subset h _).2,
        (pass_cons_of_subset h ps).1, (pass_cons_of_subset h ps).2, hplaced, hleft]
      simp only [namesPlaced, leftOver] at hpass ⊢
      rw [hpass]
      exact ⟨rfl, rfl⟩
    · obtain ⟨hplaced, hleft⟩ := ih ready
      rw [cons_append, (pass_cons_of_not_subset h _).1, (pass_cons_of_not_subset h _).2,
        (pass_cons_of_not_subset h ps).1, (pass_cons_of_not_subset h ps).2, hplaced, hleft]
      exact ⟨rfl, rfl⟩

theorem leftOver_sublist (ready : List String) (ps : List Pending) : leftOver ready ps <+ ps := by
  induction ps generalizing ready with
  | nil => exact .slnil
  | cons p ps ih =>
    by_cases h : p.needs ⊆ ready
    · rw [(pass_cons_of_subset h ps).2]
      exact (ih _).cons p
    · rw [(pass_cons_of_not_subset h ps).2]
      exact (ih ready).cons_cons p

theorem perm_pass (ready : List String) (ps : List Pending) :
    (namesPlaced ready ps ++ (leftOver ready ps).map (·.name)).Perm (ps.map (·.name)) := by
  obtain ⟨qs, hplaced, hperm⟩ := pass_eq ready ps
  have hnames : namesPlaced ready ps = qs.map (·.name) := by
    rw [namesPlaced, hplaced, map_name_placeInTurn]
  rw [hnames, leftOver, ← map_append]
  exact hperm.map _

theorem namesPlaced_subset (ready : List String) (ps : List Pending) :
    namesPlaced ready ps ⊆ ps.map (·.name) :=
  fun _ hx => (perm_pass ready ps).subset (mem_append_left _ hx)

/-- What becomes of two definitions with the same needs in one pass: the earlier one is placed, or
it is left and what stands between them makes the later one ready, or both are left. -/
theorem pass_cases (hsame : ∀ x, x ∈ p.needs ↔ x ∈ q.needs) (ready : List String)
    (A B C : List Pending) :
    let first := namesPlaced ready A
    let between := namesPlaced (first ++ ready) B
    let pending := A ++ p :: (B ++ q :: C)
    (p.needs ⊆ first ++ ready ∧ ∃ later, namesPlaced ready pending = first ++ p.name :: later) ∨
    (¬p.needs ⊆ first ++ ready ∧ p.needs ⊆ between ++ (first ++ ready) ∧
      (∃ later, namesPlaced ready pending = first ++ (between ++ q.name :: later)) ∧
      p ∈ leftOver ready pending) ∨
    (¬p.needs ⊆ between ++ (first ++ ready) ∧ ∃ later,
      namesPlaced ready pending = first ++ (between ++ later) ∧
      ∃ A' C', leftOver ready pending = A' ++ p :: (leftOver (first ++ ready) B ++ q :: C')) := by
  intro first between pending
  have hsub : ∀ names, p.needs ⊆ names ↔ q.needs ⊆ names := fun names => by
    simp only [subset_def, hsame]
  by_cases hp : p.needs ⊆ first ++ ready
  · refine .inl ⟨hp, namesPlaced (p.name :: (first ++ ready)) (B ++ q :: C), ?_⟩
    rw [(pass_append ready A _).1, (pass_cons_of_subset hp _).1]
  have hpending : namesPlaced ready pending = first ++ namesPlaced (first ++ ready) (B ++ q :: C) ∧
      leftOver ready pending = leftOver ready A ++
        p :: leftOver (first ++ ready) (B ++ q :: C) := by
    rw [(pass_append ready A _).1, (pass_append ready A _).2, (pass_cons_of_not_subset hp _).1,
      (pass_cons_of_not_subset hp _).2]
    exact ⟨rfl, rfl⟩
  rw [hpending.1, hpending.2, (pass_append _ B _).1, (pass_append _ B _).2]
  by_cases hq : q.needs ⊆ between ++ (first ++ ready)
  · refine .inr (.inl ⟨hp, (hsub _).2 hq,
      ⟨namesPlaced (q.name :: (between ++ (first ++ ready))) C, ?_⟩, by simp⟩)
    rw [(pass_cons_of_subset hq C).1]
  · refine .inr (.inr ⟨mt (hsub _).1 hq, namesPlaced (between ++ (first ++ ready)) C, ?_,
      leftOver ready A, leftOver (between ++ (first ++ ready)) C, ?_⟩)
    · rw [(pass_cons_of_not_subset hq C).1]
    · rw [(pass_cons_of_not_subset hq C).2]

end

section
variable {ready : List String} {p q : Pending} {A B C pending : List Pending}

def namesInOrder (ready : List String) (pending : List Pending) : List String :=
  (order ready pending).map (·.name)

theorem perm_namesInOrder (ready : List String) (pending : List Pending) :
    (namesInOrder ready pending).Perm (pending.map (·.name)) := by
  obtain ⟨ps, hperm, -, horder⟩ := order_eq ready pending
  rw [namesInOrder, horder, map_name_placeInTurn]
  exact hperm.map _

theorem order_cases (ready : List String) (hne : pending ≠ []) :
    (namesPlaced ready pending ≠ [] ∧ order ready pending =
      (pass ready pending).1 ++
        order (namesPlaced ready pending ++ ready) (leftOver ready pending)) ∨
    ∃ p left, pending = p :: left ∧ ¬p.needs ⊆ ready ∧
      order ready pending = p.place ready :: order (p.name :: ready) left := by
  have hlength := length_pass ready pending
  have hnil (names : List String) : order names [] = [] := by rw [order]; rfl
  fun_cases order ready pending with
  | case1 placed h =>
    refine .inl ⟨fun hnone => hne ?_, by simp only [namesPlaced, leftOver, h, hnil, append_nil]⟩
    rw [namesPlaced, map_eq_nil_iff] at hnone
    rw [hnone, h] at hlength
    exact eq_nil_of_length_eq_zero hlength.symm
  | case2 p left h =>
    have hstuck := pass_eq_nil.1 (congrArg Prod.fst h)
    rw [pass_of_missing hstuck] at h
    obtain rfl : pending = p :: left := congrArg Prod.snd h
    exact .inr ⟨p, left, rfl, hstuck p mem_cons_self, rfl⟩
  | case3 p placed left hleft h => exact .inl (by simp [namesPlaced, leftOver, h])

/-- Ready before a list of names begins, or before another name in it. -/
def Earlier (ready names : List String) (k m : String) : Prop := k ∈ ready ∨ [k, m] <+ names

theorem earlier_append {first later : List String} {k m : String} (hfirst : m ∉ first)
    (hlater : m ∈ later) :
    Earlier ready (first ++ later) k m ↔ Earlier (first ++ ready) later k m := by
  have hnot : ¬[k, m] <+ first := fun h => hfirst (h.subset (by simp))
  rw [Earlier, Earlier, pair_sublist_append, mem_append]
  grind

/-- What a definition needs that comes behind all else that it needs. -/
def LastNeed (p : Pending) (ready names : List String) (m : String) : Prop :=
  m ∈ p.needs ∧ ∀ k ∈ p.needs, k = m ∨ Earlier ready names k m

theorem lastNeed_append {first later : List String} {m : String} (hfirst : m ∉ first)
    (hlater : m ∈ later) :
    LastNeed p ready (first ++ later) m ↔ LastNeed p (first ++ ready) later m :=
  and_congr_right fun _ => forall₂_congr fun _ _ => or_congr_right (earlier_append hfirst hlater)

section
variable {first between later last : List String}

theorem LastNeed.subset {m : String} (h : LastNeed p ready (first ++ last) m)
    (hdistinct : (first ++ last).Nodup) (hm : m ∈ first) : p.needs ⊆ first ++ ready := by
  intro k hk
  obtain ⟨before, behind, rfl⟩ := append_of_mem hm
  rw [append_assoc, cons_append] at h hdistinct
  rcases h.2 k hk with rfl | hready | hpair
  · simp
  · exact mem_append_right _ hready
  · have hbefore := (pair_sublist_of_nodup_left hdistinct).1 hpair
    simp [hbefore]

theorem swapped_iff_of_placed (hdistinct : (first ++ p.name :: last).Nodup) (hq : q.name ∉ first)
    (hneeds : p.needs ⊆ first ++ ready) (hbetween : ∀ m ∈ between, m ∉ first ++ ready) :
    [q.name, p.name] <+ first ++ p.name :: last ↔
      ∃ m ∈ between, LastNeed p ready (first ++ p.name :: last) m := by
  rw [pair_sublist_of_nodup_left hdistinct]
  exact iff_of_false hq fun ⟨m, hm, hlast⟩ => hbetween m hm (hneeds hlast.1)

theorem swapped_iff_of_ready {placed : List String} (hnot : ¬p.needs ⊆ first ++ ready)
    (hneeds : p.needs ⊆ placed ++ (first ++ ready)) (hplaced : placed ⊆ between)
    (hp : p.name ∈ last) :
    [q.name, p.name] <+ first ++ (placed ++ q.name :: later) ++ last ↔
      ∃ m ∈ between, LastNeed p ready (first ++ (placed ++ q.name :: later) ++ last) m := by
  have hswapped : [q.name, p.name] <+ first ++ (placed ++ q.name :: later) ++ last :=
    pair_sublist_append.2 (.inr (.inl ⟨by simp, hp⟩))
  refine iff_of_true hswapped ?_
  obtain ⟨k, hk, hlate⟩ : ∃ k ∈ p.needs, k ∉ first ++ ready := by
    simpa only [subset_def, not_forall, exists_prop] using hnot
  have hkplaced := (mem_append.1 (hneeds hk)).resolve_right hlate
  obtain ⟨before, m, behind, rfl, hm, hbehind⟩ := exists_last (p := (· ∈ p.needs)) ⟨k, hkplaced, hk⟩
  refine ⟨m, hplaced (by simp), hm, fun x hx => ?_⟩
  have hx' := hneeds hx
  simp only [mem_append, mem_cons] at hx'
  rcases hx' with (hbefore | rfl | hx') | hfirst | hready
  · refine .inr (.inr ?_)
    simp only [append_assoc, cons_append]
    exact pair_sublist_append.2
      (.inr (.inr (pair_sublist_append.2 (.inr (.inl ⟨hbefore, by simp⟩)))))
  · exact .inl rfl
  · exact absurd hx (hbehind x hx')
  · exact .inr (.inr
      (by simpa only [append_assoc] using pair_sublist_append.2 (.inr (.inl ⟨hfirst, by simp⟩))))
  · exact .inr (.inl hready)

theorem swapped_iff_behind {between' : List String} (hq : q.name ∉ first)
    (hsub : between' ⊆ between)
    (hbetween : ∀ m ∈ between, LastNeed p ready (first ++ last) m → m ∈ between')
    (hlast : ∀ m ∈ between', m ∉ first ∧ m ∈ last)
    (h : [q.name, p.name] <+ last ↔ ∃ m ∈ between', LastNeed p (first ++ ready) last m) :
    [q.name, p.name] <+ first ++ last ↔ ∃ m ∈ between, LastNeed p ready (first ++ last) m := by
  have hnot : ¬[q.name, p.name] <+ first := fun h => hq (h.subset mem_cons_self)
  rw [pair_sublist_append, or_iff_right hnot, or_iff_right fun h => hq h.1, h]
  constructor
  · rintro ⟨m, hm, hneed⟩
    exact ⟨m, hsub hm, (lastNeed_append (hlast m hm).1 (hlast m hm).2).2 hneed⟩
  · rintro ⟨m, hm, hneed⟩
    have hm := hbetween m hm hneed
    exact ⟨m, hm, (lastNeed_append (hlast m hm).1 (hlast m hm).2).1 hneed⟩

end

/-- After a pass, two definitions with the same needs have changed places, or they have not, or they
are left with what is left between them. -/
theorem swapped_iff_of_pass (hsame : ∀ x, x ∈ p.needs ↔ x ∈ q.needs)
    (hpending : pending = A ++ p :: (B ++ q :: C)) (hdistinct : (pending.map (·.name)).Nodup)
    (hready : ∀ x ∈ pending.map (·.name), x ∉ ready) {last : List String}
    (hlast : last.Perm ((leftOver ready pending).map (·.name)))
    (h : ∀ A' B' C', leftOver ready pending = A' ++ p :: (B' ++ q :: C') →
      ([q.name, p.name] <+ last ↔
      ∃ m ∈ B'.map (·.name), LastNeed p (namesPlaced ready pending ++ ready) last m)) :
    [q.name, p.name] <+ namesPlaced ready pending ++ last ↔
      ∃ m ∈ B.map (·.name), LastNeed p ready (namesPlaced ready pending ++ last) m := by
  have hpass := perm_pass ready pending
  have hnodup : (namesPlaced ready pending ++ last).Nodup :=
    ((hlast.append_left _).trans hpass).nodup_iff.2 hdistinct
  have hleave : ∀ d ∈ leftOver ready pending, d.name ∉ namesPlaced ready pending ∧
      d.name ∈ last := fun d hd => by
    have hmem : d.name ∈ last := hlast.mem_iff.2 (mem_map_of_mem hd)
    exact ⟨fun hplaced => disjoint_of_nodup_append hnodup hplaced hmem, hmem⟩
  have hcases := pass_cases hsame ready A B C
  rw [← hpending] at hcases
  rcases hcases with ⟨hneeds, later, hlater⟩ | ⟨hnot, hneeds, ⟨later, hlater⟩, hleft⟩ |
    ⟨hnot, later, hlater, A', C', hleft⟩
  · have hfirst := namesPlaced_subset ready A
    rw [hpending, map_append, nodup_append] at hdistinct
    have hbehind : ∀ m ∈ (p :: (B ++ q :: C)).map (·.name), m ∉ namesPlaced ready A := fun m hm h =>
      hdistinct.2.2 m (hfirst h) m hm rfl
    rw [hlater, append_assoc, cons_append] at hnodup ⊢
    refine swapped_iff_of_placed hnodup (hbehind _ (by simp)) hneeds fun m hm => ?_
    have hm' : m ∈ (p :: (B ++ q :: C)).map (·.name) := by
      simp only [map_cons, map_append, mem_cons, mem_append, hm, true_or, or_true]
    have hmem : m ∈ pending.map (·.name) := by
      rw [hpending, map_append]
      exact mem_append_right _ hm'
    exact not_mem_append (hbehind m hm') (hready m hmem)
  · rw [hlater]
    exact swapped_iff_of_ready hnot hneeds (namesPlaced_subset _ B) (hleave p hleft).2
  · have hbetween := perm_pass (namesPlaced ready A ++ ready) B
    refine swapped_iff_behind (hleave q (by simp [hleft])).1
      ((leftOver_sublist _ B).map _).subset (fun m hm hneed => ?_) (fun m hm => ?_) (h _ _ _ hleft)
    · refine (mem_append.1 (hbetween.mem_iff.2 hm)).resolve_left fun hm => hnot ?_
      rw [hlater, ← append_assoc, append_assoc] at hneed hnodup
      have hneeds := hneed.subset hnodup (mem_append_right _ hm)
      exact fun k hk => by simpa only [mem_append, or_assoc, or_left_comm] using hneeds hk
    · obtain ⟨d, hd, rfl⟩ := mem_map.1 hm
      exact hleave d (by simp [hleft, hd])

theorem swapped_iff_of_forced {d : Pending} {last : List String}
    (hother : ∀ e ∈ A ++ p :: (B ++ q :: C), e.name ≠ d.name)
    (hlast : last.Perm ((A ++ p :: (B ++ q :: C)).map (·.name)))
    (h : [q.name, p.name] <+ last ↔ ∃ m ∈ B.map (·.name), LastNeed p (d.name :: ready) last m) :
    [q.name, p.name] <+ [d.name] ++ last ↔
      ∃ m ∈ B.map (·.name), LastNeed p ready ([d.name] ++ last) m := by
  refine swapped_iff_behind (fun h => hother q (by simp) (mem_singleton.1 h))
    (Subset.refl _) (fun m hm _ => hm) (fun m hm => ?_) h
  obtain ⟨e, he, rfl⟩ := mem_map.1 hm
  have hmem : e ∈ A ++ p :: (B ++ q :: C) := by simp [he]
  exact ⟨fun h => hother e hmem (mem_singleton.1 h), hlast.mem_iff.2 (mem_map_of_mem hmem)⟩

/-- Two definitions with the same needs change places just where the last of these stands
between them. -/
theorem swapped_iff (hsame : ∀ x, x ∈ p.needs ↔ x ∈ q.needs)
    (hdistinct : ((A ++ p :: (B ++ q :: C)).map (·.name)).Nodup)
    (hready : ∀ x ∈ (A ++ p :: (B ++ q :: C)).map (·.name), x ∉ ready)
    (hplaced : ∀ x ∈ order ready (A ++ p :: (B ++ q :: C)), x.name = p.name → x.missing = []) :
    [q.name, p.name] <+ namesInOrder ready (A ++ p :: (B ++ q :: C)) ↔
      ∃ m ∈ B.map (·.name), LastNeed p ready (namesInOrder ready (A ++ p :: (B ++ q :: C))) m := by
  -- on the number of definitions: a pass leaves fewer, or else the first one is placed alone
  induction hn : (A ++ p :: (B ++ q :: C)).length using Nat.strong_induction_on
      generalizing ready A B C with
  | _ n ih =>
    rcases order_cases ready (by simp : A ++ p :: (B ++ q :: C) ≠ []) with
      ⟨hsome, horder⟩ | ⟨d, left, hd, hstuck, horder⟩
    · generalize hpending : A ++ p :: (B ++ q :: C) = pending at *
      have hperm := perm_pass ready pending
      have hsub := leftOver_sublist ready pending
      have hlength : (leftOver ready pending).length < n := by
        have hpos := length_pos_iff.2 hsome
        have hsum := hperm.length_eq
        simp only [length_append, length_map] at hsum
        omega
      have hnew := disjoint_of_nodup_append (hperm.nodup_iff.2 hdistinct)
      rw [namesInOrder, horder, map_append]
      refine swapped_iff_of_pass hsame hpending.symm hdistinct hready
        (perm_namesInOrder _ _) fun A' B' C' hleft => ?_
      rw [horder] at hplaced
      rw [hleft] at hlength hsub hnew hplaced ⊢
      refine ih _ hlength (hdistinct.sublist (hsub.map _)) (fun x hx => ?_) (fun x hx => ?_) rfl
      · exact not_mem_append (fun h => hnew h hx) (hready x ((hsub.map _).subset hx))
      · exact hplaced x (mem_append_right _ hx)
    · -- the first definition is placed without what it misses, and so is not one of the two
      have hsplit : namesInOrder ready (A ++ p :: (B ++ q :: C)) =
          [d.name] ++ namesInOrder (d.name :: ready) left := by
        rw [namesInOrder, horder, map_cons]
        rfl
      rw [horder] at hplaced
      cases A with
      | nil =>
        obtain ⟨rfl, -⟩ := cons.inj hd
        exact absurd (missing_place.1 (hplaced _ mem_cons_self rfl)) hstuck
      | cons a A =>
        obtain ⟨rfl, rfl⟩ := cons.inj hd
        rw [cons_append, map_cons, nodup_cons] at hdistinct
        obtain ⟨hnew, hrest⟩ := hdistinct
        have hother : ∀ e ∈ A ++ p :: (B ++ q :: C), e.name ≠ a.name :=
          fun e he h => hnew (h ▸ mem_map_of_mem he)
        rw [hsplit]
        refine swapped_iff_of_forced hother (perm_namesInOrder _ _)
          (ih _ ?_ hrest (fun x hx => ?_) (fun x hx => ?_) rfl)
        · rw [← hn, cons_append, length_cons]
          exact Nat.lt_succ_self _
        · exact not_mem_cons_of_ne_of_not_mem (fun h => hnew (h ▸ hx))
            (hready x (mem_cons_of_mem _ hx))
        · exact hplaced x (mem_cons_of_mem _ hx)

end

section
variable {bs : List (Binding Term)} {b : Term} {d e : Binding Term}

theorem map_name_arrange (bs : List (Binding Term)) :
    ((arrange bs).map (·.binding)).map (·.name) =
      namesInOrder [] (bs.map (pendingOf (bs.map (·.name)))) := by
  obtain ⟨ps, hperm, -, harrange⟩ := arrange_eq bs
  rw [namesInOrder, ← arrange, harrange, map_binding_placeInTurn, map_name_placeInTurn,
    map_name_binding (exists_pendingOf hperm)]

theorem mem_needs_iff_depends (hdistinct : (bs.map (·.name)).Nodup) (hd : d ∈ bs) {m : String} :
    m ∈ (pendingOf (bs.map (·.name)) d).needs ↔ Depends bs d.name m := by
  rw [← needs_iff_depends]
  refine ⟨fun hm => ⟨_, mem_map_of_mem hd, rfl, hm⟩, ?_⟩
  rintro ⟨p, hp, hname, hm⟩
  obtain ⟨d', hd', rfl⟩ := mem_map.1 hp
  obtain rfl : d' = d := inj_on_of_nodup_map hdistinct hd' hd hname
  exact hm

theorem exists_of_mem_placeInTurn {ready : List String} {ps : List Pending} {x : Placed}
    (hx : x ∈ placeInTurn ready ps) :
    ∃ before p after, ps = before ++ p :: after ∧ p.name = x.name ∧
      (p.needs ⊆ before.map (·.name) ++ ready → x.missing = []) := by
  induction ps generalizing ready with
  | nil => exact absurd hx not_mem_nil
  | cons p ps ih =>
    rcases mem_cons.1 hx with rfl | hx
    · exact ⟨[], p, ps, rfl, rfl, missing_place.2⟩
    · obtain ⟨before, q, after, rfl, hname, hmissing⟩ := ih hx
      refine ⟨p :: before, q, after, rfl, hname, fun hsub => hmissing fun k hk => ?_⟩
      simpa [or_left_comm] using hsub hk

theorem missing_arrange
    (hclear : ∀ n, ReflTransGen (Depends bs) d.name n → ¬TransGen (Depends bs) n n) :
    ∀ x ∈ arrange bs, x.name = d.name → x.missing = [] := by
  obtain ⟨ps, hperm, hinOrder, harrange⟩ := arrange_eq bs
  intro x hx hname
  rw [harrange] at hx
  obtain ⟨before, p, after, rfl, hname', hmissing⟩ := exists_of_mem_placeInTurn hx
  rw [← hname, ← hname', ← needs_iff_depends] at hclear
  refine hmissing fun k hk => ?_
  rw [append_nil]
  exact needs_of_inOrder hperm hinOrder mem_siblings_of_needs hclear k hk

/-- The sibling that a definition depends on and that stands behind all others it depends on, in a
list of names. -/
def LastDependency (bs : List (Binding Term)) (names : List String) (n m : String) : Prop :=
  Depends bs n m ∧ ∀ k, Depends bs n k → k = m ∨ [k, m] <+ names

theorem swapped_arrange_iff (hdistinct : (bs.map (·.name)).Nodup) (hsource : [d, e] <+ bs)
    (hclear : ∀ n, ReflTransGen (Depends bs) d.name n → ¬TransGen (Depends bs) n n)
    (hsame : ∀ m, Depends bs d.name m ↔ Depends bs e.name m) :
    [e.name, d.name] <+ ((arrange bs).map (·.binding)).map (·.name) ↔
      ∃ m, LastDependency bs (((arrange bs).map (·.binding)).map (·.name)) d.name m ∧
        [d.name, m, e.name] <+ bs.map (·.name) := by
  have hneeds : ∀ m, m ∈ (pendingOf (bs.map (·.name)) d).needs ↔ Depends bs d.name m := fun m =>
    mem_needs_iff_depends hdistinct (hsource.subset (by simp))
  have hneeds' : ∀ m, m ∈ (pendingOf (bs.map (·.name)) e).needs ↔ Depends bs e.name m := fun m =>
    mem_needs_iff_depends hdistinct (hsource.subset (by simp))
  have hmissing := missing_arrange hclear
  have hname : ∀ x, (pendingOf (bs.map (·.name)) x).name = x.name := fun _ => rfl
  rw [map_name_arrange]
  rw [arrange] at hmissing
  generalize pendingOf (bs.map (·.name)) = f at *
  obtain ⟨as, mid, cs, hbs⟩ := exists_of_pair_sublist hsource
  have hpending : bs.map f = as.map f ++ f d :: (mid.map f ++ f e :: cs.map f) := by simp [hbs]
  have hnames (xs : List (Binding Term)) : (xs.map f).map (·.name) = xs.map (·.name) := by
    rw [List.map_map]
    exact map_congr_left fun x _ => hname x
  have hsplit : bs.map (·.name) =
      as.map (·.name) ++ d.name :: (mid.map (·.name) ++ e.name :: cs.map (·.name)) := by
    simp [hbs]
  have hneed : ∀ m, m ∈ (f d).needs ↔ m ∈ (f e).needs :=
    fun m => (hneeds m).trans ((hsame m).trans (hneeds' m).symm)
  have hswapped := swapped_iff (A := as.map f) (B := mid.map f) (C := cs.map f) hneed
    (by rwa [← hpending, hnames]) (fun x _ => (not_mem_nil : x ∉ [])) (by rwa [← hpending, hname])
  rw [← hpending, hname, hname, hnames] at hswapped
  rw [hswapped]
  refine exists_congr fun m => and_comm.trans (and_congr ?_ ?_)
  · simp only [LastNeed, LastDependency, Earlier, hneeds, not_mem_nil, false_or]
  · rw [hsplit] at hdistinct ⊢
    exact (triple_sublist_of_nodup hdistinct).symm

/-- Two definitions that depend on the same siblings, and reach no cycle, keep their order just
where the sibling among these that comes last in the sorted block does not stand between them in
the source. -/
theorem sublist_sort_letIn_iff (hdistinct : (bs.map (·.name)).Nodup) (hsource : [d, e] <+ bs)
    (hclear : ∀ n, ReflTransGen (Depends bs) d.name n → ¬TransGen (Depends bs) n n)
    (hsame : ∀ m, Depends bs d.name m ↔ Depends bs e.name m) :
    ∃ ds, sort (.letIn bs b) = .letIn ds (sort b) ∧ ([d.name, e.name] <+ ds.map (·.name) ↔
        ¬∃ m, LastDependency bs (ds.map (·.name)) d.name m ∧
        [d.name, m, e.name] <+ bs.map (·.name)) := by
  have hsorted : ((bs.map (Binding.map sort)).map (·.name)).Nodup :=
    (map_name_map sort bs).symm ▸ hdistinct
  have hswapped := swapped_arrange_iff hsorted (hsource.map (Binding.map sort))
    ((depends_sort bs).symm ▸ hclear) ((depends_sort bs).symm ▸ hsame)
  have hnodup := nodup_arrange hsorted
  have hmem : ∀ c ∈ bs, c.name ∈ ((arrange (bs.map (Binding.map sort))).map (·.binding)).map
      (·.name) := fun c hc => by
    rw [mem_names_arrange, map_name_map]
    exact mem_map_of_mem hc
  have hne : d.name ≠ e.name := by
    simpa using (hsource.map (·.name)).nodup hdistinct
  simp only [LastDependency, map_name_map, depends_sort] at hswapped
  have hkept := Iff.intro (not_pair_sublist hnodup)
    (pair_sublist_or (hmem d (hsource.subset (by simp)))
      (hmem e (hsource.subset (by simp))) hne).resolve_right
  exact ⟨_, sort_letIn bs b, hkept.trans (not_congr hswapped)⟩

theorem not_transGen_of_disjoint {ns ms : List String}
    (hdepends : ∀ n m, Depends bs n m ↔ n ∈ ns ∧ m ∈ ms) (hdisjoint : ∀ n ∈ ns, n ∉ ms)
    (n : String) : ¬TransGen (Depends bs) n n := fun hcycle => by
  obtain ⟨m, hfirst, -⟩ := TransGen.head'_iff.1 hcycle
  obtain ⟨k, -, hlast⟩ := TransGen.tail'_iff.1 hcycle
  exact hdisjoint n ((hdepends n m).1 hfirst).1 ((hdepends k n).1 hlast).2

def interleaved : List (Binding Term) :=
  [⟨"a", [], .tuple [.var "x", .var "y"]⟩, ⟨"x", [], .nat 1⟩,
    ⟨"b", [], .tuple [.var "y", .var "x"]⟩, ⟨"y", [], .nat 2⟩]

theorem depends_interleaved (n m : String) :
    Depends interleaved n m ↔ n ∈ ["a", "b"] ∧ m ∈ ["x", "y"] := by
  constructor
  · rintro ⟨d, hd, rfl, hne, hsibling, hfree⟩
    have hall : ∀ d ∈ interleaved, ∀ m ∈ interleaved.map (·.name), m ≠ d.name →
        m ∈ (abs d.params d.body).freeNames → d.name ∈ ["a", "b"] ∧ m ∈ ["x", "y"] := by decide
    exact hall d hd m hsibling hne hfree
  · rintro ⟨hn, hm⟩
    have hall : ∀ n ∈ ["a", "b"], ∀ m ∈ ["x", "y"], ∃ d ∈ interleaved, d.name = n ∧ m ≠ n ∧
        m ∈ interleaved.map (·.name) ∧ m ∈ (abs d.params d.body).freeNames := by decide
    exact hall n hn m hm

theorem sublist_sort_letIn_interleaved :
    let a : Binding Term := ⟨"a", [], .tuple [.var "x", .var "y"]⟩
    let b : Binding Term := ⟨"b", [], .tuple [.var "y", .var "x"]⟩
    (interleaved.map (·.name)).Nodup ∧ [a, b] <+ interleaved ∧
      (∀ n, ¬TransGen (Depends interleaved) n n) ∧
      (∀ m, Depends interleaved "a" m ↔ Depends interleaved "b" m) ∧
      ∃ ds, sort (.letIn interleaved (.var "a")) = .letIn ds (.var "a") ∧
      ["a", "b"] <+ ds.map (·.name) := by
  intro a b
  have hdistinct : (interleaved.map (·.name)).Nodup := by decide
  have hsource : [a, b] <+ interleaved := by decide
  have hacyclic := not_transGen_of_disjoint depends_interleaved (by decide)
  have hsame : ∀ m, Depends interleaved "a" m ↔ Depends interleaved "b" m := fun m => by
    simp [depends_interleaved]
  obtain ⟨ds, hsort, hkeep⟩ :=
    sublist_sort_letIn_iff (b := .var "a") hdistinct hsource (fun n _ => hacyclic n) hsame
  have hsorted : sort (.letIn interleaved (.var "a")) =
      .letIn [⟨"x", [], .nat 1⟩, ⟨"y", [], .nat 2⟩, a, b] (.var "a") := by
    decide +kernel
  obtain ⟨rfl, -⟩ := Term.letIn.inj (hsorted.symm.trans hsort)
  refine ⟨hdistinct, hsource, hacyclic, hsame, _, hsort, hkeep.2 ?_⟩
  rintro ⟨m, ⟨hneed, hlast⟩, hbetween⟩
  rcases mem_pair.1 ((depends_interleaved "a" m).1 hneed).2 with rfl | rfl
  · exact absurd (hlast "y" ((depends_interleaved "a" "y").2 (by decide))) (by decide)
  · exact absurd hbetween (by decide)

def crossed : List (Binding Term) := [⟨"a", [], .var "x"⟩, ⟨"x", [], .nat 1⟩, ⟨"b", [], .var "x"⟩]

/-- The later one is placed in the first pass. -/
theorem sort_letIn_crossed :
    (crossed.map (·.name)).Nodup ∧ (∀ n, ¬TransGen (Depends crossed) n n) ∧
      (∀ m, Depends crossed "a" m ↔ Depends crossed "b" m) ∧ ["a", "b"] <+ crossed.map (·.name) ∧
      ∃ ds, sort (.letIn crossed (.var "a")) = .letIn ds (.var "a") ∧
      ¬["a", "b"] <+ ds.map (·.name) := by
  have hdepends : ∀ n m, Depends crossed n m ↔ n ∈ ["a", "b"] ∧ m ∈ ["x"] := fun n m => by
    constructor
    · rintro ⟨d, hd, rfl, hne, hsibling, hfree⟩
      have hall : ∀ d ∈ crossed, ∀ m ∈ crossed.map (·.name), m ≠ d.name →
          m ∈ (abs d.params d.body).freeNames → d.name ∈ ["a", "b"] ∧ m ∈ ["x"] := by decide
      exact hall d hd m hsibling hne hfree
    · rintro ⟨hn, hm⟩
      have hall : ∀ n ∈ ["a", "b"], ∀ m ∈ ["x"], ∃ d ∈ crossed, d.name = n ∧ m ≠ n ∧
          m ∈ crossed.map (·.name) ∧ m ∈ (abs d.params d.body).freeNames := by decide
      exact hall n hn m hm
  have hsame : ∀ m, Depends crossed "a" m ↔ Depends crossed "b" m := fun m => by simp [hdepends]
  have hsorted : sort (.letIn crossed (.var "a")) =
      .letIn [⟨"x", [], .nat 1⟩, ⟨"b", [], .var "x"⟩, ⟨"a", [], .var "x"⟩] (.var "a") := by
    decide +kernel
  exact ⟨by decide, not_transGen_of_disjoint hdepends (by decide), hsame, by decide, _,
    hsorted, by decide⟩

end

end SugaredLambda.Definitions
