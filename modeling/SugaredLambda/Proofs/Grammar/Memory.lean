import SugaredLambda.Proofs.Grammar.Rules

/-! Remembering results changes neither what is read nor how far the readings get (`agree_term`). -/
namespace SugaredLambda.Grammar
open SugaredLambda.Parser

/-- The terms at a depth, read anew wherever they are asked for. -/
def bare : Nat → Rule Term := termWith fun _ p => p

/-- The inner terms of a term, where those that do not begin behind it are left out. -/
def inside (keep : Nat → Rule Term → Rule Term) (text : Array Char) (i d : Nat) : Rule Term :=
  fun _ j => if i < j ∧ j ≤ text.size then termWith keep d text j else return []

theorem termWith_eq (keep : Nat → Rule Term → Rule Term) (d : Nat) (text : Array Char) (i : Nat) :
    termWith keep d text i = keep d (termRule (inside keep text i) d) text i := by
  rw [termWith]
  rfl

theorem follows_bare (σ : Pairing Nat Term) (low d : Nat) : Follows σ low 1 (bare d) (bare d) := by
  intro i _ hsize
  induction hn : σ.part.size - i using Nat.strongRecOn generalizing i d with
  | ind n ih =>
    rw [bare, termWith_eq, termWith_eq]
    refine follows_termRule (fun d j hj hjsize => ?_) d i (Nat.le_refl i) hsize
    have hin : σ.offset + i < σ.offset + j ∧ σ.offset + j ≤ σ.whole.size := by
      rw [σ.size_eq]
      omega
    simp only [inside, hin, and_self, if_true, (by omega : i < j), hjsize]
    exact ih (σ.part.size - j) (by omega) d j (by omega) hjsize rfl

instance (d : Nat) : Local (bare d) :=
  ⟨fun σ => (follows_bare σ 0 d).mono (Nat.le_refl 0) (Nat.zero_le 1)⟩

theorem bare_eq (d : Nat) (text : Array Char) (i : Nat) :
    bare d text i = termRule (inside (fun _ p => p) text i) d text i := termWith_eq _ d text i

section
variable {text : Array Char} {Related : Progress Nat Term → Progress Nat Term → Prop}
  (kept : Pairing.Kept Related)

theorem agree_termRule {f : Nat → Rule Term → Rule Term} {u : Nat → Rule Term} {i : Nat}
    (h : ∀ d j, i < j → j ≤ text.size →
      Agree (.same text Related kept) (j + 1) (termWith f d text j) (u d text j))
    (d : Nat) (hi : i ≤ text.size) :
    Agree (.same text Related kept) (i + 1) (termRule (inside f text i) d text i)
      (termRule u d text i) := by
  have hinner (d : Nat) :
      Follows (.same text Related kept) (i + 1) 1 (inside f text i d) (u d) := by
    refine follows_same_iff.2 fun j hj hsize => ?_
    simp only [inside, hsize, and_true, Nat.lt_of_succ_le hj, if_true]
    exact h d j hj hsize
  exact follows_same_iff.1 (follows_termRule hinner d) i (Nat.le_refl i) hi

/-- An inner term may stand anywhere: those that are asked for begin behind the term. -/
theorem agree_termRule_bare (d : Nat) {i : Nat} (hi : i ≤ text.size) :
    Agree (.same text Related kept) (i + 1) (bare d text i) (termRule bare d text i) := by
  rw [bare_eq]
  exact agree_termRule kept (fun d j _ hj => follows_same_iff.1 (follows_bare _ 0 d)
    j (Nat.zero_le j) hj) d hi

end

theorem read_bare (d : Nat) (text : List Char) :
    (bare d).read text = (termRule bare d).read text := by
  have kept : Pairing.Kept fun _ _ : Progress Nat Term => True := fun _ _ _ _ => trivial
  have h := agree_termRule_bare kept d (Nat.zero_le text.toArray.size) {} {} trivial
  rw [Parser.read, h.1]
  exact congrArg (tails _) (moved_zero _)

def outcome (d : Nat) (text : Array Char) (i : Nat) : Results Term × Nat :=
  let (found, progress) := (bare d text i).run {}
  (found, progress.farthest)

/-- What is remembered of a text is what is read there, and no reading got further than is known. -/
def Remembers (text : Array Char) (s : Progress Nat Term) : Prop :=
  ∀ d i found, s.remembered[(d, i)]? = some found →
    found = (outcome d text i).1 ∧ (outcome d text i).2 ≤ s.farthest

theorem run_bare (d : Nat) {text : Array Char} {i : Nat} (h : i ≤ text.size)
    (s : Progress Nat Term) :
    ((bare d text i).run s).1 = (outcome d text i).1 ∧
      ((bare d text i).run s).2.farthest = max s.farthest (outcome d text i).2 := by
  have kept :
      Pairing.Kept fun s' s₀ : Progress Nat Term => s'.farthest = max s.farthest s₀.farthest :=
    fun _ _ i h => by dsimp only at h ⊢; omega
  have hbare := follows_same_iff.1 (follows_bare (.same text _ kept) 0 d) i (Nat.zero_le i) h
  obtain ⟨hfound, hfarthest, _⟩ := hbare s {} (Nat.max_zero _).symm
  exact ⟨hfound.trans (moved_zero _), hfarthest⟩

theorem run_termRule_bare (d : Nat) {text : Array Char} {i : Nat} (h : i ≤ text.size)
    (s : Progress Nat Term) :
    ((termRule bare d text i).run s).1 = (outcome d text i).1 ∧
      ((termRule bare d text i).run s).2.farthest = max s.farthest (outcome d text i).2 := by
  have kept : Pairing.Kept fun s s' : Progress Nat Term => s.farthest = s'.farthest :=
    fun _ _ _ h => by simp only [h]
  obtain ⟨hresults, hfarthest⟩ := run_bare d h s
  obtain ⟨hsame, hsameFar, _⟩ := agree_termRule_bare kept d h s s rfl
  exact ⟨(hsame.trans (moved_zero _)).symm.trans hresults, Eq.trans hsameFar.symm hfarthest⟩

theorem kept_remembers (text : Array Char) :
    Pairing.Kept fun s s' : Progress Nat Term => Remembers text s ∧ s.farthest = s'.farthest := by
  intro s s' i h
  refine ⟨fun d j found hfound => ?_, by simp only [h.2]⟩
  obtain ⟨heq, hle⟩ := h.1 d j found hfound
  exact ⟨heq, Nat.le_trans hle (Nat.le_max_left _ _)⟩

theorem Remembers.insert {text : Array Char} {s : Progress Nat Term}
    (h : Remembers text s) {d i : Nat} {found : Results Term}
    (hfound : found = (outcome d text i).1) (hfar : (outcome d text i).2 ≤ s.farthest) :
    Remembers text { s with remembered := s.remembered.insert (d, i) found } := by
  intro e j found' hfound'
  rw [Std.HashMap.getElem?_insert] at hfound'
  split at hfound'
  next heq =>
    obtain ⟨rfl, rfl⟩ := Prod.mk.inj (eq_of_beq heq)
    exact ⟨(Option.some.inj hfound').symm.trans hfound, hfar⟩
  next => exact h e j found' hfound'

/-- Remembering changes neither what is read nor how far the readings get. -/
theorem agree_term (text : Array Char) (d : Nat) {i : Nat} (h : i ≤ text.size) :
    Agree (.same text _ (kept_remembers text)) (i + 1) (term d text i) (bare d text i) := by
  induction hn : text.size - i using Nat.strongRecOn generalizing i d with
  | ind n ih =>
    have hrule := agree_termRule (kept_remembers text) (f := remember) (u := bare)
      (fun d j hj hsize => ih (text.size - j) (by omega) d hsize rfl) d h
    intro s s' hs
    obtain ⟨hresults, hfarthest⟩ := run_bare d h s'
    have hbounds : ∀ x ∈ ((bare d text i).run s').1, i + 1 ≤ x.2 ∧ x.2 ≤ text.size :=
      (follows_same_iff.1 (follows_bare (.same text _ (kept_remembers text)) 0 d) i
        (Nat.zero_le i) h s s' hs).2.2
    rw [term, termWith_eq, run_remember]
    cases hknown : s.remembered[(d, i)]? with
    | some found =>
      obtain ⟨hfound, hfar⟩ := hs.1 d i found hknown
      refine ⟨?_, ⟨hs.1, ?_⟩, hbounds⟩
      · exact (hfound.trans hresults.symm).trans (moved_zero _).symm
      · rw [hfarthest, ← hs.2, Nat.max_eq_left hfar]
    | none =>
      obtain ⟨hfound, ⟨hremembers, hfar⟩, _⟩ := hrule s s' hs
      obtain ⟨hruleResults, hruleFarthest⟩ := run_termRule_bare d h s'
      have hread := hfound.trans ((moved_zero _).trans hruleResults)
      have hfar := Eq.trans hfar hruleFarthest
      refine ⟨hread.trans (hresults.symm.trans (moved_zero _).symm),
        ⟨hremembers.insert hread ?_, ?_⟩, hbounds⟩
      · exact Nat.le_trans (Nat.le_max_right _ _) (Nat.le_of_eq hfar.symm)
      · exact Eq.trans hfar hfarthest.symm

theorem remembers_empty (text : Array Char) : Remembers text {} := by
  intro d i found h
  simp at h

theorem parseClean_results (text : Array Char) :
    (parseClean text).results = ((bare 0 text 0).run {}).1 :=
  (agree_term text 0 (Nat.zero_le _) {} {} ⟨remembers_empty text, rfl⟩).1.trans (moved_zero _)

theorem complete_parseClean (text : List Char) :
    (parseClean text.toArray).complete =
      ((bare 0).ends List.isEmpty text).map (·.1) := by
  have hbounds (x : Term × Nat) (hx : x ∈ ((bare 0 text.toArray 0).run {}).1) :
      x.2 ≤ text.length := by
    simpa using (bounds_of_mem_run (bare 0) (Nat.zero_le _) hx).2
  rw [Parse.complete, parseClean_results, ends, Parser.read, tails, List.filter_map, List.map_map,
    ← List.filterMap_eq_map, List.filterMap_filter]
  refine List.filterMap_congr fun x hx => ?_
  have hend : x.2 = text.length ↔ text.length ≤ x.2 := by
    have := hbounds x hx
    omega
  change (if x.2 = text.length then some x.1 else none) = _
  simp [hend]

end SugaredLambda.Grammar
