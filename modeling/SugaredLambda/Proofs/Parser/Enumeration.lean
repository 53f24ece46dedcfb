import Mathlib.Data.List.Shortlex
import Mathlib.Data.List.Sort
import SugaredLambda.Parser.Repetition

/-! Lists with one result for each way to come to one, in the order of the ways. -/
namespace SugaredLambda.Parser
variable {ι ι' α β : Type} {r : ι → ι → Prop} {r' : ι' → ι' → Prop} {Way Way' : ι → α →
  Prop} {found found' : List α}

/-- There is one result for each way to come to one, in the order of the ways. -/
def Enumerates (r : ι → ι → Prop) (Way : ι → α → Prop) (found : List α) : Prop :=
  ∃ entries : List (ι × α), entries.Pairwise (InvImage r Prod.fst) ∧
    (∀ w v, (w, v) ∈ entries ↔ Way w v) ∧ entries.map Prod.snd = found

namespace Enumerates

theorem unique [Std.Asymm r] (h : Enumerates r Way found) (h' : Enumerates r Way found') :
    found = found' := by
  obtain ⟨entries, hsorted, hmem, rfl⟩ := h
  obtain ⟨entries', hsorted', hmem', rfl⟩ := h'
  rw [hsorted.eq_of_mem_iff hsorted' fun x => (hmem x.1 x.2).trans (hmem' x.1 x.2).symm]

theorem mem (h : Enumerates r Way found) {w : ι} {v : α} (hw : Way w v) : v ∈ found := by
  obtain ⟨entries, -, hmem, rfl⟩ := h
  exact List.mem_map.2 ⟨(w, v), (hmem w v).2 hw, rfl⟩

theorem congr (h : Enumerates r Way found) (hway : ∀ w v, Way w v ↔ Way' w v) :
    Enumerates r Way' found := by
  obtain ⟨entries, hsorted, hmem, hfound⟩ := h
  exact ⟨entries, hsorted, fun w v => (hmem w v).trans (hway w v), hfound⟩

theorem numbered (found : List α) :
    Enumerates (· < ·) (fun (k : Nat) v => found[k]? = some v) found := by
  refine ⟨found.zipIdx.map Prod.swap, ?_, fun k v => ?_, ?_⟩
  · have hnumbers : (found.zipIdx.map Prod.snd).Pairwise (· < ·) := by
      rw [List.zipIdx_map_snd]
      exact List.pairwise_lt_range'
    rw [List.pairwise_map] at hnumbers ⊢
    exact hnumbers
  · refine List.mem_map.trans (Iff.trans ?_ List.mk_mem_zipIdx_iff_getElem?)
    exact ⟨fun ⟨x, hx, hkv⟩ => by rwa [← Prod.swap_swap x, hkv] at hx, fun h => ⟨(v, k), h, rfl⟩⟩
  · rw [List.map_map]
    exact List.zipIdx_map_fst 0 found

theorem singleton (w : ι) (v : α) : Enumerates r (fun w' v' => w' = w ∧ v' = v) [v] :=
  ⟨[(w, v)], List.pairwise_singleton _ _, fun _ _ => List.mem_singleton.trans Prod.mk_inj, rfl⟩

theorem filter (h : Enumerates r Way found) (test : α → Bool) :
    Enumerates r (fun w v => Way w v ∧ test v) (found.filter test) := by
  obtain ⟨entries, hsorted, hmem, rfl⟩ := h
  refine ⟨entries.filter (test ∘ Prod.snd), hsorted.filter _, fun w v => ?_, List.filter_map.symm⟩
  rw [List.mem_filter, hmem]
  rfl

theorem map (h : Enumerates r Way found) (f : α → β) :
    Enumerates r (fun w y => ∃ x, Way w x ∧ f x = y) (found.map f) := by
  obtain ⟨entries, hsorted, hmem, rfl⟩ := h
  refine ⟨entries.map (Prod.map id f), List.pairwise_map.2 hsorted, fun w y => ?_, ?_⟩
  · simp only [List.mem_map, Prod.exists, Prod.map, Prod.mk.injEq, id_eq, hmem]
    exact ⟨fun ⟨_, x, hx, hw, hy⟩ => ⟨x, hw ▸ hx, hy⟩, fun ⟨x, hx, hy⟩ => ⟨w, x, hx, rfl, hy⟩⟩
  · simp only [List.map_map]
    rfl

theorem relabel (h : Enumerates r Way found) (f : ι → ι')
    (hf : ∀ w v w' v', Way w v → Way w' v' → r w w' → r' (f w) (f w')) :
    Enumerates r' (fun k v => ∃ w, Way w v ∧ f w = k) found := by
  obtain ⟨entries, hsorted, hmem, rfl⟩ := h
  refine ⟨entries.map (Prod.map f id), List.pairwise_map.2 ?_, fun k v => ?_, ?_⟩
  · exact hsorted.imp_of_mem fun hx hy hxy => hf _ _ _ _ ((hmem _ _).1 hx) ((hmem _ _).1 hy) hxy
  · simp only [List.mem_map, Prod.exists, Prod.map, Prod.mk.injEq, id_eq, hmem]
    exact ⟨fun ⟨w, _, hw, hk, hv⟩ => ⟨w, hv ▸ hw, hk⟩, fun ⟨w, hw, hk⟩ => ⟨w, v, hw, hk, rfl⟩⟩
  · simp only [List.map_map]
    rfl

theorem append (h : Enumerates r Way found) (h' : Enumerates r Way' found')
    (hr : ∀ w v w' v', Way w v → Way' w' v' → r w w') :
    Enumerates r (fun w v => Way w v ∨ Way' w v) (found ++ found') := by
  obtain ⟨entries, hsorted, hmem, rfl⟩ := h
  obtain ⟨entries', hsorted', hmem', rfl⟩ := h'
  refine ⟨entries ++ entries', List.pairwise_append.2 ⟨hsorted, hsorted', fun x hx y hy => ?_⟩,
    fun w v => ?_, List.map_append⟩
  · exact hr _ _ _ _ ((hmem _ _).1 hx) ((hmem' _ _).1 hy)
  · rw [List.mem_append, hmem, hmem']

/-- A way on from each result: the ways to the results come first in the order. -/
theorem flatMap (h : Enumerates r Way found) {Next : α → ι' → β → Prop} {next : α → List β}
    (hnext : ∀ x ∈ found, Enumerates r' (Next x) (next x)) :
    Enumerates (Prod.Lex r r') (fun w y => ∃ x, Way w.1 x ∧ Next x w.2 y) (found.flatMap next) := by
  obtain ⟨entries, hsorted, hmem, rfl⟩ := h
  -- every entry is followed by the entries of what comes next
  have hnext (x : ι × α) (hx : x ∈ entries) : Enumerates r' (Next x.2) (next x.2) :=
    hnext x.2 (List.mem_map.2 ⟨x, hx, rfl⟩)
  choose! more hmore using hnext
  refine ⟨entries.flatMap fun x => (more x).map fun y => ((x.1, y.1), y.2),
    List.pairwise_flatMap.2 ⟨fun x hx => ?_, ?_⟩, fun w y => ?_, ?_⟩
  · exact List.pairwise_map.2 ((hmore x hx).1.imp fun hyz => .right _ hyz)
  · refine hsorted.imp fun hxy y hy z hz => ?_
    obtain ⟨y, -, rfl⟩ := List.mem_map.1 hy
    obtain ⟨z, -, rfl⟩ := List.mem_map.1 hz
    exact .left _ _ hxy
  · rw [List.mem_flatMap]
    constructor
    · rintro ⟨x, hx, hy⟩
      obtain ⟨z, hz, heq⟩ := List.mem_map.1 hy
      obtain ⟨rfl, rfl⟩ := Prod.mk.inj heq
      exact ⟨x.2, (hmem _ _).1 hx, ((hmore x hx).2.1 _ _).1 hz⟩
    · rintro ⟨x, hx, hy⟩
      have hx := (hmem _ _).2 hx
      exact ⟨_, hx, List.mem_map.2 ⟨(w.2, y), ((hmore _ hx).2.1 _ _).2 hy, rfl⟩⟩
  · rw [List.map_flatMap, List.flatMap_map]
    refine List.flatMap_congr fun x hx => ?_
    rw [List.map_map, ← (hmore x hx).2.2]
    rfl

end Enumerates
end SugaredLambda.Parser
