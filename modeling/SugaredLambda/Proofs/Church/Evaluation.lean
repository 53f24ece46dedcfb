import Mathlib
import SugaredLambda.Proofs.Church.Congruence
import SugaredLambda.Proofs.Lambda.Confluence
import SugaredLambda.Proofs.Term.FreeNames

/-! The nameless term of a program is closed, and so is whatever it reduces to; so its value is a
program again. -/
namespace SugaredLambda

namespace Term

def hasBlock : Term → Bool := fold { someChild with letIn := fun _ _ => true }

theorem hasBlock_app (ts : List Term) : (app ts).hasBlock = ts.any hasBlock := by
  rw [hasBlock, fold, foldAll_eq]
  exact List.any_map

theorem hasBlock_list (ts : List Term) : (list ts).hasBlock = ts.any hasBlock := hasBlock_app ts

theorem hasBlock_tuple (ts : List Term) : (tuple ts).hasBlock = ts.any hasBlock := hasBlock_app ts

theorem hasBlock_record (cs : List (Constructor Term)) :
    (record cs).hasBlock = (fieldBodies cs).any hasBlock := by
  rw [hasBlock, fold, foldConstructors_eq]
  change (fieldBodies (cs.map _)).any id = _
  rw [fieldBodies_map]
  exact List.any_map

theorem mem_freeNames_of_mem_demanded {t : Term} {x : String} (hblock : t.hasBlock = false)
    (hx : x ∈ t.demanded) : x ∈ t.freeNames := by
  rw [freeNames_eq]
  have hall {ts : List Term}
      (ih : ∀ t ∈ ts, t.hasBlock = false → x ∈ t.demanded → x ∈ t.namesHiding [])
      (h : ts.any hasBlock = false) (hx : x ∈ ts.flatMap demanded) :
      ∃ t ∈ ts, x ∈ t.namesHiding [] := by
    obtain ⟨t, ht, hx⟩ := List.mem_flatMap.1 hx
    exact ⟨t, ht, ih t ht (Bool.of_not_eq_true (List.any_eq_false.1 h t ht)) hx⟩
  induction t using Term.induction with
  | abs ps b ih =>
    rw [demanded_abs, mem_without] at hx
    exact mem_namesHiding_abs.2 (hx.imp_left (ih hblock))
  | app ts ih =>
    exact mem_namesHiding_app.2 (hall ih (hasBlock_app ts ▸ hblock) (demanded_app ts ▸ hx))
  | list ts ih =>
    exact mem_namesHiding_list.2 (hall ih (hasBlock_list ts ▸ hblock) (demanded_list ts ▸ hx))
  | tuple ts ih =>
    exact mem_namesHiding_tuple.2 (hall ih (hasBlock_tuple ts ▸ hblock) (demanded_tuple ts ▸ hx))
  | var y => exact mem_namesHiding_var.2 (List.mem_singleton.1 hx)
  | record cs ih =>
    rw [demanded_record, mem_without] at hx
    have hbodies := hall (forall_mem_fieldBodies.2 ih) (hasBlock_record cs ▸ hblock) hx.1
    exact mem_namesHiding_record.2 ⟨hbodies, List.not_mem_nil⟩
  | letIn bs b => cases hblock
  | _ => exact absurd hx List.not_mem_nil

namespace Plain
variable {t : Term}

theorem fold_eq_false (h : t.Plain) (record : List (Constructor Bool) → Bool)
    (letIn : List (Binding Bool) → Bool → Bool) :
    fold { someChild with record := record, letIn := letIn } t = false := by
  induction h with
  | abs _ _ ih => exact ih
  | app _ _ ih | list _ ih | tuple _ ih =>
    rw [fold, foldAll_eq]
    simpa [someChild] using ih
  | _ => rfl

theorem hasBlock (h : t.Plain) : t.hasBlock = false :=
  h.fold_eq_false someChild.record fun _ _ => true

theorem hasRecord (h : t.Plain) : t.hasRecord = false :=
  h.fold_eq_false (fun _ => true) someChild.letIn

theorem mem_demanded_iff (h : t.Plain) (x : String) : x ∈ t.demanded ↔ x ∈ t.freeNames := by
  rw [freeNames_eq]
  induction h with
  | abs _ _ ih => rw [demanded_abs, mem_without, ih, mem_namesHiding_abs]
  | app _ _ ih =>
    rw [demanded_app, List.mem_flatMap, mem_namesHiding_app]
    exact exists_congr fun t => and_congr_right (ih t)
  | list _ ih =>
    rw [demanded_list, List.mem_flatMap, mem_namesHiding_list]
    exact exists_congr fun t => and_congr_right (ih t)
  | tuple _ ih =>
    rw [demanded_tuple, List.mem_flatMap, mem_namesHiding_tuple]
    exact exists_congr fun t => and_congr_right (ih t)
  | var y => rw [mem_namesHiding_var]; exact List.mem_singleton
  | _ => rfl

end Plain

variable {t r : Term} {l : Lambda} {N : Nat}

theorem encoded_eq_ok_iff :
    t.encoded = .ok l ↔ t.hasEmptyApplication = false ∧ Church.place t [] 0 = .ok l := by
  rw [encoded, Church.encode]
  cases h : t.hasEmptyApplication with
  | true => exact ⟨fun h => (by cases h), fun h => (by cases h.1)⟩
  | false => exact (and_iff_right rfl).symm

theorem evaluate_of_encoded (h : t.encoded = .ok l) :
    t.evaluate N = Church.decode <$> Lambda.normalize N l := by
  change t.encoded >>= _ = _
  rw [h]
  rfl

theorem evaluate_of_error {e : Error} (h : t.encoded = .error e) : t.evaluate N = .error e := by
  change t.encoded >>= _ = _
  rw [h]
  rfl

theorem evaluate_eq_ok_or (h : t.encoded = .ok l) (N : Nat) :
    (∃ r, t.evaluate N = .ok r) ∨ t.evaluate N = .error (.stepLimit N) := by
  rw [evaluate_of_encoded h]
  rcases Lambda.normalize_eq_ok_or N l with ⟨n, hn⟩ | hn
  · exact .inl ⟨Church.decode n, by rw [hn]; rfl⟩
  · exact .inr (by rw [hn]; rfl)

theorem evaluate_eq_ok_iff :
    t.evaluate N = .ok r ↔ ∃ l n, t.encoded = .ok l ∧ Lambda.normalize N l = .ok n ∧
    Church.decode n = r := by
  refine Church.bind_eq_ok_iff.trans (exists_congr fun l => ?_)
  rw [exists_and_left]
  exact and_congr_right fun _ => Church.map_eq_ok_iff

theorem evaluate_mono {M : Nat} (hN : N ≤ M) (h : t.evaluate N = .ok r) : t.evaluate M = .ok r := by
  obtain ⟨l, n, hl, hn, hr⟩ := evaluate_eq_ok_iff.1 h
  exact evaluate_eq_ok_iff.2 ⟨l, n, hl,
    Lambda.normalize_eq_ok_iff.2 ((Lambda.normalize_eq_ok_iff.1 hn).mono hN), hr⟩

theorem exists_evaluate_iff : (∃ N, t.evaluate N = .ok r) ↔
    ∃ l n, t.encoded = .ok l ∧ Lambda.Reduces l n ∧ Lambda.Normal n ∧ Church.decode n = r := by
  simp only [evaluate_eq_ok_iff]
  constructor
  · rintro ⟨N, l, n, hl, hn, hr⟩
    obtain ⟨hreduces, hnormal⟩ := Lambda.exists_normalize_iff.1 ⟨N, hn⟩
    exact ⟨l, n, hl, hreduces, hnormal, hr⟩
  · rintro ⟨l, n, hl, hreduces, hnormal, hr⟩
    obtain ⟨N, hn⟩ := Lambda.exists_normalize_iff.2 ⟨hreduces, hnormal⟩
    exact ⟨N, l, n, hl, hn, hr⟩

theorem within_of_place (h : Church.place t [] 0 = .ok l) : l.Within 0 := by
  have hrefl : Church.Sees (fun k t _ => t.Within (0 + k)) 0 t.demanded [] 0 [] 0 :=
    fun _ _ => .error _
  have hself := Church.likened_self (Church.congruence_within 0) t hrefl
  rw [h] at hself
  exact hself.of_ok

end Term

namespace Church
variable {n : Lambda}

theorem demanded_of_encoded {t : Term} (h : t.encoded = .ok n) : t.demanded = [] := by
  obtain ⟨hempty, hplace⟩ := Term.encoded_eq_ok_iff.1 h
  rw [List.eq_nil_iff_forall_not_mem]
  intro x hx
  obtain ⟨y, hy⟩ := ((asks_place hempty).answers [] 0).exists_unbound ⟨hx, rfl⟩
  cases hplace.symm.trans hy

/-- The reading of a closed term is a program that encodes to it. -/
theorem encoded_decode (h : n.Within 0) : (decode n).encoded = .ok n := by
  have hresolves : Resolves [] 0 n := fun k hk => absurd (h.occurrences_eq_zero (by omega)) hk
  refine Term.encoded_eq_ok_iff.2 ⟨(plain_decode n).hasEmptyApplication, ?_⟩
  rw [decode_eq_reading]
  exact place_reading h.nonneg hresolves

theorem freeNames_decode (h : n.Within 0) : (decode n).freeNames = [] := by
  have hnone := demanded_of_encoded (encoded_decode h)
  rw [List.eq_nil_iff_forall_not_mem] at hnone ⊢
  exact fun x hx => hnone x (((plain_decode n).mem_demanded_iff x).2 hx)

end Church

namespace Term
variable {t r : Term} {N : Nat}

/-- A value has no free names, blocks or records; it encodes to the normal form that it was read
from, and no limit keeps it from evaluating to itself. -/
theorem evaluate_value (h : t.evaluate N = .ok r) :
    r.freeNames = [] ∧ r.hasBlock = false ∧ r.hasRecord = false ∧
    (∃ l n, t.encoded = .ok l ∧ Lambda.normalize N l = .ok n ∧ r.encoded = .ok n) ∧
    ∀ M, r.evaluate M = .ok r := by
  obtain ⟨l, n, hl, hn, rfl⟩ := evaluate_eq_ok_iff.1 h
  obtain ⟨hreduces, hnormal⟩ := Lambda.reduces_of_normalize hn
  have hclosed : n.Within 0 := (within_of_place (encoded_eq_ok_iff.1 hl).2).reduces hreduces
  have hplain := Church.plain_decode n
  have hencoded := Church.encoded_decode hclosed
  refine ⟨Church.freeNames_decode hclosed, hplain.hasBlock, hplain.hasRecord,
    ⟨l, n, hl, hn, hencoded⟩, fun M => ?_⟩
  exact evaluate_eq_ok_iff.2 ⟨n, n, hencoded, Lambda.normalize_of_normal hnormal M, rfl⟩

/-- `{x = 2; (x, y -> y)}` -/
theorem evaluate_value_block :
    let t : Term := .letIn [⟨"x", [], .nat 2⟩] (.tuple [.var "x", .abs ["y"] (.var "y")])
    let r : Term := .tuple [.nat 2, .abs ["b"] (.var "b")]
    t.evaluate 1 = .ok r ∧ r.freeNames = [] ∧ r.evaluate 0 = .ok r := by
  intro t r
  have ht : t.evaluate 1 = .ok r :=
    evaluate_eq_ok_iff.2 ⟨_, _, rfl,
      Lambda.normalize_eq_ok_iff.2 ⟨rfl, 1, Nat.le_refl 1, rfl⟩, by cbv⟩
  obtain ⟨hfree, -, -, -, hself⟩ := evaluate_value ht
  exact ⟨ht, hfree, hself 0⟩

end Term
end SugaredLambda
