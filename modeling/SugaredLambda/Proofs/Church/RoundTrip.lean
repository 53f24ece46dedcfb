import SugaredLambda.Proofs.Church.Reading

/-! A nameless term is what its reading encodes to, given the names of its escaping variables. -/
namespace SugaredLambda

namespace Term

theorem any_congr {α : Type} {xs : List α} {f g : α → Bool} (h : ∀ x ∈ xs, f x = g x) :
    xs.any f = xs.any g := by
  rw [Bool.eq_iff_iff, List.any_eq_true, List.any_eq_true]
  exact exists_congr fun x => and_congr_right fun hx => by rw [h x hx]

theorem hasEmptyApplication_abs (ps : List String) (b : Term) :
    (abs ps b).hasEmptyApplication = b.hasEmptyApplication := rfl

theorem hasEmptyApplication_var (x : String) : (var x).hasEmptyApplication = false := rfl

theorem hasEmptyApplication_str (s : String) : (str s).hasEmptyApplication = false := rfl

theorem hasEmptyApplication_app (ts : List Term) :
    (app ts).hasEmptyApplication = (ts.isEmpty || ts.any hasEmptyApplication) := by
  rw [hasEmptyApplication, fold, foldAll_eq]
  simp only [List.isEmpty_map, List.any_map]
  rfl

theorem hasEmptyApplication_list (ts : List Term) :
    (list ts).hasEmptyApplication = ts.any hasEmptyApplication := by
  rw [hasEmptyApplication, fold, foldAll_eq]
  exact List.any_map

theorem hasEmptyApplication_tuple (ts : List Term) :
    (tuple ts).hasEmptyApplication = ts.any hasEmptyApplication := by
  rw [hasEmptyApplication, fold, foldAll_eq]
  exact List.any_map

theorem hasEmptyApplication_record (cs : List (Constructor Term)) :
    (record cs).hasEmptyApplication = (fieldBodies cs).any hasEmptyApplication := by
  rw [hasEmptyApplication, fold, foldConstructors_eq]
  change (fieldBodies (cs.map _)).any id = _
  rw [fieldBodies_map, List.any_map]
  rfl

theorem hasEmptyApplication_letIn (bs : List (Binding Term)) (b : Term) :
    (letIn bs b).hasEmptyApplication =
    (bs.any (·.body.hasEmptyApplication) || b.hasEmptyApplication) := by
  rw [hasEmptyApplication, fold, foldBindings_eq]
  change ((bs.map _).any _ || _) = _
  rw [List.any_map]
  rfl

theorem Plain.hasEmptyApplication {t : Term} (h : t.Plain) : t.hasEmptyApplication = false := by
  induction h with
  | abs _ _ ih => exact ih
  | app hne _ ih => rw [hasEmptyApplication_app]; simpa [hne] using ih
  | list _ ih => rw [hasEmptyApplication_list]; simpa using ih
  | tuple _ ih => rw [hasEmptyApplication_tuple]; simpa using ih
  | _ => rfl

end Term

namespace Church
variable {scope : Scope} {depth : Nat} {t : Lambda}

theorem encode_of_plain {t : Term} (h : t.Plain) : encode t = place t := by
  funext scope depth
  rw [encode, h.hasEmptyApplication]
  rfl

/-- Each variable of a term has its name in scope, for the binder that it counts to. -/
def Resolves (scope : Scope) (depth : Nat) (t : Lambda) : Prop :=
  ∀ k : Nat, t.occurrences k ≠ 0 →
    scope.lookup (variableName k depth) = some ((depth : Int) - k - 1)

theorem Resolves.body {b : Lambda} (h : Resolves scope depth (.abs b)) :
    Resolves ((binderName depth, (depth : Int)) :: scope) (depth + 1) b := by
  intro k hk
  cases k with
  | zero =>
    rw [variableName_of_bound (j := depth) (by omega), List.lookup_cons_self]
    congr 1
    omega
  | succ k =>
    have hindex : ((depth + 1 : Nat) : Int) - (k + 1 : Nat) - 1 = depth - k - 1 := by omega
    have hname : variableName (k + 1 : Nat) (depth + 1) = variableName k depth := by
      rw [variableName, variableName, hindex]
    have hne : variableName k depth ≠ binderName depth := by
      rw [Ne, variableName_eq_binderName_iff]
      omega
    rw [hname, List.lookup_cons, beq_false_of_ne hne]
    change scope.lookup _ = _
    rw [h k hk]
    congr 1
    omega

theorem Resolves.part {args : List Lambda} (h : Resolves scope depth (t.apply args)) :
    ∀ a ∈ t :: args, Resolves scope depth a :=
  fun a ha k hk => h k fun hzero => hk (Lambda.occurrences_apply_eq_zero.1 hzero a ha)

theorem place_reading (hn : t.Nonneg) (hs : Resolves scope depth t) :
    place (reading depth t).1 scope depth = .ok t := by
  induction t using Lambda.spine_induction generalizing scope depth with
  | var i =>
    obtain ⟨k, rfl⟩ := Int.eq_ofNat_of_zero_le hn
    have hk := hs k (by simp [Lambda.occurrences])
    rw [reading_var, place_var_of_lookup hk]
    congr 2
    omega
  | abs b ih =>
    have hb :
        place (reading (depth + 1) b).1 ((binderName depth, (depth : Int)) :: scope) (depth + 1) =
        .ok b := ih hn hs.body
    -- what the recognizers put for the abstraction is placed as the abstraction itself
    rw [reading_abs, (sound_reading (depth + 1) b).standsFor.place_eq, place_mergeParams, place_abs,
      function_one, hb]
    rfl
  | apply head args hh hargs ihh iha =>
    obtain ⟨hnh, hna⟩ := Lambda.nonneg_apply.1 hn
    obtain ⟨hsh, hsa⟩ := List.forall_mem_cons.1 hs.part
    have hmap : (args.map fun a => (reading depth a).1).mapM (place · scope depth) = .ok args := by
      have hread := mapM_eq_ok (g := id) fun a ha => iha a ha (hna a ha) (hsa a ha)
      rw [List.map_id] at hread
      rw [List.mapM_map]
      exact hread
    rw [reading_apply depth hh hargs, List.map_cons, place_app_cons, ihh hnh hsh, hmap]
    rfl

/-- The names of the variables that escape a term, each for a binder outside. -/
def escapeScope (t : Lambda) : Scope := (t.free 0).map fun k => (escapeName k, -(k : Int) - 1)

theorem lookup_escape {ks : List Nat} {k : Nat} (h : k ∈ ks) :
    (ks.map fun k => (escapeName k, -(k : Int) - 1)).lookup (escapeName k) =
      some (-(k : Int) - 1) := by
  induction ks with
  | nil => contradiction
  | cons j ks ih =>
    rw [List.map_cons, List.lookup_cons]
    by_cases hj : k = j
    · rw [hj, beq_self_eq_true]
    · rw [beq_false_of_ne fun h => hj (escapeName_inj.1 h)]
      exact ih ((List.mem_cons.1 h).resolve_left hj)

theorem resolves_escapeScope (t : Lambda) : Resolves (escapeScope t) 0 t := by
  intro k hk
  have hmem : k ∈ t.free 0 := Lambda.mem_free.2 (by simpa using hk)
  rw [variableName_of_escape (k := k) (by omega), escapeScope, lookup_escape hmem]
  congr 1
  omega

/-- Reading a term back never changes what it means. -/
theorem encode_decode (p : Lambda) (hp : p.Nonneg) :
    encode (decode p) (escapeScope p) 0 = .ok p := by
  rw [decode_eq_reading, encode_of_plain (sound_reading 0 p).plain]
  exact place_reading hp (resolves_escapeScope p)

/-- `$1 (k -> k $0 2) (c n -> c $1 (c "a" n))` -/
theorem encode_decode_escaping :
    let p := Lambda.app (.app (.var 1) (consumed [.var 1, numeral 2]))
      (foldList [.var 3, string "a"])
    p.Nonneg ∧ encode (decode p) (escapeScope p) 0 = .ok p :=
  ⟨by decide, encode_decode _ (by decide)⟩

example :
    decode (.app (.app (.var 1) (consumed [.var 1, numeral 2])) (foldList [.var 3, string "a"])) =
    .app [.var "$1", .tuple [.var "$0", .nat 2], .list [.var "$1", .str "a"]] := by cbv

end Church
end SugaredLambda
