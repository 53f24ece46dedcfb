import SugaredLambda.Proofs.Library.Arithmetic

/-! A list is its own fold, so that each function on lists is settled by what it does with one item.
-/
namespace SugaredLambda.Library
open Lambda Church Value
variable {xs ys : List Nat} {f p q : Lambda}

def numbers (xs : List Nat) : Lambda := foldList (xs.map numeral)

@[simp] theorem within_numbers (xs : List Nat) : (numbers xs).Within 0 :=
  within_foldList (List.forall_mem_map.2 fun n _ => (within_numeral n).mono (Nat.zero_le 2))

theorem reduces_numbers {c z : Lambda} {g : List Nat → Lambda} (hstart : Reduces z (g []))
    (hround : ∀ a as, Reduces (c.apply [numeral a, g as]) (g (a :: as))) (xs : List Nat) :
    Reduces ((numbers xs).apply [c, z]) (g xs) :=
  reduces_fold hstart hround fun n _ => within_numeral n

theorem reduces_cells (xs : List Nat) :
    Reduces ((numbers xs).apply [.var 1, .var 0]) (cells (xs.map numeral)) :=
  reduces_numbers (g := fun as => cells (as.map numeral)) .refl (fun _ _ => .refl) xs

theorem reduces_cons (a : Nat) (as : List Nat) :
    Reduces (apply cons [numeral a, numbers as]) (numbers (a :: as)) :=
  calc
    Reduces (apply cons [numeral a, numbers as])
        (binders 2 (apply (.var 1) [numeral a, apply (numbers as) [.var 1, .var 0]])) :=
      reduces_of_put [numbers as, numeral a] (by simp [put, binders, apply, shift_of_closed])
    Reduces _ (numbers (a :: as)) := Reduces.binders 2 (.app .refl (reduces_cells as))

theorem reduces_append (xs ys : List Nat) :
    Reduces (apply append [numbers xs, numbers ys]) (numbers (xs ++ ys)) := by
  have hfold := reduces_numbers (c := .var 1)
    (g := fun as => cells ((as ++ ys).map numeral)) (reduces_cells ys) (fun _ _ => .refl) xs
  calc
    Reduces (apply append [numbers xs, numbers ys])
        (binders 2 (apply (numbers xs) [.var 1, apply (numbers ys) [.var 1, .var 0]])) :=
      reduces_of_put [numbers ys, numbers xs] (by simp [put, binders, apply, shift_of_closed])
    Reduces _ (numbers (xs ++ ys)) := Reduces.binders 2 hfold

theorem reduces_map {g : Nat → Nat} (hclosed : f.Within 0)
    (hf : ∀ a, Reduces (.app f (numeral a)) (numeral (g a))) (xs : List Nat) :
    Reduces (apply map [f, numbers xs]) (numbers (xs.map g)) := by
  have hround (a : Nat) (as : List Nat) :
      Reduces (apply (binders 2 (apply (.var 3) [.app f (.var 1), .var 0]))
      [numeral a, cells ((as.map g).map numeral)]) (cells (((a :: as).map g).map numeral)) :=
    calc
      Reduces (apply (binders 2 (apply (.var 3) [.app f (.var 1), .var 0]))
          [numeral a, cells ((as.map g).map numeral)])
          (apply (.var 1) [.app f (numeral a), cells ((as.map g).map numeral)]) :=
        reduces_of_put [cells ((as.map g).map numeral), numeral a]
          (by simp [put, apply, put_of_closed, hclosed, shift_zero])
      Reduces _ (cells (((a :: as).map g).map numeral)) :=
          Reduces.apply .refl (.cons (hf a) (.cons .refl .nil))
  calc
    Reduces (apply map [f, numbers xs])
        (binders 2 (apply (numbers xs)
          [binders 2 (apply (.var 3) [.app f (.var 1), .var 0]), .var 0])) :=
      reduces_of_put [numbers xs, f] (by simp [put, binders, apply, shift_of_closed, hclosed])
    Reduces _ (numbers (xs.map g)) :=
      Reduces.binders 2 (reduces_numbers
        (g := fun as => cells ((as.map g).map numeral)) .refl hround xs)

theorem reduces_filter {g : Nat → Bool} (hclosed : f.Within 0)
    (hf : ∀ a, Reduces (.app f (numeral a)) (truth (g a))) (xs : List Nat) :
    Reduces (apply filter [f, numbers xs]) (numbers (xs.filter g)) := by
  have hround (a : Nat) (as : List Nat) :
      Reduces (apply (binders 2 (apply f [.var 1, apply (.var 3) [.var 1, .var 0], .var 0]))
        [numeral a, cells ((as.filter g).map numeral)])
        (cells (((a :: as).filter g).map numeral)) := by
    generalize hrest : cells ((as.filter g).map numeral) = rest
    calc
      Reduces (apply (binders 2 (apply f [.var 1, apply (.var 3) [.var 1, .var 0], .var 0]))
          [numeral a, rest]) (apply (.app f (numeral a))
          [apply (.var 1) [numeral a, rest], rest]) :=
        reduces_of_put [rest, numeral a] (by simp [put, apply, put_of_closed, hclosed, shift_zero])
      Reduces _ (apply (truth (g a)) [apply (.var 1) [numeral a, rest], rest]) :=
        Reduces.apply (hf a) (.cons .refl (.cons .refl .nil))
      Reduces _ (if g a then apply (.var 1) [numeral a, rest] else rest) := reduces_truth (g a) _ _
      _ = cells (((a :: as).filter g).map numeral) := by
        rw [List.filter_cons, ← hrest]
        split <;> rfl
  calc
    Reduces (apply filter [f, numbers xs]) (binders 2 (apply (numbers xs)
        [binders 2 (apply f [.var 1, apply (.var 3) [.var 1, .var 0], .var 0]), .var 0])) :=
      reduces_of_put [numbers xs, f] (by simp [put, binders, apply, shift_of_closed, hclosed])
    Reduces _ (numbers (xs.filter g)) :=
      Reduces.binders 2 (reduces_numbers
        (g := fun as => cells ((as.filter g).map numeral)) .refl hround xs)

theorem Reduces.consumed {as bs : List Lambda} (h : List.Forall₂ Reduces as bs) :
    Reduces (consumed as) (consumed bs) := (Reduces.apply .refl h).abs

theorem reduces_part (b : Bool) (hp : p.Within 0) (hq : q.Within 0) :
    Reduces (.app (.abs (.app (.var 0) (truth b))) (consumed [p, q])) (if b then p else q) :=
  calc
    Reduces (.app (.abs (.app (.var 0) (truth b))) (consumed [p, q]))
        (.app (consumed [p, q]) (truth b)) :=
      reduces_of_put [consumed [p, q]] (by simp [put, put_of_closed, shift_zero])
    Reduces _ (apply (truth b) [p, q]) :=
      reduces_of_put [truth b] (by simp [put, apply, put_of_closed, hp, hq, shift_zero])
    Reduces _ (if b then p else q) := reduces_truth b p q

/-- A list behind its tail. -/
def halves (xs : List Nat) : Lambda := consumed [numbers xs.tail, numbers xs]

@[simp] theorem within_halves (xs : List Nat) : (halves xs).Within 0 :=
  within_consumed (List.forall_mem_cons.2 ⟨(within_numbers _).mono (Nat.zero_le 1),
    List.forall_mem_singleton.2 ((within_numbers _).mono (Nat.zero_le 1))⟩)

theorem reduces_tail (xs : List Nat) : Reduces (.app tail (numbers xs)) (numbers xs.tail) := by
  have hround (a : Nat) (as : List Nat) :
      Reduces
        (apply (binders 2 (consumed [.app snd (.var 1), apply cons [.var 2, .app snd (.var 1)]]))
        [numeral a, halves as]) (halves (a :: as)) := by
    have hsnd : Reduces (.app snd (halves as)) (numbers as) :=
      reduces_part false (within_numbers as.tail) (within_numbers as)
    have hcons : Reduces (apply cons [numeral a, .app snd (halves as)]) (numbers (a :: as)) :=
      (Reduces.apply .refl (.cons .refl (.cons hsnd .nil))).trans (reduces_cons a as)
    calc
      Reduces
          (apply (binders 2 (consumed [.app snd (.var 1), apply cons [.var 2, .app snd (.var 1)]]))
          [numeral a, halves as])
          (consumed [.app snd (halves as), apply cons [numeral a, .app snd (halves as)]]) :=
        reduces_of_put [halves as, numeral a]
          (by simp [put, apply, consumed, put_of_closed, shift_of_closed])
      Reduces _ (halves (a :: as)) := Reduces.consumed (.cons hsnd (.cons hcons .nil))
  calc
    Reduces (.app tail (numbers xs)) (.app fst (apply (numbers xs)
        [binders 2 (consumed [.app snd (.var 1), apply cons [.var 2, .app snd (.var 1)]]),
          consumed [nil, nil]])) :=
      reduces_of_put [numbers xs]
        (by simp [put, binders, apply, consumed, put_of_closed, shift_zero])
    Reduces _ (.app fst (halves xs)) :=
        Reduces.app .refl (reduces_numbers (g := halves) .refl hround xs)
    Reduces _ (numbers xs.tail) := reduces_part true (within_numbers xs.tail) (within_numbers xs)

theorem reduces_foldr {g : Nat → Nat → Nat}
    (hf : ∀ a b, Reduces (apply f [numeral a, numeral b]) (numeral (g a b))) (z : Nat)
    (xs : List Nat) : Reduces (apply foldr [f, numeral z, numbers xs]) (numeral (xs.foldr g z)) :=
  calc
    Reduces (apply foldr [f, numeral z, numbers xs]) (apply (numbers xs) [f, numeral z]) :=
      reduces_of_put [numbers xs, numeral z, f] (by simp [put, apply, shift_zero])
    Reduces _ (numeral (xs.foldr g z)) :=
      reduces_numbers (g := fun as => numeral (as.foldr g z)) .refl (fun a as => hf a _) xs

theorem reduces_length (xs : List Nat) :
    Reduces (.app length (numbers xs)) (numeral xs.length) := by
  have hround (a : Nat) (as : List Nat) :
      Reduces (apply (binders 2 (.app succ (.var 0))) [numeral a, numeral as.length])
        (numeral (as.length + 1)) :=
    calc
      Reduces (apply (binders 2 (.app succ (.var 0))) [numeral a, numeral as.length])
          (.app succ (numeral as.length)) :=
        reduces_of_put [numeral as.length, numeral a] (by simp [put, put_of_closed, shift_zero])
      Reduces _ (numeral (as.length + 1)) := reduces_succ as.length
  calc
    Reduces (.app length (numbers xs))
        (apply (numbers xs) [binders 2 (.app succ (.var 0)), numeral 0]) :=
      reduces_of_put [numbers xs] (by simp [put, binders, apply, put_of_closed, shift_zero])
    Reduces _ (numeral xs.length) :=
        reduces_numbers (g := fun as => numeral as.length) .refl hround xs

theorem reduces_isNil (xs : List Nat) : Reduces (.app isNil (numbers xs)) (truth (xs = [])) := by
  have hround (a : Nat) (as : List Nat) :
      Reduces (apply (binders 2 (truth false)) [numeral a, truth (as = [])])
        (truth (a :: as = [])) :=
    reduces_of_put [truth (as = []), numeral a] (put_of_closed (within_truth false) (Int.le_refl 0))
  calc
    Reduces (.app isNil (numbers xs)) (apply (numbers xs) [binders 2 (truth false), truth true]) :=
      reduces_of_put [numbers xs] (by simp [put, binders, apply, put_of_closed, shift_zero])
    Reduces _ (truth (xs = [])) := reduces_numbers (g := fun as => truth (as = [])) .refl hround xs

theorem reduces_head (x : Nat) (xs : List Nat) :
    Reduces (.app head (numbers (x :: xs))) (numeral x) := by
  have hround (a : Nat) (as : List Nat) :
      Reduces (apply (binders 2 (.var 1)) [numeral a, (as.map numeral).headD nil]) (numeral a) :=
    reduces_of_put [(as.map numeral).headD nil, numeral a] (by simp [put, shift_zero])
  calc
    Reduces (.app head (numbers (x :: xs))) (apply (numbers (x :: xs)) [binders 2 (.var 1), nil]) :=
      reduces_of_put [numbers (x :: xs)] (by simp [put, binders, apply, put_of_closed, shift_zero])
    Reduces _ (numeral x) :=
        reduces_numbers (g := fun as => (as.map numeral).headD nil) .refl hround (x :: xs)

/-- A list as a literal; without items it is the number zero. -/
def listed (xs : List Nat) : Term := if xs = [] then .nat 0 else .list (xs.map .nat)

theorem encodes_numbers (xs : List Nat) : Encodes (numbers xs) (.list (xs.map .nat)) := by
  have hitems : ∀ t ∈ xs.map Term.nat, Encodes ((place t [] 0).toOption.getD nil) t :=
    List.forall_mem_map.2 fun n _ => ⟨fun _ _ => rfl, closed_numeral n,
      fun depth => reading_numeral depth n⟩
  have hlist := encodes_list hitems
  rwa [List.map_map] at hlist

theorem canonical_list_nat (xs : List Nat) : (Term.list (xs.map .nat)).canonical = listed xs := by
  have hmap : (xs.map Term.nat).map Term.canonical = xs.map Term.nat := by
    rw [List.map_map]
    rfl
  rw [Term.canonical_list, hmap, Term.canonicalList, listed]
  cases xs with
  | nil => rfl
  | cons x xs => rfl

theorem shows_numbers (xs : List Nat) : Shows (numbers xs) (listed xs) where
  normal := normal_foldList (List.forall_mem_map.2 fun n _ => normal_numeral n)
  decode_eq := (decode_eq_reading _).trans
    (((encodes_numbers xs).reading_eq 0).trans (canonical_list_nat xs))

theorem argument_list (xs : List Nat) : Argument (.list (xs.map .nat)) (numbers xs) := by
  have hplain : (Term.list (xs.map .nat)).Plain := .list (List.forall_mem_map.2 fun n _ => .nat n)
  refine argument_of_encoded hplain (Term.encoded_eq_ok_iff.2 ⟨hplain.hasEmptyApplication, ?_⟩)
  exact (encodes_numbers xs).place_eq _ _

/-- The functions of the library are those of lists. -/
theorem gives_lists (x : Nat) (xs ys : List Nat) :
    Gives (.app [.var "append", .list (xs.map .nat), .list (ys.map .nat)]) (listed (xs ++ ys)) ∧
    Gives (.app [.var "map", .var "succ", .list (xs.map .nat)]) (listed (xs.map (· + 1))) ∧
    Gives (.app [.var "filter", .var "is_zero", .list (xs.map .nat)]) (listed (xs.filter (· = 0))) ∧
    Gives (.app [.var "tail", .list (xs.map .nat)]) (listed xs.tail) ∧
    Gives (.app [.var "length", .list (xs.map .nat)]) (.nat xs.length) ∧
    Gives (.app [.var "foldr", .var "add", .nat 0, .list (xs.map .nat)]) (.nat xs.sum) ∧
    Gives (.app [.var "head", .list ((x :: xs).map .nat)]) (.nat x) ∧
    Gives (.app [.var "is_nil", .list (xs.map .nat)]) (verdict (xs = [])) := by
  have one (xs : List Nat) := List.Forall₂.cons (argument_list xs) .nil
  refine ⟨gives_call rfl (.cons (argument_list xs) (one ys))
    (reduces_append xs ys) (shows_numbers _),
    gives_call rfl (.cons (argument_var rfl) (one xs))
      (reduces_map within_succ reduces_succ xs) (shows_numbers _),
    gives_call rfl (.cons (argument_var rfl) (one xs))
      (reduces_filter within_isZero reduces_isZero xs) (shows_numbers _),
    gives_call rfl (one xs) (reduces_tail xs) (shows_numbers _),
    gives_call rfl (one xs) (reduces_length xs) (shows_numeral _),
    gives_call rfl (.cons (argument_var rfl) (.cons (argument_nat 0) (one xs)))
      (reduces_foldr reduces_add 0 xs) (shows_numeral _),
    gives_call rfl (one (x :: xs)) (reduces_head x xs) (shows_numeral x), ?_⟩
  exact gives_call rfl (one xs) (reduces_isNil xs) (shows_truth _)

end SugaredLambda.Library
