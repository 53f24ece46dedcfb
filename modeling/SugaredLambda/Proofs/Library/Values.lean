import SugaredLambda.Proofs.Church.Canonical
import SugaredLambda.Proofs.Church.Ground
import SugaredLambda.Proofs.Church.Loops
import SugaredLambda.Proofs.Library.Selection

/-! What the definitions of the library are worth as nameless terms, which settles calls by
reduction (`gives_call`). -/
namespace SugaredLambda.Library
open Lambda Church Definitions

namespace Value

def cond : Lambda := binders 3 (apply (.var 2) [.var 1, .var 0])
def not : Lambda := .abs (apply (.var 0) [truth false, truth true])
def and : Lambda := binders 2 (apply (.var 1) [.var 0, truth false])
def or : Lambda := binders 2 (apply (.var 1) [truth true, .var 0])
def half : Lambda := .abs (.app (.var 1) (.app (.var 0) (.var 0)))
def fixpoint : Lambda := .abs (.app half half)
def fst : Lambda := .abs (.app (.var 0) (truth true))
def snd : Lambda := .abs (.app (.var 0) (truth false))

def succ : Lambda := binders 3 (.app (.var 1) (apply (.var 2) [.var 1, .var 0]))
def add : Lambda := binders 4 (apply (.var 3) [.var 1, apply (.var 2) [.var 1, .var 0]])
def mul : Lambda := binders 3 (.app (.var 2) (.app (.var 1) (.var 0)))
def pow : Lambda := binders 2 (.app (.var 0) (.var 1))
def pred : Lambda := binders 3 (apply (.var 2)
  [binders 2 (.app (.var 0) (.app (.var 1) (.var 3))), .abs (.var 1), .abs (.var 0)])
def sub : Lambda := binders 2 (apply (.var 0) [pred, .var 1])
def isZero : Lambda := .abs (apply (.var 0) [.abs (truth false), truth true])
def leq : Lambda := binders 2 (.app isZero (apply sub [.var 1, .var 0]))
def eq : Lambda := binders 2 (apply and [apply leq [.var 1, .var 0], apply leq [.var 0, .var 1]])

def nil : Lambda := foldList []
def cons : Lambda := binders 4 (apply (.var 1) [.var 3, apply (.var 2) [.var 1, .var 0]])
def isNil : Lambda := .abs (apply (.var 0) [binders 2 (truth false), truth true])
def head : Lambda := .abs (apply (.var 0) [binders 2 (.var 1), nil])
def tail : Lambda := .abs (.app fst (apply (.var 0)
  [binders 2 (consumed [.app snd (.var 1), apply cons [.var 2, .app snd (.var 1)]]),
    consumed [nil, nil]]))
def foldr : Lambda := binders 3 (apply (.var 0) [.var 2, .var 1])
def map : Lambda :=
  binders 4 (apply (.var 2) [binders 2 (apply (.var 3) [.app (.var 5) (.var 1), .var 0]), .var 0])
def filter : Lambda := binders 4 (apply (.var 2)
  [binders 2 (apply (.var 5) [.var 1, apply (.var 3) [.var 1, .var 0], .var 0]), .var 0])
def append : Lambda := binders 4 (apply (.var 3) [.var 1, apply (.var 2) [.var 1, .var 0]])
def length : Lambda := .abs (apply (.var 0) [binders 2 (.app succ (.var 0)), numeral 0])

end Value

def values : Env := [("length", Value.length), ("append", Value.append), ("filter", Value.filter),
    ("map", Value.map),
  ("foldr", Value.foldr), ("tail", Value.tail), ("head", Value.head), ("is_nil", Value.isNil),
    ("cons", Value.cons),
  ("nil", Value.nil), ("eq", Value.eq), ("leq", Value.leq), ("is_zero", Value.isZero),
    ("sub", Value.sub),
  ("pred", Value.pred), ("pow", Value.pow), ("mul", Value.mul), ("add", Value.add),
    ("succ", Value.succ),
  ("snd", Value.snd), ("fst", Value.fst), ("Y", Value.fixpoint), ("or", Value.or),
    ("and", Value.and),
  ("not", Value.not), ("if", Value.cond), ("false", truth false), ("true", truth true)]

theorem settle_definitions : settle definitions [] = .ok values := by decide +kernel

theorem settled_values : values.Closed ∧ Settled values definitions := by
  obtain ⟨hclosed, -, hsettled⟩ :=
    settled_of_settle hasEmptyApplication_definitions closed_nil (by decide +kernel)
    (fun _ _ => rfl) settle_definitions
  exact ⟨hclosed, hsettled⟩

theorem within_of_lookup {x : String} {v : Lambda} (h : values.lookup x = some v) : v.Within 0 :=
  settled_values.1 (x, v) (mem_of_lookup h)

namespace Value

@[simp] theorem within_and : and.Within 0 := within_of_lookup (x := "and") rfl
@[simp] theorem within_fst : fst.Within 0 := within_of_lookup (x := "fst") rfl
@[simp] theorem within_snd : snd.Within 0 := within_of_lookup (x := "snd") rfl
@[simp] theorem within_succ : succ.Within 0 := within_of_lookup (x := "succ") rfl
@[simp] theorem within_pred : pred.Within 0 := within_of_lookup (x := "pred") rfl
@[simp] theorem within_sub : sub.Within 0 := within_of_lookup (x := "sub") rfl
@[simp] theorem within_isZero : isZero.Within 0 := within_of_lookup (x := "is_zero") rfl
@[simp] theorem within_leq : leq.Within 0 := within_of_lookup (x := "leq") rfl
@[simp] theorem within_nil : nil.Within 0 := within_of_lookup (x := "nil") rfl
@[simp] theorem within_cons : cons.Within 0 := within_of_lookup (x := "cons") rfl

end Value

theorem exists_definition_of_lookup {x : String} {v : Lambda} (h : values.lookup x = some v) :
    ∃ d ∈ definitions, d.name = x := by
  have hnames : ∀ e ∈ values, ∃ d ∈ definitions, d.name = e.1 := by decide +kernel
  exact hnames (x, v) (mem_of_lookup h)

section
variable {t v : Term} {l n : Lambda}

theorem reduces_ground_of_encoded (h : (sort (supply t)).encoded = .ok l) :
    ∃ w, ground values (sort t) = .ok w ∧ Reduces l w := by
  rw [encoded_sort_supply] at h
  obtain ⟨hempty, hplace⟩ := Term.encoded_eq_ok_iff.1 h
  rw [hasEmptyApplication_letIn_chosen] at hempty
  obtain ⟨env, w, hsettle, hclosed, hw, hsteps⟩ := leftmostAfter_block closed_nil hplace
  -- What the chosen definitions are worth on their own is what they are worth in the whole library.
  have hext := extends_of_settle
    (fun d hd => hasEmptyApplication_definitions d (mem_definitions hd)) closed_nil
    settled_values.1 (fun _ _ h => by cases h)
      (fun d hd => settled_values.2 d (mem_definitions hd)) hsettle
  exact ⟨w, ground_extends hempty hclosed settled_values.1 hext hw, reduces_of_leftmostAfter hsteps⟩

theorem exists_encoded_of_ground (happ : t.hasEmptyApplication = false)
    (hnames : ∀ x ∈ (sort t).demanded, x ∈ t.freeNames) (h : ground values (sort t) = .ok l) :
    ∃ p, (sort (supply t)).encoded = .ok p := by
  rw [← hasEmptyApplication_sort] at happ
  have hempty := (hasEmptyApplication_letIn_chosen t (sort t)).trans happ
  have hknown : ∀ x, x ∉ (Term.letIn (chosen t) (sort t)).demanded := fun x hx => by
    obtain ⟨hx, hnot⟩ := mem_demanded_of_inTurn (inTurn_chosen t)
      (fun d hd => required_definitions d (mem_definitions hd)) hx
    obtain ⟨v, hv⟩ := exists_lookup_of_ground happ h hx
    obtain ⟨d, hd, rfl⟩ := exists_definition_of_lookup hv
    exact hnot (List.mem_map_of_mem (mem_chosen hd (hnames _ hx)))
  obtain ⟨p, hp⟩ := ((asks_place hempty).answers [] 0).exists_ok fun x hx => hknown x hx.1
  exact ⟨p, (encoded_sort_supply t).trans (Term.encoded_eq_ok_iff.2 ⟨hempty, hp⟩)⟩

/-- With the library a program comes to the normal form of what it is worth there. -/
theorem exists_evaluate_supply_iff (happ : t.hasEmptyApplication = false)
    (hnames : ∀ x ∈ (sort t).demanded, x ∈ t.freeNames) :
    (∃ N, (sort (supply t)).evaluate N = .ok v) ↔
      ∃ l n, ground values (sort t) = .ok l ∧ Reduces l n ∧ Normal n ∧ decode n = v := by
  rw [Term.exists_evaluate_iff]
  constructor
  · rintro ⟨p, n, hp, hn, hnormal, hv⟩
    obtain ⟨l, hl, hreduces⟩ := reduces_ground_of_encoded hp
    exact ⟨l, n, hl, (reduces_normal_iff hreduces hnormal).2 hn, hnormal, hv⟩
  · rintro ⟨l, n, hl, hn, hnormal, hv⟩
    obtain ⟨p, hp⟩ := exists_encoded_of_ground happ hnames hl
    obtain ⟨l', hl', hreduces⟩ := reduces_ground_of_encoded hp
    obtain rfl := Except.ok.inj (hl.symm.trans hl')
    exact ⟨p, n, hp, hreduces.trans hn, hnormal, hv⟩

end

/-- With the library a program gives a term, under every limit that is high enough. -/
def Gives (t v : Term) : Prop := ∃ N, ∀ M, N ≤ M → (sort (supply t)).evaluate M = .ok v

theorem Gives.unique {t v w : Term} (hv : Gives t v) (hw : Gives t w) : v = w := by
  obtain ⟨N, hN⟩ := hv
  obtain ⟨M, hM⟩ := hw
  exact Except.ok.inj ((hN (max N M) (Nat.le_max_left N M)).symm.trans
    (hM (max N M) (Nat.le_max_right N M)))

/-- A normal form and its reading. -/
structure Shows (n : Lambda) (v : Term) : Prop where
  normal : Normal n
  decode_eq : decode n = v

def Argument (t : Term) (l : Lambda) : Prop := t.Plain ∧ ground values t = .ok l

section
variable {t v : Term} {c l n : Lambda} {ts : List Term} {ls : List Lambda} {x : String}

theorem argument_var (h : values.lookup x = some l) : Argument (.var x) l :=
  ⟨.var x, ground_var settled_values.1 h⟩

theorem argument_of_encoded (hplain : t.Plain) (h : t.encoded = .ok l) : Argument t l :=
  ⟨hplain, ground_of_encoded values h⟩

theorem gives_call (hx : values.lookup x = some c) (hts : List.Forall₂ Argument ts ls)
    (h : Reduces (c.apply ls) n) (hn : Shows n v) : Gives (.app (.var x :: ts)) v := by
  obtain ⟨hargs, hground⟩ := (List.forall₂_and_left ts ls).1 hts
  have hplain : (Term.app (.var x :: ts)).Plain :=
    .app (List.cons_ne_nil _ _) (List.forall_mem_cons.2 ⟨.var x, hargs⟩)
  have hsort := sort_eq_self hplain.hasBlock
  have hground := ground_app (ground_var settled_values.1 hx) hground
  obtain ⟨N, hN⟩ := (exists_evaluate_supply_iff (v := v) hplain.hasEmptyApplication fun x hx =>
    (hplain.mem_demanded_iff x).1 (hsort ▸ hx)).2 ⟨_, n, hsort.symm ▸ hground, h,
      hn.normal, hn.decode_eq⟩
  exact ⟨N, fun M hM => Term.evaluate_mono hM hN⟩

end
end SugaredLambda.Library
