import SugaredLambda.Proofs.Library.Arithmetic

/-! Sorting hands a definition that needs itself to itself, and `Y` supplies it as often as it is
asked for. -/
namespace SugaredLambda

/-- A term on its own, without blocks: no name is free, and no application is empty. -/
structure Term.Standalone (t : Term) : Prop where
  closed : t.freeNames = []
  hasBlock : t.hasBlock = false
  hasEmptyApplication : t.hasEmptyApplication = false

theorem Term.Standalone.exists_encoded {t : Term} (h : t.Standalone) : ∃ l, t.encoded = .ok l := by
  obtain ⟨l, hl⟩ := ((Church.asks_place h.hasEmptyApplication).answers [] 0).exists_ok
      fun x ⟨hx, _⟩ =>
    List.not_mem_nil (h.closed ▸ mem_freeNames_of_mem_demanded h.hasBlock hx)
  exact ⟨l, encoded_eq_ok_iff.2 ⟨h.hasEmptyApplication, hl⟩⟩

namespace Library
open Lambda Church Definitions Value
variable {s z : Term} {ls lz w : Lambda}

/-- `r n = if (is_zero n) z (s n (r (pred n)))` -/
def countdownBody (s z : Term) : Term :=
  .app [.var "if", .app [.var "is_zero", .var "n"], z,
    .app [s, .var "n", .app [.var "r", .app [.var "pred", .var "n"]]]]

def countdown (s z : Term) (k : Nat) : Term :=
  .letIn [⟨"r", ["n"], countdownBody s z⟩] (.app [.var "Y", .var "r", .nat k])

def unrolled (s z : Term) : Nat → Term
  | 0 => z
  | j+1 => .app [s, .nat (j + 1), unrolled s z j]

def unfolded (ls lz : Lambda) : Nat → Lambda
  | 0 => lz
  | j+1 => ls.apply [numeral (j + 1), unfolded ls lz j]

theorem sort_countdown (hs : s.hasBlock = false) (hz : z.hasBlock = false) (k : Nat) :
    sort (countdown s z k) =
      .letIn [⟨"r", ["r", "n"], countdownBody s z⟩] (.app [.var "Y", .var "r", .nat k]) := by
  have hbody : sort (countdownBody s z) = countdownBody s z :=
    sort_eq_self (by simpa [countdownBody, Term.hasBlock, Term.fold, Term.someChild] using ⟨hz, hs⟩)
  have hself : "r" ∈ requirements (Binding.map sort ⟨"r", ["n"], countdownBody s z⟩) := by
    rw [requirements, Term.freeNames_eq, Binding.map, hbody]
    simp [countdownBody]
  rw [countdown, sort_letIn_self hself]
  simp only [hbody]
  rfl

theorem encoded_unrolled (hs : s.encoded = .ok ls) (hz : z.encoded = .ok lz) (k : Nat) :
    (unrolled s z k).encoded = .ok (unfolded ls lz k) := by
  induction k with
  | zero => exact hz
  | succ j ih => exact encoded_app hs (.cons rfl (.cons ih .nil))

theorem demanded_sort_countdown (hs : s.encoded = .ok ls) (hz : z.encoded = .ok lz)
    (hsblock : s.hasBlock = false) (hzblock : z.hasBlock = false) (k : Nat) :
    (sort (countdown s z k)).demanded = ["if", "is_zero", "pred", "Y"] := by
  rw [sort_countdown hsblock hzblock]
  simp [Term.demanded_letIn_cons, Term.demanded_letIn_nil, countdownBody, Term.demanded_app,
    Term.demanded_var, Term.demanded_nat, demanded_of_encoded hs, demanded_of_encoded hz, without]

theorem hasEmptyApplication_countdown (hs : s.encoded = .ok ls)
    (hz : z.encoded = .ok lz) (k : Nat) : (countdown s z k).hasEmptyApplication = false := by
  simpa [countdown, countdownBody, Term.hasEmptyApplication, Term.fold, Term.someChild, Binding.map]
    using And.intro (Term.encoded_eq_ok_iff.1 hz).1 (Term.encoded_eq_ok_iff.1 hs).1

theorem reduces_cond (c t e : Lambda) : Reduces (apply cond [c, t, e]) (apply c [t, e]) :=
  reduces_of_put [e, t, c] (by simp [put, apply, shift_zero])

/-- A term that is handed itself, for `r` to be handed both. -/
def again (r : Lambda) : Lambda := .abs (.app r (.app (.var 0) (.var 0)))

theorem within_again {r : Lambda} (hr : r.Within 0) : (again r).Within 0 :=
  ⟨hr.mono (Nat.zero_le 1), ⟨by decide, by decide⟩, by decide, by decide⟩

theorem reduces_fixpoint {r : Lambda} (hr : r.Within 0) :
    Reduces (.app fixpoint r) (.app (again r) (again r)) :=
  reduces_of_put [r] (by simp [put, half, again, shift_of_closed, hr])

theorem reduces_again {r : Lambda} (hr : r.Within 0) :
    Reduces (.app (again r) (again r)) (.app r (.app (again r) (again r))) :=
  reduces_of_put [again r] (by simp [put, put_of_closed, hr, shift_zero])

/-- A round where the definition is worth `w`: the next one is a call of `w`. -/
theorem reduces_round {r : Lambda} (hs : s.encoded = .ok ls) (hz : z.encoded = .ok lz)
    (hr : ground values (.abs ["r", "n"] (countdownBody s z)) = .ok r) (hw : w.Within 0) (k : Nat) :
    Reduces (r.apply [w, numeral k]) (apply cond [.app isZero (numeral k), lz,
      ls.apply [numeral k, .app w (.app pred (numeral k))]]) := by
  have hargs : ∀ v ∈ [w, numeral k], v.Within 0 := by simp [hw, within_numeral]
  obtain ⟨u, hu, hcall⟩ := reduces_call_ground hargs rfl hr
  have hclosed : Env.Closed (("n", numeral k) :: ("r", w) :: values) :=
    List.forall_mem_cons.2 ⟨within_numeral k, List.forall_mem_cons.2 ⟨hw, settled_values.1⟩⟩
  have hcount := ground_var (x := "n") hclosed rfl
  have hzero := ground_app (ground_var (x := "is_zero") hclosed rfl) (.cons hcount .nil)
  have hpred := ground_app (ground_var (x := "pred") hclosed rfl) (.cons hcount .nil)
  have hself := ground_app (ground_var (x := "r") hclosed rfl) (.cons hpred .nil)
  have hstep := ground_app (ground_of_encoded _ hs) (.cons hcount (.cons hself .nil))
  have hbody := ground_app (ground_var (x := "if") hclosed rfl)
    (.cons hzero (.cons (ground_of_encoded _ hz) (.cons hstep .nil)))
  obtain rfl := Except.ok.inj (hu.symm.trans hbody)
  exact hcall

theorem reduces_unfolded
    (hround : ∀ k, Reduces (.app w (numeral k)) (apply cond [.app isZero (numeral k), lz,
    ls.apply [numeral k, .app w (.app pred (numeral k))]])) (k : Nat) :
    Reduces (.app w (numeral k)) (unfolded ls lz k) := by
  have htest (k : Nat) : Reduces (.app w (numeral k)) (if k = 0 then lz else
      ls.apply [numeral k, .app w (.app pred (numeral k))]) := by
    generalize hnext : ls.apply [numeral k, .app w (.app pred (numeral k))] = next
    calc
      Reduces (.app w (numeral k)) (apply cond [.app isZero (numeral k), lz, next]) :=
        hnext ▸ hround k
      Reduces _ (apply (.app isZero (numeral k)) [lz, next]) := reduces_cond _ lz next
      Reduces _ (apply (truth (k = 0)) [lz, next]) :=
          Reduces.apply (reduces_isZero k) (.cons .refl (.cons .refl .nil))
      Reduces _ (if decide (k = 0) then lz else next) := reduces_truth _ lz next
      _ = if k = 0 then lz else next := by simp only [decide_eq_true_eq]
  induction k with
  | zero => exact htest 0
  | succ j ih =>
    calc
      Reduces (.app w (numeral (j + 1)))
          (ls.apply [numeral (j + 1), .app w (.app pred (numeral (j + 1)))]) :=
        htest (j + 1)
      Reduces _ (ls.apply [numeral (j + 1), .app w (numeral j)]) :=
        Reduces.apply .refl (.cons .refl (.cons (.app .refl (reduces_pred (j + 1))) .nil))
      Reduces _ (unfolded ls lz (j + 1)) := Reduces.apply .refl (.cons .refl (.cons ih .nil))

theorem reduces_countdown (hs : s.encoded = .ok ls) (hz : z.encoded = .ok lz)
    (hsblock : s.hasBlock = false) (hzblock : z.hasBlock = false) (k : Nat) :
    ∃ l, ground values (sort (countdown s z k)) = .ok l ∧ Reduces l (unfolded ls lz k) := by
  have hknown : ∀ x ∈ ["if", "is_zero", "pred", "Y"], (values.lookup x).isSome := by decide +kernel
  have happ := (hasEmptyApplication_sort _).trans (hasEmptyApplication_countdown hs hz k)
  obtain ⟨l, hl⟩ := exists_ground happ settled_values.1 fun x hx =>
    Option.isSome_iff_exists.1 (hknown x (demanded_sort_countdown hs hz hsblock hzblock k ▸ hx))
  refine ⟨l, hl, ?_⟩
  -- The definition is settled first: it is worth a function `r` of itself and of a number.
  obtain ⟨p, hp, rfl⟩ := ground_eq_ok_iff.1 hl
  rw [sort_countdown hsblock hzblock] at hp
  obtain ⟨env, u, hsettle, hclosed, hu, hsteps⟩ := leftmostAfter_block settled_values.1 hp
  obtain ⟨r, hr, hrest⟩ := settle_cons_eq_ok_iff.1 hsettle
  obtain rfl := Except.ok.inj hrest
  have hmain := ground_app (ground_var (x := "Y") hclosed rfl)
    (.cons (ground_var (x := "r") hclosed rfl) (.cons (ground_of_encoded (t := .nat k) _ rfl) .nil))
  obtain rfl := Except.ok.inj (hu.symm.trans hmain)
  have hrclosed := within_ground settled_values.1 hr
  have hw : (Lambda.app (again r) (again r)).Within 0 :=
    ⟨within_again hrclosed, within_again hrclosed⟩
  have hround (k : Nat) :=
    (Reduces.app (reduces_again hrclosed) .refl).trans (reduces_round hs hz hr hw k)
  calc
    Reduces (values.fill 0 p) (apply fixpoint [r, numeral k]) := reduces_of_leftmostAfter hsteps
    Reduces _ (.app (.app (again r) (again r)) (numeral k)) :=
      Reduces.app (reduces_fixpoint hrclosed) .refl
    Reduces _ (unfolded ls lz k) := reduces_unfolded hround k

/-- A definition that counts down comes to a value just when the term that it unrolls to does, and
to the same. -/
theorem evaluate_countdown_iff (hs : s.Standalone) (hz : z.Standalone) (k : Nat) (v : Term) :
    (∃ N, (sort (supply (countdown s z k))).evaluate N = .ok v) ↔
      ∃ N, (unrolled s z k).evaluate N = .ok v := by
  obtain ⟨ls, hls⟩ := hs.exists_encoded
  obtain ⟨lz, hlz⟩ := hz.exists_encoded
  obtain ⟨l, hl, hreduces⟩ := reduces_countdown hls hlz hs.hasBlock hz.hasBlock k
  have hnames : ∀ x ∈ (sort (countdown s z k)).demanded, x ∈ (countdown s z k).freeNames := by
    rw [demanded_sort_countdown hls hlz hs.hasBlock hz.hasBlock, Term.freeNames_eq]
    simp [countdown, countdownBody]
  rw [exists_evaluate_supply_iff (hasEmptyApplication_countdown hls hlz k) hnames,
    Term.exists_evaluate_iff]
  constructor
  · rintro ⟨l', n, hl', hn, hnormal, hv⟩
    obtain rfl := Except.ok.inj (hl.symm.trans hl')
    exact ⟨_, n, encoded_unrolled hls hlz k,
      (reduces_normal_iff hreduces hnormal).2 hn, hnormal, hv⟩
  · rintro ⟨l', n, hl', hn, hnormal, hv⟩
    obtain rfl := Except.ok.inj ((encoded_unrolled hls hlz k).symm.trans hl')
    exact ⟨l, n, hl, (reduces_normal_iff hreduces hnormal).1 hn, hnormal, hv⟩

theorem evaluate_countdown_sum :
    let s : Term := .abs ["n", "a", "f", "x"]
      (.app [.var "n", .var "f", .app [.var "a", .var "f", .var "x"]])
    s.Standalone ∧ (Term.nat 0).Standalone ∧
      ∃ N, (sort (supply (countdown s (.nat 0) 2))).evaluate N = .ok (.nat 3) := by
  intro s
  have hs : s.Standalone := ⟨by decide +kernel, rfl, rfl⟩
  have hz : (Term.nat 0).Standalone := ⟨rfl, rfl, rfl⟩
  have hunrolled : (unrolled s (.nat 0) 2).evaluate 12 = .ok (.nat 3) :=
    Term.evaluate_eq_ok_iff.2 ⟨unfolded add (numeral 0) 2, numeral 3, rfl,
      normalize_eq_ok_iff.2 ⟨rfl, 12, Nat.le_refl 12, rfl⟩,
      (decode_eq_reading _).trans (reading_numeral 0 3)⟩
  exact ⟨hs, hz, (evaluate_countdown_iff hs hz 2 (.nat 3)).2 ⟨12, hunrolled⟩⟩

end Library
end SugaredLambda
