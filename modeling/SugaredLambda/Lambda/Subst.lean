import SugaredLambda.Lambda.Basic

/-! Shifting and substitution for nameless terms. -/
namespace SugaredLambda.Lambda

/-- Adds `n` to the variables that escape `cutoff` binders. -/
def shift (n cutoff : Int) : Lambda → Lambda
  | .var i => .var (if cutoff ≤ i then i + n else i)
  | .abs b => .abs (b.shift n (cutoff + 1))
  | .app f a => .app (f.shift n cutoff) (a.shift n cutoff)

/-- Puts `value` for the variable `depth` and closes the gap that it leaves; the value moves under
all the binders in one shift. -/
def subst (depth : Int) (value : Lambda) : Lambda → Lambda
  | .var i => if i = depth then value.shift depth 0 else .var (if depth < i then i - 1 else i)
  | .abs b => .abs (subst (depth + 1) value b)
  | .app f a => .app (subst depth value f) (subst depth value a)

def beta (body arg : Lambda) : Lambda := subst 0 arg body

theorem shift_zero (t : Lambda) (cutoff : Int) : t.shift 0 cutoff = t := by
  induction t generalizing cutoff with
  | var i => simp [shift]
  | abs b ih => simp [shift, ih]
  | app f a ihf iha => simp [shift, ihf, iha]

end SugaredLambda.Lambda
