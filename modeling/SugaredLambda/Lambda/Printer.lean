import SugaredLambda.Lambda.Basic

/-! The written form of a nameless term: `(λ body)`, `(fn arg)`, or the index in decimal. -/
namespace SugaredLambda.Lambda

def indexChars : Int → List Char
  | .ofNat n => Nat.toDigits 10 n
  | .negSucc n => '-' :: Nat.toDigits 10 (n+1)

theorem toDigits_inj {m n : Nat} (h : Nat.toDigits 10 m = Nat.toDigits 10 n) : m = n := by
  rw [← Nat.ofDigitChars_ten_toDigits (n := m), h, Nat.ofDigitChars_ten_toDigits]

/-- The text of a term in front of what follows it. -/
def charsBefore : Lambda → List Char → List Char
  | .var i, rest => indexChars i ++ rest
  | .abs b, rest => '(' :: 'λ' :: ' ' :: b.charsBefore (')' :: rest)
  | .app f a, rest => '(' :: f.charsBefore (' ' :: a.charsBefore (')' :: rest))

theorem charsBefore_append (t : Lambda) (u v : List Char) :
    t.charsBefore (u ++ v) = t.charsBefore u ++ v := by
  induction t generalizing u with
  | var i => simp [charsBefore]
  | abs b ih => simp [charsBefore, ← ih]
  | app f a ihf iha => simp [charsBefore, ← ihf, ← iha]

def text (t : Lambda) : String := String.ofList (t.charsBefore [])

/-- The text that names each constructor: `Lam(App(Var(0), Var(1)))`. -/
def describeBefore : Lambda → List Char → List Char
  | .var i, rest => "Var(".toList ++ indexChars i ++ ')' :: rest
  | .abs b, rest => "Lam(".toList ++ b.describeBefore (')' :: rest)
  | .app f a, rest =>
    "App(".toList ++ f.describeBefore (',' :: ' ' :: a.describeBefore (')' :: rest))

def describe (t : Lambda) : String := String.ofList (t.describeBefore [])

end SugaredLambda.Lambda
