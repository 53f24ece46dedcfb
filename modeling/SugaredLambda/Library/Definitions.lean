import SugaredLambda.Term.Basic

/-! The standard definitions, in an order in which each uses only those before it. -/
namespace SugaredLambda.Library

local instance : Coe String Term := ⟨.var⟩

/-- Booleans select one of two arguments, and a pair hands its parts to a consumer. -/
def logic : List (Binding Term) := [
  ⟨"true", ["a", "b"], "a"⟩,
  ⟨"false", ["a", "b"], "b"⟩,
  ⟨"if", ["c", "t", "e"], .app ["c", "t", "e"]⟩,
  ⟨"not", ["b"], .app ["b", "false", "true"]⟩,
  ⟨"and", ["a", "b"], .app ["a", "b", "false"]⟩,
  ⟨"or", ["a", "b"], .app ["a", "true", "b"]⟩,
  ⟨"Y", ["f"], .app [.abs ["x"] (.app ["f", .app ["x", "x"]]),
    .abs ["x"] (.app ["f", .app ["x", "x"]])]⟩,
  ⟨"fst", ["p"], .app ["p", .abs ["a", "b"] "a"]⟩,
  ⟨"snd", ["p"], .app ["p", .abs ["a", "b"] "b"]⟩]

/-- A number applies its first argument so many times to its second. -/
def arithmetic : List (Binding Term) := [
  ⟨"succ", ["n", "f", "x"], .app ["f", .app ["n", "f", "x"]]⟩,
  ⟨"add", ["m", "n", "f", "x"], .app ["m", "f", .app ["n", "f", "x"]]⟩,
  ⟨"mul", ["m", "n", "f"], .app ["m", .app ["n", "f"]]⟩,
  ⟨"pow", ["m", "n"], .app ["n", "m"]⟩,
  ⟨"pred", ["n", "f", "x"], .app ["n",
    .abs ["g", "h"] (.app ["h", .app ["g", "f"]]), .abs ["u"] "x", .abs ["u"] "u"]⟩,
  ⟨"sub", ["m", "n"], .app ["n", "pred", "m"]⟩,
  ⟨"is_zero", ["n"], .app ["n", .abs ["x"] "false", "true"]⟩,
  ⟨"leq", ["m", "n"], .app ["is_zero", .app ["sub", "m", "n"]]⟩,
  ⟨"eq", ["m", "n"], .app ["and", .app ["leq", "m", "n"], .app ["leq", "n", "m"]]⟩]

/-- A list is its own right fold: `[1,2]` is `(c n -> (c 1 (c 2 n)))`. -/
def lists : List (Binding Term) := [
  ⟨"nil", ["c", "n"], "n"⟩,
  ⟨"cons", ["h", "t", "c", "n"], .app ["c", "h", .app ["t", "c", "n"]]⟩,
  ⟨"is_nil", ["l"], .app ["l", .abs ["h", "t"] "false", "true"]⟩,
  ⟨"head", ["l"], .app ["l", .abs ["h", "t"] "h", "nil"]⟩,
  ⟨"tail", ["l"], .app ["fst", .app ["l",
    .abs ["h", "p"] (.tuple [.app ["snd", "p"], .app ["cons", "h", .app ["snd", "p"]]]),
    .tuple ["nil", "nil"]]]⟩,
  ⟨"foldr", ["f", "z", "l"], .app ["l", "f", "z"]⟩,
  ⟨"map", ["f", "l", "c", "n"],
    .app ["l", .abs ["h", "t"] (.app ["c", .app ["f", "h"], "t"]), "n"]⟩,
  ⟨"filter", ["p", "l", "c", "n"], .app ["l",
    .abs ["h", "t"] (.app ["p", "h", .app ["c", "h", "t"], "t"]), "n"]⟩,
  ⟨"append", ["a", "b", "c", "n"], .app ["a", "c", .app ["b", "c", "n"]]⟩,
  ⟨"length", ["l"], .app ["l", .abs ["h", "t"] (.app ["succ", "t"]), .nat 0]⟩]

def definitions : List (Binding Term) := logic ++ arithmetic ++ lists

end SugaredLambda.Library
