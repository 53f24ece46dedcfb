import SugaredLambda.Text.Integer

/-! The options of a run, as they are given on the command line. -/
namespace SugaredLambda

structure Options where
  debug : Bool := false
  evaluate : Bool := false
  library : Bool := false
  allReadings : Bool := false
  limit : Option Nat := none
  deriving DecidableEq

namespace Options

/-- A limit below one is none. -/
def positive? (n : Int) : Option Nat := if 0 < n then some n.toNat else none

def add (o : Options) (arg : String) : Options × Option String :=
  match arg.toList with
  | 's' :: 't' :: 'e' :: 'p' :: 's' :: ':' :: digits =>
    match Text.readInt? digits with
    | some n => ({ o with limit := positive? n }, none)
    | none =>
      ({ o with limit := none }, some s!"Ignoring invalid step limit: {String.ofList digits}")
  | _ =>
    if arg = "debug" then ({ o with debug := true }, none)
    else if arg = "eval" then ({ o with evaluate := true }, none)
    else if arg = "prelude" then ({ o with library := true }, none)
    else if arg = "all" then ({ o with allReadings := true }, none)
    else (o, some s!"Ignoring unknown option: {arg}")

/-- Later options win, and all complaints are kept in order. -/
def ofArgs (args : List String) : Options × List String :=
  args.foldl (fun (o, complaints) arg =>
    let (o, complaint) := o.add arg
    (o, complaints ++ complaint.toList)) ({}, [])

end Options
end SugaredLambda
