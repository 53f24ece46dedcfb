import SugaredLambda.Term.Fold
import SugaredLambda.Text.Quoted

/-! A term by the names of its nodes: `Application([Variable(f), Natural(3)])`. -/
namespace SugaredLambda.Term

def quotedName (s : String) : String := String.ofList (Text.quoted s.toList)

def commaList (parts : List String) : String := ", ".intercalate parts

def squared (parts : List String) : String := "[" ++ commaList parts ++ "]"

def node (name : String) (parts : List String) : String := name ++ "(" ++ commaList parts ++ ")"

/-- Names are quoted, except that of a variable. -/
def describer : Algebra String where
  abs ps b := node "Abstraction" [squared (ps.map quotedName), b]
  app ts := node "Application" [squared ts]
  var x := node "Variable" [x]
  nat n := node "Natural" [toString n]
  list ts := node "ListLit" [squared ts]
  tuple ts := node "TupleLit" [squared ts]
  char s := node "Char" [quotedName s]
  str s := node "StringLit" [quotedName s]
  word n := node "Word32" [toString n]
  record cs :=
    let field (x : Field String) := node "" [quotedName x.name, x.body]
    node "Adt" [squared (cs.map fun c => node "" [quotedName c.name, squared (c.fields.map field)])]
  letIn bs b :=
    let binding (x : Binding String) := node "Binding"
      ["name=" ++ quotedName x.name, "params=" ++ squared (x.params.map quotedName),
        "body=" ++ x.body]
    node "LetBlock" [squared (bs.map binding), b]

def describe : Term → String := fold describer

end SugaredLambda.Term
