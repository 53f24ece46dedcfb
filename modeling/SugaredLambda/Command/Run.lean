import SugaredLambda.Alternatives
import SugaredLambda.Command.Options
import SugaredLambda.Definitions.Trace
import SugaredLambda.Evaluation
import SugaredLambda.Grammar.Source
import SugaredLambda.Lambda.Printer
import SugaredLambda.Library.Selection
import SugaredLambda.Term.Description

/-! One run of the command line, on any host that can print, tell the time, read files, and reduce a
term for as long as it takes. -/
namespace SugaredLambda

structure Host (m : Type → Type) where
  /-- Prints a text and ends its line. -/
  say : String → m Unit
  milliseconds : m Nat
  absolutePath : String → m String
  contents : String → m (Except String String)
  /-- The normal form and the number of contractions, without a limit. -/
  normal : Lambda → m (Lambda × Nat)

namespace Command
variable {m : Type → Type} [Monad m] (host : Host m) (o : Options)

def parseNote (p : Grammar.Parse) : String :=
  s!"[PARSE] {p.results.length} partial parses, {p.complete.length} complete"

def sortNote : Definitions.Note → String
  | .selfRecursive x => s!"[LETREC] self-recursive binding \x60{x}\x60"
  | .cycle x missing =>
    s!"[LETREC] cycle through \x60{x}\x60 (depends on {Term.squared (missing.map Term.quotedName)})"

def sayTime (start : Nat) : ExceptT Error m Unit := do
  let now ← host.milliseconds
  host.say s!"  Time: {now - start}ms"

def sayReadings (start : Nat) (readings : List Term) : ExceptT Error m Unit := do
  host.say "== Parsing =="
  if o.allReadings then
    for (t, i) in readings.zipIdx do
      host.say s!"  Parse {i}: {t.describe}"
  sayTime host start
  host.say s!"  Found {readings.length} parse trees"
  host.say ""

/-- The last of the readings. -/
def read (source : String) : ExceptT Error m Term := do
  let start ← host.milliseconds
  let p := Grammar.parsed source
  if o.debug then host.say (parseNote p)
  let readings ← liftExcept p.all
  if o.debug then host.say ((Alternatives.ofList readings).draw Term.describe)
  if o.debug || o.allReadings then sayReadings host o start readings
  return readings.getLastD default

def supply (t : Term) : ExceptT Error m Term := do
  if o.debug then
    for source in Library.sources do
      host.say (parseNote (Grammar.parsed source))
  return Library.supply t

def sort (t : Term) : ExceptT Error m Term := do
  if o.debug then
    for n in Definitions.notes t do
      host.say (sortNote n)
  return Definitions.sort t

def normalize (t : Lambda) : ExceptT Error m (Lambda × Nat) :=
  match o.limit with
  | none => host.normal t
  | some limit =>
    match t.normal limit with
    | some found => return found
    | none => throw (.stepLimit limit)

def evaluate (t : Term) : ExceptT Error m Term := do
  let start ← host.milliseconds
  let encoded ← liftExcept t.encoded
  if o.debug then host.say s!"[EVAL] encoded: {encoded.size} nodes"
  let (normal, steps) ← normalize host o encoded
  if o.debug then
    host.say s!"[REDUCE] normal form after {steps} steps"
    host.say s!"[EVAL] normal form: {normal.text}"
  let result := Church.decode normal
  if o.debug then
    host.say "== Evaluation =="
    sayTime host start
    host.say ""
  return result

def run (source : String) : ExceptT Error m Term := do
  let t ← read host o source
  let t ← if o.library then supply host o t else pure t
  let t ← sort host o t
  if o.evaluate then evaluate host o t else pure t

def enabled (b : Bool) : String := if b then "enabled" else "disabled"

def limitText : Option Nat → String
  | some limit => toString limit
  | none => "none"

def sayHeader (path : String) : m Unit := do
  host.say "=== Caramel ==="
  host.say s!"Input: {path}"
  host.say s!"Prelude: {enabled o.library}"
  host.say s!"Evaluation: {enabled o.evaluate}"
  host.say s!"Step limit: {limitText o.limit}"
  host.say ""

def report (e : Error) : String :=
  match e with
  | .unexpected .. => s!"Parse error: {e.message}"
  | .unbound x => s!"Unbound variable: {x}"
  | .recordPrinting | .recordReading => s!"Unsupported: {e.message}"
  | .stepLimit _ | .emptyApplication => s!"Evaluation error: {e.message}"

def usage : String :=
"Usage:
  python -m caramel <input-file> [options...]

Options:
  eval     - Evaluate the program instead of echoing its parse
  prelude  - Make the standard Church definitions available
  all      - Print every parse alternative
  steps:<n> - Give up after n reduction steps
  debug    - Enable debug output

Examples:
  python -m caramel sum.caramel eval prelude
  python -m caramel sum.caramel debug eval prelude steps:100000
"

def sayResult (source : String) : m Bool := do
  let start ← host.milliseconds
  let printed : ExceptT Error m Unit := do
    let t ← run host o source
    let text ← liftExcept t.print
    host.say s!"Result: {text}"
  match ← printed.run with
  | .error e =>
    host.say (report e)
    return false
  | .ok () =>
    if o.debug then
      host.say ""
      let now ← host.milliseconds
      host.say s!"Total time: {now - start}ms"
    return true

/-- Runs the command line and says whether all went well. -/
def execute (args : List String) : m Bool := do
  match args with
  | [] =>
    host.say usage
    return false
  | file :: rest =>
    let path ← host.absolutePath file
    let (o, complaints) := Options.ofArgs rest
    for complaint in complaints do
      host.say complaint
    if o.debug then sayHeader host o path
    match ← host.contents path with
    | .error reason =>
      host.say s!"Failed to read file: {path}"
      host.say s!"Error: {reason}"
      return false
    | .ok source => sayResult host o source

end Command
end SugaredLambda
