import SugaredLambda.Command.Path
import SugaredLambda.Command.Run
import SugaredLambda.Command.Unbounded

/-! The command line. -/
namespace SugaredLambda.Command

def reason (path : String) (e : IO.Error) : String :=
  let because (code text : String) :=
    "[Errno " ++ code ++ "] " ++ text ++ ": " ++ Term.quotedName path
  match e with
  | .noFileOrDirectory .. => because "2" "No such file or directory"
  | .permissionDenied .. => because "13" "Permission denied"
  | .inappropriateType .. => because "21" "Is a directory"
  | e => toString e

def terminal : Host IO where
  say line := IO.println line
  milliseconds := IO.monoMsNow
  absolutePath path := return absolutePath (← IO.currentDir).toString path
  contents path := try return .ok (← IO.FS.readFile path) catch e => return .error (reason path e)
  normal t := return normalUnbounded t

end SugaredLambda.Command

def main (args : List String) : IO UInt32 := do
  return if ← SugaredLambda.Command.execute SugaredLambda.Command.terminal args then 0 else 1
