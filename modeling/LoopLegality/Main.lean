import LoopLegality.CommandLine.Run

namespace LoopLegality

def systemError : IO.Error → String
  | .noFileOrDirectory _ code details | .permissionDenied _ code details
  | .inappropriateType _ code details | .resourceExhausted _ code details
  | .invalidArgument _ code details => s!"{details} (os error {code})"
  | e => toString e

def diskFiles : Files IO where
  read path := do
    try
      let handle ← IO.FS.Handle.mk path .read
      match String.fromUTF8? (← handle.readBinToEnd) with
      | some text => return .ok text
      | none => return .error "stream did not contain valid UTF-8"
    catch e => return .error (systemError e)
  write path text := do
    try
      IO.FS.writeFile path text
      return .ok ()
    catch e => return .error (systemError e)

end LoopLegality

open LoopLegality in
def main (args : List String) : IO UInt32 := do
  match ← (CommandLine.run diskFiles args).run with
  | .ok result =>
    IO.print result.printed
    return if result.passed then 0 else 1
  | .error failure =>
    IO.eprintln failure.report
    return failure.status
