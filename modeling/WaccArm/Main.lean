import WaccArm.CommandLine.Run

namespace WaccArm

/-- What the system says about a failed access to a file. -/
private def fileErrorOf : IO.Error → FileError
  | .alreadyExists _ code text | .otherError code text | .resourceBusy code text
  | .resourceVanished code text | .unsupportedOperation code text | .hardwareFault code text
  | .unsatisfiedConstraints code text | .illegalOperation code text | .protocolError code text
  | .timeExpired code text | .interrupted _ code text | .noFileOrDirectory _ code text
  | .invalidArgument _ code text | .permissionDenied _ code text | .resourceExhausted _ code text
  | .inappropriateType _ code text | .noSuchThing _ code text =>
    .other (text ++ " (os error " ++ toString code ++ ")")
  | e => .other (toString e)

/-- Access to the files of the machine. -/
def systemFiles : FileAccess IO where
  read path := do
    match ← (IO.FS.readBinFile path).toBaseIO with
    | .ok content => return .ok content.data.toList
    | .error e => return .error (fileErrorOf e)
  write path content := do
    match ← (IO.FS.writeBinFile path ⟨content.toArray⟩).toBaseIO with
    | .ok () => return .ok ()
    | .error e => return .error (fileErrorOf e)

end WaccArm

def main (args : List String) : IO UInt32 := do
  let report ← WaccArm.runCommand WaccArm.systemFiles args
  for line in report.errors do
    IO.eprintln line
  return report.exitCode.toUInt32
