import Interpolate.Program
import Interpolate.Text.Utf8
import Std.Time.Zoned

/-!
# The executable

Runs the program on the host that the operating system is: the process environment, its files, the local time and the
working directory.
-/

namespace Interpolate

namespace OperatingSystem

/-- The number and the description that the operating system gives for an error. -/
def systemError? : IO.Error → Option (UInt32 × String)
  | .alreadyExists _ code details => some (code, details)
  | .otherError code details => some (code, details)
  | .resourceBusy code details => some (code, details)
  | .resourceVanished code details => some (code, details)
  | .unsupportedOperation code details => some (code, details)
  | .hardwareFault code details => some (code, details)
  | .unsatisfiedConstraints code details => some (code, details)
  | .illegalOperation code details => some (code, details)
  | .protocolError code details => some (code, details)
  | .timeExpired code details => some (code, details)
  | .interrupted _ code details => some (code, details)
  | .noFileOrDirectory _ code details => some (code, details)
  | .invalidArgument _ code details => some (code, details)
  | .permissionDenied _ code details => some (code, details)
  | .resourceExhausted _ code details => some (code, details)
  | .inappropriateType _ code details => some (code, details)
  | .noSuchThing _ code details => some (code, details)
  | .unexpectedEof => none
  | .userError _ => none

/-- What an error says about a file. Error numbers may come with a minus sign in front. -/
def fault (error : IO.Error) : FileFault :=
  match systemError? error with
  | some (code, details) =>
    let number := if code < 0x80000000 then code else 0 - code
    if number = 2 then .missing
    else if number = 20 then .notDirectory
    else if number = 21 then .directory
    else .other (details.capitalize ++ " (os error " ++ toString number ++ ")")
  | none => .other (toString error)

/-- The content of a file. -/
def readFile (path : String) : IO (Except FileFault String) := do
  try
    let bytes ← IO.FS.readBinFile path
    match Text.decode? bytes.toList with
    | some text => return .ok text
    | none => return .error .notText
  catch error => return .error (fault error)

/-- The local time now. -/
def localTime : IO LocalTime := do
  let now ← Std.Time.PlainDateTime.now
  return {
    year := now.date.year.toInt.toNat
    month := now.date.month.toNat
    day := now.date.day.toNat
    weekday := now.date.weekday.toOrdinal.toNat
    hour := now.time.hour.toNat
    minute := now.time.minute.toNat
    second := now.time.second.val.toNat }

/-- The working directory. -/
def workingDirectory : IO (Except String String) := do
  try
    return .ok (← IO.currentDir).toString
  catch error => return .error (fault error).message

/-- The operating system as a host. -/
def host : Host IO where
  environment name := IO.getEnv name
  readFile := readFile
  time := localTime
  workingDirectory := workingDirectory

end OperatingSystem

end Interpolate

/-- Runs the program and writes its report. -/
def main (elements : List String) : IO UInt32 := do
  let report ← Interpolate.Program.run Interpolate.OperatingSystem.host elements
  for (channel, line) in report.lines do
    match channel with
    | .output => IO.println line
    | .errors => IO.eprintln line
  return report.status.toUInt32
