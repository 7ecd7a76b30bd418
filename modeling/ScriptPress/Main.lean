import ScriptPress.Command.Run

/-! # The program -/

namespace ScriptPress.Command

def SystemError.ofError : IO.Error → SystemError
  | .noFileOrDirectory .. => .missing
  | .inappropriateType _ 20 _ => .notDirectory
  | .inappropriateType _ 21 _ => .isDirectory
  | .invalidArgument _ 36 _ => .nameTooLong
  | .permissionDenied .. => .other "Permission denied" 13
  | e => .other (toString e) 5

def readAll (bytes : IO ByteArray) : IO (Except ReadError (List UInt8)) := do
  try return .ok (← bytes).toList
  catch e => return .error (.reading (.ofError e))

def realMachine : Machine IO where
  standardInput := do readAll (← IO.getStdin).readBinToEnd
  readFile path := do
    try readAll (← IO.FS.Handle.mk path .read).readBinToEnd
    catch e => return .error (.opening (.ofError e))
  writeFile path text := do
    try
      IO.FS.writeFile path text
      return .ok ()
    catch e => return .error (.ofError e)

end ScriptPress.Command

def main (arguments : List String) : IO UInt32 := do
  let outcome ← ScriptPress.Command.run ScriptPress.Command.realMachine arguments
  IO.print outcome.output
  IO.eprint outcome.errors
  return outcome.code.toUInt32
