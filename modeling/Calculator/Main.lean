import Calculator.CommandLine.Run

/-!
The command line program.
-/

namespace Calculator.CommandLine

partial def readAll (stream : IO.FS.Stream) (bytes : ByteArray) : IO ByteArray := do
  let more ← stream.read 65536
  if more.isEmpty then return bytes
  readAll stream (bytes ++ more)

def perform (args : List String) : IO UInt32 := do
  let task := Task.ofArguments args
  let input ←
    if task.readsInput then readAll (← IO.getStdin) ByteArray.empty else pure ByteArray.empty
  let outcome := task.run input.toList
  IO.print outcome.stdout
  for error in outcome.errors do
    IO.eprintln error
  return outcome.code.toUInt32

end Calculator.CommandLine

def main (args : List String) : IO UInt32 := Calculator.CommandLine.perform args
