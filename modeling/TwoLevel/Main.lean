/-
# TwoLevel.Main — the program

Reads the command line, prints the answer, ends with its exit code.
-/
import TwoLevel.CommandLine

set_option autoImplicit false

def main (arguments : List String) : IO UInt32 := do
  let answer := TwoLevel.CommandLine.answer arguments
  IO.print answer.output
  match answer with
  | .failed _ complaint => IO.eprintln complaint
  | _ => pure ()
  return UInt32.ofNat answer.exitCode
