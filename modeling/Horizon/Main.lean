import Horizon.CommandLine.Report

/-! The command line: solves a lot-sizing instance and reports its policy. -/

set_option autoImplicit false

namespace Horizon.CommandLine

def printLines (lines : List String) : IO Unit :=
  lines.forM IO.println

def reportFailure (f : Failure) : IO UInt32 := do
  f.report.forM IO.eprintln
  return 1

def readFile (path : String) : IO (Except String Json.Octets) := do
  try
    let bytes ← IO.FS.readBinFile path
    return .ok (bytes.toList.map fun b => Char.ofNat b.toNat)
  catch e => return .error ("io: " ++ toString e)

def finish (started : Nat) : IO UInt32 := do
  IO.println ""
  IO.println ("Total time: " ++ toString ((← IO.monoMsNow) - started) ++ "ms")
  return 0

def conclude (started : Nat) (c : Conclusion) : IO UInt32 := do
  match c.table with
  | none =>
    printLines c.closing
    finish started
  | some table =>
    let written ← try
        IO.FS.writeFile table.path table.text
        pure none
      catch e => pure (some (toString e))
    match written with
    | some reason => reportFailure (uncreated table.path ("io: " ++ reason))
    | none =>
      printLines c.closing
      finish started

end Horizon.CommandLine

open Horizon CommandLine in
def main (arguments : List String) : IO UInt32 := do
  match Arguments.ofList? arguments with
  | none =>
    IO.eprintln "error: invalid arguments"
    return 2
  | some a =>
    let contents ← match a.config with
      | some path => readFile path
      | none => pure (.error "")
    let started ← IO.monoMsNow
    let solved := run a contents
    printLines solved.lines
    match solved.result with
    | .error f => reportFailure f
    | .ok c => conclude started c
