import ConnectiveBases.Showcase

namespace ConnectiveBases

namespace CommandLine

structure Request where
  /-- No basis stands for all of them. -/
  basis : Option Basis := none
  fresh : Bool := false
  tables : Bool := false

def basisWord : Basis → String
  | .notAndOr => "not-and-or"
  | .notAnd => "not-and"
  | .nand => "nand"
  | .impliesNot => "implies-not"
  | .impliesFalse => "implies-false"

def readBasis (word : String) : Option Basis := Basis.all.find? (basisWord · = word)

/-- Arguments from left to right. Any that is not known makes the whole request unreadable; `--verbose`
is known but asks for nothing that is shown. -/
def read : List String → Option Request
  | [] => some {}
  | "--basis" :: word :: rest | "-b" :: word :: rest => do
    let B ← readBasis word
    let r ← read rest
    return { r with basis := some B }
  | "--fresh" :: rest => (read rest).map fun r => { r with fresh := true }
  | "--table" :: rest | "-t" :: rest => (read rest).map fun r => { r with tables := true }
  | "--verbose" :: rest | "-v" :: rest => read rest
  | _ => none

def Request.options (r : Request) : Showcase.Options where
  bases := match r.basis with
    | some B => [B]
    | none => Basis.all
  fresh := r.fresh
  tables := r.tables

def usage : String :=
  "usage: [--basis not-and-or|not-and|nand|implies-not|implies-false] [--fresh] [--table] [--verbose]"

def run (arguments : List String) : IO UInt32 := do
  match read arguments with
  | none =>
    IO.eprintln usage
    return 2
  | some request =>
    match request.options.lines with
    | .ok lines =>
      for line in lines do
        IO.println line
      return 0
    | .error complaint =>
      IO.eprintln complaint.message
      return 1

end CommandLine

end ConnectiveBases

/-- Shows the sample formulas over restricted sets of operators. -/
def main (arguments : List String) : IO UInt32 :=
  ConnectiveBases.CommandLine.run arguments
