/-!
Text in colour for terminals: a text is put between the code that switches a style on and the code
that switches everything off. A text that itself switches everything off gets its style back.
-/

namespace ContractHost.Cli

/-- A style, given by the numbers that switch it on. -/
inductive Style where
  | bold
  | dimmed
  | cyan
  | yellow
  | green
  | boldGreen
  | boldRed
  deriving DecidableEq, Repr

def Style.on : Style → List Char
  | .bold => "\x1b[1m".toList
  | .dimmed => "\x1b[2m".toList
  | .cyan => "\x1b[36m".toList
  | .yellow => "\x1b[33m".toList
  | .green => "\x1b[32m".toList
  | .boldGreen => "\x1b[1;32m".toList
  | .boldRed => "\x1b[1;31m".toList

def Style.off : List Char := "\x1b[0m".toList

/-- Puts some characters behind every place where a style is switched off. -/
def restyle (code : List Char) : List Char → List Char
  | '\x1b' :: '[' :: '0' :: 'm' :: rest => Style.off ++ code ++ restyle code rest
  | c :: rest => c :: restyle code rest
  | [] => []

def paint (colour : Bool) (s : Style) (text : String) : String :=
  if colour then String.ofList (s.on ++ restyle s.on text.toList ++ Style.off) else text

/-- Whether output that goes to no terminal is coloured: only if the environment forces it. -/
def forcesColour (clicolorForce : Option String) : Bool :=
  match clicolorForce with
  | some v => v != "0"
  | none => false

end ContractHost.Cli
