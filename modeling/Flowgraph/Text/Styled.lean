/-! # Terminal styling

Text wrapped in the control sequences that give it weight and colour, or left
plain when colour is off.
-/

namespace Flowgraph.Text

inductive Style
  | bold | faint | red | green | yellow | blue | cyan
  deriving DecidableEq, Repr

namespace Style

def code : Style → Nat
  | bold => 1
  | faint => 2
  | red => 31
  | green => 32
  | yellow => 33
  | blue => 34
  | cyan => 36

def reset : Style → Nat
  | bold | faint => 22
  | _ => 0

end Style

def controlSequence (codes : List Nat) : String :=
  "\x1b[" ++ String.intercalate ";" (codes.map toString) ++ "m"

def styled (color : Bool) (styles : List Style) (s : String) : String :=
  if color then
    controlSequence (styles.map Style.code) ++ s ++ controlSequence (styles.map Style.reset)
  else s

end Flowgraph.Text
