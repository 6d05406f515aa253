/-!
# Lines

A text is a sequence of lines, each ended by a line feed, which only the last one may lack. A
carriage return right before the line feed belongs to the end of the line.
-/

namespace SwarmVm

namespace Text

/-- A line without the carriage return at its end; its characters are given from the last one. -/
def endLine (reversed : List Char) : String :=
  match reversed with
  | '\r' :: line => String.ofList line.reverse
  | line => String.ofList line.reverse

/-- The lines in a text of which the first one has begun; what is known of it is given from its
last character. -/
def linesFrom (reversed : List Char) : List Char → List String
  | [] => if reversed.isEmpty then [] else [String.ofList reversed.reverse]
  | '\n' :: rest => endLine reversed :: linesFrom [] rest
  | c :: rest => linesFrom (c :: reversed) rest

/-- The lines in a text. -/
def lines (s : String) : List String := linesFrom [] s.toList

end Text

end SwarmVm
