/-!
# Lines of a text

A line ends at a line feed, together with a carriage return right before it. A
feed at the very end opens no further line.
-/
namespace Formulary.Source

def splitLines : List Char → List (List Char)
  | [] => []
  | '\r' :: '\n' :: rest => [] :: splitLines rest
  | '\n' :: rest => [] :: splitLines rest
  | c :: rest =>
    match splitLines rest with
    | [] => [[c]]
    | line :: more => (c :: line) :: more

def lines (text : String) : List String := (splitLines text.toList).map String.ofList

@[simp] theorem splitLines_nil : splitLines [] = [] := by simp [splitLines]

@[simp] theorem splitLines_feed (rest : List Char) :
    splitLines ('\n' :: rest) = [] :: splitLines rest := by simp [splitLines]

end Formulary.Source
