import Formulary.Fault
import Formulary.Source.Lines

/-!
# Diagnostics

A message with the line of the source that it is about and carets under the part
that is at fault. A line or column of zero means that there is no place to show.
-/
namespace Formulary

structure Diagnostic where
  message : String
  file : String := ""
  line : Nat := 0
  column : Nat := 0
  snippet : String := ""
  pointer : String := ""
deriving DecidableEq, Repr

namespace Diagnostic

/-- Carets under a part of a line, at least one and never past the line's end,
except for one that stands just behind it. -/
def underline (lineLength column length : Nat) : String :=
  let indent := min (column - 1) lineLength
  let carets := min (max length 1) (max (lineLength - indent) 1)
  String.ofList (List.replicate indent ' ' ++ List.replicate carets '^')

def ofSpan (message file source : String) (s : Span) : Diagnostic :=
  let snippet := (Source.lines source)[s.line - 1]?.getD ""
  { message, file, snippet
    line := s.line
    column := s.column
    pointer := underline snippet.length s.column s.length }

def relocate (d : Diagnostic) (file : String) (line : Nat) : Diagnostic :=
  { d with file, line := if d.line = 0 then 0 else line }

def padded (n : Nat) : String :=
  let digits := toString n
  String.ofList (List.replicate (3 - digits.length) ' ') ++ digits

def render (d : Diagnostic) : String :=
  if d.line = 0 ∨ d.column = 0 then
    if d.file = "" then d.message else s!"{d.message} ({d.file})"
  else
    let location :=
      if d.file = "" then s!"line {d.line}, column {d.column}"
      else s!"{d.file}:{d.line}:{d.column}"
    s!"{d.message}\n --> {location}\n  |\n{padded d.line} | {d.snippet}\n  | {d.pointer}"

end Diagnostic

/-- The end of a text, as one line: behind its last character. -/
def endSpan (source : String) : Span :=
  ⟨source.utf8ByteSize, source.utf8ByteSize, 1, source.length + 1⟩

def Rejection.diagnostic (r : Rejection) (source : String) : Diagnostic :=
  match r.place with
  | .whole => { message := r.fault.message }
  | .span s => .ofSpan r.fault.message "" source s
  | .ending => .ofSpan r.fault.message "" source (endSpan source)

end Formulary
