/-!
# Positions and spans

A position counts the UTF-8 bytes before it, the line feeds before it and the
characters since the last of them; lines and columns start at one. A span keeps
the byte offsets of both ends and the line and column of the first.
-/
namespace Formulary

structure Position where
  offset : Nat := 0
  line : Nat := 1
  column : Nat := 1
deriving DecidableEq, Repr

structure Span where
  start : Nat
  stop : Nat
  line : Nat
  column : Nat
deriving DecidableEq, Repr

namespace Span

/-- The number of bytes covered; a span that ends before it starts covers none. -/
def length (s : Span) : Nat := s.stop - s.start

def isEmpty (s : Span) : Bool := s.length = 0

end Span

namespace Position

def next (p : Position) (c : Char) : Position :=
  if c = '\n' then ⟨p.offset + c.utf8Size, p.line + 1, 1⟩
  else ⟨p.offset + c.utf8Size, p.line, p.column + 1⟩

def after (p : Position) (text : List Char) : Position := text.foldl next p

@[simp] theorem after_nil (p : Position) : p.after [] = p := rfl

@[simp] theorem after_cons (p : Position) (c : Char) (text : List Char) :
    p.after (c :: text) = (p.next c).after text := rfl

theorem after_append (p : Position) (a b : List Char) :
    p.after (a ++ b) = (p.after a).after b := List.foldl_append

theorem after_concat (p : Position) (text : List Char) (c : Char) :
    p.after (text ++ [c]) = (p.after text).next c := p.after_append text [c]

theorem next_offset (p : Position) (c : Char) : (p.next c).offset = p.offset + c.utf8Size := by
  unfold next; split <;> rfl

def spanOver (p : Position) (text : List Char) : Span :=
  ⟨p.offset, (p.after text).offset, p.line, p.column⟩

end Position

end Formulary
