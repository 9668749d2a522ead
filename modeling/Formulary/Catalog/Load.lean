import Formulary.Catalog
import Formulary.Source.Blank

/-!
# Loading many lines

Remarks and blank lines are skipped and bad lines are reported; the lines are counted
from one. The catalog is resolved once, behind the last line.
-/
namespace Formulary.Catalog

structure Failure where
  line : Nat
  text : String
  refusal : Refusal
deriving DecidableEq, Repr

structure LoadReport where
  added : List Nat
  failures : List Failure
  unresolved : List String
deriving DecidableEq, Repr

def LoadReport.isClean (r : LoadReport) : Bool := r.failures.isEmpty && r.unresolved.isEmpty

structure Batch where
  catalog : Catalog
  added : List Nat := []
  failures : List Failure := []

def Batch.take (file : String) (b : Batch) (text : String) (line : Nat) : Batch :=
  if Source.isRemark text then b
  else
    match b.catalog.add text with
    | .ok (id, catalog) => { b with catalog, added := b.added ++ [id] }
    | .error refusal =>
      { b with failures := b.failures ++ [⟨line, text, refusal.relocate file line⟩] }

def Batch.takeAll (file : String) (b : Batch) (lines : List String) : Batch :=
  (lines.zipIdx 1).foldl (fun b l => b.take file l.1 l.2) b

def load (c : Catalog) (file : String) (lines : List String) : Catalog × LoadReport :=
  let b := Batch.takeAll file { catalog := c } lines
  (b.catalog.resolve, ⟨b.added, b.failures, b.catalog.unresolved⟩)

def loadText (c : Catalog) (name text : String) : Catalog × LoadReport :=
  c.load name (Source.lines text)

def loadWith {m : Type → Type} [Monad m] (c : Catalog) (path : String)
    (fetch : String → m (Except String String)) : m (Except Refusal (Catalog × LoadReport)) := do
  match ← fetch path with
  | .ok text => return .ok (c.loadText path text)
  | .error reason => return .error (.unreadable path reason)

def fileText : Option ByteArray → Except String String
  | none => .error "No such file or directory (os error 2)"
  | some bytes =>
    match String.fromUTF8? bytes with
    | some text => .ok text
    | none => .error "stream did not contain valid UTF-8"

end Formulary.Catalog
