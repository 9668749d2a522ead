/-!
# Limits

How many equations a catalog holds, how many nodes one formula has, and how many
calls stand inside one another.
-/
namespace Formulary

structure Limits where
  equations : Nat := 40
  nodes : Nat := 100
  callDepth : Nat := 64
deriving DecidableEq, Repr

namespace Limits

/-- Limits are counted in 64 bits. -/
def counted (value : Option Nat) : Option Nat := value.filter (· < Nat.pow 2 64)

def set (limits : Limits) (name : String) (value : Option Nat) : Option Limits :=
  match name with
  | "max_equations" => (counted value).map ({ limits with equations := · })
  | "max_nodes" => (counted value).map ({ limits with nodes := · })
  | "max_call_depth" => (counted value).map ({ limits with callDepth := · })
  | _ => some limits

def ofSettings (settings : List (String × Option Nat)) : Option Limits :=
  settings.foldlM (fun limits s => limits.set s.1 s.2) {}

end Limits

end Formulary
