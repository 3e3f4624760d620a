/-!
# Tables of characters

A property of characters as intervals of code points, ends included.
-/

namespace Scriptlet

/-- Intervals of code points. -/
abbrev CharTable := List (Nat × Nat)

namespace CharTable

/-- Whether a character lies in one of the intervals. -/
def contains (table : CharTable) (c : Char) : Bool :=
  table.any fun r => r.1 ≤ c.toNat && c.toNat ≤ r.2

end CharTable

end Scriptlet
