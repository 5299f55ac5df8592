import Mathlib.Data.Nat.Notation

/-!
# Threads, addresses and pointer words

The lists in this development keep a mark in the low bit of their pointers.  A pointer word is an
address together with that mark.
-/

namespace ConcurrentPQ

/-- Thread identifiers. -/
abbrev Tid := ℕ

/-- Addresses of nodes. -/
abbrev NodeId := ℕ

/-- The null pointer. -/
abbrev NULL : NodeId := 0

/-- A pointer word: an address and the mark kept in its low bit. -/
structure Ref where
  ptr : NodeId
  mark : Bool
  deriving DecidableEq, Repr, Inhabited

/-- The unmarked word for an address. -/
abbrev ref (n : NodeId) : Ref := ⟨n, false⟩

/-- The address a word is read through: a marked word is not a valid address. -/
def Ref.addr (r : Ref) : NodeId := if r.mark then NULL else r.ptr

@[simp] theorem addr_ref (n : NodeId) : (ref n).addr = n := rfl

end ConcurrentPQ
