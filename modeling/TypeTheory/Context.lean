import TypeTheory.Term.Basic

/-!
# Local contexts

A context lists the binders around a term, innermost first, so that an index is
a position in the list. The type and the value of an entry belong to the scope
outside the entry; a reader at index `i` shifts them by `i + 1`.
-/

namespace TypeTheory

/-- A binder around the term at hand; a `let` carries its value. -/
structure Entry where
  name : Name
  type : Term
  value : Option Term := none
  deriving DecidableEq, Inhabited, Repr

/-- The binders around a term, innermost first. -/
abbrev Context := List Entry

namespace Context

/-- The context inside one more binder without a value. -/
def push (Γ : Context) (name : Name) (type : Term) : Context :=
  ⟨name, type, none⟩ :: Γ

/-- The context inside a `let`. -/
def pushLet (Γ : Context) (name : Name) (type value : Term) : Context :=
  ⟨name, type, some value⟩ :: Γ

/-- The number of entries that carry a value. -/
def letCount (Γ : Context) : Nat :=
  Γ.countP (·.value.isSome)

/-- The display names, outermost first. -/
def names (Γ : Context) : List Name :=
  (Γ.map (·.name)).reverse

end Context

end TypeTheory
