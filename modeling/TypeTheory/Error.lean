import TypeTheory.Term.Text

/-!
# Errors of the kernel

One constructor for each cause that a declaration, a term or an environment can
be refused for. The wording is in `KernelError.message` alone.
-/

namespace TypeTheory

/-- Why the kernel refuses a term or a declaration. -/
inductive KernelError where
  /-- A constant that the environment does not have, or does not show. -/
  | unknownConstant (name : Name)
  | duplicateName (name : Name)
  | universeArity (name : Name) (expected found : Nat)
  /-- A function position whose type is no dependent function type. -/
  | notAFunction (term type : Term)
  /-- A projection target whose type is no dependent pair type. -/
  | notAPair (term type : Term)
  /-- A term used as a type whose type is no sort. -/
  | notASort (term type : Term)
  | typeMismatch (term expected found : Term)
  | duplicateUniverse (name : Name)
  | undeclaredUniverse (declaration : Name)
  /-- An index outside all binders. -/
  | looseIndex (index : Nat)
  | freeVariable (name : Name)
  /-- The budget of reduction steps is used up. -/
  | exhausted (limit : Nat)
  deriving DecidableEq, Inhabited, Repr

/-- The text of a kernel error. -/
def KernelError.message : KernelError → String
  | .unknownConstant n => "unknown constant: " ++ n.text
  | .duplicateName n => "duplicate declaration: " ++ n.text
  | .universeArity n expected found =>
    "constant " ++ n.text ++ " expects " ++ toString expected ++ " universe argument(s), got " ++
      toString found
  | .notAFunction e t => "function expected: " ++ e.text ++ " has type " ++ t.text
  | .notAPair e t => "pair expected: " ++ e.text ++ " has type " ++ t.text
  | .notASort e t => "type expected: " ++ e.text ++ " has type " ++ t.text
  | .typeMismatch e expected found =>
    "type mismatch for " ++ e.text ++ ": expected " ++ expected.text ++ ", found " ++ found.text
  | .duplicateUniverse n => "duplicate universe: " ++ n.text
  | .undeclaredUniverse n => "undeclared universe parameter in " ++ n.text
  | .looseIndex i => "free bound variable at index " ++ toString i
  | .freeVariable n => "unexpected free variable: " ++ n.text
  | .exhausted limit => "reduction step limit exceeded (" ++ toString limit ++ " steps)"

end TypeTheory
