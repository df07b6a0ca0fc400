import TypeTheory.Environment.Basic
import TypeTheory.Term.Occurrence
import TypeTheory.Term.Substitution

/-!
# Church numerals

Natural numbers as functions: the number `n` applies a function `n` times. The
type is `(A : Sort 0) → (A → A) → A → A`, and zero, successor, sum and product
compute by beta and delta alone. `Church.declarations` declares them.
-/

namespace TypeTheory.Church

open Term

/-- The name of the type of numbers. -/
def natName : Name :=
  .atom "Nat"

/-- The constant for the type of numbers. -/
def nat : Term :=
  .const natName []

/-- The binders `A`, `s`, `z` that every number starts with. -/
def numeralBinders (k : Binder) (body : Term) : Term :=
  .bind k (.atom "A") (.sort .zero) <|
    .bind k (.atom "s") (.arrow (.bvar 0) (.bvar 0)) <|
      .bind k (.atom "z") (.bvar 1) body

/-- The type of numbers, `(A : Sort 0) → (A → A) → A → A`. -/
def natType : Term :=
  numeralBinders .pi (.bvar 2)

/-- `s` applied `n` times to `e`. -/
def iterate (e : Term) : Nat → Term
  | 0 => e
  | n + 1 => iterate (.app (.bvar 1) e) n

/-- The number `n`: `fun A s z => s (s … z)`. -/
def numeral (n : Nat) : Term :=
  numeralBinders .lam (iterate (.bvar 0) n)

/-- `fun n A s z => s (n A s z)` -/
def succ : Term :=
  .lam (.atom "n") nat <| numeralBinders .lam <|
    .app (.bvar 1) ((bvar 3).apps [.bvar 2, .bvar 1, .bvar 0])

/-- `fun m n A s z => m A s (n A s z)` -/
def add : Term :=
  .lam (.atom "m") nat <| .lam (.atom "n") nat <| numeralBinders .lam <|
    (bvar 4).apps [.bvar 2, .bvar 1, (bvar 3).apps [.bvar 2, .bvar 1, .bvar 0]]

/-- `fun m n A s z => m A (n A s) z` -/
def mul : Term :=
  .lam (.atom "m") nat <| .lam (.atom "n") nat <| numeralBinders .lam <|
    (bvar 4).apps [.bvar 2, (bvar 3).apps [.bvar 2, .bvar 1], .bvar 0]

/-- The declarations of `Nat`, `Nat.succ`, `Nat.add` and `Nat.mul`. -/
def declarations : List Declaration :=
  let unary := arrow nat nat
  let binary := arrow nat unary
  [⟨natName, [], .sort (.ofNat 1), some natType⟩,
   ⟨natName.str "succ", [], unary, some succ⟩,
   ⟨natName.str "add", [], binary, some add⟩,
   ⟨natName.str "mul", [], binary, some mul⟩]

/-- Counts the applications of `s` in the body of a number, on top of `n`. -/
def count? (n : Nat) : Term → Option Nat
  | .bvar 0 => some n
  | .app (.bvar 1) e => count? (n + 1) e
  | _ => none

/-- The number that a normal form is, if it is one. -/
def toNat? : Term → Option Nat
  | .lam _ _ (.lam _ _ (.lam _ _ body)) => count? 0 body
  | _ => none

end TypeTheory.Church
