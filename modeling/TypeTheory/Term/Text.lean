import TypeTheory.Term.Basic

/-!
# The text of a term

Terms are written with the display names of their binders. A bound variable
shows its binder's name, and its index behind a `#` where the binder is
anonymous or lies outside the term. Arguments and projection targets are put in
parentheses unless they are atomic.
-/

namespace TypeTheory

namespace Term

/-- Whether a term stands as an argument without parentheses. -/
def isAtomic : Term → Bool
  | .bvar _ | .fvar _ | .const .. | .pair .. | .proj .. => true
  | .sort _ | .app .. | .bind .. | .letE .. => false

def isApp : Term → Bool
  | .app .. => true
  | _ => false

/-- The text of an index under binders with the given texts, innermost first. -/
def indexText (names : List String) (i : Nat) : String :=
  match names[i]? with
  | some name => if name = "_" then "#" ++ toString i else name
  | none => "#" ++ toString i

/-- A constant is followed by its levels, if it has any. -/
def constText (n : Name) (levels : List Level) : String :=
  if levels.isEmpty then n.text
  else n.text ++ ".\x7b" ++ ", ".intercalate (levels.map Level.text) ++ "\x7d"

/-- Puts a text in parentheses unless it is atomic. -/
def parenthesized (atomic : Bool) (text : String) : String :=
  if atomic then text else "(" ++ text ++ ")"

/-- The text of a term under binders with the given texts, innermost first. -/
def textUnder (names : List String) : Term → String
  | .bvar i => indexText names i
  | .fvar n => n.text
  | .sort l => "Sort " ++ l.text
  | .const n ls => constText n ls
  | .app f a =>
    parenthesized (f.isApp || f.isAtomic) (f.textUnder names) ++ " " ++
      parenthesized a.isAtomic (a.textUnder names)
  | .bind k n t b =>
    let domain := "(" ++ n.binderText ++ " : " ++ t.textUnder names ++ ")"
    let body := b.textUnder (n.binderText :: names)
    match k with
    | .lam => "fun " ++ domain ++ " => " ++ body
    | .pi => domain ++ " → " ++ body
    | .sigma => domain ++ " × " ++ body
  | .letE n t v b =>
    "let " ++ n.binderText ++ " : " ++ t.textUnder names ++ " := " ++ v.textUnder names ++ "; " ++
      b.textUnder (n.binderText :: names)
  | .pair a b => "(" ++ a.textUnder names ++ ", " ++ b.textUnder names ++ ")"
  | .proj .fst p => parenthesized p.isAtomic (p.textUnder names) ++ ".1"
  | .proj .snd p => parenthesized p.isAtomic (p.textUnder names) ++ ".2"

/-- The text of a term. -/
def text (e : Term) : String :=
  e.textUnder []

end Term

end TypeTheory
