import TypeTheory.Environment.Basic

/-!
# Scopes

A scope is a root and the blocks opened inside one another. A namespace adds its
name in front of new declarations; a section only limits how long variables and
opened namespaces last. What is opened or declared belongs to the innermost block
and goes with it, so closing a block gives back the scope in which it was opened.

An operation that may be refused is a computation in `ScopeM`, whose name ends in `M`;
the function without it shows the scope that the operation makes if it succeeds.
-/

namespace TypeTheory

/-- The two kinds of blocks. -/
inductive BlockKind where
  | nameSpace
  | varSection
  deriving DecidableEq, Inhabited, Repr

namespace BlockKind

def text : BlockKind → String
  | .nameSpace => "namespace"
  | .varSection => "section"

end BlockKind

/-- Why a scope refuses a name or a block. -/
inductive ScopeError where
  | unresolved (name : Name)
  | ambiguous (name : Name) (candidates : List Name)
  /-- A variable or constant of this name is already in scope. -/
  | collision (name : Name)
  | unknownNamespace (name : Name)
  /-- The innermost block is another one than the one to be closed. -/
  | mismatchedEnd (kind : BlockKind) (expected found : Option Name)
  | nothingOpen (kind : BlockKind)
  deriving DecidableEq, Inhabited, Repr

namespace ScopeError

/-- The text of a block's name. -/
def blockName (name : Option Name) : String :=
  name.elim "<anonymous>" Name.text

/-- The text of a scope error. -/
def message : ScopeError → String
  | .unresolved n => "unknown identifier '" ++ n.text ++ "'"
  | .ambiguous n candidates =>
    "ambiguous identifier '" ++ n.text ++ "', candidates: " ++
      ", ".intercalate (candidates.map Name.text)
  | .collision n => "'" ++ n.text ++ "' is already declared in this scope"
  | .unknownNamespace n => "unknown namespace '" ++ n.text ++ "'"
  | .mismatchedEnd kind expected found =>
    "invalid 'end', expected " ++ kind.text ++ " " ++ blockName expected ++ " but found " ++
      blockName found
  | .nothingOpen kind => "no open " ++ kind.text ++ " to close"

end ScopeError

/-- A section variable. Its type mentions other variables as free variables. -/
structure SectionVar where
  name : Name
  type : Term
  /-- The number of variables declared before, in this or in closed blocks. -/
  order : Nat
  deriving DecidableEq, Inhabited, Repr

/-- What was opened and declared in one block, or outside all blocks, oldest
first. -/
structure Frame where
  opened : List Name := []
  vars : List SectionVar := []
  deriving DecidableEq, Inhabited, Repr

/-- What a block is opened as: a namespace has a name, a section may have one. -/
inductive Heading where
  | nameSpace (name : Name)
  | varSection (name : Option Name)
  deriving DecidableEq, Inhabited, Repr

namespace Heading

def kind : Heading → BlockKind
  | .nameSpace _ => .nameSpace
  | .varSection _ => .varSection

def name? : Heading → Option Name
  | .nameSpace name => some name
  | .varSection name => name

/-- The name that the block adds in front of declarations. -/
def qualifier : Heading → Name
  | .nameSpace name => name
  | .varSection _ => .anonymous

end Heading

/-- An open block. -/
structure Block where
  heading : Heading
  frame : Frame := {}
  deriving DecidableEq, Inhabited, Repr

/-- The root and the open blocks, innermost first. -/
structure Scope where
  root : Frame := {}
  blocks : List Block := []
  /-- The number of variables declared so far. -/
  nextOrder : Nat := 0
  deriving DecidableEq, Inhabited, Repr

/-- An operation on a scope. -/
abbrev ScopeM := EStateM ScopeError Scope

namespace Scope

open EStateM

/-! ## Views -/

/-- The number of open blocks. -/
def depth (s : Scope) : Nat :=
  s.blocks.length

/-- The frames from the root inwards. -/
def frames (s : Scope) : List Frame :=
  s.root :: (s.blocks.map (·.frame)).reverse

/-- The variables in scope, outermost first. -/
def vars (s : Scope) : List SectionVar :=
  s.frames.flatMap (·.vars)

/-- The opened namespaces, outermost first. -/
def opened (s : Scope) : List Name :=
  s.frames.flatMap (·.opened)

/-- The namespace that the given blocks, innermost first, lie in. -/
def namespaceOf : List Block → Name
  | [] => .anonymous
  | b :: outer => (namespaceOf outer).join b.heading.qualifier

/-- The namespace in which declarations are made. -/
def currentNamespace (s : Scope) : Name :=
  namespaceOf s.blocks

/-- The full name of a declaration made here. -/
def qualify (s : Scope) (short : Name) : Name :=
  s.currentNamespace.join short

/-- The variable of the given name. -/
def findVariable? (s : Scope) (name : Name) : Option SectionVar :=
  s.vars.find? (·.name = name)

/-! ## Opening and closing blocks -/

/-- Changes the innermost frame. -/
def modifyInnermost (s : Scope) (f : Frame → Frame) : Scope :=
  match s.blocks with
  | [] => { s with root := f s.root }
  | b :: outer => { s with blocks := { b with frame := f b.frame } :: outer }

/-- Opens a block. -/
def enter (s : Scope) (heading : Heading) : Scope :=
  { s with blocks := { heading } :: s.blocks }

/-- Closes the innermost block. It has to be of the given kind and, if a name is
given, have that name. -/
def leaveM (kind : BlockKind) (name : Option Name) : ScopeM Unit := do
  match (← get).blocks with
  | [] => throw (.nothingOpen kind)
  | b :: outer => do
    require (b.heading.kind = kind ∧ (name.isNone ∨ b.heading.name? = name))
      (.mismatchedEnd b.heading.kind b.heading.name? name)
    modify ({ · with blocks := outer })

/-- The scope around the innermost block. -/
def leave (s : Scope) (kind : BlockKind) (name : Option Name) : Except ScopeError Scope :=
  (leaveM kind name).final s

theorem leave_eq (s : Scope) (kind : BlockKind) (name : Option Name) : s.leave kind name =
    match s.blocks with
    | [] => .error (.nothingOpen kind)
    | b :: outer =>
      if b.heading.kind = kind ∧ (name.isNone ∨ b.heading.name? = name) then
        .ok { s with blocks := outer }
      else .error (.mismatchedEnd b.heading.kind b.heading.name? name) := by
  unfold leave final leaveM
  rw [outcome_get_bind]
  cases s.blocks with
  | nil => rfl
  | cons b outer =>
    dsimp only
    rw [outcome_require_bind]
    split <;> rfl

end Scope

end TypeTheory
