import TypeTheory.Scope.Basic
import TypeTheory.Term.Occurrence
import TypeTheory.Term.Substitution

/-!
# Resolving names

A short name is looked for among the section variables, then in the current
namespace and the namespaces around it out to the root, and last in the opened
namespaces, where it must be found in one place only. `Scope.resolveTerm` does so
for every constant of a term.
-/

namespace TypeTheory

/-- What a short name stands for. -/
inductive Referent where
  | sectionVar (name : Name)
  | constant (name : Name)
  deriving DecidableEq, Inhabited, Repr

namespace Referent

/-- The term that a reference at some levels stands for. -/
def toTerm (levels : List Level) : Referent → Term
  | .sectionVar name => .fvar name
  | .constant name => .const name levels

end Referent

/-- A name and its ancestors, longest first. -/
def Name.ancestry : Name → List Name
  | .anonymous => [.anonymous]
  | .str parent segment => .str parent segment :: parent.ancestry

namespace Scope

open EStateM

variable (s : Scope) (env : Environment)

/-! ## Namespaces -/

/-- The current namespace and those around it, innermost first. -/
def enclosing : List Name :=
  s.currentNamespace.ancestry

/-- The namespace that a short name stands for. -/
def findNamespace? (short : Name) : Option Name :=
  (s.enclosing.map (·.join short)).find? env.hasNamespace

/-- Makes the declarations of a namespace known by their short names in the
innermost block. Gives the namespace found. -/
def openNamespaceM (short : Name) : ScopeM Name := do
  match (← get).findNamespace? env short with
  | none => throw (.unknownNamespace short)
  | some target => do
    modify (·.modifyInnermost fun f => { f with opened := f.opened ++ [target] })
    return target

/-- The scope with a namespace opened, and the namespace found. -/
def openNamespace (short : Name) : Except ScopeError (Scope × Name) :=
  (openNamespaceM env short).outcome s

theorem openNamespace_eq (short : Name) : s.openNamespace env short =
    match s.findNamespace? env short with
    | none => .error (.unknownNamespace short)
    | some target =>
      .ok (s.modifyInnermost fun f => { f with opened := f.opened ++ [target] }, target) := by
  unfold openNamespace openNamespaceM
  rw [outcome_get_bind]
  cases s.findNamespace? env short <;> rfl

/-! ## Variables -/

/-- Declares a section variable in the innermost block. -/
def declareVariableM (name : Name) (type : Term) : ScopeM Unit := do
  let s ← get
  require (¬ ((s.findVariable? name).isSome || env.contains (s.qualify name))) (.collision name)
  let order := s.nextOrder
  modify ({ · with nextOrder := order + 1 })
  modify (·.modifyInnermost fun f => { f with vars := f.vars ++ [{ name, type, order }] })

/-- The scope with a section variable declared in the innermost block. -/
def declareVariable (name : Name) (type : Term) : Except ScopeError Scope :=
  (declareVariableM env name type).final s

theorem declareVariable_eq (name : Name) (type : Term) : s.declareVariable env name type =
    if (s.findVariable? name).isSome || env.contains (s.qualify name) then .error (.collision name)
    else
      let v : SectionVar := { name, type, order := s.nextOrder }
      .ok { s.modifyInnermost fun f => { f with vars := f.vars ++ [v] } with
        nextOrder := s.nextOrder + 1 } := by
  unfold declareVariable final declareVariableM
  rw [outcome_get_bind, outcome_require_bind, ite_not]
  split
  · rfl
  · obtain ⟨root, blocks, nextOrder⟩ := s
    cases blocks <;> rfl

/-! ## Short names -/

/-- The constant of that name in the innermost namespace that has one. -/
def enclosingConstant? (short : Name) : Option Name :=
  (s.enclosing.map (·.join short)).find? env.contains

/-- The constants of that name in opened namespaces, each once. -/
def openedConstants (short : Name) : List Name :=
  ((s.opened.map (·.join short)).filter env.contains).eraseDups

/-- What a short name stands for. -/
def resolve (short : Name) : Except ScopeError Referent :=
  match s.findVariable? short with
  | some v => .ok (.sectionVar v.name)
  | none =>
    match s.enclosingConstant? env short with
    | some full => .ok (.constant full)
    | none =>
      match s.openedConstants env short with
      | [] => .error (.unresolved short)
      | [full] => .ok (.constant full)
      | candidates => .error (.ambiguous short candidates)

/-- What the names of a list stand for, or the error of the first that stands for
nothing. -/
def resolveAll : List Name → Except ScopeError (List (Name × Referent))
  | [] => .ok []
  | n :: rest => do
    let r ← s.resolve env n
    let table ← resolveAll rest
    return (n, r) :: table

/-- Puts what its constants stand for into a term. -/
def resolveTerm (e : Term) : Except ScopeError Term := do
  let table ← s.resolveAll env e.consts
  return e.replaceConsts fun n levels => (table.lookup n).map (·.toTerm levels)

end Scope

end TypeTheory
