import TypeTheory.Context
import TypeTheory.Scope.Basic
import TypeTheory.Term.Occurrence
import TypeTheory.Term.Substitution

/-!
# Telescopes of section variables

A term made in a section depends on the variables that it mentions, on those that
their types mention, and so on. `Scope.telescope` collects them in the order of
their declaration. A term is closed over a telescope by turning its variables into
indices, and opened again by putting the variables back.
-/

namespace TypeTheory

/-- Section variables, outermost first. -/
structure Telescope where
  vars : List SectionVar
  deriving DecidableEq, Inhabited, Repr

namespace Telescope

def size (t : Telescope) : Nat :=
  t.vars.length

def isEmpty (t : Telescope) : Bool :=
  t.vars.isEmpty

def names (t : Telescope) : List Name :=
  t.vars.map (·.name)

/-! ## Binders -/

/-- The binders of some variables inside those of the given names, outermost
first: the type of each mentions the ones before it as indices. -/
def bindersWithin : List Name → List SectionVar → List Entry
  | _, [] => []
  | before, v :: rest =>
    { name := v.name, type := v.type.abstractFvars before } ::
      bindersWithin (before ++ [v.name]) rest

/-- The binders of a telescope, outermost first. -/
def binders (t : Telescope) : List Entry :=
  bindersWithin [] t.vars

/-- The context inside the binders of a telescope. -/
def context (t : Telescope) : Context :=
  t.binders.reverse

/-! ## Terms over a telescope -/

/-- A term with the variables as indices of `Telescope.context`. -/
def close (t : Telescope) (e : Term) : Term :=
  e.abstractFvars t.names

/-- A term with the indices of `Telescope.context` as variables. -/
def reopen (t : Telescope) (e : Term) : Term :=
  t.names.foldr (fun n body => body.instantiate (.fvar n)) e

/-- The closed term inside the binders of the telescope. -/
def wrap (t : Telescope) (k : Binder) (e : Term) : Term :=
  t.binders.foldr (fun b body => .bind k b.name b.type body) (t.close e)

end Telescope

namespace Scope

/-- The variables that have another name than `v`. -/
def others (vars : List SectionVar) (v : SectionVar) : List SectionVar :=
  vars.filter (·.name ≠ v.name)

theorem length_others_lt {vars : List SectionVar} {v : SectionVar} (h : v ∈ vars) :
    (others vars v).length < vars.length :=
  List.length_filter_lt_length_iff_exists.mpr ⟨v, h, by simp⟩

/-- The variables among `vars` that the pending names depend on. A variable that
is found is set aside, and the names in its type become pending. -/
def dependencies (pending : List Name) (vars : List SectionVar) : List SectionVar :=
  match h : vars.find? (fun v => pending.contains v.name) with
  | none => []
  | some v =>
    have := length_others_lt (List.mem_of_find?_eq_some h)
    v :: dependencies (v.type.fvars ++ pending) (others vars v)
termination_by vars.length

/-- The variables that some terms depend on, in the order of their declaration. -/
def telescope (s : Scope) (terms : List Term) : Telescope :=
  { vars := (dependencies (terms.flatMap Term.fvars) s.vars).mergeSort
      fun v w => v.order ≤ w.order }

/-- A declaration's type and value over the variables they depend on. -/
def abstracted (s : Scope) (type : Term) (value : Option Term) : Telescope × Term × Option Term :=
  let t := s.telescope (type :: value.toList)
  (t, t.wrap .pi type, value.map (t.wrap .lam))

end Scope

end TypeTheory
