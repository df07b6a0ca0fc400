import Mathlib.Tactic.Common
import TypeTheory.Proofs.Computation
import TypeTheory.Scope.Resolution
import TypeTheory.Scope.Telescope

/-!
# Closing a block gives back the scope around it

A scope takes one operation after the other, some of which fail. An *excursion* opens
a block, does whatever it likes inside it, further blocks included, and ends with the
operation that closes the block. After an excursion the frames are the ones from before
it (`Scope.restores_of_isExcursion`), so names mean what they meant.

Only the innermost block is ever changed, and only the innermost one is closed. Hence
the blocks that an excursion started from stay in place for as long as it lasts
(`Scope.Inside`), and what it leaves behind is those blocks. The one thing that an
excursion does change is the number of variables declared so far.

An operation keeps the scope also when it fails (`ScopeM`), so what a failure leaves
behind has to be shown: every operation looks at the scope until nothing can fail any
more, and changes it then (`Scope.atomic_performM`).
-/

namespace TypeTheory

/-- An operation on a scope. One that looks at declarations is given the environment
that it finds. -/
inductive ScopeAction where
  | enter (heading : Heading)
  | leave (kind : BlockKind) (name : Option Name)
  | openNamespace (env : Environment) (short : Name)
  | declareVariable (env : Environment) (name : Name) (type : Term)
  | resolve (env : Environment) (short : Name)
  | telescope (terms : List Term)
  deriving DecidableEq, Inhabited, Repr

namespace Scope

open EStateM

/-- Does what an operation says. The answer of a query is dropped. -/
def performM : ScopeAction → ScopeM Unit
  | .enter heading => modify (·.enter heading)
  | .leave kind name => leaveM kind name
  | .openNamespace env short => do
    let _ ← openNamespaceM env short
  | .declareVariable env name type => declareVariableM env name type
  | .resolve env short => do
    let _ ← ofExcept ((← get).resolve env short)
  | .telescope terms => do
    let _ := (← get).telescope terms

/-- The scope after an operation, if it succeeds. -/
def perform (s : Scope) (action : ScopeAction) : Except ScopeError Scope :=
  (performM action).final s

/-- The scope that an operation leaves behind, whether it succeeds or fails. -/
def after (s : Scope) (action : ScopeAction) : Scope :=
  (performM action).leaves s

/-- The scope after some operations. -/
def afterAll (s : Scope) (actions : List ScopeAction) : Scope :=
  actions.foldl after s

variable {s s' t outer : Scope}

theorem after_of_ok {action : ScopeAction} (h : s.perform action = .ok s') :
    s.after action = s' :=
  leaves_of_final h

/-! ## Operations that fail -/

/-- Closing a block looks at the heading of the block, and changes the scope only if it fits. -/
theorem atomic_leaveM (kind : BlockKind) (name : Option Name) : (leaveM kind name).Atomic := by
  refine readOnly_get.bind fun s => ?_
  cases s.blocks with
  | nil => exact (readOnly_throw _).atomic
  | cons b outer => exact (readOnly_require _ _).bind fun _ => atomic_modify _

/-- Opening a namespace looks for it first, and changes the scope only if it is there. -/
theorem atomic_openNamespaceM (env : Environment) (short : Name) :
    (openNamespaceM env short).Atomic := by
  refine readOnly_get.bind fun s => ?_
  cases s.findNamespace? env short with
  | none => exact (readOnly_throw _).atomic
  | some target => exact (atomic_modify _).bind_of_succeeds fun _ t => ⟨target, t, rfl⟩

/-- A variable is declared only after its name is seen to be free, so a failure leaves the scope as
it was. -/
theorem atomic_declareVariableM (env : Environment) (name : Name) (type : Term) :
    (declareVariableM env name type).Atomic := by
  refine readOnly_get.bind fun s => (readOnly_require _ _).bind fun _ => ?_
  exact (atomic_modify _).bind_of_succeeds fun _ t => ⟨_, _, rfl⟩

/-- **An operation that fails changes nothing**: it looks first and changes then. -/
theorem atomic_performM (action : ScopeAction) : (performM action).Atomic := by
  cases action with
  | enter heading => exact atomic_modify _
  | leave kind name => exact atomic_leaveM kind name
  | openNamespace env short =>
    exact (atomic_openNamespaceM env short).bind_of_succeeds fun _ t => ⟨(), t, rfl⟩
  | declareVariable env name type => exact atomic_declareVariableM env name type
  | resolve env short =>
    refine readOnly_get.bind fun s => (readOnly_ofExcept _).bind fun _ => ?_
    exact atomic_of_succeeds fun t => ⟨(), t, rfl⟩
  | telescope terms => exact atomic_of_succeeds fun t => ⟨(), t, rfl⟩

/-- An operation that fails leaves the scope as it was, so the next one starts from where it did. -/
theorem after_of_error {action : ScopeAction} {err : ScopeError}
    (h : s.perform action = .error err) : s.after action = s :=
  (atomic_performM action).leaves_eq h

/-! ## Scopes with the same frames -/

/-- The two scopes have the same root and the same blocks: of the same kinds, with the
same names, opened namespaces and variables. -/
structure SameFrames (s t : Scope) : Prop where
  root : s.root = t.root
  blocks : s.blocks = t.blocks

namespace SameFrames

theorem refl (s : Scope) : s.SameFrames s :=
  ⟨rfl, rfl⟩

theorem currentNamespace (h : s.SameFrames t) : s.currentNamespace = t.currentNamespace :=
  congrArg namespaceOf h.blocks

theorem qualify (h : s.SameFrames t) (short : Name) : s.qualify short = t.qualify short := by
  rw [Scope.qualify, Scope.qualify, h.currentNamespace]

theorem frames (h : s.SameFrames t) : s.frames = t.frames := by
  rw [Scope.frames, Scope.frames, h.root, h.blocks]

theorem vars (h : s.SameFrames t) : s.vars = t.vars := by
  rw [Scope.vars, Scope.vars, h.frames]

/-- **Names mean the same** in scopes with the same frames. -/
theorem resolve (h : s.SameFrames t) (env : Environment) (short : Name) :
    s.resolve env short = t.resolve env short := by
  simp only [Scope.resolve, findVariable?, enclosingConstant?, enclosing, openedConstants, opened,
    h.vars, h.currentNamespace, h.frames]

end SameFrames

/-! ## Inside a block -/

/-- The scope has the root and all blocks of `outer`, and more blocks inside them. -/
def Inside (outer s : Scope) : Prop :=
  s.root = outer.root ∧ ∃ b inner, s.blocks = b :: inner ++ outer.blocks

/-- Opening a namespace as an operation leaves the scope that it gives, without the name of the
namespace. -/
theorem perform_openNamespace (s : Scope) (env : Environment) (short : Name) :
    s.perform (.openNamespace env short) = (s.openNamespace env short).map (·.1) := by
  unfold perform final
  rw [performM, outcome_bind_pure, openNamespace]
  cases (openNamespaceM env short).outcome s <;> rfl

/-- Resolving a name as an operation leaves the scope as it was, and fails where the name is not
resolved. -/
theorem perform_resolve (s : Scope) (env : Environment) (short : Name) :
    s.perform (.resolve env short) = (s.resolve env short).map fun _ => s := by
  unfold perform final
  rw [performM, outcome_get_bind, outcome_ofExcept_bind]
  cases s.resolve env short <;> rfl

/-- **What an operation does to the frames**: nothing, or it opens a block, or closes the
innermost one, or changes the innermost one. -/
theorem frames_of_perform {action : ScopeAction} (h : s.perform action = .ok s') :
    s'.SameFrames s ∨ (s'.root = s.root ∧ ∃ b, s'.blocks = b :: s.blocks) ∨
      (s'.root = s.root ∧ ∃ b, s.blocks = b :: s'.blocks) ∨
      ∃ f, s'.SameFrames (s.modifyInnermost f) := by
  cases action with
  | enter heading =>
    cases h
    exact .inr (.inl ⟨rfl, _, rfl⟩)
  | leave kind name =>
    change s.leave kind name = .ok s' at h
    rw [leave_eq] at h
    split at h
    · cases h
    · rename_i b blocks hblocks
      split at h
      · cases h
        exact .inr (.inr (.inl ⟨rfl, b, hblocks⟩))
      · cases h
  | openNamespace env short =>
    rw [perform_openNamespace, openNamespace_eq] at h
    split at h
    · cases h
    · cases h
      exact .inr (.inr (.inr ⟨_, rfl, rfl⟩))
  | declareVariable env name type =>
    change s.declareVariable env name type = .ok s' at h
    rw [declareVariable_eq] at h
    split at h
    · cases h
    · cases h
      exact .inr (.inr (.inr ⟨_, rfl, rfl⟩))
  | resolve env short =>
    rw [perform_resolve] at h
    cases hresolve : s.resolve env short with
    | error err =>
      rw [hresolve] at h
      cases h
    | ok referent =>
      rw [hresolve] at h
      cases h
      exact .inl (.refl s)
  | telescope terms =>
    cases h
    exact .inl (.refl s)

/-- Inside a block there is an innermost block to change. -/
theorem Inside.modifyInnermost (h : Inside outer s) (f : Frame → Frame) :
    Inside outer (s.modifyInnermost f) := by
  obtain ⟨hroot, b, inner, hblocks⟩ := h
  rw [List.cons_append] at hblocks
  unfold Scope.modifyInnermost
  rw [hblocks]
  exact ⟨hroot, _, inner, rfl⟩

theorem Inside.of_sameFrames (h : Inside outer s) (hsame : s'.SameFrames s) : Inside outer s' := by
  obtain ⟨hroot, b, inner, hblocks⟩ := h
  exact ⟨hsame.root.trans hroot, b, inner, hsame.blocks.trans hblocks⟩

/-- **An operation stays inside a block** unless it closes it. -/
theorem Inside.after (h : Inside outer s) {action : ScopeAction}
    (hdepth : outer.depth < (s.after action).depth) : Inside outer (s.after action) := by
  cases hperform : s.perform action with
  | error err =>
    rw [after_of_error hperform]
    exact h
  | ok s' =>
    rw [after_of_ok hperform] at hdepth ⊢
    rcases frames_of_perform hperform with hsame | ⟨hroot, b, hblocks⟩ | ⟨hroot, b, hblocks⟩ |
      ⟨f, hsame⟩
    · exact h.of_sameFrames hsame
    · obtain ⟨hroot', b', inner, hinner⟩ := h
      exact ⟨hroot.trans hroot', b, b' :: inner, by rw [hblocks, hinner]; rfl⟩
    · obtain ⟨hroot', b', inner, hinner⟩ := h
      rw [hblocks, List.cons_append, List.cons.injEq] at hinner
      -- the depth tells that the block that was closed is not the outermost one inside
      cases inner with
      | nil =>
        rw [depth, depth, hinner.2, List.nil_append] at hdepth
        exact absurd hdepth (Nat.lt_irrefl _)
      | cons b'' inner => exact ⟨hroot.trans hroot', b'', inner, hinner.2⟩
    · exact (h.modifyInnermost f).of_sameFrames hsame

/-- A sequence of operations stays inside for as long as no beginning of it has closed the block. -/
theorem Inside.afterAll (h : Inside outer s) {actions : List ScopeAction}
    (hdepth : ∀ earlier, earlier <+: actions → outer.depth < (s.afterAll earlier).depth) :
    Inside outer (s.afterAll actions) := by
  induction actions generalizing s with
  | nil => exact h
  | cons action rest ih =>
    have hfirst := hdepth [action] (List.prefix_append [action] rest)
    refine ih (h.after hfirst) fun earlier hprefix => ?_
    exact hdepth (action :: earlier) (List.cons_prefix_cons.mpr ⟨rfl, hprefix⟩)

/-! ## Excursions -/

/-- The operations open a block first, stay inside it, and close it last. -/
def IsExcursion (s : Scope) (actions : List ScopeAction) : Prop :=
  ∃ heading inner kind name,
    actions = .enter heading :: (inner ++ [.leave kind name]) ∧
    (∀ earlier, earlier <+: inner → s.depth < ((s.enter heading).afterAll earlier).depth) ∧
    ∃ t, ((s.enter heading).afterAll inner).leave kind name = .ok t ∧ t.depth = s.depth

/-- The last operation of an excursion takes away what is left inside the block. -/
theorem Inside.leave (h : Inside outer s) {kind : BlockKind} {name : Option Name}
    (hleave : s.leave kind name = .ok t) (hdepth : t.depth = outer.depth) : t.SameFrames outer := by
  obtain ⟨hroot, b, inner, hinner⟩ := h
  rw [leave_eq, hinner] at hleave
  dsimp only [List.cons_append] at hleave
  split at hleave
  · cases hleave
    -- nothing but the block itself was left
    have hlength : (inner ++ outer.blocks).length = outer.blocks.length := hdepth
    rw [List.length_append] at hlength
    have hnil : inner = [] := List.length_eq_zero_iff.mp (by omega)
    exact ⟨hroot, by rw [hnil]; rfl⟩
  · cases hleave

/-- **An excursion gives back the frames.** -/
theorem sameFrames_of_isExcursion {actions : List ScopeAction} (h : s.IsExcursion actions) :
    (s.afterAll actions).SameFrames s := by
  obtain ⟨heading, inner, kind, name, rfl, hdepth, t, hleave, ht⟩ := h
  have hentered : Inside s (s.enter heading) := ⟨rfl, _, [], rfl⟩
  have hinside := hentered.afterAll hdepth
  have hlast : s.afterAll (.enter heading :: (inner ++ [.leave kind name])) = t := by
    change (inner ++ [ScopeAction.leave kind name]).foldl Scope.after (s.enter heading) = t
    rw [List.foldl_append]
    exact after_of_ok hleave
  rw [hlast]
  exact hinside.leave hleave ht

/-- **Blocks give back the scope around them.** Operations that open a block, stay inside
it and close it last, succeeding or failing in between, leave the frames as they were:
the namespace is the same, the variables are the same, and every name stands for what
it stood for, in every environment. A run of an operation that fails ends in the scope it
started from. -/
theorem restores_of_isExcursion {s : Scope} {actions : List ScopeAction}
    (h : s.IsExcursion actions) :
    (s.afterAll actions).SameFrames s ∧
    (s.afterAll actions).currentNamespace = s.currentNamespace ∧
    (∀ short, (s.afterAll actions).qualify short = s.qualify short) ∧
    (s.afterAll actions).vars = s.vars ∧
    (∀ env short, (s.afterAll actions).resolve env short = s.resolve env short) ∧
    ∀ (t t' : Scope) (action : ScopeAction) (err : ScopeError),
      performM action t = .error err t' → t' = t := by
  have hsame := sameFrames_of_isExcursion h
  refine ⟨hsame, hsame.currentNamespace, hsame.qualify, hsame.vars, hsame.resolve, ?_⟩
  intro t t' action err hfails
  exact atomic_performM action hfails

/-- A namespace `A` inside a section, with an opened namespace and a variable. Inside `A`
a name that is taken is refused, a section is opened and closed, and two attempts to
close `A` fail, one because the section is in the way and one because of the name. -/
theorem restores_of_isExcursion_nested :
    let name := fun x : String => Name.atom x
    let env : Environment :=
      ⟨#[⟨(name "B").str "f", [], .sort .zero, none⟩, ⟨(name "A").str "x", [], .sort .zero, none⟩]⟩
    let s : Scope := (Scope.enter {} (.varSection none)).afterAll
      [.openNamespace env (name "B"), .declareVariable env (name "v") (.sort .zero)]
    let actions : List ScopeAction :=
      [.enter (.nameSpace (name "A")), .declareVariable env (name "x") (.sort .zero),
        .declareVariable env (name "w") (.fvar (name "v")), .enter (.varSection none),
        .openNamespace env (name "A"), .leave .nameSpace none, .resolve env (name "y"),
        .telescope [.fvar (name "w")], .leave .varSection none,
        .leave .nameSpace (some (name "B")), .leave .nameSpace (some (name "A"))]
    s.IsExcursion actions ∧ (s.afterAll actions).nextOrder = s.nextOrder + 1 ∧
      s.resolve env (name "f") = .ok (.constant ((name "B").str "f")) ∧
      (s.afterAll actions).SameFrames s ∧
      (s.afterAll actions).resolve env (name "f") = s.resolve env (name "f") := by
  intro name env s actions
  have hexcursion : s.IsExcursion actions := by
    refine ⟨.nameSpace (name "A"), actions.tail.dropLast, .nameSpace, some (name "A"), rfl, ?_,
      { s with nextOrder := s.nextOrder + 1 }, ?_⟩
    · intro earlier hprefix
      have hall : ∀ k ≤ 9, s.depth <
          ((s.enter (.nameSpace (name "A"))).afterAll (actions.tail.dropLast.take k)).depth := by
        decide +kernel
      rw [List.prefix_iff_eq_take.mp hprefix]
      exact hall _ hprefix.length_le
    · decide +kernel
  have hrestores := restores_of_isExcursion hexcursion
  exact ⟨hexcursion, by decide +kernel, by decide +kernel, hrestores.1, hrestores.2.2.2.2.1 env _⟩

end Scope

end TypeTheory
