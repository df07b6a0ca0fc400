import TypeTheory.Encoding.Level
import TypeTheory.Term.Basic

/-!
# Terms as bytes

A term is written as a header and its parts from left to right. A spine of
applications is one header that holds the number of arguments, followed by the
head and the arguments.

The decoder is a machine. It refuses terms that are nested too deeply, where a
spine of `n` arguments counts as `n` levels, and indices that are too large. The
nesting limit also bounds the number of things that one header adds: a spine is
two things for each argument and one for its head.
-/

namespace TypeTheory

open Encoding Decoder

namespace Binder

/-- The flag of a binding form. -/
def flag : Binder → Nat
  | .lam => 5
  | .pi => 6
  | .sigma => 8

end Binder

namespace Side

/-- The flag of a projection. -/
def flag : Side → Nat
  | .fst => 10
  | .snd => 11

end Side

namespace Term

/-! ## Writing -/

/-- The header for a spine of `n` arguments; none is written for no argument. -/
def putSpine (n : Nat) : Bytes :=
  if n = 0 then [] else Header.put ⟨4, n⟩

/-- Writes a term applied to `n` arguments in front of `rest`, which starts with
the bytes of the arguments. -/
def putApplied (n : Nat) (rest : Bytes) : Term → Bytes
  | .app f a => f.putApplied (n + 1) (a.putApplied 0 rest)
  | .bvar i => putSpine n ++ Header.put ⟨0, i⟩ ++ rest
  | .fvar x => putSpine n ++ Header.put ⟨1, 0⟩ ++ x.put ++ rest
  | .sort l => putSpine n ++ Header.put ⟨2, 0⟩ ++ l.put ++ rest
  | .const x ls =>
    putSpine n ++ Header.put ⟨3, ls.length⟩ ++ x.put ++ ls.flatMap Level.put ++ rest
  | .bind k x t b =>
    putSpine n ++ Header.put ⟨k.flag, 0⟩ ++ x.put ++ t.putApplied 0 (b.putApplied 0 rest)
  | .letE x t v b =>
    putSpine n ++ Header.put ⟨7, 0⟩ ++ x.put ++
      t.putApplied 0 (v.putApplied 0 (b.putApplied 0 rest))
  | .pair a b => putSpine n ++ Header.put ⟨9, 0⟩ ++ a.putApplied 0 (b.putApplied 0 rest)
  | .proj k p => putSpine n ++ Header.put ⟨k.flag, 0⟩ ++ p.putApplied 0 rest

/-- Writes a term. -/
def put (e : Term) : Bytes :=
  e.putApplied 0 []

/-! ## Reading -/

/-- The deepest nesting that is read. -/
def maxDepth : Nat :=
  1024

/-- The largest index that is read. -/
def maxIndex : Nat :=
  0xFFFFFFFF

/-- What is still to do: read a term at some depth, or put terms together that
were read. -/
inductive Task where
  | read (depth : Nat)
  | app
  | bind (binder : Binder) (name : Name)
  | letE (name : Name)
  | pair
  | proj (side : Side)
  deriving DecidableEq, Inhabited, Repr

namespace Task

/-- Reading `n` arguments, each followed by its application. -/
def argumentTasks (depth : Nat) : Nat → List Task
  | 0 => []
  | n + 1 => .read depth :: .app :: argumentTasks depth n

/-- Takes up a binding form at some depth. -/
def startBind (k : Binder) (depth : Nat) (tasks : List Task) (built : List Term) :
    Decoder (Stacks Task Term) := do
  let name ← Name.get
  pure ⟨.read (depth + 1) :: .read (depth + 1) :: .bind k name :: tasks, built⟩

/-- Takes up a spine of `n` arguments at some depth. There cannot be more
arguments than bytes. -/
def startSpine (n depth : Nat) (tasks : List Task) (built : List Term) :
    Decoder (Stacks Task Term) := do
  let left ← get
  if n = 0 ∨ !Bytes.holds n left then throw (.malformed .termArity)
  else if maxDepth < depth + n then throw (.malformed .termDepth)
  else pure ⟨.read (depth + n) :: argumentTasks (depth + n) n ++ tasks, built⟩

/-- Takes up the term that a header starts at some depth. -/
def start (tag : Header) (depth : Nat) (tasks : List Task) (built : List Term) :
    Decoder (Stacks Task Term) :=
  match tag.flag with
  | 0 =>
    if maxIndex < tag.size then throw (.malformed .termIndex)
    else pure ⟨tasks, .bvar tag.size :: built⟩
  | 1 => do
    let name ← Name.get
    pure ⟨tasks, .fvar name :: built⟩
  | 2 => do
    let level ← Level.get
    pure ⟨tasks, .sort level :: built⟩
  | 3 => do
    let name ← Name.get
    let levels ← Level.get.times tag.size
    pure ⟨tasks, .const name levels :: built⟩
  | 4 => startSpine tag.size depth tasks built
  | 5 => startBind .lam depth tasks built
  | 6 => startBind .pi depth tasks built
  | 7 => do
    let name ← Name.get
    let part : Task := .read (depth + 1)
    pure ⟨part :: part :: part :: .letE name :: tasks, built⟩
  | 8 => startBind .sigma depth tasks built
  | 9 => pure ⟨.read (depth + 1) :: .read (depth + 1) :: .pair :: tasks, built⟩
  | 10 => pure ⟨.read (depth + 1) :: .proj .fst :: tasks, built⟩
  | 11 => pure ⟨.read (depth + 1) :: .proj .snd :: tasks, built⟩
  | flag => throw (.badFlag flag .term)

/-- Reads one header at some depth and takes up its term. -/
def readAt (depth : Nat) (tasks : List Task) (built : List Term) : Decoder (Stacks Task Term) :=
  if maxDepth < depth then throw (.malformed .termDepth)
  else do
    let tag ← Header.get
    start tag depth tasks built

/-- Does one thing. -/
def step (task : Task) (tasks : List Task) (built : List Term) : Decoder (Stacks Task Term) :=
  match task, built with
  | .read depth, built => readAt depth tasks built
  | .app, a :: f :: built => pure ⟨tasks, .app f a :: built⟩
  | .bind k name, b :: t :: built => pure ⟨tasks, .bind k name t b :: built⟩
  | .letE name, b :: v :: t :: built => pure ⟨tasks, .letE name t v b :: built⟩
  | .pair, b :: a :: built => pure ⟨tasks, .pair a b :: built⟩
  | .proj k, p :: built => pure ⟨tasks, .proj k p :: built⟩
  | _, _ => throw (.malformed .termOperand)

/-! ## The machine ends -/

theorem shrinks_unread : Shrinks (get : Decoder Bytes) := by
  intro input a rest eq
  cases eq
  exact Nat.le_refl _

theorem length_argumentTasks (depth n : Nat) : (argumentTasks depth n).length = 2 * n := by
  induction n with
  | zero => rfl
  | succ n ih =>
    simp only [argumentTasks, List.length_cons, ih]
    omega

theorem adds_startBind (k : Binder) (depth : Nat) (tasks : List Task) (built : List Term) :
    Adds 2050 (tasks.length + 2050) (startBind k depth tasks built) :=
  adds_bind Name.consumes_get.shrinks fun name => adds_pure (by simp)

theorem adds_startSpine (n depth : Nat) (tasks : List Task) (built : List Term) :
    Adds 2050 (tasks.length + 2050) (startSpine n depth tasks built) := by
  refine adds_bind shrinks_unread fun left => ?_
  split
  · exact adds_throw _
  · split
    · exact adds_throw _
    · refine adds_pure ?_
      simp only [List.length_append, List.length_cons, length_argumentTasks]
      unfold maxDepth at *
      omega

theorem adds_start (tag : Header) (depth : Nat) (tasks : List Task) (built : List Term) :
    Adds 2050 (tasks.length + 2050) (start tag depth tasks built) := by
  unfold start
  split
  · split
    · exact adds_throw _
    · exact adds_pure (by simp)
  · exact adds_bind Name.consumes_get.shrinks fun name => adds_pure (by simp)
  · exact adds_bind Level.shrinks_get fun level => adds_pure (by simp)
  · exact adds_bind Name.consumes_get.shrinks fun name =>
      adds_bind (Level.shrinks_get.times tag.size) fun levels => adds_pure (by simp)
  · exact adds_startSpine _ _ _ _
  · exact adds_startBind _ _ _ _
  · exact adds_startBind _ _ _ _
  · exact adds_bind Name.consumes_get.shrinks fun name => adds_pure (by simp)
  · exact adds_startBind _ _ _ _
  · exact adds_pure (by simp)
  · exact adds_pure (by simp)
  · exact adds_pure (by simp)
  · exact adds_throw _

theorem weight_readAt {depth : Nat} {tasks : List Task} {built : List Term} {input rest : Bytes}
    {s : Stacks Task Term} (h : readAt depth tasks built input = .ok s rest) :
    s.weight 2050 rest < Stacks.weight ⟨.read depth :: tasks, built⟩ 2050 input := by
  unfold readAt at h
  split at h
  · cases h
  · exact weight_lt_of_consumes Header.consumes_get (adds_start · depth tasks built) h

theorem weight_step {task : Task} {tasks : List Task} {built : List Term} {input rest : Bytes}
    {s : Stacks Task Term} (h : step task tasks built input = .ok s rest) :
    s.weight 2050 rest < Stacks.weight ⟨task :: tasks, built⟩ 2050 input := by
  cases task with
  | read depth => exact weight_readAt h
  | app | bind | pair =>
    rcases built with _ | ⟨b, _ | ⟨a, built⟩⟩
    · cases h
    · cases h
    · cases h
      simp [Stacks.weight]
  | letE name =>
    rcases built with _ | ⟨b, _ | ⟨v, _ | ⟨t, built⟩⟩⟩
    · cases h
    · cases h
    · cases h
    · cases h
      simp [Stacks.weight]
  | proj k =>
    rcases built with _ | ⟨p, built⟩
    · cases h
    · cases h
      simp [Stacks.weight]

end Task

/-- The machine that reads a term. -/
def machine : Machine Task Term where
  step := Task.step
  flaw := .term
  price := 2050
  weight_step := Task.weight_step

/-- Reads a term. -/
def get : Decoder Term :=
  machine.run ⟨[.read 0], []⟩

end Term

end TypeTheory
