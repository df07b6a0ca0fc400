import TypeTheory.Encoding.Machine
import TypeTheory.Encoding.Name
import TypeTheory.Level.Basic

/-!
# Levels as bytes

A level is written as a header and its parts from left to right. A chain of
successors is one header that holds their number.

The decoder is a machine: a header that is read adds at most three things to do,
which is its price.
-/

namespace TypeTheory

open Encoding Decoder

namespace Level

/-! ## Writing -/

/-- The header for `k` successors; none is written for no successor. -/
def putOffset (k : Nat) : Bytes :=
  if k = 0 then [] else Header.put ⟨1, k⟩

/-- Writes a level with `k` more successors on top in front of `rest`. -/
def putFrom (k : Nat) (rest : Bytes) : Level → Bytes
  | zero => putOffset k ++ Header.put ⟨0, 0⟩ ++ rest
  | succ l => l.putFrom (k + 1) rest
  | max a b => putOffset k ++ Header.put ⟨2, 0⟩ ++ a.putFrom 0 (b.putFrom 0 rest)
  | imax a b => putOffset k ++ Header.put ⟨3, 0⟩ ++ a.putFrom 0 (b.putFrom 0 rest)
  | param n => putOffset k ++ Header.put ⟨4, 0⟩ ++ n.put ++ rest

/-- Writes a level. -/
def put (l : Level) : Bytes :=
  l.putFrom 0 []

/-! ## Reading -/

/-- The largest number of successors that one header may stand for. -/
def maxOffset : Nat :=
  0x10000

/-- What is still to do: read a level, or put levels together that were read. -/
inductive Task where
  | read
  | succ (k : Nat)
  | max
  | imax
  deriving DecidableEq, Inhabited, Repr

namespace Task

/-- Takes up the level that a header starts. -/
def start (tag : Header) (tasks : List Task) (built : List Level) :
    Decoder (Stacks Task Level) :=
  match tag.flag with
  | 0 => pure ⟨tasks, .zero :: built⟩
  | 1 =>
    if maxOffset < tag.size then throw (.malformed .levelOffset)
    else pure ⟨.read :: .succ tag.size :: tasks, built⟩
  | 2 => pure ⟨.read :: .read :: .max :: tasks, built⟩
  | 3 => pure ⟨.read :: .read :: .imax :: tasks, built⟩
  | 4 => do
    let name ← Name.get
    pure ⟨tasks, .param name :: built⟩
  | flag => throw (.badFlag flag .level)

/-- Does one thing. -/
def step (task : Task) (tasks : List Task) (built : List Level) :
    Decoder (Stacks Task Level) :=
  match task, built with
  | .read, built => do
    let tag ← Header.get
    start tag tasks built
  | .succ k, l :: built => pure ⟨tasks, l.addOffset k :: built⟩
  | .max, b :: a :: built => pure ⟨tasks, .max a b :: built⟩
  | .imax, b :: a :: built => pure ⟨tasks, .imax a b :: built⟩
  | _, _ => throw (.malformed .levelOperand)

theorem adds_start (tag : Header) (tasks : List Task) (built : List Level) :
    Adds 3 (tasks.length + 3) (start tag tasks built) := by
  unfold start
  split
  · exact adds_pure (by simp)
  · split
    · exact adds_throw _
    · exact adds_pure (by simp)
  · exact adds_pure (by simp)
  · exact adds_pure (by simp)
  · exact adds_bind Name.consumes_get.shrinks fun name => adds_pure (by simp)
  · exact adds_throw _

theorem weight_step {task : Task} {tasks : List Task} {built : List Level} {input rest : Bytes}
    {s : Stacks Task Level} (h : step task tasks built input = .ok s rest) :
    s.weight 3 rest < Stacks.weight ⟨task :: tasks, built⟩ 3 input := by
  cases task with
  | read => exact weight_lt_of_consumes Header.consumes_get (adds_start · tasks built) h
  | succ k =>
    rcases built with _ | ⟨l, built⟩
    · cases h
    · cases h
      simp [Stacks.weight]
  | max | imax =>
    rcases built with _ | ⟨b, _ | ⟨a, built⟩⟩
    · cases h
    · cases h
    · cases h
      simp [Stacks.weight]

theorem shrinks_start (tag : Header) (tasks : List Task) (built : List Level) :
    Shrinks (start tag tasks built) := by
  unfold start
  split
  · exact shrinks_pure _
  · split
    · exact shrinks_throw _
    · exact shrinks_pure _
  · exact shrinks_pure _
  · exact shrinks_pure _
  · exact Name.consumes_get.shrinks.bind fun _ => shrinks_pure _
  · exact shrinks_throw _

theorem shrinks_step (task : Task) (tasks : List Task) (built : List Level) :
    Shrinks (step task tasks built) := by
  unfold step
  split
  · exact Header.consumes_get.shrinks.bind fun tag => shrinks_start tag tasks _
  · exact shrinks_pure _
  · exact shrinks_pure _
  · exact shrinks_pure _
  · exact shrinks_throw _

end Task

/-- The machine that reads a level. -/
def machine : Machine Task Level where
  step := Task.step
  flaw := .level
  price := 3
  weight_step := Task.weight_step

/-- Reads a level. -/
def get : Decoder Level :=
  machine.run ⟨[.read], []⟩

theorem shrinks_get : Shrinks get :=
  machine.shrinks_run Task.shrinks_step _

end Level

end TypeTheory
