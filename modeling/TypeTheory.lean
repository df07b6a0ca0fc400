import TypeTheory.Hashing
import TypeTheory.Computation
import TypeTheory.Name
import TypeTheory.Level.Basic
import TypeTheory.Level.Normal
import TypeTheory.Term.Basic
import TypeTheory.Term.Alpha
import TypeTheory.Term.Substitution
import TypeTheory.Term.Occurrence
import TypeTheory.Term.Word
import TypeTheory.Term.Text
import TypeTheory.Context
import TypeTheory.Error
import TypeTheory.Environment.Basic
import TypeTheory.Checker.Basic
import TypeTheory.Reduction
import TypeTheory.Conversion
import TypeTheory.Typing
import TypeTheory.Declaration.Check
import TypeTheory.Church
import TypeTheory.Bytes
import TypeTheory.Digest.Basic
import TypeTheory.Digest.Blake3
import TypeTheory.Encoding.Basic
import TypeTheory.Encoding.Header
import TypeTheory.Encoding.Name
import TypeTheory.Encoding.Machine
import TypeTheory.Encoding.Level
import TypeTheory.Encoding.Term
import TypeTheory.Encoding.Declaration
import TypeTheory.Text.Blank
import TypeTheory.Config
import TypeTheory.CompiledUnit.Basic
import TypeTheory.CompiledUnit.Load
import TypeTheory.Environment.Shared
import TypeTheory.Scope.Basic
import TypeTheory.Scope.Resolution
import TypeTheory.Scope.Telescope
import TypeTheory.Session.Basic
import TypeTheory.Session.Query
import TypeTheory.Session.Storage
import TypeTheory.Proofs.Computation
import TypeTheory.Proofs.Level.Value
import TypeTheory.Proofs.Level.Recursion
import TypeTheory.Proofs.Term.Substitution
import TypeTheory.Proofs.Term.Spine
import TypeTheory.Proofs.Judgement
import TypeTheory.Proofs.Checker.Run
import TypeTheory.Proofs.Checker.Forms
import TypeTheory.Proofs.Soundness.Reduction
import TypeTheory.Proofs.Soundness.Conversion
import TypeTheory.Proofs.Soundness.Typing
import TypeTheory.Proofs.Reduction.Determinism
import TypeTheory.Proofs.Simulation.Basic
import TypeTheory.Proofs.Simulation.Reduction
import TypeTheory.Proofs.Simulation.Conversion
import TypeTheory.Proofs.Simulation.Typing
import TypeTheory.Proofs.Simulation.View
import TypeTheory.Proofs.Simulation.Scoped
import TypeTheory.Proofs.Simulation.Memo
import TypeTheory.Proofs.Checker.Transparency
import TypeTheory.Proofs.Checker.Indices
import TypeTheory.Proofs.Environment.Distinct
import TypeTheory.Proofs.Environment.Extension
import TypeTheory.Proofs.Environment.Verification
import TypeTheory.Proofs.Session.Invariant
import TypeTheory.Proofs.Encoding.Reading
import TypeTheory.Proofs.Encoding.Level
import TypeTheory.Proofs.Encoding.Term
import TypeTheory.Proofs.Encoding.Accepted
import TypeTheory.Proofs.CompiledUnit.RoundTrip
import TypeTheory.Proofs.Level.Parameters
import TypeTheory.Proofs.Term.Levels
import TypeTheory.Proofs.WellFormed.Basic
import TypeTheory.Proofs.WellFormed.Kernel
import TypeTheory.Proofs.Reduction.Evaluation
import TypeTheory.Proofs.Reduction.Values
import TypeTheory.Proofs.Conversion.Containment
import TypeTheory.Proofs.Level.Canonical
import TypeTheory.Proofs.Level.Instantiation
import TypeTheory.Proofs.Checker.Scope
import TypeTheory.Proofs.Session.Scope
import TypeTheory.Proofs.Reduction.Nesting
import TypeTheory.Proofs.Reduction.Termination
import TypeTheory.Proofs.Reduction.Normalization
import TypeTheory.Proofs.CompiledUnit.Resave
import TypeTheory.Proofs.Checker.Budget
import TypeTheory.Proofs.Simulation.Names
import TypeTheory.Proofs.Simulation.Renaming
import TypeTheory.Proofs.Scope.Telescope
import TypeTheory.Proofs.Session.Telescope
import TypeTheory.Proofs.Level.Congruence
import TypeTheory.Proofs.Term.Simultaneous
import TypeTheory.Proofs.Conversion.Parallel
import TypeTheory.Proofs.Normalization.Steps
import TypeTheory.Proofs.Normalization.Heads
import TypeTheory.Proofs.Normalization.Interpretation
import TypeTheory.Proofs.Typing.Rules
import TypeTheory.Proofs.Typing.Bidirectional
import TypeTheory.Proofs.Normalization.Members
import TypeTheory.Proofs.Conversion.Joinability
import TypeTheory.Proofs.Normalization.Soundness
import TypeTheory.Proofs.Normalization.Declarations
import TypeTheory.Proofs.Reduction.Cost
import TypeTheory.Proofs.Normalization.Descent
import TypeTheory.Proofs.Conversion.Rigid
import TypeTheory.Proofs.Conversion.Equations
import TypeTheory.Proofs.Conversion.Decision
import TypeTheory.Proofs.Typing.Weakening
import TypeTheory.Proofs.Typing.Validity
import TypeTheory.Proofs.Typing.Substitution
import TypeTheory.Proofs.Typing.Language
import TypeTheory.Proofs.Typing.Completeness
import TypeTheory.Proofs.Typing.Contraction
import TypeTheory.Proofs.Environment.Prefix
import TypeTheory.Proofs.Environment.AppendOnly
import TypeTheory.Proofs.Checker.Depth
import TypeTheory.Proofs.Checker.Weakening
import TypeTheory.Proofs.Typing.Recomputation
import TypeTheory.Proofs.Environment.Widening
import TypeTheory.Proofs.Scope.Thinning
import TypeTheory.Proofs.Scope.Abstraction
import TypeTheory.Proofs.Session.Abstraction
import TypeTheory.Proofs.Scope.Excursion
import TypeTheory.Proofs.Reduction.WeakHead
import TypeTheory.Proofs.Reduction.NormalForm
import TypeTheory.Proofs.Checker.Lookup
import TypeTheory.Proofs.Session.Resolution
import TypeTheory.Proofs.Level.NormalForm
import TypeTheory.Proofs.Level.Zero
import TypeTheory.Proofs.Checker.Loops
import TypeTheory.Proofs.Checker.Calls
import TypeTheory.Proofs.Checker.Termination
import TypeTheory.Proofs.Reduction.Metering
import TypeTheory.Proofs.Conversion.Symmetry
import TypeTheory.Proofs.Level.Completeness
import TypeTheory.Proofs.Level.Laws
import TypeTheory.Proofs.CompiledUnit.Loading
import TypeTheory.Proofs.Term.Algebra
import TypeTheory.Proofs.Term.Range
import TypeTheory.Proofs.Encoding.Descent
import TypeTheory.Proofs.Encoding.Delimited
import TypeTheory.Proofs.Encoding.Grammar
import TypeTheory.Proofs.Scope.Dependencies
import TypeTheory.Proofs.Scope.Reopening
import TypeTheory.Proofs.Environment.Shared
import TypeTheory.Proofs.Church.Arithmetic
import TypeTheory.Proofs.Encoding.Shortest
import TypeTheory.Proofs.Level.Depth
