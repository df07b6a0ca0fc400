import TypeTheory.Proofs.CompiledUnit.RoundTrip
import TypeTheory.Proofs.Encoding.Accepted

/-!
# Saving a loaded unit again

A unit that was read from arbitrary bytes is written in the one way that the
writer has. It is read back if its types and values are within the limits of the
reader, and is refused otherwise (`CompiledUnit.ofBytes_toBytes_of_ofBytes`). The
limits do not hold of everything that is read: the reader tests them header by
header, and the writer puts the headers of a spine together
(`CompiledUnit.withinLimits_spineUnit`).
-/

namespace TypeTheory

open Encoding Decoder

namespace Declaration

/-- The counts and the lengths in a declaration are machine words. -/
def CountsFit (d : Declaration) : Prop :=
  Words d.name.numbers ∧ (d.params.length ≤ maxWord ∧ ∀ n ∈ d.params, Words n.numbers) ∧
    d.type.CountsFit ∧ ∀ v ∈ d.value, v.CountsFit

/-- A declaration that was read has machine words for its counts and lengths. -/
theorem gives_get : Gives Declaration.get CountsFit := by
  refine Name.gives_get.bind fun name hName => Name.gives_getList.bind fun params hParams =>
    Term.gives_get.bind fun type hType => (gives_any _).bind fun hasValue _ => ?_
  split
  · refine Term.gives_get.bind fun value hValue => gives_pure ⟨hName, hParams, hType, ?_⟩
    simpa using hValue
  · exact gives_pure ⟨hName, hParams, hType, by simp⟩

/-- A declaration that is within the limits and has lengths that fit is written with words only. -/
theorem words_numbers {d : Declaration} (hCounts : d.CountsFit) (hLimits : d.WithinLimits) :
    Words d.numbers := by
  obtain ⟨name, params, type, value⟩ := d
  obtain ⟨hName, hParams, hType, hValue⟩ := hCounts
  have hWords : ∀ e : Term, e.CountsFit → e.WithinLimits → Words e.numbers :=
    fun e hFit hWithin => Term.words_numbersFrom hFit (by simpa using hWithin.1) hWithin.2
  simp only [numbers, words_append, words_cons, words_flatMap]
  refine ⟨⟨⟨hName, hParams⟩, hWords type hType hLimits.1⟩, ?_⟩
  cases value with
  | none => exact words_nil
  | some v => exact hWords v (hValue v rfl) (hLimits.2 v rfl)

end Declaration

namespace CompiledUnit

/-- A unit that was read is the list of declarations that some bytes hold. -/
theorem ofBytes_eq_ok {digest : Bytes → Digest} {bytes : Bytes} {u : CompiledUnit}
    (h : ofBytes digest bytes = .ok u) : ∃ input, getDecls input = .ok u.decls [] := by
  unfold ofBytes at h
  cases hPreamble : readFront getPreamble bytes with
  | error e =>
    rw [hPreamble] at h
    cases h
  | ok _ =>
    cases hBody : withoutDigest digest bytes with
    | error e =>
      rw [hPreamble, hBody] at h
      cases h
    | ok body =>
      rw [hPreamble, hBody] at h
      change (readAll getDecls (body.drop preambleSize) >>= _) = _ at h
      unfold readAll at h
      split at h
      · rename_i decls hDecls
        cases h
        exact ⟨_, hDecls⟩
      · cases h
      · cases h

/-- **A unit that was read and is within the limits records machine words.** -/
theorem words_numbers_of_ofBytes {digest : Bytes → Digest} {bytes : Bytes} {u : CompiledUnit}
    (h : ofBytes digest bytes = .ok u) (hLimits : u.WithinLimits) : Words u.numbers := by
  obtain ⟨input, hDecls⟩ := ofBytes_eq_ok h
  have hGives : Gives getDecls fun decls =>
      decls.length ≤ maxWord ∧ ∀ d ∈ decls, d.CountsFit := by
    refine gives_getUint.bind fun count hCount => ?_
    intro input decls rest eq
    obtain ⟨hLength, hFit⟩ := Declaration.gives_get.times count eq
    exact ⟨hLength ▸ hCount, hFit⟩
  obtain ⟨hCount, hFit⟩ := hGives hDecls
  simp only [numbers, words_cons, words_flatMap]
  exact ⟨hCount, fun d hd => Declaration.words_numbers (hFit d hd) (hLimits d hd)⟩

/-! ## A spine over two headers -/

/-- A sort under `n` projections. -/
def firsts : Nat → Term
  | 0 => .sort .zero
  | n + 1 => .proj .fst (firsts n)

theorem nesting_firsts (n : Nat) : (firsts n).nesting = n := by
  induction n with
  | zero => rfl
  | succ n ih => rw [firsts, Term.nesting, ih]

theorem leavesFit_firsts (n : Nat) : (firsts n).LeavesFit := by
  induction n with
  | zero => exact Nat.zero_le _
  | succ n ih => exact ih

theorem words_firsts (n : Nat) : Words (firsts n).numbers := by
  induction n with
  | zero => decide
  | succ n ih => exact words_cons.mpr ⟨Nat.zero_le _, ih⟩

/-- The head and the first argument of a spine. -/
def spineHead : Term :=
  .app (.sort .zero) (.sort .zero)

/-- A declaration whose type is a spine of two arguments, of which the last is
nested `n` deep. -/
def spineDecl (n : Nat) : Declaration where
  name := .atom "f"
  params := []
  type := .app spineHead (firsts n)
  value := none

/-- The bytes of that declaration with one header for each argument. -/
def putSplit (n : Nat) : Bytes :=
  (Name.atom "f").put ++ (Name.putList [] ++ (Term.putSpine 1 ++
    spineHead.putApplied 0 ((firsts n).putApplied 0 (putBool false))))

theorem words_spineDecl (n : Nat) : Words (spineDecl n).numbers := by
  have hLast := words_firsts n
  simp only [Declaration.numbers, spineDecl, spineHead, Term.numbers, Term.numbersFrom,
    words_append]
  exact ⟨⟨by decide, by decide, hLast⟩, by decide⟩

/-- The last argument lies two levels below the spine. -/
theorem withinLimits_spineDecl (n : Nat) :
    (spineDecl n).WithinLimits ↔ n + 2 ≤ Term.maxDepth := by
  have hNesting : (spineDecl n).type.nesting = n + 2 := by
    simp only [spineDecl, spineHead, Term.nesting, Term.arity, nesting_firsts]
    omega
  have hLeaves : (spineDecl n).type.LeavesFit :=
    ⟨⟨Nat.zero_le _, Nat.zero_le _⟩, leavesFit_firsts n⟩
  rw [← hNesting]
  exact ⟨fun h => h.1.1, fun h => ⟨⟨h, hLeaves⟩, by simp [spineDecl]⟩⟩

/-- Under a header of its own it lies one level below. -/
theorem get_putSplit {n : Nat} (h : n + 1 ≤ Term.maxDepth) :
    Declaration.get (putSplit n) = .ok (spineDecl n) [] := by
  have hDelivers := Term.delivers_split (d := 0) (f := spineHead) (by decide) (words_firsts n)
    (putBool false)
  have hType : Term.get (Term.putSpine 1 ++ spineHead.putApplied 0
      ((firsts n).putApplied 0 (putBool false))) =
        .ok (.app spineHead (firsts n)) (putBool false) :=
    hDelivers.reads.ok ⟨⟨by decide, Nat.zero_le _, Nat.zero_le _⟩,
      by rw [nesting_firsts]; omega, leavesFit_firsts n⟩
  unfold Declaration.get putSplit
  rw [bind_of_ok (Name.get_append (by decide) _),
    bind_of_ok (Name.getList_append (by decide) (by simp) _), bind_of_ok hType]
  rfl

/-! ## Units -/

/-- The unit of that declaration. -/
def spineUnit (n : Nat) : CompiledUnit :=
  ⟨[spineDecl n]⟩

/-- The bytes of that unit with one header for each argument. -/
def splitBytes (digest : Bytes → Digest) (n : Nat) : Bytes :=
  withDigest digest (magic ++ version :: (putUint 1 ++ putSplit n))

theorem words_spineUnit (n : Nat) : Words (spineUnit n).numbers := by
  rw [numbers, words_cons, words_flatMap]
  refine ⟨by simp [spineUnit, maxWord], ?_⟩
  simpa [spineUnit] using words_spineDecl n

/-- The writer joins the two headers of the spine, which takes one level more than the reader
met. -/
theorem withinLimits_spineUnit (n : Nat) :
    (spineUnit n).WithinLimits ↔ n + 2 ≤ Term.maxDepth := by
  rw [← withinLimits_spineDecl n]
  simp [spineUnit, WithinLimits]

/-- In two headers the spine is read, up to one level more than the joined header allows. -/
theorem ofBytes_splitBytes (digest : Bytes → Digest) {n : Nat} (h : n + 1 ≤ Term.maxDepth) :
    ofBytes digest (splitBytes digest n) = .ok (spineUnit n) := by
  have hDecls : getDecls (putUint 1 ++ putSplit n) = .ok [spineDecl n] [] := by
    unfold getDecls
    rw [bind_of_ok (getUint_append (by decide) _)]
    change (Declaration.get >>= _) (putSplit n) = _
    rw [bind_of_ok (get_putSplit h)]
    rfl
  rw [splitBytes, ofBytes_withDigest, readAll, hDecls]
  rfl

/-- **A loaded unit can be saved and loaded again if it is within the limits of
the reader.** Otherwise the reader refuses what was saved as malformed, unless the
unit has a chain or a spine of more parts than a machine word counts. -/
theorem ofBytes_toBytes_of_ofBytes (digest : Bytes → Digest) (bytes : Bytes) (u : CompiledUnit)
    (h : ofBytes digest bytes = .ok u) :
    (u.WithinLimits → ofBytes digest (u.toBytes digest) = .ok u) ∧
      (¬u.WithinLimits → Words u.numbers →
        ∃ flaw, ofBytes digest (u.toBytes digest) = .error (.malformed flaw)) := by
  refine ⟨fun hLimits => ?_, fun hNot hWords => malformed_of_not_withinLimits digest hWords hNot⟩
  -- the limits bound the chains and the spines, and the reader has bounded the rest
  exact ofBytes_toBytes_of_withinLimits digest (words_numbers_of_ofBytes h hLimits) hLimits

/-- A split spine whose last argument is nested as deeply as one header allows is
loaded, saved and loaded again. -/
theorem ofBytes_toBytes_of_ofBytes_split :
    ofBytes (fun _ => default) (splitBytes (fun _ => default) 1022) = .ok (spineUnit 1022) ∧
      ofBytes (fun _ => default) ((spineUnit 1022).toBytes fun _ => default) =
        .ok (spineUnit 1022) := by
  have hLoaded : ofBytes (fun _ => default) (splitBytes (fun _ => default) 1022) =
      .ok (spineUnit 1022) := ofBytes_splitBytes _ (by decide)
  refine ⟨hLoaded, (ofBytes_toBytes_of_ofBytes _ _ _ hLoaded).1 ?_⟩
  exact (withinLimits_spineUnit 1022).mpr (by decide)

/-- One projection more is loaded too, and refused once it was saved: the writer
puts both arguments under one header, which is one level more. -/
theorem malformed_toBytes_of_ofBytes_split :
    ofBytes (fun _ => default) (splitBytes (fun _ => default) 1023) = .ok (spineUnit 1023) ∧
      ∃ flaw, ofBytes (fun _ => default) ((spineUnit 1023).toBytes fun _ => default) =
        .error (.malformed flaw) := by
  refine ⟨ofBytes_splitBytes _ (by decide), ?_⟩
  refine malformed_of_not_withinLimits _ (words_spineUnit 1023) fun hWithin => ?_
  have hDepth : 1023 + 2 ≤ Term.maxDepth := (withinLimits_spineUnit 1023).mp hWithin
  exact absurd hDepth (by decide)

end CompiledUnit

end TypeTheory
