import TypeTheory.CompiledUnit.Basic
import TypeTheory.Proofs.Encoding.Term

/-!
# Units are read back

A unit that is written and read again is the same unit if its types and values
are within the limits of the reader, and is refused as malformed otherwise
(`CompiledUnit.ofBytes_toBytes_iff`). This holds whatever function computes
digests: the digest behind a body is the one that is computed from the body.
-/

namespace TypeTheory

open Encoding Decoder

/-! ## Declarations -/

namespace Declaration

/-- The type and the value of a declaration are within the limits of the reader. -/
def WithinLimits (d : Declaration) : Prop :=
  d.type.WithinLimits ∧ ∀ v ∈ d.value, v.WithinLimits

/-- The numbers that the bytes of a declaration record. -/
def numbers (d : Declaration) : List Nat :=
  d.name.numbers ++ d.params.length :: d.params.flatMap Name.numbers ++ d.type.numbers ++
    d.value.elim [] Term.numbers

/-- **Declarations are read back.** -/
theorem reads_get {d : Declaration} (h : Words d.numbers) (rest : Bytes) :
    Reads Declaration.get (d.put ++ rest) d rest d.WithinLimits := by
  obtain ⟨name, params, type, value⟩ := d
  simp only [numbers, words_append, words_cons, words_flatMap] at h
  obtain ⟨⟨⟨hName, hCount, hParams⟩, hType⟩, hValue⟩ := h
  simp only [put, List.append_assoc]
  refine .after (Name.get_append hName _) (.after (Name.getList_append hCount hParams _) ?_)
  refine .bind (Term.reads_get hType _) (.after (getBool_append _ _) ?_)
  cases value with
  | none => exact (Reads.done _ _).congr (by simp)
  | some v =>
    refine Reads.congr (.bind (Term.reads_get hValue rest) (.done _ _)) ?_
    simp

end Declaration

/-! ## Digests -/

namespace Digest

theorem length_bytes (d : Digest) : d.bytes.length = size := by
  simp [bytes, size]

theorem ofBytes?_bytes (d : Digest) : ofBytes? d.bytes = some d := by
  unfold ofBytes?
  rw [dif_pos (show d.bytes.length = 32 from d.length_bytes)]
  obtain ⟨⟨⟨bytes⟩, hLength⟩⟩ := d
  rfl

end Digest

/-! ## Units -/

namespace CompiledUnit

/-- All types and values of a unit are within the limits of the reader. -/
def WithinLimits (u : CompiledUnit) : Prop :=
  ∀ d ∈ u.decls, d.WithinLimits

/-- The numbers that the bytes of a unit record: the counts, the lengths and the
indices in it. -/
def numbers (u : CompiledUnit) : List Nat :=
  u.decls.length :: u.decls.flatMap Declaration.numbers

/-- The declarations of a unit are read back, in their order, if they are within the limits. -/
theorem reads_getDecls {u : CompiledUnit} (h : Words u.numbers) :
    Reads getDecls u.putDecls u.decls [] u.WithinLimits := by
  simp only [numbers, words_cons, words_flatMap] at h
  refine .after (getUint_append h.1 _) ?_
  have hDecls := Reads.times (fun d hd rest => Declaration.reads_get (h.2 d hd) rest) []
  rwa [List.append_nil] at hDecls

/-- The digest that was appended is the right one. -/
theorem withoutDigest_withDigest (digest : Bytes → Digest) {body : Bytes}
    (h : preambleSize ≤ body.length) :
    withoutDigest digest (withDigest digest body) = .ok body := by
  have hSize : (withDigest digest body).length - Digest.size = body.length := by
    rw [withDigest, List.length_append, Digest.length_bytes]
    omega
  have hLong : ¬(withDigest digest body).length < preambleSize + Digest.size := by
    rw [withDigest, List.length_append, Digest.length_bytes]
    omega
  unfold withoutDigest
  dsimp only
  rw [if_neg hLong, hSize, withDigest, List.drop_left, List.take_left, Digest.ofBytes?_bytes]
  simp

/-- A unit is read from the declarations behind its preamble. -/
theorem ofBytes_withDigest (digest : Bytes → Digest) (input : Bytes) :
    ofBytes digest (withDigest digest (magic ++ version :: input)) =
      (readAll getDecls input).map fun decls => { decls } := by
  have hLength : preambleSize ≤ (magic ++ version :: input).length := by
    simp [preambleSize, magic]
  have hPreamble : readFront getPreamble (withDigest digest (magic ++ version :: input)) = .ok () :=
    rfl
  have hDrop : (magic ++ version :: input).drop preambleSize = input := rfl
  unfold ofBytes
  rw [hPreamble, withoutDigest_withDigest digest hLength]
  change (readAll getDecls ((magic ++ version :: input).drop preambleSize) >>= _) = _
  rw [hDrop]
  cases readAll getDecls input <;> rfl

/-- Reading a written unit is reading its declarations: the header and the digest are as
expected. -/
theorem ofBytes_toBytes (digest : Bytes → Digest) (u : CompiledUnit) :
    ofBytes digest (u.toBytes digest) =
      (readAll getDecls u.putDecls).map fun decls => { decls } :=
  ofBytes_withDigest digest u.putDecls

/-- A unit within the limits is written in bytes that are read back as the unit. -/
theorem ofBytes_toBytes_of_withinLimits (digest : Bytes → Digest) {u : CompiledUnit}
    (hWords : Words u.numbers) (hLimits : u.WithinLimits) :
    ofBytes digest (u.toBytes digest) = .ok u := by
  rw [ofBytes_toBytes, readAll, (reads_getDecls hWords).ok hLimits]
  rfl

/-- A unit outside the limits is written in bytes that are refused. -/
theorem malformed_of_not_withinLimits (digest : Bytes → Digest) {u : CompiledUnit}
    (hWords : Words u.numbers) (hNot : ¬u.WithinLimits) :
    ∃ flaw, ofBytes digest (u.toBytes digest) = .error (.malformed flaw) := by
  obtain ⟨flaw, left, hError⟩ := (reads_getDecls hWords).refused hNot
  refine ⟨flaw, ?_⟩
  rw [ofBytes_toBytes, readAll, hError]
  rfl

/-- **Units are read back exactly within the limits of the reader**, and are
malformed outside them, whichever function computes digests. The counts, the
lengths and the indices of the unit are machine words. -/
theorem ofBytes_toBytes_iff (digest : Bytes → Digest) (u : CompiledUnit) (h : Words u.numbers) :
    (ofBytes digest (u.toBytes digest) = .ok u ↔ u.WithinLimits) ∧
      (¬u.WithinLimits →
        ∃ flaw, ofBytes digest (u.toBytes digest) = .error (.malformed flaw)) := by
  refine ⟨⟨fun hOk => ?_, ofBytes_toBytes_of_withinLimits digest h⟩,
    malformed_of_not_withinLimits digest h⟩
  by_contra hNot
  obtain ⟨flaw, hError⟩ := malformed_of_not_withinLimits digest h hNot
  rw [hOk] at hError
  cases hError

/-- The largest index is read back in a unit and the next one is refused. -/
theorem ofBytes_toBytes_iff_maxIndex :
    let unit : Nat → CompiledUnit := fun i =>
      ⟨[⟨.atom "f", [.atom "u"], .pi (.atom "x") (.sort (.succ (.param (.atom "u")))) (.bvar i),
        some (.app (.app (.const (.atom "g") [.zero]) (.bvar 0)) (.fvar (.atom "y")))⟩]⟩
    ofBytes (fun _ => default) ((unit Term.maxIndex).toBytes fun _ => default) =
        .ok (unit Term.maxIndex) ∧
      ∃ flaw, ofBytes (fun _ => default) ((unit (Term.maxIndex + 1)).toBytes fun _ => default) =
        .error (.malformed flaw) := by
  intro unit
  have hFits : Words (unit Term.maxIndex).numbers := by decide +kernel
  have hFits' : Words (unit (Term.maxIndex + 1)).numbers := by decide +kernel
  refine ⟨(ofBytes_toBytes_iff _ _ hFits).1.mpr ?_, (ofBytes_toBytes_iff _ _ hFits').2 ?_⟩
  · simp [unit, WithinLimits, Declaration.WithinLimits, Term.WithinLimits, Term.nesting, Term.arity,
      Term.LeavesFit, Level.longestChain, Level.chainFrom, Term.maxDepth, Level.maxOffset]
  · intro hWithin
    have hIndex : Term.maxIndex + 1 ≤ Term.maxIndex :=
      (hWithin _ List.mem_cons_self).1.2.2
    omega

end CompiledUnit

end TypeTheory
