import TypeTheory.Proofs.Encoding.Descent

/-!
# What the grammar lets through

Terms are read by recursive descent, so what the reader passes down to the parts
can be read off the terms that it accepts. The depth of a part is a bound on its
height: a part lies one level below its term, and the head and the arguments of a
spine lie as many levels below it as there are applications on top of the head.
This holds of every way to write a term, also of those that no writer chooses.

The reader has no stacks that could be wrong, so every error is one that the bytes
are to blame for (`DecodeError.OfBytes`).
-/

namespace TypeTheory

open Encoding

/-! ## Errors -/

/-- The flaws that a machine would find in its stacks. -/
def Encoding.stackFlaws : List Flaw :=
  [.termOperand, .levelOperand, .term, .level]

/-- An error that is found in the bytes. -/
def DecodeError.OfBytes : DecodeError → Prop
  | .malformed flaw => flaw ∉ stackFlaws
  | _ => True

namespace Decoder

variable {α β : Type} {d : Decoder α} {fair : DecodeError → Prop}

/-- Whatever the decoder fails with has the property. -/
def FailsBy (d : Decoder α) (fair : DecodeError → Prop) : Prop :=
  ∀ ⦃input : Bytes⦄ ⦃e : DecodeError⦄ ⦃rest : Bytes⦄, d input = .error e rest → fair e

theorem failsBy_pure (a : α) : FailsBy (pure a) fair := by
  intro input e rest eq
  cases eq

theorem failsBy_throw {e : DecodeError} (h : fair e) : FailsBy (throw e : Decoder α) fair := by
  intro input e' rest eq
  cases eq
  exact h

theorem FailsBy.bind {f : α → Decoder β} (hd : FailsBy d fair) (hf : ∀ a, FailsBy (f a) fair) :
    FailsBy (d >>= f) fair := by
  intro input e rest eq
  change EStateM.bind d f input = _ at eq
  unfold EStateM.bind at eq
  split at eq
  · exact hf _ eq
  · rename_i hError
    cases eq
    exact hd hError

theorem FailsBy.times (hd : FailsBy d fair) (n : Nat) : FailsBy (d.times n) fair := by
  induction n with
  | zero => exact failsBy_pure _
  | succ n ih => exact hd.bind fun _ => ih.bind fun _ => failsBy_pure _

theorem FailsBy.both (hd : FailsBy d fair) (join : α → α → β) : FailsBy (both join d) fair :=
  hd.bind fun _ => hd.bind fun _ => failsBy_pure _

/-- Too few bytes for what was announced is the flaw that the test names. -/
theorem failsBy_atLeast {n : Nat} {flaw : Flaw} (h : fair (.malformed flaw)) :
    FailsBy (atLeast n flaw) fair := by
  intro input e rest eq
  unfold atLeast at eq
  split at eq
  · cases eq
  · cases eq
    exact h

/-- A missing byte is an error of the bytes, which end too early. -/
theorem failsBy_byte (wanted : Wanted) : FailsBy (byte wanted) DecodeError.OfBytes := by
  intro input e rest eq
  cases input with
  | nil =>
    cases eq
    trivial
  | cons => cases eq

theorem failsBy_block (n : Nat) (wanted : Wanted) :
    FailsBy (block n wanted) DecodeError.OfBytes := by
  intro input e rest eq
  unfold block at eq
  split at eq
  · cases eq
  · cases eq
    trivial

end Decoder

open Decoder

namespace Encoding

theorem failsBy_getDigits (n : Nat) : FailsBy (getDigits n) DecodeError.OfBytes := by
  unfold getDigits
  split
  · exact failsBy_throw (show Flaw.wideInteger ∉ stackFlaws by decide)
  · exact (failsBy_block n _).bind fun _ => failsBy_pure _

/-- An integer fails as its first byte or its digits do, and all of that is in the bytes. -/
theorem failsBy_getUint : FailsBy getUint DecodeError.OfBytes := by
  refine (failsBy_byte _).bind fun head => ?_
  split
  · exact failsBy_getDigits _
  · exact failsBy_pure _

/-- A header fails as its first byte or the digits of its size do. -/
theorem Header.failsBy_get : FailsBy Header.get DecodeError.OfBytes := by
  refine (failsBy_byte _).bind fun head => ?_
  dsimp only
  split
  · exact (failsBy_getDigits _).bind fun _ => failsBy_pure _
  · exact failsBy_pure _

end Encoding

/-- Bytes that are no text are refused as such, and missing bytes as an early end. -/
theorem Name.failsBy_getText (length : Nat) : FailsBy (getText length) DecodeError.OfBytes := by
  intro input e rest eq
  unfold getText at eq
  split at eq
  · split at eq
    · cases eq
    · cases eq
      trivial
  · cases eq
    trivial

/-- A name fails as the number of its segments or one of the segments does. -/
theorem Name.failsBy_get : FailsBy Name.get DecodeError.OfBytes := by
  have hSegment : FailsBy getSegment DecodeError.OfBytes :=
    failsBy_getUint.bind fun _ => failsBy_getText _
  exact failsBy_getUint.bind fun count => (hSegment.times count).bind fun _ => failsBy_pure _

namespace Level

/-- A layer fails for an unknown header or a chain that is too long, or as its name or the parts
below it do. -/
theorem failsBy_layer {part : Decoder Level} (h : FailsBy part DecodeError.OfBytes) :
    FailsBy (layer part) DecodeError.OfBytes := by
  refine Header.failsBy_get.bind fun tag => ?_
  split
  · exact failsBy_pure _
  · unfold chain
    split
    · exact failsBy_throw (show Flaw.levelOffset ∉ stackFlaws by decide)
    · exact h.bind fun _ => failsBy_pure _
  · exact h.both _
  · exact h.both _
  · exact Name.failsBy_get.bind fun _ => failsBy_pure _
  · exact failsBy_throw trivial

/-- Reading a level never fails for the stacks of a machine: there are none in recursive descent. -/
theorem failsBy_parse : FailsBy parse DecodeError.OfBytes := by
  have hWithin (n : Nat) : FailsBy (parseWithin n) DecodeError.OfBytes := by
    induction n with
    | zero => exact failsBy_throw trivial
    | succ n ih => exact failsBy_layer ih
  exact fun _ _ _ eq => hWithin _ eq

end Level

/-! ## Terms -/

namespace Term

/-- The number of nodes on the longest way down from the top, not counting the
last. Every application is a node. -/
@[simp] def height : Term → Nat
  | .bvar _ | .fvar _ | .sort _ | .const .. => 0
  | .app f a => max f.height a.height + 1
  | .bind _ _ t b => max t.height b.height + 1
  | .letE _ t v b => max t.height (max v.height b.height) + 1
  | .pair a b => max a.height b.height + 1
  | .proj _ p => p.height + 1

/-- At some depth the height is within the limit, and so are all indices. -/
def FitsAt (depth : Nat) (e : Term) : Prop :=
  depth + e.height ≤ maxDepth ∧ ∀ i ∈ e.indices, i ≤ maxIndex

variable {depth n : Nat} {part : Decoder Term}

theorem failsBy_binding (h : FailsBy part DecodeError.OfBytes) (k : Binder) :
    FailsBy (binding k part) DecodeError.OfBytes :=
  Name.failsBy_get.bind fun _ => h.both _

/-- A spine fails for want of bytes, or as its head or one of its arguments does. -/
theorem failsBy_applied (h : FailsBy part DecodeError.OfBytes) (n : Nat) :
    FailsBy (applied n part) DecodeError.OfBytes :=
  h.bind fun _ => (h.times n).bind fun _ => failsBy_pure _

/-- **The reader blames the bytes only.** -/
theorem failsBy_parse (depth : Nat) : FailsBy (parse depth) DecodeError.OfBytes := by
  have hTooDeep : Flaw.termDepth ∉ stackFlaws := by decide
  have hArity : Flaw.termArity ∉ stackFlaws := by decide
  induction depth using parse.induct with
  | case1 depth hDepth =>
    rw [parse, dif_pos hDepth]
    exact failsBy_throw hTooDeep
  | case2 depth hDepth ihSpine ih =>
    rw [parse, dif_neg hDepth]
    refine Header.failsBy_get.bind fun tag => ?_
    split
    · split
      · exact failsBy_throw (show Flaw.termIndex ∉ stackFlaws by decide)
      · exact failsBy_pure _
    · exact Name.failsBy_get.bind fun _ => failsBy_pure _
    · exact Level.failsBy_parse.bind fun _ => failsBy_pure _
    · exact Name.failsBy_get.bind fun _ =>
        (Level.failsBy_parse.times _).bind fun _ => failsBy_pure _
    · split
      · exact failsBy_throw hArity
      · refine (failsBy_atLeast hArity).bind fun _ => ?_
        split
        · exact failsBy_throw hTooDeep
        · exact failsBy_applied (ihSpine tag ‹_› ‹_›) _
    · exact failsBy_binding ih _
    · exact failsBy_binding ih _
    · exact Name.failsBy_get.bind fun _ => ih.bind fun _ => ih.both _
    · exact failsBy_binding ih _
    · exact ih.both _
    · exact ih.bind fun _ => failsBy_pure _
    · exact ih.bind fun _ => failsBy_pure _
    · exact failsBy_throw trivial

section FitsAt

variable {f a t v b p : Term}

/-- An application fits at a depth if its function and its argument do one level further down. -/
theorem fitsAt_app :
    FitsAt depth (.app f a) ↔ FitsAt (depth + 1) f ∧ FitsAt (depth + 1) a := by
  simp only [FitsAt, height, indices, List.forall_mem_append]
  grind

/-- A binder fits at a depth if its domain and its body do one level further down. -/
theorem fitsAt_bind {k : Binder} {x : Name} :
    FitsAt depth (.bind k x t b) ↔ FitsAt (depth + 1) t ∧ FitsAt (depth + 1) b := by
  simp only [FitsAt, height, indices, List.forall_mem_append]
  grind

/-- A local definition fits at a depth if its three parts do one level further down. -/
theorem fitsAt_letE {x : Name} : FitsAt depth (.letE x t v b) ↔
    FitsAt (depth + 1) t ∧ FitsAt (depth + 1) v ∧ FitsAt (depth + 1) b := by
  simp only [FitsAt, height, indices, List.forall_mem_append]
  grind

theorem fitsAt_pair :
    FitsAt depth (.pair a b) ↔ FitsAt (depth + 1) a ∧ FitsAt (depth + 1) b := by
  simp only [FitsAt, height, indices, List.forall_mem_append]
  grind

theorem fitsAt_proj {k : Side} : FitsAt depth (.proj k p) ↔ FitsAt (depth + 1) p := by
  simp only [FitsAt, height, indices]
  grind

theorem FitsAt.mono {e : Term} (h : FitsAt depth e) (hDepth : n ≤ depth) : FitsAt n e :=
  ⟨Nat.le_trans (Nat.add_le_add_right hDepth _) h.1, h.2⟩

/-- **A spine fits if its parts fit below it**, the head and the arguments as many
levels as there are applications. -/
theorem fitsAt_apps {args : List Term} (hf : FitsAt (depth + args.length) f)
    (hArgs : ∀ a ∈ args, FitsAt (depth + args.length) a) : FitsAt depth (f.apps args) := by
  induction args generalizing f with
  | nil => exact hf
  | cons a args ih =>
    obtain ⟨ha, hArgs⟩ := List.forall_mem_cons.mp hArgs
    -- the innermost application stands right above the head
    have hInner : FitsAt (depth + args.length) (.app f a) := fitsAt_app.mpr ⟨hf, ha⟩
    exact ih hInner fun x hx => (hArgs x hx).mono (Nat.le_succ _)

end FitsAt

/-- Two parts with a property are joined to a term with the property that the joining gives. -/
theorem gives_both {good fine : Term → Prop} {join : Term → Term → Term} (h : Gives part good)
    (hJoin : ∀ a b, good a → good b → fine (join a b)) : Gives (both join part) fine :=
  h.bind fun a ha => h.bind fun b hb => gives_pure (hJoin a b ha hb)

/-- A binder that is read fits if the reader of its parts gives parts that fit one level further
down. -/
theorem gives_binding (h : Gives part (FitsAt (depth + 1))) (k : Binder) :
    Gives (binding k part) (FitsAt depth) :=
  (gives_any _).bind fun _ _ => gives_both h fun _ _ ht hb => fitsAt_bind.mpr ⟨ht, hb⟩

/-- **The depth at which a term is read bounds its height.** -/
theorem gives_parse (depth : Nat) : Gives (parse depth) (FitsAt depth) := by
  induction depth using parse.induct with
  | case1 depth hDepth =>
    rw [parse, dif_pos hDepth]
    exact gives_throw _
  | case2 depth hDepth ihSpine ih =>
    rw [parse, dif_neg hDepth]
    have hLeaf {e : Term} (hHeight : e.height = 0) (hIndices : ∀ i ∈ e.indices, i ≤ maxIndex) :
        FitsAt depth e := ⟨by omega, hIndices⟩
    refine (gives_any _).bind fun tag _ => ?_
    split
    · split
      · exact gives_throw _
      · exact gives_pure (hLeaf rfl (by simp only [indices, List.forall_mem_singleton]; omega))
    · exact (gives_any _).bind fun _ _ => gives_pure (hLeaf rfl (by simp [indices]))
    · exact (gives_any _).bind fun _ _ => gives_pure (hLeaf rfl (by simp [indices]))
    · exact (gives_any _).bind fun _ _ => (gives_any _).bind fun _ _ =>
        gives_pure (hLeaf rfl (by simp [indices]))
    · split
      · exact gives_throw _
      · rename_i hSize
        refine (gives_any _).bind fun _ _ => ?_
        split
        · exact gives_throw _
        · rename_i hSpine
          have hPart := ihSpine tag hSize hSpine
          refine hPart.bind fun f hf => (hPart.times _).bind fun args hArgs => gives_pure ?_
          exact fitsAt_apps (hArgs.1.symm ▸ hf) (hArgs.1.symm ▸ hArgs.2)
    · exact gives_binding ih _
    · exact gives_binding ih _
    · refine (gives_any _).bind fun name _ => ih.bind fun t ht => gives_both ih fun v b hv hb => ?_
      exact fitsAt_letE.mpr ⟨ht, hv, hb⟩
    · exact gives_binding ih _
    · exact gives_both ih fun a b ha hb => fitsAt_pair.mpr ⟨ha, hb⟩
    · exact ih.bind fun p hp => gives_pure (fitsAt_proj.mpr hp)
    · exact ih.bind fun p hp => gives_pure (fitsAt_proj.mpr hp)
    · exact gives_throw _

/-- **The machine reads by the grammar.** On every input it gives the value, the
error and the rest that recursive descent gives. It never complains of its stacks,
and a term that it accepts is at most 1024 high, with indices of 32 bits. -/
theorem get_by_grammar (input : Bytes) :
    Term.get input = parse 0 input ∧
      (∀ flaw ∈ [Flaw.termOperand, .levelOperand, .term, .level], ∀ rest,
        Term.get input ≠ .error (.malformed flaw) rest) ∧
      ∀ e rest, Term.get input = .ok e rest →
        e.height ≤ 1024 ∧ ∀ i ∈ e.indices, i ≤ 2 ^ 32 - 1 := by
  rw [get_eq_parse]
  refine ⟨rfl, fun flaw hFlaw rest hError => ?_, fun e rest hOk => ?_⟩
  · have hBytes : flaw ∉ stackFlaws := failsBy_parse 0 hError
    exact hBytes hFlaw
  · obtain ⟨hHeight, hIndices⟩ := gives_parse 0 hOk
    have hDepth : maxDepth = 1024 := rfl
    exact ⟨by omega, hIndices⟩

/-- A spine that is split over two headers, with a byte behind it. -/
theorem get_by_grammar_split :
    Term.get [0x41, 0x41, 0x00, 0x01, 0x02, 0x07] =
        .ok (.app (.app (.bvar 0) (.bvar 1)) (.bvar 2)) [0x07] ∧
      (Term.app (.app (.bvar 0) (.bvar 1)) (.bvar 2)).height ≤ 1024 := by
  have h := get_by_grammar [0x41, 0x41, 0x00, 0x01, 0x02, 0x07]
  have hOk : Term.get [0x41, 0x41, 0x00, 0x01, 0x02, 0x07] =
      .ok (.app (.app (.bvar 0) (.bvar 1)) (.bvar 2)) [0x07] := h.1.trans (by cbv)
  exact ⟨hOk, (h.2.2 _ _ hOk).1⟩

end Term

end TypeTheory
