import TypeTheory.Proofs.Encoding.Descent

/-!
# Encodings end by themselves

What a reader accepts is a prefix of its input, and the prefix alone decides: the
value is the same whatever follows it, and a part of the prefix that is cut short
is refused (`Decoder.SelfDelimiting`).

A reader may look at how much is left, so that this is not plain. A spine is
refused at once if fewer bytes are left than it has arguments. What saves it is
that every argument takes a byte of its own, so the bytes that are asked for are
those of the spine itself. `Decoder.Delimits` therefore counts the bytes that a
reader takes at least, and a test for no more bytes than that changes nothing
(`Delimits.atLeast_bind`).
-/

namespace TypeTheory

open Encoding

namespace Decoder

variable {α β : Type} {d : Decoder α} {m n : Nat}

/-- Whatever the decoder reads, it reads from a prefix of at least `least` bytes,
and reads the same whatever follows the prefix. -/
def Delimits (least : Nat) (d : Decoder α) : Prop :=
  ∀ ⦃input : Bytes⦄ ⦃a : α⦄ ⦃rest : Bytes⦄, d input = .ok a rest →
    ∃ front, least ≤ front.length ∧ input = front ++ rest ∧
      ∀ rest', d (front ++ rest') = .ok a rest'

/-- An accepted encoding is a nonempty prefix of the input that is accepted in
front of anything else as well, and no proper prefix of it is accepted. -/
def SelfDelimiting (d : Decoder α) : Prop :=
  ∀ ⦃input : Bytes⦄ ⦃a : α⦄ ⦃rest : Bytes⦄, d input = .ok a rest →
    ∃ front, front ≠ [] ∧ input = front ++ rest ∧
      (∀ rest', d (front ++ rest') = .ok a rest') ∧
      ∀ cut, cut <+: front → cut ≠ front → ∃ e left, d cut = .error e left

/-! ## Ways to put readers together -/

theorem delimits_pure (a : α) : Delimits 0 (pure a) := by
  intro input b rest eq
  cases eq
  exact ⟨[], Nat.le_refl 0, rfl, fun _ => rfl⟩

theorem delimits_throw (e : DecodeError) : Delimits m (throw e : Decoder α) := by
  intro input a rest eq
  cases eq

theorem Delimits.mono (h : Delimits n d) (hm : m ≤ n) : Delimits m d := by
  intro input a rest eq
  obtain ⟨front, hLeast, hInput, hRead⟩ := h eq
  exact ⟨front, Nat.le_trans hm hLeast, hInput, hRead⟩

/-- The prefixes of the parts follow each other, so the least numbers of bytes add up. -/
theorem Delimits.bind {f : α → Decoder β} (hd : Delimits m d) (hf : ∀ a, Delimits n (f a)) :
    Delimits (m + n) (d >>= f) := by
  intro input b rest eq
  obtain ⟨a, middle, h₁, h₂⟩ := EStateM.bind_eq_ok.mp eq
  obtain ⟨first, hFirst, rfl, hReadFirst⟩ := hd h₁
  obtain ⟨second, hSecond, rfl, hReadSecond⟩ := hf a h₂
  refine ⟨first ++ second, ?_, (List.append_assoc _ _ _).symm, fun rest' => ?_⟩
  · rw [List.length_append]
    omega
  · rw [List.append_assoc, bind_of_ok (hReadFirst _)]
    exact hReadSecond rest'

/-- Where it does not matter how much is taken. -/
theorem Delimits.any (h : Delimits n d) : Delimits 0 d :=
  h.mono (Nat.zero_le n)

/-- A rest that may take no byte leaves the bound of the first part. -/
theorem Delimits.andThen {f : α → Decoder β} (hd : Delimits m d) (hf : ∀ a, Delimits 0 (f a)) :
    Delimits m (d >>= f) :=
  hd.bind hf

/-- Items that take a byte each take as many bytes as there are items. -/
theorem Delimits.times (hd : Delimits 1 d) (n : Nat) : Delimits n (d.times n) := by
  induction n with
  | zero => exact delimits_pure _
  | succ n ih => exact (hd.bind fun _ => ih.bind fun _ => delimits_pure _).mono (by omega)

/-- Two parts take a byte each, so reading both takes at least two. -/
theorem Delimits.both (hd : Delimits 1 d) (join : α → α → β) : Delimits 2 (both join d) :=
  hd.bind fun _ => hd.bind fun _ => delimits_pure _

/-- **A test for bytes that are read anyway changes nothing.** -/
theorem Delimits.atLeast_bind (hd : Delimits m d) (hn : n ≤ m) (flaw : Flaw) :
    Delimits m (atLeast n flaw >>= fun _ => d) := by
  intro input a rest eq
  rw [Decoder.atLeast_bind] at eq
  split at eq
  · obtain ⟨front, hLeast, hInput, hRead⟩ := hd eq
    refine ⟨front, hLeast, hInput, fun rest' => ?_⟩
    have hLeft : n ≤ (front ++ rest').length := by
      rw [List.length_append]
      omega
    rw [Decoder.atLeast_bind, if_pos hLeft]
    exact hRead rest'
  · cases eq

/-- **A reader that agrees with delimiting ones on all short inputs is one.** The
prefix is known from the input and its rest, so it does not depend on how long an
input the readers agree on. -/
theorem Delimits.of_agree {within : Nat → Decoder α} (hAgree : ∀ n, Agree n (within n) d)
    (h : ∀ n, Delimits m (within n)) : Delimits m d := by
  intro input a rest eq
  have hInput := (hAgree input.length (Nat.le_refl _)).trans eq
  obtain ⟨front, hLeast, rfl, -⟩ := h _ hInput
  refine ⟨front, hLeast, rfl, fun rest' => ?_⟩
  have hBefore : (front ++ rest).length ≤ (front ++ rest ++ rest').length := by simp
  have hAfter : (front ++ rest').length ≤ (front ++ rest ++ rest').length := by simp
  obtain ⟨front', -, hFront, hRead⟩ := h _ ((hAgree _ hBefore).trans eq)
  rw [← List.append_cancel_right hFront] at hRead
  exact (hAgree _ hAfter).symm.trans (hRead rest')

/-- **A reader that is sure of its prefix refuses what is cut short.** If it read a
value from less, it would read that value from the whole prefix too and leave the
bytes that were cut off. -/
theorem Delimits.selfDelimiting (h : Delimits 1 d) : SelfDelimiting d := by
  intro input a rest eq
  obtain ⟨front, hLeast, hInput, hRead⟩ := h eq
  refine ⟨front, List.ne_nil_of_length_pos hLeast, hInput, hRead, fun cut hCut hProper => ?_⟩
  cases hd : d cut with
  | error e left => exact ⟨e, left, rfl⟩
  | ok b left =>
    obtain ⟨missing, rfl⟩ := hCut
    obtain ⟨shorter, -, rfl, hShorter⟩ := h hd
    have hWhole := hShorter (left ++ missing)
    have hFront := hRead []
    rw [List.append_nil, List.append_assoc, hWhole] at hFront
    have hNothing : left ++ missing = [] := by
      injection hFront
    rw [(List.append_eq_nil_iff.mp hNothing).2, List.append_nil] at hProper
    exact absurd rfl hProper

/-! ## Bytes and numbers -/

theorem delimits_byte (wanted : Wanted) : Delimits 1 (byte wanted) := by
  intro input b rest eq
  cases input with
  | nil => cases eq
  | cons =>
    cases eq
    exact ⟨[b], Nat.le_refl 1, rfl, fun _ => rfl⟩

/-- A block of `n` bytes is delimited by its length, which must be known before. -/
theorem delimits_block (n : Nat) (wanted : Wanted) : Delimits n (block n wanted) := by
  intro input bytes rest eq
  have hLength := gives_block n wanted eq
  unfold block at eq
  split at eq
  · cases eq
    refine ⟨input.take n, Nat.le_of_eq hLength.symm, (List.take_append_drop n input).symm, ?_⟩
    exact block_append hLength wanted
  · cases eq

end Decoder

open Decoder

namespace Encoding

/-- Digits are read from a block of known length, and tested without reading on. -/
theorem delimits_getDigits (n : Nat) : Delimits n (getDigits n) := by
  unfold getDigits
  split
  · exact delimits_throw _
  · exact (delimits_block n _).andThen fun _ => delimits_pure _

theorem delimits_getUint : Delimits 1 getUint := by
  refine (delimits_byte _).andThen fun head => ?_
  split
  · exact (delimits_getDigits _).any
  · exact delimits_pure _

/-- A header takes a byte, which says whether its size follows in digits. -/
theorem Header.delimits_get : Delimits 1 Header.get := by
  refine (delimits_byte _).andThen fun head => ?_
  dsimp only
  split
  · exact ((delimits_getDigits _).andThen fun _ => delimits_pure _).any
  · exact delimits_pure _

theorem delimits_getBool : Delimits 1 getBool := by
  refine (delimits_byte _).andThen fun b => ?_
  split
  · exact delimits_pure _
  · split
    · exact delimits_pure _
    · exact delimits_throw _

end Encoding

/-! ## Names -/

namespace Name

/-- A text of a given length takes that many bytes, and whether they are a text is seen from them
alone. -/
theorem delimits_getText (length : Nat) : Delimits length (getText length) := by
  intro input s rest eq
  unfold getText at eq
  split at eq
  · rename_i hHolds
    rw [Bytes.holds_iff] at hHolds
    have hLength : (input.take length).length = length := List.length_take_of_le hHolds
    split at eq
    · rename_i segment hText
      cases eq
      refine ⟨input.take length, Nat.le_of_eq hLength.symm, (List.take_append_drop _ _).symm,
        fun rest' => ?_⟩
      have hEnough : Bytes.holds length (input.take length ++ rest') := by
        rw [Bytes.holds_iff, List.length_append, hLength]
        exact Nat.le_add_right _ _
      unfold getText
      rw [if_pos hEnough, List.take_left' hLength, List.drop_left' hLength, hText]
    · cases eq
  · cases eq

/-- A segment takes a byte at least: that of its length, also where it is empty. -/
theorem delimits_getSegment : Delimits 1 getSegment :=
  delimits_getUint.andThen fun length => (delimits_getText length).any

theorem delimits_get : Delimits 1 Name.get :=
  delimits_getUint.andThen fun count =>
    ((delimits_getSegment.times count).andThen fun _ => delimits_pure _).any

/-- A list of names takes a byte at least, that of its length. -/
theorem delimits_getList : Delimits 1 getList :=
  delimits_getUint.andThen fun count => (delimits_get.times count).any

end Name

/-! ## Levels -/

namespace Level

/-- One layer of a level takes a byte if the parts below it do, whatever its header says. -/
theorem delimits_layer {part : Decoder Level} (h : Delimits 1 part) : Delimits 1 (layer part) := by
  refine Header.delimits_get.andThen fun tag => ?_
  split
  · exact delimits_pure _
  · unfold chain
    split
    · exact delimits_throw _
    · exact (h.andThen fun _ => delimits_pure _).any
  · exact (h.both _).any
  · exact (h.both _).any
  · exact (Name.delimits_get.andThen fun _ => delimits_pure _).any
  · exact delimits_throw _

/-- Levels are delimited. The induction is on the input that the reader by recursive descent may
call itself on. -/
theorem delimits_parse : Delimits 1 parse := by
  refine .of_agree agree_parse fun n => ?_
  induction n with
  | zero => exact delimits_throw _
  | succ n ih => exact delimits_layer ih

end Level

/-! ## Terms -/

namespace Term

variable {part : Decoder Term}

/-- A binder takes a byte in any case: its name does, and then its parts. -/
theorem delimits_binding (h : Delimits 1 part) (k : Binder) : Delimits 1 (binding k part) :=
  Name.delimits_get.andThen fun _ => (h.both _).any

/-- A spine takes a byte for its head and one for each argument. -/
theorem delimits_applied (h : Delimits 1 part) (n : Nat) : Delimits (1 + n) (applied n part) :=
  h.bind fun _ => (h.times n).andThen fun _ => delimits_pure _

/-- **Terms end by themselves**, at every depth. -/
theorem delimits_parse (depth : Nat) : Delimits 1 (parse depth) := by
  induction depth using parse.induct with
  | case1 depth hDepth =>
    rw [parse, dif_pos hDepth]
    exact delimits_throw _
  | case2 depth hDepth ihSpine ih =>
    rw [parse, dif_neg hDepth]
    refine Header.delimits_get.andThen fun tag => ?_
    split
    · split
      · exact delimits_throw _
      · exact delimits_pure _
    · exact (Name.delimits_get.andThen fun _ => delimits_pure _).any
    · exact (Level.delimits_parse.andThen fun _ => delimits_pure _).any
    · exact (Name.delimits_get.andThen fun _ =>
        ((Level.delimits_parse.times _).andThen fun _ => delimits_pure _).any).any
    · split
      · exact delimits_throw _
      · rename_i hSize
        -- the spine takes more bytes than the test asks for
        have hSpine : Delimits (1 + tag.size)
            (if maxDepth < depth + tag.size then throw (.malformed .termDepth)
              else applied tag.size (parse (depth + tag.size))) := by
          split
          · exact delimits_throw _
          · exact delimits_applied (ihSpine tag hSize ‹_›) _
        exact (hSpine.atLeast_bind (Nat.le_add_left _ 1) _).any
    · exact (delimits_binding ih _).any
    · exact (delimits_binding ih _).any
    · exact (Name.delimits_get.andThen fun _ => (ih.andThen fun _ => (ih.both _).any).any).any
    · exact (delimits_binding ih _).any
    · exact (ih.both _).any
    · exact (ih.andThen fun _ => delimits_pure _).any
    · exact (ih.andThen fun _ => delimits_pure _).any
    · exact delimits_throw _

end Term

/-! ## Declarations -/

theorem Declaration.delimits_get : Delimits 1 Declaration.get := by
  have hTerm : Delimits 1 Term.get := Term.get_eq_parse ▸ Term.delimits_parse 0
  refine Name.delimits_get.andThen fun name => ?_
  refine (Name.delimits_getList.andThen fun params => ?_).any
  refine (hTerm.andThen fun type => ?_).any
  refine (delimits_getBool.andThen fun hasValue => ?_).any
  split
  · exact (hTerm.andThen fun _ => delimits_pure _).any
  · exact delimits_pure _

/-- **Names, levels, terms and declarations delimit themselves.** -/
theorem Encoding.selfDelimiting_decoders :
    SelfDelimiting Name.get ∧ SelfDelimiting Level.get ∧ SelfDelimiting Term.get ∧
      SelfDelimiting Declaration.get := by
  rw [Level.get_eq_parse, Term.get_eq_parse]
  exact ⟨Name.delimits_get.selfDelimiting, Level.delimits_parse.selfDelimiting,
    (Term.delimits_parse 0).selfDelimiting, Declaration.delimits_get.selfDelimiting⟩

/-- A spine of two arguments with a byte behind it. With the last argument cut off
there are still as many bytes as arguments, and it is refused. -/
theorem Encoding.selfDelimiting_decoders_spine :
    Term.get [0x42, 0x00, 0x01, 0x02, 0x07] =
        .ok (.app (.app (.bvar 0) (.bvar 1)) (.bvar 2)) [0x07] ∧
      ∃ e left, Term.get [0x42, 0x00, 0x01] = .error e left := by
  have hRead : Term.get [0x42, 0x00, 0x01, 0x02, 0x07] =
      .ok (.app (.app (.bvar 0) (.bvar 1)) (.bvar 2)) [0x07] := by
    rw [Term.get_eq_parse]
    cbv
  obtain ⟨front, -, hFront, -, hCut⟩ := selfDelimiting_decoders.2.2.1 hRead
  have hBytes : front = [0x42, 0x00, 0x01, 0x02] :=
    List.append_cancel_right (show front ++ [0x07] = [0x42, 0x00, 0x01, 0x02] ++ [0x07] from
      hFront.symm)
  subst hBytes
  exact ⟨hRead, hCut [0x42, 0x00, 0x01] (by decide) (by decide)⟩

end TypeTheory
