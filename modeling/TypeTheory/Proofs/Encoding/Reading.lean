import TypeTheory.Encoding.Declaration
import Mathlib.Tactic.Common

/-!
# Reading back what was written

`Decoder.Reads d input a rest fits` says what a decoder does on bytes that an
encoder wrote: if the value `fits` the decoder's limits it reads `a` and leaves
`rest`, otherwise it refuses the bytes as malformed. One rule for each way to
put decoders together carries the two halves along, so a round trip is proved
once and its failure comes with it. For a machine the rule is about one thing to
do, whatever else is on the stacks: `Machine.Delivers`.

The numbers that an encoding records (counts, lengths, indices) take at most
eight digits when they are machine words (`Words`). For such numbers integers,
headers, names and lists of names are read back whatever follows them.
-/

namespace TypeTheory

open Encoding

namespace Decoder

variable {α β : Type}

/-- A sequence goes on with the value that its first part reads and the bytes that it leaves. -/
theorem bind_of_ok {d : Decoder α} {f : α → Decoder β} {input middle : Bytes} {a : α}
    (h : d input = .ok a middle) : (d >>= f) input = f a middle := by
  change EStateM.bind d f input = _
  simp only [EStateM.bind, h]

/-- On `input` the decoder reads `a` and leaves `rest` if the value fits, and
otherwise finds the input malformed. -/
structure Reads (d : Decoder α) (input : Bytes) (a : α) (rest : Bytes) (fits : Prop) : Prop where
  ok : fits → d input = .ok a rest
  refused : ¬fits → ∃ flaw left, d input = .error (.malformed flaw) left

namespace Reads

variable {d : Decoder α} {f : α → Decoder β} {a : α} {b : β} {input middle rest : Bytes}
  {p q : Prop}

/-- A decoder that succeeds on the bytes reads them, with no limit to fit. -/
theorem of_eq (h : d input = .ok a rest) : Reads d input a rest True :=
  ⟨fun _ => h, fun hNot => absurd trivial hNot⟩

theorem done (a : α) (rest : Bytes) : Reads (pure a) rest a rest True :=
  of_eq rfl

theorem congr (h : Reads d input a rest p) (hpq : p ↔ q) : Reads d input a rest q :=
  ⟨fun hq => h.ok (hpq.mpr hq), fun hq => h.refused fun hp => hq (hpq.mp hp)⟩

/-- A value is read in front of the next one. -/
theorem after (hd : d input = .ok a middle) (hf : Reads (f a) middle b rest q) :
    Reads (d >>= f) input b rest q :=
  ⟨fun hq => (bind_of_ok hd).trans (hf.ok hq), fun hq => bind_of_ok (f := f) hd ▸ hf.refused hq⟩

/-- What is refused in front is refused as a whole. -/
theorem bind (hd : Reads d input a middle p) (hf : Reads (f a) middle b rest q) :
    Reads (d >>= f) input b rest (p ∧ q) := by
  by_cases hp : p
  · exact (after (hd.ok hp) hf).congr (by simp [hp])
  · obtain ⟨flaw, left, hError⟩ := hd.refused hp
    refine ⟨fun both => absurd both.1 hp, fun _ => ⟨flaw, left, ?_⟩⟩
    change EStateM.bind d f input = _
    simp only [EStateM.bind, hError]

/-- A limit that is tested on the way. -/
theorem guard {limit : Prop} [Decidable limit] {flaw : Flaw} (h : Reads d input a rest q) :
    Reads (if limit then throw (.malformed flaw) else d) input a rest (¬limit ∧ q) := by
  by_cases hLimit : limit
  · rw [if_pos hLimit]
    exact ⟨fun both => absurd hLimit both.1, fun _ => ⟨flaw, input, rfl⟩⟩
  · rw [if_neg hLimit]
    exact h.congr (by simp [hLimit])

/-- Items that are read one by one are read as a list. -/
theorem times {put : α → Bytes} {fits : α → Prop} {as : List α}
    (h : ∀ a ∈ as, ∀ rest, Reads d (put a ++ rest) a rest (fits a)) (rest : Bytes) :
    Reads (d.times as.length) (as.flatMap put ++ rest) as rest (∀ a ∈ as, fits a) := by
  induction as with
  | nil => exact (of_eq rfl).congr (by simp)
  | cons a as ih =>
    have hHead := h a List.mem_cons_self (as.flatMap put ++ rest)
    have hTail := ih fun x hx => h x (List.mem_cons_of_mem a hx)
    rw [List.flatMap_cons, List.append_assoc, List.length_cons]
    refine (hHead.bind (hTail.bind (done (a :: as) rest))).congr ?_
    simp

end Reads

/-- Items that are always read back are read back as a list. -/
theorem times_append {d : Decoder α} {put : α → Bytes} {as : List α}
    (h : ∀ a ∈ as, ∀ rest, d (put a ++ rest) = .ok a rest) (rest : Bytes) :
    d.times as.length (as.flatMap put ++ rest) = .ok as rest := by
  have hReads := Reads.times (fun a ha rest => Reads.of_eq (h a ha rest)) rest
  exact hReads.ok fun _ _ => trivial

/-- A block that is there is read. -/
theorem block_append {n : Nat} {bytes : Bytes} (h : bytes.length = n) (wanted : Wanted)
    (rest : Bytes) : block n wanted (bytes ++ rest) = .ok bytes rest := by
  subst h
  simp [block]

end Decoder

open Decoder

/-! ## Machines -/

namespace Encoding.Machine

variable {τ α : Type} {m : Machine τ α} {task : τ} {more : List τ} {a : α}
  {input middle rest : Bytes} {p q : Prop}

/-- The machine does the thing on top and then the rest. -/
theorem reads_run {tasks : List τ} {built : List α} {s : Stacks τ α}
    (hs : Reads (m.step task tasks built) input s middle p)
    (hr : Reads (m.run s) middle a rest q) :
    Reads (m.run ⟨task :: tasks, built⟩) input a rest (p ∧ q) := by
  by_cases hp : p
  · have hRun : m.run ⟨task :: tasks, built⟩ input = m.run s middle := by
      rw [Machine.run]
      split
      · rename_i hStep
        rw [hs.ok hp] at hStep
        cases hStep
        rfl
      · rename_i hStep
        rw [hs.ok hp] at hStep
        cases hStep
    exact ⟨fun both => hRun.trans (hr.ok both.2),
      fun hNot => hRun ▸ hr.refused fun hq => hNot ⟨hp, hq⟩⟩
  · obtain ⟨flaw, left, hError⟩ := hs.refused hp
    refine ⟨fun both => absurd both.1 hp, fun _ => ⟨flaw, left, ?_⟩⟩
    rw [Machine.run]
    split
    · rename_i hStep
      rw [hError] at hStep
      cases hStep
    · rename_i hStep
      rw [hError] at hStep
      cases hStep
      rfl

/-- The same for a step that is never refused. -/
theorem reads_run_of_eq {tasks : List τ} {built : List α} {s : Stacks τ α}
    (hs : m.step task tasks built input = .ok s middle) (hr : Reads (m.run s) middle a rest q) :
    Reads (m.run ⟨task :: tasks, built⟩) input a rest q :=
  (reads_run (.of_eq hs) hr).congr (by simp)

/-- Doing `task` on `input` comes down to having built `a`, with `more` things to
do first and `rest` to read, unless the value does not fit. -/
def Delivers (m : Machine τ α) (task : τ) (input : Bytes) (more : List τ) (a : α) (rest : Bytes)
    (fits : Prop) : Prop :=
  ∀ ⦃tasks : List τ⦄ ⦃built : List α⦄ ⦃x : α⦄ ⦃left : Bytes⦄ ⦃q : Prop⦄,
    Reads (m.run ⟨more ++ tasks, a :: built⟩) rest x left q →
      Reads (m.run ⟨task :: tasks, built⟩) input x left (fits ∧ q)

theorem Delivers.congr (h : m.Delivers task input more a rest p) (hpq : p ↔ q) :
    m.Delivers task input more a rest q :=
  fun _ _ _ _ _ hr => (h hr).congr (by rw [hpq])

/-- A machine that delivers a value is a decoder that reads it. -/
theorem Delivers.reads (h : m.Delivers task input [] a rest p) :
    Reads (m.run ⟨[task], []⟩) input a rest p := by
  have hEnd : m.run ⟨[], [a]⟩ rest = .ok a rest := by rw [Machine.run]
  exact (h (.of_eq hEnd)).congr (by simp)

end Encoding.Machine

namespace Encoding

/-! ## Numbers -/

/-- Numbers that are machine words. -/
def Words (numbers : List Nat) : Prop :=
  ∀ n ∈ numbers, n ≤ maxWord

instance (numbers : List Nat) : Decidable (Words numbers) :=
  inferInstanceAs (Decidable (∀ n ∈ numbers, n ≤ maxWord))

@[simp] theorem words_nil : Words [] := by
  simp [Words]

@[simp] theorem words_cons {n : Nat} {ns : List Nat} :
    Words (n :: ns) ↔ n ≤ maxWord ∧ Words ns := by
  simp [Words]

@[simp] theorem words_append {ms ns : List Nat} : Words (ms ++ ns) ↔ Words ms ∧ Words ns := by
  simp [Words, or_imp, forall_and]

@[simp] theorem words_map {α : Type} {f : α → Nat} {as : List α} :
    Words (as.map f) ↔ ∀ a ∈ as, f a ≤ maxWord := by
  simp [Words]

@[simp] theorem words_flatMap {α : Type} {f : α → List Nat} {as : List α} :
    Words (as.flatMap f) ↔ ∀ a ∈ as, Words (f a) := by
  simp only [Words, List.mem_flatMap]
  grind

/-- The digits of a number, read again, are the number: the lowest digit comes first. -/
theorem ofDigits_digits (x : Nat) : ofDigits (digits x) = x := by
  fun_induction digits x with
  | case1 => rfl
  | case2 x hx ih =>
    rw [ofDigits, ih, UInt8.toNat_ofNat']
    omega

/-- A number has one digit more than what is left of it without its lowest one. -/
theorem length_digits_le_succ {x n : Nat} (h : (digits (x / 256)).length ≤ n) :
    (digits x).length ≤ n + 1 := by
  rw [digits]
  split
  · exact Nat.zero_le _
  · exact Nat.succ_le_succ h

/-- A machine word has at most eight digits. -/
theorem length_digits_le {x : Nat} (h : x ≤ maxWord) : (digits x).length ≤ 8 := by
  have hZero : x / 256 / 256 / 256 / 256 / 256 / 256 / 256 / 256 = 0 := by
    unfold maxWord at h
    omega
  iterate 8 apply length_digits_le_succ
  rw [hZero, digits]
  exact Nat.le_refl 0

theorem length_digits_pos {x : Nat} (h : 0 < x) : 0 < (digits x).length := by
  rw [digits, if_neg (by omega)]
  exact Nat.succ_pos _

/-- The digits of a word are read back as that word, whatever follows them. -/
theorem getDigits_append {x : Nat} (h : x ≤ maxWord) (rest : Bytes) :
    getDigits (digits x).length (digits x ++ rest) = .ok x rest := by
  have hLength := length_digits_le h
  rw [getDigits, if_neg (by omega), bind_of_ok (block_append rfl _ rest), ofDigits_digits]
  rfl

theorem byte_cons (b : UInt8) (rest : Bytes) (wanted : Wanted) :
    byte wanted (b :: rest) = .ok b rest := rfl

/-- **Integers are read back.** -/
theorem getUint_append {x : Nat} (h : x ≤ maxWord) (rest : Bytes) :
    getUint (putUint x ++ rest) = .ok x rest := by
  have hLength := length_digits_le h
  unfold putUint getUint
  split
  · rename_i hSmall
    rw [List.singleton_append, bind_of_ok (byte_cons _ _ _),
      UInt8.toNat_ofNat_of_lt' (show _ < 256 by omega), if_neg (by omega)]
    rfl
  · rename_i hLarge
    have hPos : 0 < (digits x).length := length_digits_pos (by omega)
    have hCount : 128 + ((digits x).length - 1) - 128 + 1 = (digits x).length := by omega
    rw [List.cons_append, bind_of_ok (byte_cons _ _ _),
      UInt8.toNat_ofNat_of_lt' (show _ < 256 by omega), if_pos (by omega), hCount]
    exact getDigits_append h rest

/-- What a header's first byte starts, from its two halves. -/
def Header.getFrom (flag low : Nat) : Decoder Header :=
  if 8 ≤ low then do
    let size ← getDigits (low - 8 + 1)
    pure ⟨flag, size⟩
  else pure ⟨flag, low⟩

/-- A header is read from the two halves of its first byte. -/
theorem Header.get_cons {flag low : Nat} (hFlag : flag < 16) (hLow : low < 16) (rest : Bytes) :
    Header.get (UInt8.ofNat (16 * flag + low) :: rest) = Header.getFrom flag low rest := by
  have hHigh : (16 * flag + low) / 16 = flag := by omega
  have hRest : (16 * flag + low) % 16 = low := by omega
  unfold Header.get
  rw [bind_of_ok (byte_cons _ _ _), UInt8.toNat_ofNat_of_lt' (show _ < 256 by omega), hHigh, hRest]
  rfl

/-- **Headers are read back.** -/
theorem Header.get_append {h : Header} (hFlag : h.flag < 16) (hSize : h.size ≤ maxWord)
    (rest : Bytes) : Header.get (h.put ++ rest) = .ok h rest := by
  have hLength := length_digits_le hSize
  unfold Header.put
  split
  · rename_i hSmall
    rw [List.singleton_append, Header.get_cons hFlag (by omega), Header.getFrom, if_neg (by omega)]
    rfl
  · rename_i hLarge
    have hPos : 0 < (digits h.size).length := length_digits_pos (by omega)
    have hCount : 8 + ((digits h.size).length - 1) - 8 + 1 = (digits h.size).length := by omega
    rw [List.cons_append, Nat.add_assoc, Header.get_cons hFlag (by omega), Header.getFrom,
      if_pos (by omega), hCount, bind_of_ok (getDigits_append hSize rest)]
    rfl

theorem length_put_pos (h : Header) : 0 < h.put.length := by
  unfold Header.put
  split <;> simp

theorem getBool_append (b : Bool) (rest : Bytes) : getBool (putBool b ++ rest) = .ok b rest := by
  cases b <;> rfl

end Encoding

/-! ## Names -/

namespace Name

/-- The numbers that the bytes of a name record: how many segments there are and
how long each of them is. -/
def numbers (n : Name) : List Nat :=
  n.segments.length :: n.segments.map String.utf8ByteSize

/-- A name is built up again from its segments, one after the other. -/
theorem extend_segmentsOnto (n : Name) (rest : List String) :
    anonymous.extend (n.segmentsOnto rest) = n.extend rest := by
  induction n generalizing rest with
  | anonymous => rfl
  | str parent segment ih => exact ih (segment :: rest)

/-- The segments of a name make it up again. -/
theorem ofSegments_segments (n : Name) : ofSegments n.segments = n :=
  extend_segmentsOnto n []

/-- The loop that lists the bytes of an array goes through them from `i` on, with those read before
in front. -/
theorem toList_loop_eq (bytes : ByteArray) (i : Nat) (read : List UInt8) :
    ByteArray.toList.loop bytes i read = read.reverse ++ bytes.data.toList.drop i := by
  fun_induction ByteArray.toList.loop bytes i read with
  | case1 i read hlt ih =>
    have hi : i < bytes.data.toList.length := by simpa using hlt
    have hGet : bytes.get! i = bytes.data.toList[i] := by
      simp only [ByteArray.get!, Array.getElem_toList]
      exact getElem!_pos bytes.data i (by simpa using hlt)
    rw [ih, List.drop_eq_getElem_cons hi, hGet]
    simp
  | case2 i read hge =>
    have hi : bytes.data.toList.length ≤ i := by simpa using hge
    simp [List.drop_eq_nil_of_le hi]

/-- The bytes of an array are those that it holds, in their order. -/
theorem toList_eq_data (bytes : ByteArray) : bytes.toList = bytes.data.toList := by
  rw [ByteArray.toList, toList_loop_eq]
  rfl

theorem length_toUTF8 (s : String) : s.toUTF8.toList.length = s.utf8ByteSize := by
  rw [toList_eq_data]
  rfl

/-- A text is decoded from its own bytes: the encoding is valid by construction. -/
theorem fromUTF8?_toUTF8 (s : String) : String.fromUTF8? s.toUTF8 = some s := by
  unfold String.fromUTF8?
  rw [String.toUTF8_eq_toByteArray, dif_pos s.isValidUTF8]
  rfl

/-- Text is read back from its bytes. -/
theorem getText_append (s : String) (rest : Bytes) :
    getText s.utf8ByteSize (s.toUTF8.toList ++ rest) = .ok s rest := by
  have hTake : (s.toUTF8.toList ++ rest).take s.utf8ByteSize = s.toUTF8.toList := by
    rw [← length_toUTF8, List.take_left']
    rfl
  have hDrop : (s.toUTF8.toList ++ rest).drop s.utf8ByteSize = rest := by
    rw [← length_toUTF8, List.drop_left']
    rfl
  have hHolds : Bytes.holds s.utf8ByteSize (s.toUTF8.toList ++ rest) = true := by
    rw [Bytes.holds_iff, List.length_append, length_toUTF8]
    exact Nat.le_add_right _ _
  have hText : String.fromUTF8? ⟨s.toUTF8.toList.toArray⟩ = some s := by
    rw [toList_eq_data, Array.toArray_toList]
    exact fromUTF8?_toUTF8 s
  unfold getText
  rw [if_pos hHolds, hTake, hDrop, hText]

/-- A segment is read back with its length in front, if that length is a word. -/
theorem getSegment_append {s : String} (h : s.utf8ByteSize ≤ maxWord) (rest : Bytes) :
    getSegment (putSegment s ++ rest) = .ok s rest := by
  unfold putSegment getSegment
  dsimp only
  rw [length_toUTF8, List.append_assoc, bind_of_ok (getUint_append h _)]
  exact getText_append s rest

/-- **Names are read back.** -/
theorem get_append {n : Name} (h : Words n.numbers) (rest : Bytes) :
    Name.get (n.put ++ rest) = .ok n rest := by
  simp only [numbers, words_cons, words_map] at h
  have hSegments := times_append (fun s hs => getSegment_append (h.2 s hs)) rest
  unfold put get
  rw [List.append_assoc, bind_of_ok (getUint_append h.1 _), bind_of_ok hSegments,
    ofSegments_segments]
  rfl

/-- A list of names is read back with its length in front, name by name. -/
theorem getList_append {names : List Name} (h : names.length ≤ maxWord)
    (hNames : ∀ n ∈ names, Words n.numbers) (rest : Bytes) :
    getList (putList names ++ rest) = .ok names rest := by
  unfold putList getList
  rw [List.append_assoc, bind_of_ok (getUint_append h _)]
  exact times_append (fun n hn => get_append (hNames n hn)) rest

end Name

end TypeTheory
