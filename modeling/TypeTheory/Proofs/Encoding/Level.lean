import TypeTheory.Proofs.Encoding.Reading

/-!
# Levels are read back

A chain of successors is written as one header, so the only limit on a level is
the length of its longest chain (`Level.longestChain`). The writer passes the
successors above a level down to it, and so do the two measures here and the
statement that carries the induction (`Level.delivers_putFrom`).
-/

namespace TypeTheory

open Encoding Decoder

namespace Level

/-! ## Measures -/

/-- The length of the longest chain of successors in a level with `k` more on top. -/
def chainFrom (k : Nat) : Level → Nat
  | zero => k
  | param _ => k
  | succ l => l.chainFrom (k + 1)
  | max a b | imax a b => Max.max k (Max.max (a.chainFrom 0) (b.chainFrom 0))

/-- The length of the longest chain of successors in a level. -/
def longestChain (l : Level) : Nat :=
  l.chainFrom 0

/-- The numbers that the bytes of a level with `k` more successors record. -/
def numbersFrom (k : Nat) : Level → List Nat
  | zero => [k]
  | param n => k :: n.numbers
  | succ l => l.numbersFrom (k + 1)
  | max a b | imax a b => k :: (a.numbersFrom 0 ++ b.numbersFrom 0)

/-- The numbers that the bytes of a level record. -/
def numbers (l : Level) : List Nat :=
  l.numbersFrom 0

/-! ## Reading -/

variable {k : Nat} {tag : Header} {tasks : List Task} {built : List Level} {s : Stacks Task Level}
  {base l a b : Level} {input middle rest : Bytes} {p q : Prop}

/-- A level starts with its header. -/
theorem reads_header (hFlag : tag.flag < 16) (hSize : tag.size ≤ maxWord)
    (h : Reads (Task.start tag tasks built) middle s rest p) :
    Reads (machine.step .read tasks built) (tag.put ++ middle) s rest p :=
  .after (Header.get_append hFlag hSize middle) h

/-- **Successors are read on top of their base**, unless they are too many. -/
theorem delivers_putOffset (hk : k ≤ maxWord) (h : machine.Delivers .read input [] base rest p) :
    machine.Delivers .read (putOffset k ++ input) [] (base.addOffset k) rest
      (k ≤ maxOffset ∧ p) := by
  intro tasks built x left q hr
  by_cases hZero : k = 0
  · subst hZero
    exact (h hr).congr (by simp)
  · have hSucc : Reads (machine.run ⟨.succ k :: tasks, base :: built⟩) rest x left q :=
      Machine.reads_run_of_eq rfl hr
    have hStart : Reads (Task.start ⟨1, k⟩ tasks built) input
        ⟨.read :: .succ k :: tasks, built⟩ input (¬maxOffset < k ∧ True) :=
      .guard (.done _ _)
    rw [putOffset, if_neg hZero]
    refine (Machine.reads_run (reads_header (show 1 < 16 by decide) hk hStart) (h hSucc)).congr ?_
    simp [and_assoc]

/-- The header of the lowest level is the whole of it, and no limit is asked of it. -/
theorem delivers_zero (rest : Bytes) :
    machine.Delivers .read (Header.put ⟨0, 0⟩ ++ rest) [] zero rest True := by
  intro tasks built x left q hr
  exact Machine.reads_run (reads_header (by decide) (by decide) (.done _ _)) hr

/-- A parameter is its header and its name, and no limit is asked of it beyond words in the name. -/
theorem delivers_param {n : Name} (hn : Words n.numbers) (rest : Bytes) :
    machine.Delivers .read (Header.put ⟨4, 0⟩ ++ n.put ++ rest) [] (param n) rest True := by
  intro tasks built x left q hr
  rw [List.append_assoc]
  refine Machine.reads_run (reads_header (by decide) (by decide) ?_) hr
  exact .after (Name.get_append hn rest) (.done _ _)

/-- Two levels that are read one after the other are put together. -/
theorem delivers_join (tag : Header) (join : Task) (c : Level) (hFlag : tag.flag < 16)
    (hSize : tag.size ≤ maxWord)
    (hStart : ∀ tasks built,
      Task.start tag tasks built = pure ⟨.read :: .read :: join :: tasks, built⟩)
    (hJoin : ∀ tasks built, Task.step join tasks (b :: a :: built) = pure ⟨tasks, c :: built⟩)
    (ha : machine.Delivers .read input [] a middle p)
    (hb : machine.Delivers .read middle [] b rest q) :
    machine.Delivers .read (tag.put ++ input) [] c rest (p ∧ q) := by
  intro tasks built x left r hr
  have hJoined : Reads (machine.run ⟨join :: tasks, b :: a :: built⟩) rest x left r :=
    Machine.reads_run_of_eq (congrFun (hJoin tasks built) rest) hr
  have hHeader := reads_header hFlag hSize (.of_eq (congrFun (hStart tasks built) input))
  refine (Machine.reads_run hHeader (ha (hb hJoined))).congr ?_
  simp [and_assoc]

/-- **A level is read back where it was written**, whatever is read around it, if
and only if its chains of successors are short enough. -/
theorem delivers_putFrom (h : Words (l.numbersFrom k)) (rest : Bytes) :
    machine.Delivers .read (l.putFrom k rest) [] (l.addOffset k) rest
      (l.chainFrom k ≤ maxOffset) := by
  induction l generalizing k rest with
  | zero =>
    have hk : k ≤ maxWord := by simpa [numbersFrom] using h
    rw [putFrom, List.append_assoc]
    exact (delivers_putOffset hk (delivers_zero rest)).congr (by simp [chainFrom])
  | param n =>
    simp only [numbersFrom, words_cons] at h
    rw [putFrom, List.append_assoc, List.append_assoc, ← List.append_assoc (Header.put _)]
    exact (delivers_putOffset h.1 (delivers_param h.2 rest)).congr (by simp [chainFrom])
  | succ l ih => exact ih h rest
  | max a b iha ihb =>
    simp only [numbersFrom, words_cons, words_append] at h
    rw [putFrom, List.append_assoc]
    have hParts := delivers_join ⟨2, 0⟩ .max (max a b) (by decide) (by decide) (fun _ _ => rfl)
      (fun _ _ => rfl) (iha h.2.1 (b.putFrom 0 rest)) (ihb h.2.2 rest)
    exact (delivers_putOffset h.1 hParts).congr (by simp only [chainFrom]; omega)
  | imax a b iha ihb =>
    simp only [numbersFrom, words_cons, words_append] at h
    rw [putFrom, List.append_assoc]
    have hParts := delivers_join ⟨3, 0⟩ .imax (imax a b) (by decide) (by decide) (fun _ _ => rfl)
      (fun _ _ => rfl) (iha h.2.1 (b.putFrom 0 rest)) (ihb h.2.2 rest)
    exact (delivers_putOffset h.1 hParts).congr (by simp only [chainFrom]; omega)

/-- What follows a level in the bytes may be put behind it after it was written. -/
theorem putFrom_append (k : Nat) (l : Level) (rest more : Bytes) :
    l.putFrom k rest ++ more = l.putFrom k (rest ++ more) := by
  induction l generalizing k rest with
  | zero | param _ => simp [putFrom]
  | succ l ih => exact ih (k + 1) rest
  | max a b iha ihb | imax a b iha ihb => simp [putFrom, iha, ihb]

/-- **Levels are read back.** -/
theorem reads_get (h : Words l.numbers) (rest : Bytes) :
    Reads Level.get (l.put ++ rest) l rest (l.longestChain ≤ maxOffset) := by
  rw [put, putFrom_append, List.nil_append]
  exact (delivers_putFrom h rest).reads

end Level

end TypeTheory
