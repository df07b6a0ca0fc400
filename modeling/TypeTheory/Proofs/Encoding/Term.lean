import TypeTheory.Proofs.Encoding.Level
import TypeTheory.Proofs.Term.Spine

/-!
# Terms are read back

The reader bounds how deeply a term is nested, its indices and the chains of
successors in its levels: `Term.nesting`, `Term.LeavesFit`. A spine is one node
of both the bytes and the measure: its head and its arguments lie as many levels
below it as it has arguments (`Term.nesting_apps_le`).

A term is written together with the arguments that it is applied to, so the
statement that carries the induction is about a head whose arguments are still
to be read (`Term.delivers_putApplied`).
-/

namespace TypeTheory

open Encoding Decoder

namespace Term

/-! ## Measures -/

/-- The number of arguments of a spine. -/
def arity : Term → Nat
  | .app f _ => f.arity + 1
  | .bvar _ | .fvar _ | .sort _ | .const .. | .bind .. | .letE .. | .pair .. | .proj .. => 0

/-- How deeply the parts of a term are nested: a spine of `n` arguments adds `n`
to the depth of its head and of each argument, any other node adds one. -/
def nesting : Term → Nat
  | .bvar _ | .fvar _ | .sort _ | .const .. => 0
  | .app f a => max (f.nesting + 1) (f.arity + 1 + a.nesting)
  | .bind _ _ t b => max t.nesting b.nesting + 1
  | .letE _ t v b => max t.nesting (max v.nesting b.nesting) + 1
  | .pair a b => max a.nesting b.nesting + 1
  | .proj _ p => p.nesting + 1

/-- The indices of a term and the chains of successors in its levels are small
enough to be read. -/
def LeavesFit : Term → Prop
  | .bvar i => i ≤ maxIndex
  | .fvar _ => True
  | .sort l => l.longestChain ≤ Level.maxOffset
  | .const _ ls => ∀ l ∈ ls, l.longestChain ≤ Level.maxOffset
  | .app f a => f.LeavesFit ∧ a.LeavesFit
  | .bind _ _ t b => t.LeavesFit ∧ b.LeavesFit
  | .letE _ t v b => t.LeavesFit ∧ v.LeavesFit ∧ b.LeavesFit
  | .pair a b => a.LeavesFit ∧ b.LeavesFit
  | .proj _ p => p.LeavesFit

/-- A term is within the limits of the reader. -/
def WithinLimits (e : Term) : Prop :=
  e.nesting ≤ maxDepth ∧ e.LeavesFit

/-- The numbers that the bytes of a term applied to `n` arguments record. -/
def numbersFrom (n : Nat) : Term → List Nat
  | .app f a => f.numbersFrom (n + 1) ++ a.numbersFrom 0
  | .bvar i => [n, i]
  | .fvar x => n :: x.numbers
  | .sort l => n :: l.numbers
  | .const x ls => n :: ls.length :: (x.numbers ++ ls.flatMap Level.numbers)
  | .bind _ x t b => n :: (x.numbers ++ t.numbersFrom 0 ++ b.numbersFrom 0)
  | .letE x t v b => n :: (x.numbers ++ t.numbersFrom 0 ++ v.numbersFrom 0 ++ b.numbersFrom 0)
  | .pair a b => n :: (a.numbersFrom 0 ++ b.numbersFrom 0)
  | .proj _ p => n :: p.numbersFrom 0

/-- The numbers that the bytes of a term record. -/
def numbers (e : Term) : List Nat :=
  e.numbersFrom 0

/-- **What the nesting of a spine is.** The head and each argument lie below a
spine by the number of all its arguments, those that the head already has
included. -/
theorem nesting_apps_le (f : Term) (args : List Term) (d : Nat) :
    (f.apps args).nesting ≤ d ↔ f.nesting + args.length ≤ d ∧
      ∀ a ∈ args, f.arity + args.length + a.nesting ≤ d := by
  induction args generalizing f with
  | nil => simp
  | cons a args ih =>
    have hHead : (Term.app f a).nesting + args.length ≤ d ↔
        f.nesting + (args.length + 1) ≤ d ∧ f.arity + (args.length + 1) + a.nesting ≤ d := by
      simp only [nesting]
      omega
    have hArity : (Term.app f a).arity + args.length = f.arity + (args.length + 1) := by
      simp only [arity]
      omega
    rw [apps_cons, ih, hHead, hArity, List.forall_mem_cons, List.length_cons, and_assoc]

/-- A term takes at least one byte of its own, in front of what follows it. -/
theorem length_putApplied (n : Nat) (rest : Bytes) (e : Term) :
    rest.length < (e.putApplied n rest).length := by
  induction e generalizing n rest with
  | app f a ihf iha => exact Nat.lt_trans (iha 0 rest) (ihf (n + 1) _)
  | bvar i =>
    have := length_put_pos ⟨0, i⟩
    simp only [putApplied, List.length_append]
    omega
  | fvar x =>
    have := length_put_pos ⟨1, 0⟩
    simp only [putApplied, List.length_append]
    omega
  | sort l =>
    have := length_put_pos ⟨2, 0⟩
    simp only [putApplied, List.length_append]
    omega
  | const x ls =>
    have := length_put_pos ⟨3, ls.length⟩
    simp only [putApplied, List.length_append]
    omega
  | bind k x t b iht ihb =>
    have := Nat.lt_trans (ihb 0 rest) (iht 0 _)
    simp only [putApplied, List.length_append]
    omega
  | letE x t v b iht ihv ihb =>
    have := Nat.lt_trans (Nat.lt_trans (ihb 0 rest) (ihv 0 _)) (iht 0 _)
    simp only [putApplied, List.length_append]
    omega
  | pair a b iha ihb =>
    have := Nat.lt_trans (ihb 0 rest) (iha 0 _)
    simp only [putApplied, List.length_append]
    omega
  | proj k p ih =>
    have := ih 0 rest
    simp only [putApplied, List.length_append]
    omega

/-- What follows a term in the bytes may be put behind it after it was written. -/
theorem putApplied_append (n : Nat) (e : Term) (rest more : Bytes) :
    e.putApplied n rest ++ more = e.putApplied n (rest ++ more) := by
  induction e generalizing n rest with
  | app f a ihf iha => simp only [putApplied, ihf, iha]
  | bvar _ | fvar _ | sort _ | const _ _ => simp [putApplied]
  | bind k x t b iht ihb => simp [putApplied, iht, ihb]
  | letE x t v b iht ihv ihb => simp [putApplied, iht, ihv, ihb]
  | pair a b iha ihb => simp [putApplied, iha, ihb]
  | proj k p ih => simp [putApplied, ih]

/-! ## Reading one node -/

variable {d n : Nat} {tag : Header} {tasks : List Task} {built : List Term} {s : Stacks Task Term}
  {e x a b : Term} {input middle rest left : Bytes} {p q r : Prop}

/-- A term starts with its header, unless it lies too deep. -/
theorem reads_run_read (hFlag : tag.flag < 16) (hSize : tag.size ≤ maxWord)
    (hStart : Reads (Task.start tag d tasks built) input s middle p)
    (hr : Reads (machine.run s) middle x left q) :
    Reads (machine.run ⟨.read d :: tasks, built⟩) (tag.put ++ input) x left
      ((d ≤ maxDepth ∧ p) ∧ q) := by
  have hStep : Reads (machine.step (.read d) tasks built) (tag.put ++ input) s middle
      (¬maxDepth < d ∧ p) := .guard (.after (Header.get_append hFlag hSize input) hStart)
  exact (Machine.reads_run hStep hr).congr (by rw [Nat.not_lt])

/-- **A spine is read down to its head**, with the arguments still to do. -/
theorem delivers_putSpine (hn : n ≤ maxWord) (hInput : n ≤ input.length)
    (hDepth : p → d + n ≤ maxDepth)
    (h : machine.Delivers (.read (d + n)) input [] e rest p) :
    machine.Delivers (.read d) (putSpine n ++ input) (Task.argumentTasks (d + n) n) e rest p := by
  intro tasks built x left q hr
  by_cases hZero : n = 0
  · subst hZero
    exact h hr
  · have hHolds : ¬(n = 0 ∨ !Bytes.holds n input) := by simp [hZero, hInput]
    have hStart : Reads (Task.start ⟨4, n⟩ d tasks built) input
        ⟨.read (d + n) :: Task.argumentTasks (d + n) n ++ tasks, built⟩ input
        (¬maxDepth < d + n ∧ True) := by
      change Reads (Task.startSpine n d tasks built) input _ input _
      refine .after rfl ?_
      rw [if_neg hHolds]
      exact .guard (.done _ _)
    rw [putSpine, if_neg hZero]
    refine (reads_run_read (show 4 < 16 by decide) hn hStart (h hr)).congr ?_
    constructor
    · exact fun all => all.2
    · intro both
      have := hDepth both.1
      exact ⟨⟨by omega, by omega, trivial⟩, both⟩

/-- An index is read back from its header, unless it is larger than the reader takes. -/
theorem delivers_bvar {i : Nat} (hi : i ≤ maxWord) (d : Nat) (rest : Bytes) :
    machine.Delivers (.read d) (Header.put ⟨0, i⟩ ++ rest) [] (.bvar i) rest
      (d ≤ maxDepth ∧ i ≤ maxIndex) := by
  intro tasks built x left q hr
  have hStart : Reads (Task.start ⟨0, i⟩ d tasks built) rest ⟨tasks, .bvar i :: built⟩ rest
      (¬maxIndex < i ∧ True) := .guard (.done _ _)
  exact (reads_run_read (show 0 < 16 by decide) hi hStart hr).congr (by simp)

theorem delivers_fvar {y : Name} (hy : Words y.numbers) (d : Nat) (rest : Bytes) :
    machine.Delivers (.read d) (Header.put ⟨1, 0⟩ ++ (y.put ++ rest)) [] (.fvar y) rest
      (d ≤ maxDepth ∧ True) := by
  intro tasks built x left q hr
  exact reads_run_read (by decide) (by decide) (.after (Name.get_append hy rest) (.done _ _)) hr

/-- A sort is read back with its level, unless a chain of successors is too long in it. -/
theorem delivers_sort {l : Level} (hl : Words l.numbers) (d : Nat) (rest : Bytes) :
    machine.Delivers (.read d) (Header.put ⟨2, 0⟩ ++ (l.put ++ rest)) [] (.sort l) rest
      (d ≤ maxDepth ∧ l.longestChain ≤ Level.maxOffset) := by
  intro tasks built x left q hr
  have hStart : Reads (Task.start ⟨2, 0⟩ d tasks built) (l.put ++ rest) ⟨tasks, .sort l :: built⟩
      rest (l.longestChain ≤ Level.maxOffset ∧ True) := .bind (Level.reads_get hl rest) (.done _ _)
  exact (reads_run_read (by decide) (by decide) hStart hr).congr (by rw [and_true])

/-- A constant is read back with its name and its levels, whose number stands in the header. -/
theorem delivers_const {y : Name} {ls : List Level} (hy : Words y.numbers)
    (hLength : ls.length ≤ maxWord) (hls : ∀ l ∈ ls, Words l.numbers) (d : Nat) (rest : Bytes) :
    machine.Delivers (.read d)
      (Header.put ⟨3, ls.length⟩ ++ (y.put ++ (ls.flatMap Level.put ++ rest)))
      [] (.const y ls) rest (d ≤ maxDepth ∧ ∀ l ∈ ls, l.longestChain ≤ Level.maxOffset) := by
  intro tasks built x left q hr
  have hLevels : Reads (Level.get.times ls.length) (ls.flatMap Level.put ++ rest) ls rest
      (∀ l ∈ ls, l.longestChain ≤ Level.maxOffset) :=
    .times (fun l hl rest => Level.reads_get (hls l hl) rest) rest
  have hStart : Reads (Task.start ⟨3, ls.length⟩ d tasks built)
      (y.put ++ (ls.flatMap Level.put ++ rest)) ⟨tasks, .const y ls :: built⟩ rest
      ((∀ l ∈ ls, l.longestChain ≤ Level.maxOffset) ∧ True) :=
    .after (Name.get_append hy _) (.bind hLevels (.done _ _))
  exact (reads_run_read (show 3 < 16 by decide) hLength hStart hr).congr (by rw [and_true])

/-- A binder is read back from its name and its two parts, which lie one level further down. -/
theorem delivers_bind {y : Name} {t : Term} (k : Binder) (hy : Words y.numbers)
    (ht : machine.Delivers (.read (d + 1)) input [] t middle p)
    (hb : machine.Delivers (.read (d + 1)) middle [] b rest q) :
    machine.Delivers (.read d) (Header.put ⟨k.flag, 0⟩ ++ (y.put ++ input)) [] (.bind k y t b) rest
      (d ≤ maxDepth ∧ p ∧ q) := by
  intro tasks built x left r hr
  have hJoin : Reads (machine.run ⟨.bind k y :: tasks, b :: t :: built⟩) rest x left r :=
    Machine.reads_run_of_eq rfl hr
  have hStart : Reads (Task.start ⟨k.flag, 0⟩ d tasks built) (y.put ++ input)
      ⟨.read (d + 1) :: .read (d + 1) :: .bind k y :: tasks, built⟩ input True := by
    cases k <;> exact .after (Name.get_append hy input) (.done _ _)
  have hFlag : k.flag < 16 := by cases k <;> decide
  refine (reads_run_read hFlag (show 0 ≤ maxWord by decide) hStart (ht (hb hJoin))).congr ?_
  simp only [and_true, and_assoc]

/-- A local definition is read back from its name and its three parts, one level further down. -/
theorem delivers_letE {y : Name} {t v : Term} {first second : Bytes} (hy : Words y.numbers)
    (ht : machine.Delivers (.read (d + 1)) input [] t first p)
    (hv : machine.Delivers (.read (d + 1)) first [] v second q)
    (hb : machine.Delivers (.read (d + 1)) second [] b rest r) :
    machine.Delivers (.read d) (Header.put ⟨7, 0⟩ ++ (y.put ++ input)) [] (.letE y t v b) rest
      (d ≤ maxDepth ∧ p ∧ q ∧ r) := by
  intro tasks built x left r' hr
  have hJoin : Reads (machine.run ⟨.letE y :: tasks, b :: v :: t :: built⟩) rest x left r' :=
    Machine.reads_run_of_eq rfl hr
  have hStart : Reads (Task.start ⟨7, 0⟩ d tasks built) (y.put ++ input)
      ⟨.read (d + 1) :: .read (d + 1) :: .read (d + 1) :: .letE y :: tasks, built⟩ input True :=
    .after (Name.get_append hy input) (.done _ _)
  refine (reads_run_read (by decide) (by decide) hStart (ht (hv (hb hJoin)))).congr ?_
  simp only [and_true, and_assoc]

/-- A pair is read back from its two parts, one level further down. -/
theorem delivers_pair (ha : machine.Delivers (.read (d + 1)) input [] a middle p)
    (hb : machine.Delivers (.read (d + 1)) middle [] b rest q) :
    machine.Delivers (.read d) (Header.put ⟨9, 0⟩ ++ input) [] (.pair a b) rest
      (d ≤ maxDepth ∧ p ∧ q) := by
  intro tasks built x left r hr
  have hJoin : Reads (machine.run ⟨.pair :: tasks, b :: a :: built⟩) rest x left r :=
    Machine.reads_run_of_eq rfl hr
  refine (reads_run_read (by decide) (by decide) (.done _ _) (ha (hb hJoin))).congr ?_
  simp only [and_true, and_assoc]

theorem delivers_proj {t : Term} (k : Side)
    (ht : machine.Delivers (.read (d + 1)) input [] t rest p) :
    machine.Delivers (.read d) (Header.put ⟨k.flag, 0⟩ ++ input) [] (.proj k t) rest
      (d ≤ maxDepth ∧ p) := by
  intro tasks built x left r hr
  have hJoin : Reads (machine.run ⟨.proj k :: tasks, t :: built⟩) rest x left r :=
    Machine.reads_run_of_eq rfl hr
  have hStart : Reads (Task.start ⟨k.flag, 0⟩ d tasks built) input
      ⟨.read (d + 1) :: .proj k :: tasks, built⟩ input True := by
    cases k <;> exact .done _ _
  have hFlag : k.flag < 16 := by cases k <;> decide
  refine (reads_run_read hFlag (show 0 ≤ maxWord by decide) hStart (ht hJoin)).congr ?_
  simp only [and_true, and_assoc]

/-! ## Reading a term -/

/-- **A term is read back where it was written**, with the arguments that follow
it still to do, if and only if it is within the limits. -/
theorem delivers_putApplied (h : Words (e.numbersFrom n)) (hn : n ≤ rest.length) :
    machine.Delivers (.read d) (e.putApplied n rest) (Task.argumentTasks (d + e.arity + n) n) e
      rest (d + n + e.nesting ≤ maxDepth ∧ e.LeavesFit) := by
  induction e generalizing d n rest with
  | app f a ihf iha =>
    -- the last argument follows the arguments of `f`, at the depth of all of them
    simp only [numbersFrom, words_append] at h
    have hLength := length_putApplied 0 rest a
    intro tasks built x left q hr
    have hDepth : d + f.arity + (n + 1) = d + (Term.app f a).arity + n := by
      simp only [arity]
      omega
    have hApp : Reads (machine.run ⟨.app :: (Task.argumentTasks (d + f.arity + (n + 1)) n ++ tasks),
        a :: f :: built⟩) rest x left q := Machine.reads_run_of_eq rfl (by rwa [hDepth])
    refine (ihf h.1 (by omega) (iha h.2 (Nat.zero_le _) hApp)).congr ?_
    simp only [nesting, LeavesFit]
    grind
  | bvar i =>
    simp only [numbersFrom, words_cons] at h
    rw [putApplied, List.append_assoc]
    refine delivers_putSpine h.1 (by simp only [List.length_append]; omega) (fun fits => fits.1) ?_
    exact delivers_bvar h.2.1 (d + n) rest
  | fvar y =>
    simp only [numbersFrom, words_cons] at h
    rw [putApplied, List.append_assoc, List.append_assoc]
    refine delivers_putSpine h.1 (by simp only [List.length_append]; omega) (fun fits => fits.1) ?_
    exact delivers_fvar h.2 (d + n) rest
  | sort l =>
    simp only [numbersFrom, words_cons] at h
    rw [putApplied, List.append_assoc, List.append_assoc]
    refine delivers_putSpine h.1 (by simp only [List.length_append]; omega) (fun fits => fits.1) ?_
    exact delivers_sort h.2 (d + n) rest
  | const y ls =>
    simp only [numbersFrom, words_cons, words_append, words_flatMap] at h
    simp only [putApplied, List.append_assoc]
    refine delivers_putSpine h.1 (by simp only [List.length_append]; omega) (fun fits => fits.1) ?_
    exact delivers_const h.2.2.1 h.2.1 h.2.2.2 (d + n) rest
  | bind k y t b iht ihb =>
    simp only [numbersFrom, words_cons, words_append] at h
    simp only [putApplied, List.append_assoc]
    have hLength := Nat.lt_trans (length_putApplied 0 rest b) (length_putApplied 0 _ t)
    refine delivers_putSpine h.1 (by simp only [List.length_append]; omega) (fun fits => by omega)
      ((delivers_bind k h.2.1.1 (iht h.2.1.2 (Nat.zero_le _)) (ihb h.2.2 (Nat.zero_le _))).congr ?_)
    simp only [nesting, LeavesFit]
    grind
  | letE y t v b iht ihv ihb =>
    simp only [numbersFrom, words_cons, words_append] at h
    simp only [putApplied, List.append_assoc]
    have hLength := Nat.lt_trans (Nat.lt_trans (length_putApplied 0 rest b)
      (length_putApplied 0 _ v)) (length_putApplied 0 _ t)
    refine delivers_putSpine h.1 (by simp only [List.length_append]; omega) (fun fits => by omega)
      ((delivers_letE h.2.1.1.1 (iht h.2.1.1.2 (Nat.zero_le _)) (ihv h.2.1.2 (Nat.zero_le _))
        (ihb h.2.2 (Nat.zero_le _))).congr ?_)
    simp only [nesting, LeavesFit]
    grind
  | pair a b iha ihb =>
    simp only [numbersFrom, words_cons, words_append] at h
    simp only [putApplied, List.append_assoc]
    have hLength := Nat.lt_trans (length_putApplied 0 rest b) (length_putApplied 0 _ a)
    refine delivers_putSpine h.1 (by simp only [List.length_append]; omega) (fun fits => by omega)
      ((delivers_pair (iha h.2.1 (Nat.zero_le _)) (ihb h.2.2 (Nat.zero_le _))).congr ?_)
    simp only [nesting, LeavesFit]
    grind
  | proj k t ih =>
    simp only [numbersFrom, words_cons] at h
    simp only [putApplied, List.append_assoc]
    have hLength := length_putApplied 0 rest t
    refine delivers_putSpine h.1 (by simp only [List.length_append]; omega) (fun fits => by omega)
      ((delivers_proj k (ih h.2 (Nat.zero_le _))).congr ?_)
    simp only [nesting, LeavesFit]
    grind

/-- **Terms are read back.** -/
theorem reads_get (h : Words e.numbers) (rest : Bytes) :
    Reads Term.get (e.put ++ rest) e rest e.WithinLimits := by
  rw [put, putApplied_append, List.nil_append]
  refine (delivers_putApplied h (Nat.zero_le _)).reads.congr ?_
  simp [WithinLimits]

end Term

end TypeTheory
