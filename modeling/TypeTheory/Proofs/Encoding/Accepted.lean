import TypeTheory.Proofs.Encoding.Term
import Mathlib.Algebra.Group.Nat.Defs

/-!
# What a reader can give

A reader accepts more bytes than a writer makes: a chain of successors may be
split over several headers, and so may a spine. Of what it reads from arbitrary
bytes less is known than of what was written.

`Decoder.Gives d good` says that whatever the decoder reads is `good`, with one
rule for each way to put decoders together. For a machine the rule is about one
step, which keeps what is built and what is still to do good
(`Machine.gives_run`).

Every number that is read from the bytes is a machine word, so the counts and the
lengths in a term that was read are words (`Term.gives_get`). The chains and the
spines are put together from several numbers, and are words if the term is
within the limits of the reader (`Term.words_numbersFrom`). They need not be: a
spine that is split over two headers may hold a term that is nested too deeply to
be written in one (`Term.delivers_split`).
-/

namespace TypeTheory

open Encoding

namespace Decoder

variable {α β : Type} {d : Decoder α} {f : α → Decoder β} {good : α → Prop} {fine : β → Prop}

/-- Whatever the decoder reads has the property. -/
def Gives (d : Decoder α) (good : α → Prop) : Prop :=
  ∀ ⦃input : Bytes⦄ ⦃a : α⦄ ⦃rest : Bytes⦄, d input = .ok a rest → good a

theorem gives_any (d : Decoder α) : Gives d fun _ => True :=
  fun _ _ _ _ => trivial

theorem gives_pure {a : α} (h : good a) : Gives (pure a) good := by
  intro input b rest eq
  cases eq
  exact h

theorem gives_throw (e : DecodeError) : Gives (throw e) good := by
  intro input a rest eq
  cases eq

/-- In a sequence, what is known of the first value may be used for what the second decoder
gives. -/
theorem Gives.bind (hd : Gives d good) (hf : ∀ a, good a → Gives (f a) fine) :
    Gives (d >>= f) fine := by
  intro input b rest eq
  obtain ⟨a, middle, h₁, h₂⟩ := EStateM.bind_eq_ok.mp eq
  exact hf a (hd h₁) h₂

/-- Reading `n` items gives a list of `n` values, each of them as good as one item is. -/
theorem Gives.times (hd : Gives d good) (n : Nat) :
    Gives (d.times n) fun as => as.length = n ∧ ∀ a ∈ as, good a := by
  induction n with
  | zero => exact gives_pure (by simp)
  | succ n ih =>
    refine hd.bind fun a ha => ih.bind fun as has => gives_pure ?_
    refine ⟨by rw [List.length_cons, has.1], ?_⟩
    rw [List.forall_mem_cons]
    exact ⟨ha, has.2⟩

/-- A block that is read has exactly the length that was asked for. -/
theorem gives_block (n : Nat) (wanted : Wanted) :
    Gives (block n wanted) fun bytes => bytes.length = n := by
  intro input bytes rest eq
  unfold block at eq
  split at eq
  · rename_i hHolds
    rw [Bytes.holds_iff] at hHolds
    cases eq
    rw [List.length_take]
    omega
  · cases eq

end Decoder

open Decoder

namespace Encoding

variable {τ α : Type} {due : τ → Prop} {good : α → Prop} {tasks : List τ} {built : List α}

/-- What is to do and what is built have a property each. -/
def Stacks.All (due : τ → Prop) (good : α → Prop) (s : Stacks τ α) : Prop :=
  (∀ t ∈ s.tasks, due t) ∧ ∀ a ∈ s.built, good a

namespace Stacks.All

/-- A task that is due may be put on top of the stacks. -/
theorem add {t : τ} (ht : due t) (h : All due good ⟨tasks, built⟩) :
    All due good ⟨t :: tasks, built⟩ :=
  ⟨List.forall_mem_cons.mpr ⟨ht, h.1⟩, h.2⟩

theorem push {a : α} (h : All due good ⟨tasks, built⟩) (ha : good a) :
    All due good ⟨tasks, a :: built⟩ :=
  ⟨h.1, List.forall_mem_cons.mpr ⟨ha, h.2⟩⟩

/-- What is taken off the built values is good, and leaves stacks that are as good as before. -/
theorem pop {a : α} (h : All due good ⟨tasks, a :: built⟩) :
    good a ∧ All due good ⟨tasks, built⟩ := by
  obtain ⟨ha, hBuilt⟩ := List.forall_mem_cons.mp h.2
  exact ⟨ha, h.1, hBuilt⟩

end Stacks.All

/-- **What every step keeps, the machine gives.** -/
theorem Machine.gives_run (m : Machine τ α)
    (hStep : ∀ task tasks built, due task → Stacks.All due good ⟨tasks, built⟩ →
      Gives (m.step task tasks built) (Stacks.All due good))
    {s : Stacks τ α} (hs : s.All due good) : Gives (m.run s) good := by
  intro input a rest eq
  fun_induction run m s input with
  | case1 part =>
    cases eq
    exact hs.pop.1
  | case2 => cases eq
  | case3 input task tasks built s middle hEq _ ih =>
    obtain ⟨hTask, hTasks⟩ := List.forall_mem_cons.mp hs.1
    exact ih (hStep task tasks built hTask ⟨hTasks, hs.2⟩ hEq) eq
  | case4 => cases eq

/-! ## Numbers -/

/-- A number of `n` digits is below the `n`th power of 256, whatever the digits are. -/
theorem ofDigits_lt (bytes : Bytes) : ofDigits bytes < 256 ^ bytes.length := by
  induction bytes with
  | nil => decide
  | cons b bytes ih =>
    have hByte : b.toNat < 256 := b.toNat_lt
    rw [ofDigits, List.length_cons, Nat.pow_succ]
    omega

/-- The reader takes eight digits at most, so the number that it reads is a machine word. -/
theorem gives_getDigits (n : Nat) : Gives (getDigits n) (· ≤ maxWord) := by
  unfold getDigits
  split
  · exact gives_throw _
  · refine (gives_block n _).bind fun bytes hLength => gives_pure ?_
    have hLt := ofDigits_lt bytes
    have hPow : 256 ^ bytes.length ≤ 256 ^ 8 := Nat.pow_le_pow_right (by decide) (by omega)
    have hWord : 256 ^ 8 = maxWord + 1 := by decide
    omega

/-- Every integer that is read is a machine word. -/
theorem gives_getUint : Gives getUint (· ≤ maxWord) := by
  refine (gives_any _).bind fun head _ => ?_
  split
  · exact gives_getDigits _
  · have hByte : head.toNat < 256 := head.toNat_lt
    have hWord : 256 ≤ maxWord := by decide
    exact gives_pure (by omega)

/-- The size in every header that is read is a machine word. -/
theorem Header.gives_get : Gives Header.get (·.size ≤ maxWord) := by
  refine (gives_any _).bind fun head _ => ?_
  dsimp only
  split
  · exact (gives_getDigits _).bind fun size hSize => gives_pure hSize
  · have hLow : head.toNat % 16 < 16 := Nat.mod_lt _ (by decide)
    have hWord : 16 ≤ maxWord := by decide
    exact gives_pure (show head.toNat % 16 ≤ maxWord by omega)

end Encoding

/-! ## Names -/

namespace Name

/-- The segments of an extended name are those of the name, with the new ones behind them. -/
theorem segmentsOnto_extend (n : Name) (ss rest : List String) :
    (n.extend ss).segmentsOnto rest = n.segmentsOnto (ss ++ rest) := by
  induction ss generalizing n with
  | nil => rfl
  | cons s ss ih => exact ih (n.str s)

/-- A name made up of segments has these segments. -/
theorem segments_ofSegments (ss : List String) : (ofSegments ss).segments = ss := by
  have h := segmentsOnto_extend anonymous ss []
  rwa [List.append_nil] at h

/-- A segment that is read takes up exactly the bytes that were announced for it. -/
theorem gives_getText (length : Nat) : Gives (getText length) (·.utf8ByteSize = length) := by
  intro input s rest eq
  unfold getText at eq
  split at eq
  · rename_i hHolds
    rw [Bytes.holds_iff] at hHolds
    split at eq
    · rename_i segment hText
      cases eq
      unfold String.fromUTF8? at hText
      split at hText
      · cases hText
        change (input.take length).toArray.size = length
        rw [List.size_toArray, List.length_take]
        omega
      · cases hText
    · cases eq
  · cases eq

/-- Every name that is read records machine words. -/
theorem gives_get : Gives Name.get (Words ·.numbers) := by
  have hSegment : Gives getSegment (·.utf8ByteSize ≤ maxWord) := by
    refine gives_getUint.bind fun length hLength => ?_
    intro input s rest eq
    rw [gives_getText length eq]
    exact hLength
  refine gives_getUint.bind fun count hCount => (hSegment.times count).bind fun ss hss =>
    gives_pure ?_
  rw [numbers, segments_ofSegments, words_cons, words_map, hss.1]
  exact ⟨hCount, hss.2⟩

/-- A list of names has a word for its length, and every name in it is read like a single one. -/
theorem gives_getList :
    Gives getList fun names => names.length ≤ maxWord ∧ ∀ n ∈ names, Words n.numbers := by
  refine gives_getUint.bind fun count hCount => ?_
  intro input names rest eq
  obtain ⟨hLength, hNames⟩ := gives_get.times count eq
  exact ⟨hLength ▸ hCount, hNames⟩

end Name

/-! ## Levels -/

namespace Level

/-- The counts and the lengths in the names of a level are machine words. -/
def CountsFit : Level → Prop
  | zero => True
  | param n => Words n.numbers
  | succ l => l.CountsFit
  | max a b | imax a b => a.CountsFit ∧ b.CountsFit

/-- Successors on top of a level do not touch the names in it. -/
theorem countsFit_addOffset {l : Level} (h : l.CountsFit) (k : Nat) :
    (l.addOffset k).CountsFit := by
  induction k generalizing l with
  | zero => exact h
  | succ k ih => exact ih h

namespace Task

/-- The levels that are built have machine words for their counts. -/
abbrev AllFit : Stacks Task Level → Prop :=
  Stacks.All (fun _ => True) CountsFit

variable {tasks : List Task} {built : List Level}

/-- Whatever its header says, a level is started with stacks whose levels have words for their
counts. -/
theorem gives_start (tag : Header) (h : AllFit ⟨tasks, built⟩) :
    Gives (start tag tasks built) AllFit := by
  unfold start
  split
  · exact gives_pure (h.push trivial)
  · split
    · exact gives_throw _
    · exact gives_pure (.add trivial (.add trivial h))
  · exact gives_pure (.add trivial (.add trivial (.add trivial h)))
  · exact gives_pure (.add trivial (.add trivial (.add trivial h)))
  · exact Name.gives_get.bind fun name hName => gives_pure (h.push hName)
  · exact gives_throw _

/-- A step of the machine for levels keeps this, be it the start of a level or the joining of
two. -/
theorem gives_step (task : Task) (h : AllFit ⟨tasks, built⟩) :
    Gives (step task tasks built) AllFit := by
  unfold step
  split
  · exact (gives_any _).bind fun tag _ => gives_start tag h
  · obtain ⟨hl, h⟩ := h.pop
    exact gives_pure (h.push (countsFit_addOffset hl _))
  · obtain ⟨hb, h⟩ := h.pop
    obtain ⟨ha, h⟩ := h.pop
    exact gives_pure (h.push ⟨ha, hb⟩)
  · obtain ⟨hb, h⟩ := h.pop
    obtain ⟨ha, h⟩ := h.pop
    exact gives_pure (h.push ⟨ha, hb⟩)
  · exact gives_throw _

end Task

/-- Every level that is read has machine words for its counts. -/
theorem gives_get : Gives Level.get CountsFit :=
  machine.gives_run (fun task _ _ _ h => Task.gives_step task h) ⟨fun _ _ => trivial, by simp⟩

/-- The chain that starts above a level only grows on the way down. -/
theorem le_chainFrom (k : Nat) (l : Level) : k ≤ l.chainFrom k := by
  induction l generalizing k with
  | zero | param _ => exact Nat.le_refl k
  | succ l ih => exact Nat.le_of_succ_le (ih (k + 1))
  | max a b | imax a b => exact Nat.le_max_left _ _

/-- A level with short chains records machine words. -/
theorem words_numbersFrom {k : Nat} {l : Level} (hCounts : l.CountsFit)
    (hChain : l.chainFrom k ≤ maxOffset) : Words (l.numbersFrom k) := by
  have hWord : maxOffset ≤ maxWord := by decide
  have hk : k ≤ maxWord := Nat.le_trans (le_chainFrom k l) (Nat.le_trans hChain hWord)
  induction l generalizing k with
  | zero => simpa [numbersFrom] using hk
  | param n => exact words_cons.mpr ⟨hk, hCounts⟩
  | succ l ih =>
    exact ih hCounts hChain (Nat.le_trans (le_chainFrom _ l) (Nat.le_trans hChain hWord))
  | max a b iha ihb | imax a b iha ihb =>
    simp only [chainFrom, Nat.max_le] at hChain
    rw [numbersFrom, words_cons, words_append]
    exact ⟨hk, iha hCounts.1 hChain.2.1 (Nat.zero_le _), ihb hCounts.2 hChain.2.2 (Nat.zero_le _)⟩

end Level

/-! ## Terms -/

namespace Term

/-- The counts and the lengths in a term are machine words. -/
def CountsFit : Term → Prop
  | .bvar _ => True
  | .fvar x => Words x.numbers
  | .sort l => l.CountsFit
  | .const x ls => Words x.numbers ∧ ls.length ≤ maxWord ∧ ∀ l ∈ ls, l.CountsFit
  | .app f a => f.CountsFit ∧ a.CountsFit
  | .bind _ x t b => Words x.numbers ∧ t.CountsFit ∧ b.CountsFit
  | .letE x t v b => Words x.numbers ∧ t.CountsFit ∧ v.CountsFit ∧ b.CountsFit
  | .pair a b => a.CountsFit ∧ b.CountsFit
  | .proj _ p => p.CountsFit

namespace Task

/-- The name that is kept for a term to be put together records machine words. -/
def CountsFit : Task → Prop
  | .bind _ name | .letE name => Words name.numbers
  | .read _ | .app | .pair | .proj _ => True

/-- The counts and the lengths on both stacks are machine words. -/
abbrev AllFit : Stacks Task Term → Prop :=
  Stacks.All CountsFit Term.CountsFit

variable {depth : Nat} {tasks : List Task} {built : List Term}

/-- The tasks for the arguments of a spine ask nothing of the counts. -/
theorem allFit_argumentTasks (depth n : Nat) (h : AllFit ⟨tasks, built⟩) :
    AllFit ⟨argumentTasks depth n ++ tasks, built⟩ := by
  induction n with
  | zero => exact h
  | succ n ih => exact .add trivial (.add trivial ih)

/-- A binder is started by reading its name and leaving its two parts to be read. -/
theorem gives_startBind (k : Binder) (h : AllFit ⟨tasks, built⟩) :
    Gives (startBind k depth tasks built) AllFit :=
  Name.gives_get.bind fun _ hName => gives_pure (.add trivial (.add trivial (.add hName h)))

/-- A spine is started by leaving its head and its arguments to be read, if enough bytes are
left. -/
theorem gives_startSpine (n : Nat) (h : AllFit ⟨tasks, built⟩) :
    Gives (startSpine n depth tasks built) AllFit := by
  refine (gives_any _).bind fun left _ => ?_
  split
  · exact gives_throw _
  · split
    · exact gives_throw _
    · exact gives_pure (.add trivial (allFit_argumentTasks _ n h))

/-- Whatever its header says, a term is started with stacks that fit, if the size in the header is a
word. -/
theorem gives_start {tag : Header} (hSize : tag.size ≤ maxWord) (h : AllFit ⟨tasks, built⟩) :
    Gives (start tag depth tasks built) AllFit := by
  unfold start
  split
  · split
    · exact gives_throw _
    · exact gives_pure (h.push trivial)
  · exact Name.gives_get.bind fun name hName => gives_pure (h.push hName)
  · exact Level.gives_get.bind fun level hLevel => gives_pure (h.push hLevel)
  · -- the number of levels is the size in the header
    refine Name.gives_get.bind fun name hName =>
      (Level.gives_get.times _).bind fun levels hLevels =>
        gives_pure (h.push ⟨hName, ?_, hLevels.2⟩)
    rw [hLevels.1]
    exact hSize
  · exact gives_startSpine _ h
  · exact gives_startBind _ h
  · exact gives_startBind _ h
  · exact Name.gives_get.bind fun name hName =>
      gives_pure (.add trivial (.add trivial (.add trivial (.add hName h))))
  · exact gives_startBind _ h
  · exact gives_pure (.add trivial (.add trivial (.add trivial h)))
  · exact gives_pure (.add trivial (.add trivial h))
  · exact gives_pure (.add trivial (.add trivial h))
  · exact gives_throw _

/-- A step of the machine for terms keeps this: it starts a term, or joins the parts that are
built. -/
theorem gives_step {task : Task} (hTask : task.CountsFit) (h : AllFit ⟨tasks, built⟩) :
    Gives (step task tasks built) AllFit := by
  unfold step
  split
  · unfold readAt
    split
    · exact gives_throw _
    · exact Header.gives_get.bind fun tag hSize => gives_start hSize h
  · obtain ⟨ha, h⟩ := h.pop
    obtain ⟨hf, h⟩ := h.pop
    exact gives_pure (h.push ⟨hf, ha⟩)
  · obtain ⟨hb, h⟩ := h.pop
    obtain ⟨ht, h⟩ := h.pop
    exact gives_pure (h.push ⟨hTask, ht, hb⟩)
  · obtain ⟨hb, h⟩ := h.pop
    obtain ⟨hv, h⟩ := h.pop
    obtain ⟨ht, h⟩ := h.pop
    exact gives_pure (h.push ⟨hTask, ht, hv, hb⟩)
  · obtain ⟨hb, h⟩ := h.pop
    obtain ⟨ha, h⟩ := h.pop
    exact gives_pure (h.push ⟨ha, hb⟩)
  · obtain ⟨hp, h⟩ := h.pop
    exact gives_pure (h.push hp)
  · exact gives_throw _

end Task

/-- Every term that is read has machine words for its counts. -/
theorem gives_get : Gives Term.get CountsFit :=
  machine.gives_run (fun _ _ _ hTask h => Task.gives_step hTask h)
    ⟨by simp [Task.CountsFit], by simp⟩

/-- **A term within the limits records machine words** if its counts are words:
its spines are no longer than it is deep. -/
theorem words_numbersFrom {n : Nat} {e : Term} (hCounts : e.CountsFit)
    (hNesting : n + e.nesting ≤ maxDepth) (hLeaves : e.LeavesFit) : Words (e.numbersFrom n) := by
  have hDepth : maxDepth ≤ maxWord := by decide
  have hIndex : maxIndex ≤ maxWord := by decide
  induction e generalizing n with
  | app f a ihf iha =>
    -- the head has one argument more and lies one level deeper
    simp only [nesting] at hNesting
    rw [numbersFrom, words_append]
    exact ⟨ihf hCounts.1 (by omega) hLeaves.1, iha hCounts.2 (by omega) hLeaves.2⟩
  | bvar i =>
    simp only [nesting, LeavesFit] at hNesting hLeaves
    simp only [numbersFrom, words_cons, words_nil, and_true]
    omega
  | fvar x => exact words_cons.mpr ⟨by omega, hCounts⟩
  | sort l => exact words_cons.mpr ⟨by omega, Level.words_numbersFrom hCounts hLeaves⟩
  | const x ls =>
    simp only [numbersFrom, words_cons, words_append, words_flatMap]
    refine ⟨by omega, hCounts.2.1, hCounts.1, fun l hl => ?_⟩
    exact Level.words_numbersFrom (hCounts.2.2 l hl) (hLeaves l hl)
  | bind k x t b iht ihb =>
    simp only [nesting] at hNesting
    simp only [numbersFrom, words_cons, words_append]
    exact ⟨by omega, ⟨hCounts.1, iht hCounts.2.1 (by omega) hLeaves.1⟩,
      ihb hCounts.2.2 (by omega) hLeaves.2⟩
  | letE x t v b iht ihv ihb =>
    simp only [nesting] at hNesting
    simp only [numbersFrom, words_cons, words_append]
    exact ⟨by omega, ⟨⟨hCounts.1, iht hCounts.2.1 (by omega) hLeaves.1⟩,
      ihv hCounts.2.2.1 (by omega) hLeaves.2.1⟩, ihb hCounts.2.2.2 (by omega) hLeaves.2.2⟩
  | pair a b iha ihb =>
    simp only [nesting] at hNesting
    simp only [numbersFrom, words_cons, words_append]
    exact ⟨by omega, iha hCounts.1 (by omega) hLeaves.1, ihb hCounts.2 (by omega) hLeaves.2⟩
  | proj k p ih =>
    simp only [nesting] at hNesting
    exact words_cons.mpr ⟨by omega, ih hCounts (by omega) hLeaves⟩

/-- **A spine that is split over two headers is read too.** Its last argument
then lies one level below it, and not as many as the spine has arguments. -/
theorem delivers_split {d : Nat} {f a : Term} (hf : Words f.numbers) (ha : Words a.numbers)
    (rest : Bytes) :
    machine.Delivers (.read d) (putSpine 1 ++ f.putApplied 0 (a.putApplied 0 rest)) [] (.app f a)
      rest ((d + 1 + f.nesting ≤ maxDepth ∧ f.LeavesFit) ∧
        d + 1 + a.nesting ≤ maxDepth ∧ a.LeavesFit) := by
  intro tasks built x left q hr
  have hApp : Reads (machine.run ⟨.app :: tasks, a :: f :: built⟩) rest x left q :=
    Machine.reads_run_of_eq rfl hr
  -- after its own header the argument is read like any other term
  have hArgument : Reads (machine.run ⟨.read (d + 1) :: .app :: tasks, f :: built⟩)
      (a.putApplied 0 rest) x left ((d + 1 + a.nesting ≤ maxDepth ∧ a.LeavesFit) ∧ q) :=
    delivers_putApplied (d := d + 1) ha (Nat.zero_le _) hApp
  have hHead : machine.Delivers (.read (d + 1)) (f.putApplied 0 (a.putApplied 0 rest)) [] f
      (a.putApplied 0 rest) (d + 1 + f.nesting ≤ maxDepth ∧ f.LeavesFit) :=
    delivers_putApplied (d := d + 1) hf (Nat.zero_le _)
  have hLength := length_putApplied 0 (a.putApplied 0 rest) f
  have hSpine := delivers_putSpine (n := 1) (by decide) (by omega) (fun fits => by omega) hHead
  exact (hSpine hArgument).congr and_assoc.symm

end Term

end TypeTheory
