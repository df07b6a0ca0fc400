import TypeTheory.Proofs.Encoding.Accepted
import TypeTheory.Proofs.Term.Range

/-!
# Reading by recursive descent

The bytes of a level or a term follow a grammar: a header, then a name and
universe levels where the header asks for them, then the parts from left to right.
A reader that calls itself for the parts follows the grammar word by word
(`Level.parse`, `Term.parse`). The machines that read without calling themselves
do the same, on every input and with every error, down to the bytes that are left
(`Level.get_eq_parse`, `Term.get_eq_parse`): a part that is to be read is read by
the reader, whatever else is on the stacks.

So what is known of the readers by recursive descent is known of the machines. They
never complain of their stacks, and the depth that is passed down to the parts
bounds the height of what is read.
-/

namespace TypeTheory

open Encoding

namespace Decoder

variable {α β : Type} {n : Nat}

/-- Reads two parts and joins them. -/
def both (join : α → α → β) (part : Decoder α) : Decoder β := do
  let a ← part
  let b ← part
  pure (join a b)

/-- Goes on if at least `n` bytes are left. -/
def atLeast (n : Nat) (flaw : Flaw) : Decoder Unit := fun input =>
  if n ≤ input.length then .ok () input else .error (.malformed flaw) input

/-- A test of the bytes that are left goes on with the rest, or refuses the input where it
stands. -/
theorem atLeast_bind (n : Nat) (flaw : Flaw) (f : Unit → Decoder β) (input : Bytes) :
    (atLeast n flaw >>= f) input =
      if n ≤ input.length then f () input else .error (.malformed flaw) input := by
  by_cases h : n ≤ input.length
  · rw [if_pos h]
    exact bind_of_ok (if_pos h)
  · have hError : atLeast n flaw input = .error (.malformed flaw) input := if_neg h
    rw [if_neg h]
    change EStateM.bind _ _ input = _
    simp only [EStateM.bind, hError]

theorem Shrinks.both {part : Decoder α} (h : Shrinks part) (join : α → α → β) :
    Shrinks (both join part) :=
  h.bind fun _ => h.bind fun _ => shrinks_pure _

/-! ## Readers that agree on short inputs -/

/-- The readers do the same on every input of at most `n` bytes. -/
def Agree (n : Nat) (d d' : Decoder α) : Prop :=
  ∀ ⦃input : Bytes⦄, input.length ≤ n → d input = d' input

namespace Agree

variable {d d' d'' : Decoder α} {f f' : α → Decoder β}

theorem refl (d : Decoder α) : Agree n d d :=
  fun _ _ => rfl

theorem trans (h : Agree n d d') (h' : Agree n d' d'') : Agree n d d'' :=
  fun _ hInput => (h hInput).trans (h' hInput)

/-- On no bytes there is one input. -/
theorem of_nil (h : d [] = d' []) : Agree 0 d d' := by
  intro input hInput
  rw [List.length_eq_zero_iff.mp (Nat.le_zero.mp hInput)]
  exact h

/-- Readers put together from readers that agree on short inputs agree there, since no input gets
longer. -/
theorem bind (hShrinks : Shrinks d) (hd : Agree n d d') (hf : ∀ a, Agree n (f a) (f' a)) :
    Agree n (d >>= f) (d' >>= f') := by
  intro input hInput
  change EStateM.bind d f input = EStateM.bind d' f' input
  unfold EStateM.bind
  rw [← hd hInput]
  cases h : d input with
  | ok a rest => exact hf a (Nat.le_trans (hShrinks h) hInput)
  | error e rest => rfl

/-- What comes after a byte has one byte less to agree on. -/
theorem bind_consumes (hConsumes : Consumes d) (hf : ∀ a, Agree n (f a) (f' a)) :
    Agree (n + 1) (d >>= f) (d >>= f') := by
  intro input hInput
  change EStateM.bind d f input = EStateM.bind d f' input
  unfold EStateM.bind
  cases h : d input with
  | ok a rest =>
    have hRest : rest.length < input.length := hConsumes h
    exact hf a (show rest.length ≤ n by omega)
  | error e rest => rfl

theorem both {part part' : Decoder α} (hShrinks : Shrinks part) (h : Agree n part part')
    (join : α → α → β) : Agree n (both join part) (both join part') :=
  .bind hShrinks h fun _ => .bind hShrinks h fun _ => refl _

end Agree

end Decoder

open Decoder

/-! ## Machines as decoders -/

namespace Encoding.Machine

variable {τ α : Type} {m : Machine τ α} {task : τ} {tasks : List τ} {built : List α}

/-- The rest of a run, as a decoder. -/
def finish (m : Machine τ α) (s : Stacks τ α) : Decoder α :=
  m.run s

/-- A machine does the thing on top and goes on. -/
theorem finish_cons (m : Machine τ α) (task : τ) (tasks : List τ) (built : List α) :
    m.finish ⟨task :: tasks, built⟩ = m.step task tasks built >>= m.finish := by
  funext input
  change m.run _ input = EStateM.bind _ m.run input
  rw [Machine.run]
  unfold EStateM.bind
  split <;> simp_all

/-- A step that reads nothing may be taken at once, and the machine goes on from the stacks it
leaves. -/
theorem finish_of_step {s : Stacks τ α} (h : m.step task tasks built = pure s) :
    m.finish ⟨task :: tasks, built⟩ = m.finish s := by
  rw [finish_cons, h, pure_bind]

@[simp] theorem finish_single (m : Machine τ α) (a : α) : m.finish ⟨[], [a]⟩ = pure a := by
  funext input
  change m.run _ input = _
  rw [Machine.run]
  rfl

end Encoding.Machine

open Machine

/-! ## Levels -/

namespace Level

/-- A chain of `k` successors on a base, unless it is too long. -/
def chain (k : Nat) (part : Decoder Level) : Decoder Level :=
  if maxOffset < k then throw (.malformed .levelOffset)
  else do
    let base ← part
    pure (base.addOffset k)

/-- One layer of a level: a header and the parts that it asks for, each of them
read by `part`. -/
def layer (part : Decoder Level) : Decoder Level := do
  let tag ← Header.get
  match tag.flag with
  | 0 => pure .zero
  | 1 => chain tag.size part
  | 2 => both .max part
  | 3 => both .imax part
  | 4 => do
    let name ← Name.get
    pure (.param name)
  | flag => throw (.badFlag flag .level)

/-- Reads a level layer by layer from at most `n` bytes. Each layer takes a byte, so
when the bytes are used up there is none for the next header. -/
def parseWithin : Nat → Decoder Level
  | 0 => throw (.unexpectedEnd .tag)
  | n + 1 => layer (parseWithin n)

/-- Reads a level by recursive descent. -/
def parse : Decoder Level := fun input =>
  parseWithin input.length input

variable {n : Nat} {part part' : Decoder Level}

/-- A chain of successors gives back no more bytes than the reader of its end does. -/
theorem shrinks_chain (h : Shrinks part) (k : Nat) : Shrinks (chain k part) := by
  unfold chain
  split
  · exact shrinks_throw _
  · exact h.bind fun _ => shrinks_pure _

/-- A layer takes its header, so the parts are read from a shorter input. -/
theorem consumes_layer (h : Shrinks part) : Consumes (layer part) := by
  refine Header.consumes_get.bind fun tag => ?_
  split
  · exact shrinks_pure _
  · exact shrinks_chain h _
  · exact h.both _
  · exact h.both _
  · exact Name.consumes_get.shrinks.bind fun _ => shrinks_pure _
  · exact shrinks_throw _

/-- However deep it may go, the reader gives back no more bytes than it was given. -/
theorem shrinks_parseWithin (n : Nat) : Shrinks (parseWithin n) := by
  induction n with
  | zero => exact shrinks_throw _
  | succ n ih => exact (consumes_layer ih).shrinks

theorem shrinks_parse : Shrinks parse :=
  fun _ _ _ eq => shrinks_parseWithin _ eq

theorem agree_chain (hShrinks : Shrinks part) (h : Agree n part part') (k : Nat) :
    Agree n (chain k part) (chain k part') := by
  unfold chain
  split
  · exact .refl _
  · exact .bind hShrinks h fun _ => .refl _

/-- A layer reads its parts from what its header leaves. -/
theorem agree_layer (hShrinks : Shrinks part) (h : Agree n part part') :
    Agree (n + 1) (layer part) (layer part') := by
  refine .bind_consumes Header.consumes_get fun tag => ?_
  split
  · exact .refl _
  · exact agree_chain hShrinks h _
  · exact .both hShrinks h _
  · exact .both hShrinks h _
  · exact .refl _
  · exact .refl _

/-- Every number that is no less than the number of bytes will do. -/
theorem agree_parseWithin {m : Nat} (h : n ≤ m) : Agree n (parseWithin n) (parseWithin m) := by
  induction n generalizing m with
  | zero =>
    refine .of_nil ?_
    cases m <;> rfl
  | succ n ih =>
    obtain ⟨m, rfl⟩ : ∃ k, m = k + 1 := ⟨m - 1, by omega⟩
    exact agree_layer (shrinks_parseWithin n) (ih (by omega))

/-- With as many levels as there are bytes the bounded reader does what the reader does: no level
goes without a byte. -/
theorem agree_parse (n : Nat) : Agree n (parseWithin n) parse :=
  fun _ hInput => (agree_parseWithin hInput (Nat.le_refl _)).symm

/-- **The reader calls itself for the parts.** -/
theorem parse_eq : parse = layer parse := by
  funext input
  have hSelf := agree_layer (shrinks_parseWithin _) (agree_parse input.length)
  exact (agree_parse (input.length + 1) (Nat.le_succ _)).symm.trans (hSelf (Nat.le_succ _))

/-- **To read a level is to call the reader**, by induction on the bytes that are
left. -/
theorem agree_finish_read (n : Nat) (tasks : List Task) (built : List Level) :
    Agree n (machine.finish ⟨.read :: tasks, built⟩)
      (parse >>= fun l => machine.finish ⟨tasks, l :: built⟩) := by
  induction n generalizing tasks built with
  | zero =>
    refine .of_nil ?_
    rw [finish_cons]
    rfl
  | succ n ih =>
    rw [finish_cons, parse_eq]
    change Agree (n + 1) ((Header.get >>= fun tag => Task.start tag tasks built) >>= _) _
    unfold layer
    rw [bind_assoc, bind_assoc]
    refine .bind_consumes Header.consumes_get fun tag => ?_
    -- after a header the parts are read from fewer bytes
    have hJoin (join : Task) (f : Level → Level → Level)
        (hStep : ∀ a b, Task.step join tasks (b :: a :: built) = pure ⟨tasks, f a b :: built⟩) :
        Agree n (machine.finish ⟨.read :: .read :: join :: tasks, built⟩)
          (both f parse >>= fun l => machine.finish ⟨tasks, l :: built⟩) := by
      refine (ih _ _).trans ?_
      unfold both
      simp only [bind_assoc, pure_bind]
      refine .bind shrinks_parse (.refl _) fun a => (ih _ _).trans ?_
      refine .bind shrinks_parse (.refl _) fun b => ?_
      rw [finish_of_step (hStep a b)]
      exact .refl _
    obtain ⟨flag, size⟩ := tag
    rcases flag with _ | _ | _ | _ | _ | flag
    · exact .refl _
    · change Agree n ((if maxOffset < size then _ else _) >>= _) (chain size parse >>= _)
      unfold chain
      split
      · exact .refl _
      · rw [pure_bind, bind_assoc]
        refine (ih _ _).trans (.bind shrinks_parse (.refl _) fun base => ?_)
        rw [finish_of_step rfl]
        exact .refl _
    · exact hJoin .max .max fun _ _ => rfl
    · exact hJoin .imax .imax fun _ _ => rfl
    · change Agree n ((Name.get >>= _) >>= _) ((Name.get >>= _) >>= _)
      rw [bind_assoc, bind_assoc]
      exact .refl _
    · exact .refl _

/-- **The level machine reads by the grammar.** -/
theorem get_eq_parse : Level.get = parse := by
  funext input
  have h := agree_finish_read input.length [] [] (Nat.le_refl _)
  simp only [finish_single, bind_pure] at h
  exact h

end Level

/-! ## Terms -/

namespace Term

/-- A binding form: its name, its type and its body. -/
def binding (k : Binder) (part : Decoder Term) : Decoder Term := do
  let name ← Name.get
  both (.bind k name) part

/-- A head and its `n` arguments. -/
def applied (n : Nat) (part : Decoder Term) : Decoder Term := do
  let f ← part
  let args ← part.times n
  pure (f.apps args)

/-- Reads a term at some depth by recursive descent. Its parts lie one level deeper,
those of a spine as many levels as it has arguments. -/
def parse (depth : Nat) : Decoder Term :=
  if _ : maxDepth < depth then throw (.malformed .termDepth)
  else do
    let tag ← Header.get
    match tag.flag with
    | 0 =>
      if maxIndex < tag.size then throw (.malformed .termIndex)
      else pure (.bvar tag.size)
    | 1 => do
      let name ← Name.get
      pure (.fvar name)
    | 2 => do
      let level ← Level.parse
      pure (.sort level)
    | 3 => do
      let name ← Name.get
      let levels ← Level.parse.times tag.size
      pure (.const name levels)
    | 4 =>
      if _ : tag.size = 0 then throw (.malformed .termArity)
      else do
        atLeast tag.size .termArity
        if maxDepth < depth + tag.size then throw (.malformed .termDepth)
        else applied tag.size (parse (depth + tag.size))
    | 5 => binding .lam (parse (depth + 1))
    | 6 => binding .pi (parse (depth + 1))
    | 7 => do
      let name ← Name.get
      let t ← parse (depth + 1)
      both (.letE name t) (parse (depth + 1))
    | 8 => binding .sigma (parse (depth + 1))
    | 9 => both .pair (parse (depth + 1))
    | 10 => do
      let p ← parse (depth + 1)
      pure (.proj .fst p)
    | 11 => do
      let p ← parse (depth + 1)
      pure (.proj .snd p)
    | flag => throw (.badFlag flag .term)
termination_by maxDepth + 1 - depth

variable {depth n : Nat} {tasks : List Task} {built : List Term} {part : Decoder Term}

/-- `part` does what the machine does with a term that is to be read at `depth`. -/
def ReadsAt (depth : Nat) (part : Decoder Term) : Prop :=
  ∀ tasks built, machine.finish ⟨.read depth :: tasks, built⟩ =
    part >>= fun e => machine.finish ⟨tasks, e :: built⟩

/-- Two parts are read and joined, perhaps with a part that was built before. -/
theorem finish_both (h : ReadsAt depth part) (join : Task) {left : List Term}
    (f : Term → Term → Term)
    (hStep : ∀ a b, Task.step join tasks (b :: a :: built) = pure ⟨tasks, f a b :: left⟩) :
    machine.finish ⟨.read depth :: .read depth :: join :: tasks, built⟩ =
      both f part >>= fun e => machine.finish ⟨tasks, e :: left⟩ := by
  have hJoin (a b : Term) : machine.finish ⟨join :: tasks, b :: a :: built⟩ =
      machine.finish ⟨tasks, f a b :: left⟩ := finish_of_step (hStep a b)
  simp only [h _ _, both, bind_assoc, pure_bind, hJoin]

/-- **Arguments are read and applied one by one.** -/
theorem finish_arguments (h : ReadsAt depth part) (f : Term) :
    machine.finish ⟨Task.argumentTasks depth n ++ tasks, f :: built⟩ =
      part.times n >>= fun args => machine.finish ⟨tasks, f.apps args :: built⟩ := by
  induction n generalizing f with
  | zero => rfl
  | succ n ih =>
    have hApp (a : Term) : machine.finish ⟨.app :: (Task.argumentTasks depth n ++ tasks),
        a :: f :: built⟩ = machine.finish ⟨Task.argumentTasks depth n ++ tasks,
        .app f a :: built⟩ := finish_of_step rfl
    simp only [Task.argumentTasks, List.cons_append, h _ _, times, bind_assoc, pure_bind, hApp, ih,
      apps_cons]

/-- A spine is read if it has arguments, if there may be bytes for them and if they
do not lie too deep. -/
theorem finish_startSpine (h : n ≠ 0 → ¬maxDepth < depth + n → ReadsAt (depth + n) part) :
    Task.startSpine n depth tasks built >>= machine.finish =
      (if _ : n = 0 then throw (.malformed .termArity)
        else do
          atLeast n .termArity
          if maxDepth < depth + n then throw (.malformed .termDepth)
          else applied n part) >>= fun e => machine.finish ⟨tasks, e :: built⟩ := by
  funext input
  unfold Task.startSpine
  rw [bind_assoc]
  change ((if n = 0 ∨ !Bytes.holds n input then _ else _) >>= machine.finish) input = _
  by_cases hZero : n = 0
  · rw [if_pos (.inl hZero), dif_pos hZero]
    rfl
  · rw [dif_neg hZero, bind_assoc, atLeast_bind]
    by_cases hLength : n ≤ input.length
    · rw [if_neg (by simp [hZero, hLength]), if_pos hLength]
      split
      · rfl
      · rename_i hDepth
        have hPart := h hZero hDepth
        rw [pure_bind, List.cons_append, hPart]
        simp only [applied, bind_assoc, pure_bind, finish_arguments hPart]
    · have hHolds : ¬Bytes.holds n input := by rwa [Bytes.holds_iff]
      rw [if_pos (.inr (by simp [hHolds])), if_neg hLength]
      rfl

/-- **To read a term is to call the reader**, from the deepest terms outwards. -/
theorem readsAt_parse (depth : Nat) : ReadsAt depth (parse depth) := by
  induction depth using parse.induct with
  | case1 depth hDepth =>
    intro tasks built
    rw [finish_cons, parse, dif_pos hDepth]
    change (if maxDepth < depth then _ else _) >>= _ = _
    rw [if_pos hDepth]
    rfl
  | case2 depth hDepth ihSpine ih =>
    intro tasks built
    rw [finish_cons, parse, dif_neg hDepth]
    change (if maxDepth < depth then _ else _) >>= _ = _
    rw [if_neg hDepth, bind_assoc, bind_assoc]
    refine bind_congr fun tag => ?_
    have hBinding (k : Binder) : Task.startBind k depth tasks built >>= machine.finish =
        binding k (parse (depth + 1)) >>= fun e => machine.finish ⟨tasks, e :: built⟩ := by
      unfold Task.startBind binding
      rw [bind_assoc, bind_assoc]
      refine bind_congr fun name => ?_
      exact finish_both ih (.bind k name) (.bind k name) fun _ _ => rfl
    have hProj (k : Side) : machine.finish ⟨.read (depth + 1) :: .proj k :: tasks, built⟩ =
        (parse (depth + 1) >>= fun p => pure (.proj k p)) >>= fun e =>
          machine.finish ⟨tasks, e :: built⟩ := by
      rw [ih, bind_assoc]
      refine bind_congr fun p => ?_
      exact finish_of_step rfl
    have hSpine := ihSpine tag
    obtain ⟨flag, size⟩ := tag
    rcases flag with _ | _ | _ | _ | _ | _ | _ | _ | _ | _ | _ | _ | flag
    · change (if maxIndex < size then _ else _) >>= _ = (if maxIndex < size then _ else _) >>= _
      split
      · rfl
      · rfl
    · change (Name.get >>= _) >>= _ = (Name.get >>= _) >>= _
      rw [bind_assoc, bind_assoc]
      rfl
    · change (Level.get >>= _) >>= _ = (Level.parse >>= _) >>= _
      rw [Level.get_eq_parse, bind_assoc, bind_assoc]
      rfl
    · change (Name.get >>= fun name => Level.get.times size >>= _) >>= _ =
        (Name.get >>= fun name => Level.parse.times size >>= _) >>= _
      rw [Level.get_eq_parse]
      simp only [bind_assoc, pure_bind]
    · exact finish_startSpine hSpine
    · exact hBinding .lam
    · exact hBinding .pi
    · change (Name.get >>= _) >>= _ = (Name.get >>= _) >>= _
      rw [bind_assoc, bind_assoc]
      refine bind_congr fun name => ?_
      rw [pure_bind, ih, bind_assoc]
      refine bind_congr fun t => ?_
      exact finish_both ih (.letE name) (.letE name t) fun _ _ => rfl
    · exact hBinding .sigma
    · exact finish_both ih .pair .pair fun _ _ => rfl
    · exact hProj .fst
    · exact hProj .snd
    · rfl

/-- **The term machine reads by the grammar.** -/
theorem get_eq_parse : Term.get = parse 0 := by
  have h := readsAt_parse 0 [] []
  simp only [finish_single, bind_pure] at h
  exact h

end Term

end TypeTheory
