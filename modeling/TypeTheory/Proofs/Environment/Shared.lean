import Mathlib.Data.List.Sort
import TypeTheory.Environment.Shared
import TypeTheory.Proofs.Environment.Distinct

/-!
# A shared environment is a plain one

A shared environment keeps no order: it is a table, walked in an order of its own,
and the order of the insertions is read back from the numbers given out. What it
stands for is a list of declarations: the entry of a name is the declaration of
that name in the list together with its position there
(`SharedEnvironment.Lists`). An insertion into the table and one into the plain
environment of that list are accepted or refused together and lead to a pair that
belongs together again (`SharedEnvironment.Lists.insert_cases`), so the two cannot be
told apart by any sequence of calls, and sorting the entries, in whatever order they
were walked, gives the list back (`SharedEnvironment.Lists.listed_eq`).
-/

namespace TypeTheory

open EStateM

/-! ## Calls that take effect one after the other -/

namespace Calls

variable {σ : Type} (insert : Declaration → EStateM KernelError σ Unit)

/-- The store that a call leaves behind, whether it is accepted or refused. -/
def after (s : σ) (d : Declaration) : σ :=
  (insert d).leaves s

/-- The store after all calls of a list, in their order. -/
def afterAll (s : σ) (calls : List Declaration) : σ :=
  calls.foldl (after insert) s

/-- What the callers are told: that their declaration was taken, or why it was not. -/
def replies (s : σ) : List Declaration → List (Except KernelError Unit)
  | [] => []
  | d :: rest => ((insert d).final s).map (fun _ => ()) :: replies (after insert s d) rest

/-- The call number `i` asks for `d` and is accepted. -/
def AcceptedAt (s : σ) (calls : List Declaration) (i : Nat) (d : Declaration) : Prop :=
  calls[i]? = some d ∧ (replies insert s calls)[i]? = some (.ok ())

variable {insert} {s s' : σ} {d : Declaration} {calls : List Declaration} {i k : Nat}

theorem after_of_ok (h : (insert d).final s = .ok s') : after insert s d = s' :=
  leaves_of_final h

/-- A refused call leaves what it was made on as it was, if the insertion is atomic. -/
theorem after_of_error {e : KernelError} (hinsert : (insert d).Atomic)
    (h : (insert d).final s = .error e) : after insert s d = s :=
  hinsert.leaves_eq h

/-- A call is answered by the store that the calls before it left. -/
theorem getElem?_replies : (replies insert s calls)[i]? = calls[i]?.map fun d =>
    ((insert d).final (afterAll insert s (calls.take i))).map fun _ => () := by
  induction calls generalizing s i with
  | nil => rfl
  | cons d rest ih =>
    cases i with
    | zero => rfl
    | succ i => exact ih

/-- A call is accepted if it is in the sequence and its insertion succeeds after the calls before
it. -/
theorem acceptedAt_iff : AcceptedAt insert s calls i d ↔
    calls[i]? = some d ∧ ∃ s', (insert d).final (afterAll insert s (calls.take i)) = .ok s' := by
  rw [AcceptedAt, getElem?_replies]
  refine and_congr_right fun hd => ?_
  rw [hd, Option.map_some, Option.some_inj]
  cases (insert d).final (afterAll insert s (calls.take i)) with
  | ok s' => exact ⟨fun _ => ⟨s', rfl⟩, fun _ => rfl⟩
  | error e => simp [Except.map]

theorem afterAll_append (s : σ) (calls more : List Declaration) :
    afterAll insert s (calls ++ more) = afterAll insert (afterAll insert s calls) more :=
  List.foldl_append

/-- The store after an accepted call is what that call returned. -/
theorem afterAll_take_succ (hd : calls[i]? = some d)
    (hinsert : (insert d).final (afterAll insert s (calls.take i)) = .ok s') :
    afterAll insert s (calls.take (i + 1)) = s' := by
  rw [List.take_add_one, hd, afterAll_append]
  exact after_of_ok hinsert

/-- Later calls start from the store that earlier ones left. -/
theorem afterAll_take_of_le (s : σ) (calls : List Declaration) (hik : i ≤ k) : ∃ more,
    afterAll insert s (calls.take k) = afterAll insert (afterAll insert s (calls.take i)) more := by
  obtain ⟨more, hmore⟩ := List.take_prefix_take_left (l := calls) hik
  exact ⟨more, by rw [← hmore, afterAll_append]⟩

end Calls

open Calls

/-! ## Calls on a plain environment -/

namespace Environment

variable {env : Environment} {d d' : Declaration} {calls : List Declaration} {i j k : Nat}

theorem extends_after (env : Environment) (d : Declaration) :
    env.Extends (after insertM env d) := by
  cases hinsert : env.insert d with
  | ok env' =>
    rw [after_of_ok hinsert]
    exact extends_of_insert hinsert
  | error e =>
    rw [after_of_error (atomic_insertM d) hinsert]
    exact .refl env

theorem extends_afterAll (env : Environment) (calls : List Declaration) :
    env.Extends (afterAll insertM env calls) := by
  induction calls generalizing env with
  | nil => exact .refl env
  | cons d rest ih => exact (extends_after env d).trans (ih _)

/-- What an accepted call added stays. -/
theorem mem_of_acceptedAt (h : AcceptedAt insertM env calls i d) (hik : i < k) :
    d ∈ (afterAll insertM env (calls.take k)).toList := by
  obtain ⟨hd, env', hinsert⟩ := acceptedAt_iff.mp h
  obtain ⟨more, hmore⟩ := afterAll_take_of_le env calls (Nat.succ_le_of_lt hik)
  rw [hmore, afterAll_take_succ hd hinsert]
  refine (extends_afterAll env' more).subset ?_
  rw [toList_of_insert hinsert]
  exact List.mem_append_right _ (List.mem_singleton_self d)

/-- A call is accepted only if no earlier one brought its name. -/
theorem le_of_acceptedAt (hi : AcceptedAt insertM env calls i d)
    (hj : AcceptedAt insertM env calls j d') (hname : d.name = d'.name) : j ≤ i := by
  by_contra hlt
  obtain ⟨-, env', hinsert⟩ := acceptedAt_iff.mp hj
  -- what the earlier call added is there when the later one comes
  refine not_contains_of_insert hinsert (List.mem_map.mpr ⟨d, ?_, hname⟩)
  exact mem_of_acceptedAt hi (Nat.lt_of_not_le hlt)

end Environment

/-! ## The list behind the table -/

/-- The declarations of some entries, by increasing number. -/
def Numbered.listed (walk : List Numbered) : List Declaration :=
  (walk.mergeSort fun a b => a.number ≤ b.number).map (·.decl)

/-- The declarations of a list with their positions. -/
def Numbered.ofList (ds : List Declaration) : List Numbered :=
  ds.mapIdx fun i d => ⟨i, d⟩

namespace Numbered

variable {ds : List Declaration} {e : Numbered}

/-- An entry is in the numbered list if its declaration stands at the place that its number says. -/
theorem mem_ofList : e ∈ ofList ds ↔ ds[e.number]? = some e.decl := by
  rw [List.mem_iff_getElem?]
  simp only [ofList, List.getElem?_mapIdx, Option.map_eq_some_iff]
  constructor
  · rintro ⟨i, d, hd, rfl⟩
    exact hd
  · exact fun h => ⟨e.number, e.decl, h, rfl⟩

theorem map_decl_ofList (ds : List Declaration) : (ofList ds).map (·.decl) = ds := by
  refine List.ext_getElem? fun i => ?_
  rw [List.getElem?_map, ofList, List.getElem?_mapIdx, Option.map_map]
  exact Option.map_id'

theorem pairwise_number_ofList (ds : List Declaration) :
    (ofList ds).Pairwise fun a b => a.number < b.number := by
  rw [List.pairwise_iff_getElem]
  intro i j hi hj hij
  simpa [ofList] using hij

theorem nodup_ofList (ds : List Declaration) : (ofList ds).Nodup :=
  (pairwise_number_ofList ds).imp fun hlt heq => by simp [heq] at hlt

theorem eq_of_number_eq {e' : Numbered} (he : e ∈ ofList ds) (he' : e' ∈ ofList ds)
    (h : e.number = e'.number) : e = e' := by
  have hdecl := mem_ofList.mp he
  rw [h, mem_ofList.mp he', Option.some_inj] at hdecl
  cases e
  cases e'
  simp_all

/-- Sorting by number leaves the numbers in order, whatever order the entries were walked in. -/
theorem pairwise_number_mergeSort (walk : List Numbered) :
    (walk.mergeSort fun a b => a.number ≤ b.number).Pairwise fun a b => a.number ≤ b.number := by
  have hsorted := @List.pairwise_mergeSort _ (fun a b : Numbered => a.number ≤ b.number)
    (by simp only [decide_eq_true_eq]; omega) (by simp; omega) walk
  simpa only [decide_eq_true_eq] using hsorted

/-- Entries that are numbered by a list are sorted into it. -/
theorem listed_of_perm {walk : List Numbered} (h : walk.Perm (ofList ds)) : listed walk = ds := by
  have hperm : (walk.mergeSort fun a b => a.number ≤ b.number).Perm (ofList ds) :=
    (List.mergeSort_perm walk _).trans h
  have hsorted := pairwise_number_mergeSort walk
  have hnumbered := (pairwise_number_ofList ds).imp Nat.le_of_lt
  have heq := hperm.eq_of_pairwise (fun a b ha hb hab hba =>
    eq_of_number_eq (hperm.subset ha) hb (Nat.le_antisymm hab hba)) hsorted hnumbered
  rw [listed, heq, map_decl_ofList]

end Numbered

namespace SharedEnvironment

variable {s s' : SharedEnvironment} {env : Environment} {ds : List Declaration}
variable {d : Declaration} {x : Name}

/-- The shared environment stands for a list of declarations with distinct names: the
table holds each under its name with its position, and the next number is the next
position. -/
structure Lists (s : SharedEnvironment) (ds : List Declaration) : Prop where
  getElem?_table : ∀ {x : Name} {e : Numbered},
    s.table[x]? = some e ↔ ds[e.number]? = some e.decl ∧ e.decl.name = x
  next : s.next = ds.length
  distinct : (ds.map (·.name)).Nodup

theorem lists_empty : empty.Lists [] where
  getElem?_table := by simp [empty]
  next := rfl
  distinct := List.nodup_nil

/-- The table holds a name just if a declaration of the list has it. -/
theorem Lists.contains_iff (h : s.Lists ds) :
    s.table.contains x = true ↔ x ∈ ds.map (·.name) := by
  rw [Std.HashMap.contains_eq_isSome_getElem?, Option.isSome_iff_exists, List.mem_map]
  constructor
  · rintro ⟨e, he⟩
    obtain ⟨hd, hname⟩ := h.getElem?_table.mp he
    exact ⟨e.decl, List.mem_of_getElem? hd, hname⟩
  · rintro ⟨d, hd, hname⟩
    obtain ⟨i, hi⟩ := List.mem_iff_getElem?.mp hd
    exact ⟨⟨i, d⟩, h.getElem?_table.mpr ⟨hi, hname⟩⟩

/-- What the table gives for a name is the declaration of the list that has the name. -/
theorem Lists.get?_eq_some_iff (h : s.Lists ds) : s.get? x = some d ↔ d ∈ ds ∧ d.name = x := by
  rw [get?, Option.map_eq_some_iff]
  constructor
  · rintro ⟨e, he, rfl⟩
    obtain ⟨hd, hname⟩ := h.getElem?_table.mp he
    exact ⟨List.mem_of_getElem? hd, hname⟩
  · rintro ⟨hd, hname⟩
    obtain ⟨i, hi⟩ := List.mem_iff_getElem?.mp hd
    exact ⟨⟨i, d⟩, h.getElem?_table.mpr ⟨hi, hname⟩, rfl⟩

/-- A list with one more declaration has the old positions and one more. -/
theorem getElem?_concat_eq_some_iff {i : Nat} {d' : Declaration} :
    (ds ++ [d])[i]? = some d' ↔ ds[i]? = some d' ∨ i = ds.length ∧ d' = d := by
  grind

/-- **One step.** A declaration of a new name goes to the end of the list. -/
theorem Lists.put (h : s.Lists ds) (hd : d.name ∉ ds.map (·.name)) :
    (s.put d).Lists (ds ++ [d]) where
  getElem?_table := by
    intro x e
    rw [SharedEnvironment.put, Std.HashMap.getElem?_insert, h.next, getElem?_concat_eq_some_iff]
    by_cases hx : d.name = x
    · rw [if_pos (beq_iff_eq.mpr hx), Option.some_inj]
      constructor
      · rintro rfl
        exact ⟨.inr ⟨rfl, rfl⟩, hx⟩
      · rintro ⟨hold | ⟨hnumber, hdecl⟩, hname⟩
        · -- an older declaration does not have the new name
          rw [hx, ← hname] at hd
          exact absurd (List.mem_map_of_mem (List.mem_of_getElem? hold)) hd
        · rw [← hnumber, ← hdecl]
    · rw [if_neg (fun hbeq => hx (beq_iff_eq.mp hbeq)), h.getElem?_table]
      constructor
      · exact fun ⟨hold, hname⟩ => ⟨.inl hold, hname⟩
      · rintro ⟨hold | ⟨-, hdecl⟩, hname⟩
        · exact ⟨hold, hname⟩
        · exact absurd (hdecl ▸ hname) hx
  next := by
    rw [List.length_append, ← h.next]
    rfl
  distinct := by
    rw [List.map_append]
    exact List.Nodup.append h.distinct (List.nodup_singleton _) (List.disjoint_singleton.mpr hd)

/-- Putting declarations with new names one after the other puts them behind the list in their
order. -/
theorem Lists.foldl_put {more : List Declaration} (h : s.Lists ds)
    (hmore : ((ds ++ more).map (·.name)).Nodup) :
    (more.foldl SharedEnvironment.put s).Lists (ds ++ more) := by
  induction more generalizing s ds with
  | nil => simpa using h
  | cons d rest ih =>
    rw [List.append_cons] at hmore ⊢
    refine ih (h.put fun hd => ?_) hmore
    rw [List.map_append, List.map_append, List.append_assoc] at hmore
    exact (List.nodup_append.mp hmore).2.2 _ hd _ (by simp) rfl

/-- A plain environment is copied into a table that stands for it. -/
theorem lists_ofEnvironment (h : env.Distinct) : (ofEnvironment env).Lists env.toList :=
  lists_empty.foldl_put h

/-! ## The two environments side by side -/

/-- **One call.** The table and the plain environment take the declaration, or both
refuse it because of its name. -/
theorem Lists.insert_cases (h : s.Lists env.toList) (d : Declaration) :
    (∃ s' env', s.insert d = .ok s' ∧ env.insert d = .ok env' ∧ s'.Lists env'.toList) ∨
      s.insert d = .error (.duplicateName d.name) ∧
        env.insert d = .error (.duplicateName d.name) := by
  rw [SharedEnvironment.insert_eq, Environment.insert_eq]
  by_cases hd : d.name ∈ env.toList.map (·.name)
  · rw [if_pos (h.contains_iff.mpr hd), if_pos (Environment.contains_iff.mpr hd)]
    exact .inr ⟨rfl, rfl⟩
  · rw [if_neg (fun hs => hd (h.contains_iff.mp hs)),
      if_neg (fun henv => hd (Environment.contains_iff.mp henv))]
    refine .inl ⟨_, _, rfl, rfl, ?_⟩
    simpa [Environment.toList] using h.put hd

theorem atomic_insertM (d : Declaration) : (insertM d).Atomic :=
  readOnly_get.bind fun _ => (readOnly_require _ _).bind fun _ => atomic_modify _

/-- A call leads from a pair that belongs together to one that does, also where it is refused. -/
theorem Lists.after (h : s.Lists env.toList) (d : Declaration) :
    (after insertM s d).Lists (after Environment.insertM env d).toList := by
  obtain ⟨s', env', hs, henv, h'⟩ | ⟨hs, henv⟩ := h.insert_cases d
  · rwa [after_of_ok hs, after_of_ok henv]
  · rwa [after_of_error (atomic_insertM d) hs,
      after_of_error (Environment.atomic_insertM d) henv]

/-- A call is answered alike by both: it is accepted, or it is refused with the same error. -/
theorem Lists.reply (h : s.Lists env.toList) (d : Declaration) :
    (s.insert d).map (fun _ => ()) = (env.insert d).map fun _ => () := by
  obtain ⟨s', env', hs, henv, -⟩ | ⟨hs, henv⟩ := h.insert_cases d
  · rw [hs, henv]
    rfl
  · rw [hs, henv]
    rfl

/-- **All calls.** -/
theorem Lists.afterAll (h : s.Lists env.toList) (calls : List Declaration) :
    (afterAll insertM s calls).Lists (afterAll Environment.insertM env calls).toList := by
  induction calls generalizing s env with
  | nil => exact h
  | cons d rest ih => exact ih (h.after d)

theorem Lists.replies (h : s.Lists env.toList) (calls : List Declaration) :
    replies insertM s calls = replies Environment.insertM env calls := by
  induction calls generalizing s env with
  | nil => rfl
  | cons d rest ih => exact congrArg₂ List.cons (h.reply d) (ih (h.after d))

theorem Lists.acceptedAt_iff (h : s.Lists env.toList) {calls : List Declaration} {i : Nat} :
    AcceptedAt insertM s calls i d ↔ AcceptedAt Environment.insertM env calls i d := by
  rw [AcceptedAt, AcceptedAt, h.replies]

/-- What is found under a name is the declaration that the plain environment has. -/
theorem Lists.get?_eq (h : s.Lists env.toList) (x : Name) : s.get? x = env.get? x := by
  refine Option.ext fun d => ?_
  rw [h.get?_eq_some_iff, Environment.get?_eq_some_iff h.distinct]

theorem Lists.mem_toList_iff (h : s.Lists ds) {e : Numbered} :
    (x, e) ∈ s.table.toList ↔ e ∈ Numbered.ofList ds ∧ e.decl.name = x := by
  rw [Std.HashMap.mem_toList_iff_getElem?_eq_some, h.getElem?_table, Numbered.mem_ofList]

theorem Lists.nodup_entries (h : s.Lists ds) : (s.table.toList.map (·.2)).Nodup := by
  rw [List.Nodup, List.pairwise_map]
  refine Std.HashMap.distinct_keys_toList.imp_of_mem fun {a b} ha hb hkeys heq => ?_
  -- an entry says under which name it is kept
  have hname : a.1 = b.1 := by
    rw [← (h.mem_toList_iff.mp ha).2, ← (h.mem_toList_iff.mp hb).2, heq]
  simp [hname] at hkeys

/-- The entries of the table are the declarations of the list with their positions. -/
theorem Lists.perm_ofList (h : s.Lists ds) :
    (s.table.toList.map (·.2)).Perm (Numbered.ofList ds) := by
  refine (List.perm_ext_iff_of_nodup h.nodup_entries (Numbered.nodup_ofList ds)).mpr fun e => ?_
  rw [List.mem_map]
  constructor
  · rintro ⟨⟨x, e⟩, he, rfl⟩
    exact (h.mem_toList_iff.mp he).1
  · exact fun he => ⟨(e.decl.name, e), h.mem_toList_iff.mpr ⟨he, rfl⟩, rfl⟩

/-- **The order of the walk does not matter.** -/
theorem Lists.listed_eq (h : s.Lists ds) {walk : List Numbered}
    (hwalk : walk.Perm (s.table.toList.map (·.2))) : Numbered.listed walk = ds :=
  Numbered.listed_of_perm (hwalk.trans h.perm_ofList)

/-- A snapshot of the table is the plain environment, with the order of the insertions back in
place. -/
theorem Lists.snapshot_eq (h : s.Lists env.toList) : s.snapshot = env := by
  have hlisted : s.entries.map (·.decl) = env.toList := h.listed_eq (.refl _)
  rw [snapshot, hlisted]
  rfl

/-- **A shared environment refines a plain one.** Copy an environment, and let calls take
effect one after the other, in any order. Each is accepted or refused as the plain
environment would, with the same error. Of the calls that bring one name at most one is
accepted, and from then on its declaration is what is found under the name. Snapshots are
the plain environment, declarations and order, however the table is walked. -/
theorem refines_plain (henv : env.Distinct) (calls : List Declaration) :
    replies insertM (ofEnvironment env) calls = replies Environment.insertM env calls ∧
    (∀ i j d d', AcceptedAt insertM (ofEnvironment env) calls i d →
      AcceptedAt insertM (ofEnvironment env) calls j d' → d.name = d'.name → i = j) ∧
    (∀ i d, AcceptedAt insertM (ofEnvironment env) calls i d → ∀ k, i < k →
      (afterAll insertM (ofEnvironment env) (calls.take k)).get? d.name = some d) ∧
    (∀ x, (afterAll insertM (ofEnvironment env) calls).get? x =
      (afterAll Environment.insertM env calls).get? x) ∧
    (afterAll insertM (ofEnvironment env) calls).snapshot = afterAll Environment.insertM env calls ∧
    ∀ walk, walk.Perm ((afterAll insertM (ofEnvironment env) calls).table.toList.map (·.2)) →
      Numbered.listed walk = (afterAll Environment.insertM env calls).toList := by
  have hstart := lists_ofEnvironment henv
  have hend := hstart.afterAll calls
  refine ⟨hstart.replies calls, ?_, ?_, hend.get?_eq, hend.snapshot_eq,
    fun walk => hend.listed_eq⟩
  · intro i j d d' hi hj hname
    rw [hstart.acceptedAt_iff] at hi hj
    exact Nat.le_antisymm (Environment.le_of_acceptedAt hj hi hname.symm)
      (Environment.le_of_acceptedAt hi hj hname)
  · intro i d hi k hik
    rw [(hstart.afterAll _).get?_eq_some_iff]
    exact ⟨Environment.mem_of_acceptedAt (hstart.acceptedAt_iff.mp hi) hik, rfl⟩

/-- Two writers race for one name, and a third asks for a name that was there before. The
first of the two wins, and the snapshot has the winners in the order of their calls. -/
theorem refines_plain_race :
    let old : Declaration := ⟨.atom "old", [], .sort .zero, none⟩
    let first : Declaration := ⟨.atom "raced", [], .sort .zero, none⟩
    let second : Declaration := ⟨.atom "raced", [], .sort (.succ .zero), none⟩
    let late : Declaration := ⟨.atom "late", [], .sort .zero, none⟩
    let env : Environment := ⟨#[old]⟩
    let calls := [first, second, old, late]
    env.Distinct ∧
      replies insertM (ofEnvironment env) calls = [.ok (), .error (.duplicateName (.atom "raced")),
        .error (.duplicateName (.atom "old")), .ok ()] ∧
      (afterAll insertM (ofEnvironment env) calls).get? (.atom "raced") = some first ∧
      (afterAll insertM (ofEnvironment env) calls).snapshot = ⟨#[old, first, late]⟩ := by
  intro old first second late env calls
  have henv : env.Distinct := by decide
  have hplain : replies Environment.insertM env calls = [.ok (),
      .error (.duplicateName (.atom "raced")), .error (.duplicateName (.atom "old")), .ok ()] := by
    decide +kernel
  have hend : afterAll Environment.insertM env calls = ⟨#[old, first, late]⟩ := by
    decide +kernel
  obtain ⟨hreplies, -, hget, -, hsnapshot, -⟩ := refines_plain henv calls
  rw [hplain] at hreplies
  have hfirst : AcceptedAt insertM (ofEnvironment env) calls 0 first := by
    rw [AcceptedAt, hreplies]
    exact ⟨rfl, rfl⟩
  exact ⟨henv, hreplies, hget 0 first hfirst 4 (by decide), hsnapshot.trans hend⟩

end SharedEnvironment

end TypeTheory
