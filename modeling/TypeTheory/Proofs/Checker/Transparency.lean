import TypeTheory.Church
import TypeTheory.Proofs.Simulation.Memo

/-!
# Remembering makes no difference

A checker that remembers results answers every sequence of requests as one that
does not, and never spends more steps, for as long as the latter has steps left.
A request is one of the six questions that the kernel answers, with a context of
its own. It is asked of the state that the requests before it have left, also
where they have failed.

Each request keeps the correspondence `Checker.memoized` between the two runs, so
the sequence does, by induction.
-/

namespace TypeTheory

/-! ## Requests -/

/-- A question to the kernel. -/
inductive Request where
  | infer (e : Term) (Γ : Context)
  | check (e type : Term) (Γ : Context)
  | whnf (e : Term) (Γ : Context)
  | whnfCore (e : Term) (Γ : Context)
  | normalize (e : Term) (Γ : Context)
  | conv (x y : Term) (Γ : Context)
  deriving DecidableEq, Inhabited, Repr

/-- An answer of the kernel. -/
inductive Reply where
  /-- A type or a weak-head normal form. -/
  | found (e : Term)
  /-- A normal form, unless it is nested too deeply. -/
  | normal (e : Option Term)
  | accepted
  | equal (answer : Bool)
  deriving DecidableEq, Inhabited, Repr

/-- What has come of a request: the answer or the error, and the number of steps
spent so far. -/
structure Served where
  reply : Except KernelError Reply
  steps : Nat

/-- The same answer or the same error, and no more steps spent. -/
def Served.NoWorse (s t : Served) : Prop :=
  s.reply = t.reply ∧ s.steps ≤ t.steps

/-- Every declaration has a closed type, and a closed value if it has one. -/
def Environment.Closed (env : Environment) : Prop :=
  ∀ d ∈ env.toList, d.type.hasLoose = false ∧ ∀ v ∈ d.value, v.hasLoose = false

namespace Checker

/-- Answers one request. -/
def serve (c : Checker) : Request → CheckM Reply
  | .infer e Γ => return .found (← c.infer e Γ)
  | .check e type Γ => do
    c.check e type Γ
    return .accepted
  | .whnf e Γ => return .found (← c.whnf e Γ)
  | .whnfCore e Γ => return .found (← c.whnfCore e Γ)
  | .normalize e Γ => return .normal (← c.normalize e Γ)
  | .conv x y Γ => return .equal (← c.conv x y Γ)

/-- Answers requests one after the other, from the state that the requests before
have left. -/
def serveAll (c : Checker) : List Request → Progress → List Served
  | [], _ => []
  | request :: rest, p =>
    match c.serve request p with
    | .ok reply q => ⟨.ok reply, q.steps⟩ :: c.serveAll rest q
    | .error e q => ⟨.error e, q.steps⟩ :: c.serveAll rest q

variable {c c' : Checker}

/-- The declarations that are seen are among those of the environment, so they are closed if those
are. -/
theorem seesClosed_of_closed (h : c.env.Closed) : c.SeesClosed := by
  intro x d hd
  obtain ⟨i, -, hi⟩ := Option.bind_eq_some_iff.mp hd
  obtain ⟨htype, hvalue⟩ := h d (Array.mem_toList_iff.mpr (Array.mem_of_getElem? hi))
  exact ⟨Term.hasLoose_eq_false_iff.mp htype,
    fun v hv => Term.hasLoose_eq_false_iff.mp (hvalue v hv)⟩

/-! ## One request -/

/-- A request on the same terms keeps a correspondence of runs on the same terms. -/
theorem sim_serve {state : Progress → Progress → Prop} {lenient : Prop}
    (h : (sameTerms c c' state lenient).Lawful) (request : Request) (n n' : Nat) :
    (sameTerms c c' state lenient).Sim n n' Eq (c.serve request) (c'.serve request) := by
  have hΓ : ∀ Γ : Context, (sameTerms c c' state lenient).context () Γ Γ := fun _ => rfl
  have hterm : ∀ e : Term, (sameTerms c c' state lenient).term () e e := fun _ => rfl
  cases request with
  | infer e Γ =>
    exact ((h.simTyping e).infer (hΓ Γ) (hterm e)).bind fun _ _ ht => .pure (congrArg _ ht)
  | check e t Γ =>
    exact ((h.simTyping e).check (hΓ Γ) (hterm e) (hterm t)).bind fun _ _ _ => .pure rfl
  | whnf e Γ =>
    exact (h.sim_whnf (hΓ Γ) (hterm e)).bind fun _ _ hr => .pure (congrArg _ hr)
  | whnfCore e Γ =>
    exact (h.sim_whnfCore (hΓ Γ) (hterm e)).bind fun _ _ hr => .pure (congrArg _ hr)
  | normalize e Γ =>
    refine (h.sim_normalize (hΓ Γ) (hterm e)).bind fun r r' hr => .pure ?_
    cases hr with
    | none => rfl
    | some he => exact congrArg (fun e => Reply.normal (some e)) he
  | conv x y Γ =>
    exact (h.sim_conv (hΓ Γ) (hterm x) (hterm y)).bind fun _ _ hr => .pure (congrArg _ hr)

/-! ## Sequences of requests -/

/-- What corresponding runs make of the same requests, up to any point where the
left one still had steps. By induction on the requests: each leaves states that
correspond again. -/
theorem serveAll_of_memoized (h : (memoized c c').Lawful) (requests : List Request) (k : Nat)
    {p p' : Progress} (hp : (memoized c c').state p p')
    (hsteps : ∀ s ∈ (c.serveAll requests p).take k, s.reply ≠ .error (.exhausted c.limit)) :
    List.Forall₂ Served.NoWorse ((c'.serveAll requests p').take k)
      ((c.serveAll requests p).take k) := by
  induction requests generalizing p p' k with
  | nil =>
    simp only [serveAll, List.take_nil]
    exact .nil
  | cons request rest ih =>
    cases k with
    | zero => exact .nil
    | succ k =>
      have hout := Correspondence.Sim.outcome (sim_serve h request) hp
      unfold serveAll at hsteps ⊢
      cases hrun : c.serve request p with
      | ok reply q =>
        cases hrun' : c'.serve request p' with
        | ok reply' q' =>
          rw [hrun] at hsteps
          rw [hrun, hrun'] at hout
          obtain ⟨rfl, hq, -⟩ := hout
          rw [List.take_succ_cons, List.forall_mem_cons] at hsteps
          exact .cons ⟨rfl, hq.2.1⟩ (ih k hq hsteps.2)
        | error e' q' =>
          rw [hrun, hrun'] at hout
          exact hout.elim
      | error e q =>
        rw [hrun] at hsteps
        rw [List.take_succ_cons, List.forall_mem_cons] at hsteps
        -- the left run still has steps, so both fail with one error
        have hspent : ¬ (memoized c c').Spent e := fun hs => hsteps.1 (by rw [hs.2])
        cases hrun' : c'.serve request p' with
        | ok reply' q' =>
          rw [hrun, hrun'] at hout
          exact absurd hout hspent
        | error e' q' =>
          rw [hrun, hrun'] at hout
          obtain ⟨rfl, hq, -⟩ := hout.resolve_left hspent
          exact .cons ⟨rfl, hq.2.1⟩ (ih k hq hsteps.2)

/-- **Remembering results changes no answer and costs no step.** Over closed
declarations, as long as the checker that remembers nothing has steps left, each
request gets the same answer or the same error from both checkers, and the one
that remembers has spent no more steps. -/
theorem serveAll_memoize (c : Checker) (hclosed : c.env.Closed) (requests : List Request) (k : Nat)
    (hsteps : ∀ s ∈ ({ c with memoize := false }.serveAll requests {}).take k,
      s.reply ≠ .error (.exhausted c.limit)) :
    List.Forall₂ Served.NoWorse (({ c with memoize := true }.serveAll requests {}).take k)
      (({ c with memoize := false }.serveAll requests {}).take k) := by
  have hview : SameView { c with memoize := false } { c with memoize := true } :=
    ⟨fun _ => rfl, fun _ => rfl⟩
  have hlawful := lawful_memoized hview (Nat.le_refl _) rfl (seesClosed_of_closed hclosed)
  exact serveAll_of_memoized hlawful requests k
    ⟨Progress.blank_empty, Nat.le_refl _, .of_blank Progress.blank_empty⟩ hsteps

/-- One sum asked for four times, in two contexts. The last request fails, and the
checker that remembers has spent fewer steps by then. -/
theorem serveAll_memoize_two_add_one :
    let c : Checker := { env := ⟨Church.declarations.toArray⟩, visible := 4, limit := 1000 }
    let sum := (Term.const (Church.natName.str "add") []).apps [Church.numeral 2, Church.numeral 1]
    let requests : List Request :=
      [.whnf sum [], .infer sum [⟨.anonymous, Church.nat, none⟩],
        .conv sum (Church.numeral 3) [⟨.anonymous, Church.nat, none⟩], .check sum (.sort .zero) []]
    let plain := { c with memoize := false }.serveAll requests {}
    let memo := { c with memoize := true }.serveAll requests {}
    (plain.length = 4 ∧ ∀ s ∈ plain.take 4, s.reply ≠ .error (.exhausted c.limit)) ∧
      List.Forall₂ Served.NoWorse (memo.take 4) (plain.take 4) := by
  intro c sum requests plain memo
  have hclosed : c.env.Closed := by unfold Environment.Closed; decide +kernel
  have hsteps : ∀ s ∈ plain.take 4, s.reply ≠ .error (.exhausted c.limit) := by decide +kernel
  exact ⟨⟨by decide +kernel, hsteps⟩, serveAll_memoize c hclosed requests 4 hsteps⟩

end Checker

end TypeTheory
