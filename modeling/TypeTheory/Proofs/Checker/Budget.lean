import TypeTheory.Proofs.Checker.Transparency

/-!
# A larger budget changes no answer

The budget is read where a step is paid for, and nowhere else does a run look at
it: the bounds of the loops follow the steps that remain, and a loop that reaches
its bound fails as the payment would. So two runs from one state that differ in
their budgets go in step until the smaller budget is spent. This is the
correspondence `Checker.sameRuns` between checkers with one view, read as an
equation between whole results: value or error, counters and tables.
-/

namespace TypeTheory

/-- What the kernel is given to do: a request to answer, or a declaration to
check. -/
inductive Task where
  | request (r : Request)
  | declaration (d : Declaration)
  deriving DecidableEq, Inhabited, Repr

/-- Whether a run has failed for want of steps. -/
def CheckM.outOfSteps {α : Type} : EStateM.Result KernelError Progress α → Bool
  | .error (.exhausted _) _ => true
  | .error .. | .ok .. => false

namespace Checker

open CheckM

/-- Carries out one task. -/
def execute (c : Checker) : Task → CheckM Reply
  | .request r => c.serve r
  | .declaration d => do
    c.checkDeclaration d
    return .accepted

variable {c c' : Checker}

/-- **Runs in step have one result**, unless the left one is out of steps. -/
theorem eq_of_sameRuns {α : Type} {m m' : CheckM α} {p : Progress}
    (h : ∀ n n', (sameRuns c c').Sim n n' Eq m m') (hsteps : outOfSteps (m p) = false) :
    m' p = m p := by
  refine eq_of_sameTerms h fun e q hrun hspent => ?_
  rw [hrun, hspent.2] at hsteps
  cases hsteps

/-- Whatever the task, two checkers that correspond term for term run it in step, with equal replies
or errors. -/
theorem sim_execute {state : Progress → Progress → Prop} {lenient : Prop}
    (h : (sameTerms c c' state lenient).Lawful) (task : Task) (n n' : Nat) :
    (sameTerms c c' state lenient).Sim n n' Eq (c.execute task) (c'.execute task) := by
  cases task with
  | request r => exact sim_serve h r n n'
  | declaration d =>
    have hterm : ∀ e : Term, (sameTerms c c' state lenient).term () e e := fun _ => rfl
    have hdecl : (sameTerms c c' state lenient).Sim n n' Eq (c.checkDeclaration d)
        (c'.checkDeclaration d) :=
      h.sim_checkDeclaration (w := ()) (fun _ => rfl) rfl (hterm d.type) fun v _ => hterm v
    exact hdecl.bind fun _ _ _ => .pure rfl

/-- A checker and its copy with a larger budget run in step until the smaller budget is spent. -/
theorem lawful_withLimit {limit : Nat} (hlimit : c.limit ≤ limit) :
    (sameRuns c { c with limit }).Lawful :=
  lawful_sameRuns ⟨fun _ => rfl, fun _ => rfl⟩ hlimit rfl

/-- A task that does not run out of steps has the same whole result under any larger budget. -/
theorem execute_eq_of_le {limit : Nat} (hlimit : c.limit ≤ limit) {task : Task} {p : Progress}
    (hsteps : outOfSteps (c.execute task p) = false) :
    { c with limit }.execute task p = c.execute task p :=
  eq_of_sameRuns (sim_execute (lawful_withLimit hlimit) task) hsteps

/-- In particular an answer of conversion is kept, with the counters and the tables it leaves. -/
theorem conv_eq_of_le {limit : Nat} (hlimit : c.limit ≤ limit) {x y : Term} {Γ : Context}
    {p q : Progress} {equal : Bool} (h : c.conv x y Γ p = .ok equal q) :
    { c with limit }.conv x y Γ p = .ok equal q := by
  have hsim : ∀ n n', (sameRuns c { c with limit }).Sim n n' Eq (c.conv x y Γ)
      ({ c with limit }.conv x y Γ) :=
    fun _ _ => (lawful_withLimit hlimit).sim_conv (w := ()) rfl rfl rfl
  rw [← h]
  exact eq_of_sameRuns hsim (by rw [h]; rfl)

/-- **A larger budget changes no answer.** A task that has not failed for want of
steps ends with a larger budget exactly as it did: with the same answer or error,
the same counters and the same tables. And two verdicts of conversion from one
state are the same verdict, whatever the two budgets are. -/
theorem execute_withLimit (c : Checker) (limit : Nat) (p : Progress) :
    (∀ task, c.limit ≤ limit → outOfSteps (c.execute task p) = false →
      { c with limit }.execute task p = c.execute task p) ∧
    ∀ x y Γ equal equal' q q', c.conv x y Γ p = .ok equal q →
      { c with limit }.conv x y Γ p = .ok equal' q' → equal = equal' ∧ q = q' := by
  refine ⟨fun task hlimit hsteps => execute_eq_of_le hlimit hsteps, ?_⟩
  intro x y Γ equal equal' q q' h h'
  rcases Nat.le_total c.limit limit with hle | hle
  · rw [conv_eq_of_le hle h] at h'
    cases h'
    exact ⟨rfl, rfl⟩
  · have hback := conv_eq_of_le (c := { c with limit }) hle h'
    change c.conv x y Γ p = _ at hback
    rw [h] at hback
    cases hback
    exact ⟨rfl, rfl⟩

/-- Two plus one is converted to three within 40 steps, and a declaration is refused
within them for its value. With a budget of 1000 both end alike; with one of 10 the
conversion fails. -/
theorem execute_withLimit_two_add_one :
    let c : Checker :=
      { env := ⟨Church.declarations.toArray⟩, visible := 4, limit := 40, memoize := false }
    let sum := (Term.const (Church.natName.str "add") []).apps [Church.numeral 2, Church.numeral 1]
    let equation : Task := .request (.conv sum (Church.numeral 3) [])
    let wrong : Task := .declaration ⟨.atom "wrong", [], Church.nat, some (.sort .zero)⟩
    (∀ task ∈ [equation, wrong], outOfSteps (c.execute task {}) = false ∧
      { c with limit := 1000 }.execute task {} = c.execute task {}) ∧
    outOfSteps ({ c with limit := 10 }.execute equation {}) = true := by
  intro c sum equation wrong
  have hsteps : ∀ task ∈ [equation, wrong], outOfSteps (c.execute task {}) = false := by
    decide +kernel
  refine ⟨fun task htask => ⟨hsteps task htask, ?_⟩, by decide +kernel⟩
  exact (execute_withLimit c 1000 {}).1 task (by decide) (hsteps task htask)

end Checker

end TypeTheory
