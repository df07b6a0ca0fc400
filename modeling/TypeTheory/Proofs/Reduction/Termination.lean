import Mathlib.Data.Finset.SDiff
import Mathlib.Data.Finset.Card
import Mathlib.Logic.Relation
import TypeTheory.Proofs.Checker.Termination
import TypeTheory.Proofs.Reduction.Nesting
import TypeTheory.Proofs.Reduction.Values

/-!
# When normalization finishes

Normalization reduces a term and goes on with the parts of what it has come to.
A reduction that changes the term spends steps, and a term that is not changed has
smaller parts; so without remembered results normalization finishes, if only by
running out of steps.

A remembered result breaks the argument: it may be larger than the term and costs
nothing. Normalization then goes on forever if it comes back to a remembered term
without having spent a step in between (`Checker.Recurs`). That is the only way:
if it never does, a chain of free results uses each remembered term once
(`Checker.finishes_of_not_recurs`).
-/

namespace TypeTheory

open CheckM Relation

namespace Checker

variable {c : Checker} {Γ : Context} {e w : Term} {p q : Progress}

/-! ## Where normalization goes on -/

/-- `w` is a weak-head normal form of the term. A closed term may have been reduced
in another context. -/
def Reduces (c : Checker) (x : Context × Term) (w : Term) : Prop :=
  ∃ Δ, (x.2.hasLoose = true → Δ = x.1) ∧ Evaluates c.const? true Δ x.2 w

/-- Normalization of the first term goes on with the second. -/
def Enters (c : Checker) (x y : Context × Term) : Prop :=
  ∃ w, c.Reduces x w ∧ y ∈ w.parts x.1

/-- It may do so without spending a step: the first term is a weak-head normal
form, or its weak-head normal form may be remembered. -/
def EntersFree (c : Checker) (x y : Context × Term) : Prop :=
  ∃ w, c.Reduces x w ∧ y ∈ w.parts x.1 ∧ (w = x.2 ∨ c.remembers x.2 = true)

theorem EntersFree.enters {x y : Context × Term} (h : c.EntersFree x y) : c.Enters x y := by
  obtain ⟨w, hw, hy, -⟩ := h
  exact ⟨w, hw, hy⟩

/-- Normalization comes to a term whose result is remembered, and from there back
to it without spending a step. -/
def Recurs (c : Checker) (x : Context × Term) : Prop :=
  ∃ y z, ReflTransGen c.Enters x y ∧ c.remembers y.2 = true ∧ TransGen c.EntersFree y z ∧
    z.2 = y.2

/-! ## What a reduction costs -/

/-- **A reduction that changes the term spends steps.** -/
theorem reduce_eq_ok {δ : Bool} {r : Term} (h : c.reduce δ Γ e p = .ok r q) :
    Evaluates c.const? δ Γ e r ∧ p.steps ≤ q.steps ∧
      (r = e ∨ c.limit - q.steps < c.limit - p.steps) := by
  -- steps are never given back
  have htick (k : Nat) : ∀ s : Progress, k ≤ s.steps → k ≤ s.steps + 1 := fun _ hs => by omega
  obtain ⟨hvalue, hle⟩ := (keeps_reduce (htick p.steps) e).of_ok (Nat.le_refl _) h
  refine ⟨hvalue, hle, ?_⟩
  obtain ⟨n, s, hremaining, hhead⟩ := EStateM.bind_eq_ok.mp h
  cases hremaining
  rw [reduceHead_eq] at hhead
  obtain ⟨o, s, hstep, hrest⟩ := EStateM.bind_eq_ok.mp hhead
  have hs := ((keeps_headStep (htick p.steps) (keeps_reducer (htick p.steps) _) e []).of_ok
    (Nat.le_refl _) hstep).2
  cases o with
  | none =>
    cases hrest
    exact .inl rfl
  | some next =>
    obtain ⟨_, s', hpaid, hnext⟩ := EStateM.bind_eq_ok.mp hrest
    obtain ⟨hlt, hsteps⟩ := tick_eq_ok hpaid
    have hq := ((keeps_reducer (htick s'.steps) _ next).of_ok (Nat.le_refl _) hnext).2
    exact .inr (by omega)

/-- A reduction comes to the value of the term, and pays for a step unless the term is that
value. -/
theorem answer_whnf_eq_ok {r : Term} (h : c.answer .whnf e Γ p = .ok r q) :
    Evaluates c.const? true Γ e r ∧ p.steps ≤ q.steps ∧
      (r = e ∨ c.limit - q.steps < c.limit - p.steps) := by
  obtain ⟨_, s, hcount, hreduce⟩ := EStateM.bind_eq_ok.mp h
  cases hcount
  have hcost := reduce_eq_ok hreduce
  exact hcost

/-! ## Tables -/

/-- Every remembered weak-head normal form has been computed, in some context, for
a term whose results may be remembered. -/
def Traced (c : Checker) (p : Progress) : Prop :=
  ∀ e w, p.whnf.find? e = some w →
    c.remembers e = true ∧ ∃ Δ, Evaluates c.const? true Δ e w

/-- What has happened from `p` to `q`: no steps were given back, results were
traced, and a result was remembered only for a weak-head normal form if no step
was paid for. -/
structure Since (c : Checker) (p q : Progress) : Prop where
  steps_le : p.steps ≤ q.steps
  traced : c.Traced q
  frugal : c.limit - q.steps = c.limit - p.steps →
    ∀ e w, q.whnf.find? e = some w → w = e ∨ p.whnf.find? e = some w

theorem Since.refl (h : c.Traced p) : c.Since p p :=
  ⟨Nat.le_refl _, h, fun _ _ _ hw => .inr hw⟩

/-- What has happened in one run and then in another has happened from the first state to the
last. -/
theorem Since.trans {s : Progress} (h : c.Since p q) (h' : c.Since q s) : c.Since p s := by
  have hle := h.steps_le
  have hle' := h'.steps_le
  refine ⟨Nat.le_trans hle hle', h'.traced, fun heq e w hw => ?_⟩
  rcases h'.frugal (by omega) e w hw with hsame | hw
  · exact .inl hsame
  · exact h.frugal (by omega) e w hw

/-- What is found once a result is kept is that result, or was there before. -/
theorem whnf_find?_keep {query : Query} {x r s : Term}
    (h : (c.keep query e r p).whnf.find? x = some s) :
    (query = .whnf ∧ x = e ∧ s = r ∧ c.remembers e = true) ∨ p.whnf.find? x = some s := by
  cases hremembers : c.remembers e with
  | false =>
    rw [keep, hremembers] at h
    exact .inr h
  | true =>
    have hmemo : ((c.keep query e r p).memo .whnf).find? x = some s := h
    rcases find?_keep hmemo with ⟨hquery, hx, hs, -⟩ | hold
    · exact .inl ⟨hquery.symm, hx, hs, rfl⟩
    · exact .inr hold

/-- Every run gives back no steps, traces what it remembers, and remembers frugally, whatever is
asked of the checker. -/
theorem lawful_since (p : Progress) : (c.ownRuns (c.Since p)).Lawful := by
  refine lawful_ownRuns (fun q hq => ?_) (fun q i j k hq => ?_) fun query e Γ r q s hq hrun hs => ?_
  · have hle := hq.steps_le
    exact ⟨Nat.le_succ_of_le hle, hq.traced, fun heq => hq.frugal (by dsimp only at heq; omega)⟩
  · exact ⟨hq.steps_le, hq.traced, hq.frugal⟩
  · have hle := hq.steps_le
    refine ⟨by rw [steps_keep]; exact hs.steps_le, fun x y hxy => ?_, fun heq x y hxy => ?_⟩
    · rcases whnf_find?_keep hxy with ⟨rfl, rfl, rfl, hremembers⟩ | hold
      · exact ⟨hremembers, Γ, (answer_whnf_eq_ok hrun).1⟩
      · exact hs.traced x y hold
    · rw [steps_keep] at heq
      rcases whnf_find?_keep hxy with ⟨rfl, rfl, rfl, -⟩ | hold
      · obtain ⟨-, hle', hsame | hlt⟩ := answer_whnf_eq_ok hrun
        · exact .inl hsame
        · omega
      · exact hs.frugal heq x y hold

/-- **What a weak-head normal form costs**: it is the term itself, or a step was
paid for, or it was remembered. -/
theorem whnf_eq_ok (hp : c.Traced p) (h : c.whnf e Γ p = .ok w q) :
    c.Since p q ∧ c.Reduces (Γ, e) w ∧
      (w = e ∨ c.limit - q.steps < c.limit - p.steps ∨ p.whnf.find? e = some w) := by
  have hkeeps := keeps_of_ownRuns fun _ _ =>
    (lawful_since (c := c) p).sim_whnf (w := ()) (Γ := Γ) (e := e) rfl rfl
  refine ⟨(hkeeps.of_ok (.refl hp) h).2, ?_⟩
  rw [whnf, remembered_eq] at h
  cases hfind : (p.memo .whnf).find? e with
  | some r =>
    -- the context of the remembered run does not matter, since the term is closed
    rw [hfind] at h
    cases h
    obtain ⟨hremembers, Δ, hΔ⟩ := hp e w hfind
    have hclosed : e.hasLoose = false := by
      simpa using (Bool.and_eq_true_iff.mp hremembers).2
    refine ⟨⟨Δ, fun hloose => ?_, hΔ⟩, .inr (.inr hfind)⟩
    rw [hclosed] at hloose
    cases hloose
  | none =>
    rw [hfind] at h
    cases hrun : c.answer .whnf e Γ p with
    | error err s =>
      change adjust _ (c.answer .whnf e Γ p) = _ at h
      rw [hrun] at h
      cases h
    | ok r s =>
      change adjust _ (c.answer .whnf e Γ p) = _ at h
      rw [hrun] at h
      cases h
      obtain ⟨hvalue, -, hcost⟩ := answer_whnf_eq_ok hrun
      rw [steps_keep]
      refine ⟨⟨Γ, fun _ => rfl, hvalue⟩, ?_⟩
      rcases hcost with hsame | hlt
      · exact .inl hsame
      · exact .inr (.inl hlt)

/-! ## The argument -/

/-- From each of these terms normalization has come to `x` without spending a
step. -/
def Trail (c : Checker) (root : Context × Term) (visited : Finset Term) (x : Context × Term) :
    Prop :=
  ∀ t ∈ visited, c.remembers t = true ∧
    ∃ Δ, ReflTransGen c.Enters root (Δ, t) ∧ TransGen c.EntersFree (Δ, t) x

variable {root x y : Context × Term} {visited : Finset Term}

theorem trail_empty : c.Trail root ∅ x := by
  intro t ht
  cases Finset.notMem_empty t ht

/-- A trail leads on to whatever normalization enters from its end without spending a step. -/
theorem Trail.step (h : c.Trail root visited x) (hxy : c.EntersFree x y) :
    c.Trail root visited y := by
  intro t ht
  obtain ⟨hremembers, Δ, hreached, hfree⟩ := h t ht
  exact ⟨hremembers, Δ, hreached, hfree.tail hxy⟩

/-- The end of a trail may be counted among the terms visited, if its results may be remembered. -/
theorem Trail.insert (h : c.Trail root visited x) (hx : c.remembers x.2 = true)
    (hreached : ReflTransGen c.Enters root x) (hxy : c.EntersFree x y) :
    c.Trail root (insert x.2 visited) y := by
  intro t ht
  rcases Finset.mem_insert.mp ht with rfl | ht
  · exact ⟨hx, x.1, hreached, .single hxy⟩
  · exact h.step hxy t ht

/-- A term on the trail is a term that normalization has come back to. -/
theorem Trail.recurs (h : c.Trail root visited x) (hx : x.2 ∈ visited) : c.Recurs root := by
  obtain ⟨hremembers, Δ, hreached, hfree⟩ := h x.2 hx
  exact ⟨(Δ, x.2), x, hreached, hremembers, hfree, rfl⟩

/-- The keys hold every term whose remembered result is another term. -/
def CoveredBy (p : Progress) (keys : Finset Term) : Prop :=
  ∀ e w, p.whnf.find? e = some w → w ≠ e → e ∈ keys

theorem exists_coveredBy (p : Progress) : ∃ keys, CoveredBy p keys := by
  refine ⟨p.whnf.results.keys.toFinset, fun e w hw _ => ?_⟩
  rw [Memo.find?_eq] at hw
  rw [List.mem_toFinset, Std.HashMap.mem_keys, Std.HashMap.mem_iff_isSome_getElem?, hw]
  rfl

/-- One round: normalization finishes if it does so on what it goes on with, after a
step was paid for, from a weak-head normal form, and from a remembered result. -/
theorem finishes_round (hp : c.Traced p)
    (hpaid : ∀ q y, c.limit - q.steps < c.limit - p.steps → c.Traced q → c.Enters x y →
      Finishes (c.normalizeWithin · y.2 y.1) q)
    (hnormal : ∀ q y, c.Since p q → c.limit - q.steps = c.limit - p.steps → c.EntersFree x y →
      y.2.size < x.2.size → Finishes (c.normalizeWithin · y.2 y.1) q)
    (hfound : ∀ q y w, c.Since p q → c.limit - q.steps = c.limit - p.steps → c.EntersFree x y →
      p.whnf.find? x.2 = some w → w ≠ x.2 → Finishes (c.normalizeWithin · y.2 y.1) q) :
    Finishes (c.normalizeWithin · x.2 x.1) p := by
  refine finishes_of_parts fun w q hwhnf => ?_
  obtain ⟨hsince, hreduces, hcost⟩ := whnf_eq_ok hp hwhnf
  have hkeeps (d : Nat) (e : Term) (Δ : Context) :
      Keeps (c.Since q) (fun _ => True) (fun _ => True) (c.normalizeWithin d e Δ).run :=
    keeps_of_ownRuns fun _ _ => (lawful_since q).sim_normalizeWithin (w := ()) d rfl rfl
  refine ⟨c.Since q, .refl hsince.traced, hkeeps, fun y hy s hs => ?_⟩
  have hall := hsince.trans hs
  have hle := hsince.steps_le
  have hle' := hs.steps_le
  -- a step may have been paid for by the weak-head normal form or by an earlier part
  by_cases hlt : c.limit - s.steps < c.limit - p.steps
  · exact hpaid s y hlt hs.traced ⟨w, hreduces, hy⟩
  have heq : c.limit - s.steps = c.limit - p.steps := by omega
  by_cases hsame : w = x.2
  · refine hnormal s y hall heq ⟨w, hreduces, hy, .inl hsame⟩ ?_
    rw [← hsame]
    exact Term.size_lt_of_mem_parts hy
  · have hfind : p.whnf.find? x.2 = some w := by
      rcases hcost with hcost | hcost | hcost
      · exact absurd hcost hsame
      · omega
      · exact hcost
    have hfree : c.EntersFree x y := ⟨w, hreduces, hy, .inr (hp x.2 w hfind).1⟩
    exact hfound s y w hall heq hfree hfind hsame

/-- While no step is paid for, the remembered terms are those of `p`. The induction
is on those that the trail has not used, then on the size of the term. -/
theorem finishes_of_trail {keys : Finset Term} (hroot : ¬ c.Recurs root) (hkeys : CoveredBy p keys)
    (hpaid : ∀ q y, c.limit - q.steps < c.limit - p.steps → c.Traced q →
      ReflTransGen c.Enters root y → Finishes (c.normalizeWithin · y.2 y.1) q)
    (m n : Nat) (hm : (keys \ visited).card = m) (hn : x.2.size = n) (hq : c.Since p q)
    (heq : c.limit - q.steps = c.limit - p.steps) (hreached : ReflTransGen c.Enters root x)
    (htrail : c.Trail root visited x) : Finishes (c.normalizeWithin · x.2 x.1) q := by
  induction m using Nat.strong_induction_on generalizing n visited q x with
  | _ m ihm =>
    induction n using Nat.strong_induction_on generalizing q x with
    | _ n ihn =>
      refine finishes_round hq.traced ?_ ?_ ?_
      · intro s y hlt hs hxy
        exact hpaid s y (by omega) hs (hreached.tail hxy)
      · intro s y hs hsteps hxy hsize
        exact ihn y.2.size (by omega) rfl (hq.trans hs) (by omega) (hreached.tail hxy.enters)
          (htrail.step hxy)
      · -- the term joins the trail: it is a key, and a new one since nothing recurs
        intro s y w hs hsteps hxy hfind hne
        have hkey : x.2 ∈ keys := by
          rcases hq.frugal heq x.2 w hfind with hsame | hfind
          · exact absurd hsame hne
          · exact hkeys x.2 w hfind hne
        have hnew : x.2 ∉ visited := fun hmem => hroot (htrail.recurs hmem)
        have hfewer : (keys \ insert x.2 visited).card < (keys \ visited).card := by
          refine Finset.card_lt_card ((Finset.ssubset_iff_of_subset ?_).mpr ⟨x.2, ?_, ?_⟩)
          · exact Finset.sdiff_subset_sdiff (Finset.Subset.refl _) (Finset.subset_insert _ _)
          · exact Finset.mem_sdiff.mpr ⟨hkey, hnew⟩
          · simp
        exact ihm _ (hm ▸ hfewer) y.2.size rfl rfl (hq.trans hs) (by omega)
          (hreached.tail hxy.enters)
          (htrail.insert (hq.traced x.2 w hfind).1 hreached hxy)

/-- **Normalization finishes if it does not recur**, from any state with traced
results. The induction is on the steps that remain. -/
theorem finishes_of_not_recurs (hroot : ¬ c.Recurs root) (n : Nat) (hn : c.limit - p.steps = n)
    (hp : c.Traced p) (hreached : ReflTransGen c.Enters root x) :
    Finishes (c.normalizeWithin · x.2 x.1) p := by
  induction n using Nat.strong_induction_on generalizing p x with
  | _ n ih =>
    obtain ⟨keys, hkeys⟩ := exists_coveredBy p
    refine finishes_of_trail hroot hkeys ?_ _ _ rfl rfl (.refl hp) rfl hreached trail_empty
    intro q y hlt hq hy
    exact ih _ (by omega) rfl hq hy

/-- A checker that remembers nothing comes back to no remembered term. -/
theorem not_recurs_of_not_memoize (hc : c.memoize = false) : ¬ c.Recurs x := by
  rintro ⟨y, z, -, hremembers, -⟩
  simp [remembers, hc] at hremembers

theorem traced_after (requests : List Request) : c.Traced (c.after requests {}) := by
  have hempty : c.Traced {} := by
    intro e w hw
    cases (Progress.blank_empty .whnf e).symm.trans hw
  exact (after_of_ownRuns (lawful_since {}) requests (.refl hempty)).traced

/-! ## The counter -/

theorem counted_run_bind {α β : Type} {m : OptionT CheckM α} {f : α → OptionT CheckM β}
    (hm : c.Counted p (m.run p)) (hf : ∀ a q, c.Counted q ((f a).run q)) :
    c.Counted p ((m >>= f).run p) := by
  refine hm.bind fun o q _ => ?_
  cases o with
  | none => exact Paid.of_steps rfl
  | some a => exact hf a q

/-- Going through a list counts as the work on its members does, one after the other. -/
theorem counted_mapM {α β : Type} {f : α → OptionT CheckM β}
    (hf : ∀ a q, c.Counted q ((f a).run q)) (as : List α) (p : Progress) :
    c.Counted p ((as.mapM f).run p) := by
  induction as generalizing p with
  | nil => exact Paid.of_steps rfl
  | cons a as ih =>
    rw [List.mapM_cons]
    refine counted_run_bind (hf a p) fun b q => counted_run_bind (ih q) fun bs q => ?_
    exact Paid.of_steps rfl

/-- **Normalization counts as reduction does**, at every nesting. -/
theorem counted_normalizeWithin (d : Nat) (e : Term) (Γ : Context) (p : Progress) :
    c.Counted p ((c.normalizeWithin d e Γ).run p) := by
  induction d generalizing e Γ p with
  | zero => exact Paid.of_steps rfl
  | succ d ih =>
    have hlift : c.Counted p ((liftM (c.whnf e Γ) : OptionT CheckM Term).run p) :=
      (halts_whnf e Γ p).counted.bind fun _ _ _ => Paid.of_steps rfl
    rw [normalizeWithin_succ]
    refine counted_run_bind hlift fun w q => ?_
    refine counted_run_bind (counted_mapM (fun x : Context × Term => ih x.2 x.1) _ q) fun _ q => ?_
    exact Paid.of_steps rfl

/-- **Normalization finishes** at some nesting, with a normal form or an error, and
more nesting makes no difference: over any environment, on any term in any context,
within any budget that a counter of 64 bits can go beyond and after any requests, if no
results are remembered or if it never comes back to a remembered term without spending a
step. The counter is then not used up by the normalization either. -/
theorem normalizeWithin_finishes (c : Checker) (hlimit : c.limit < 2 ^ 64 - 1)
    (requests : List Request) (Γ : Context) (e : Term)
    (h : c.memoize = false ∨ ¬ c.Recurs (Γ, e)) :
    (∃ d r, (∀ q, r ≠ .ok none q) ∧
      ∀ d', d ≤ d' → (c.normalizeWithin d' e Γ).run (c.after requests {}) = r) ∧
    ((c.after requests {}).steps < 2 ^ 64 - 1 →
      ∀ d, ((c.normalizeWithin d e Γ).run.leaves (c.after requests {})).steps < 2 ^ 64) := by
  have hroot : ¬ c.Recurs (Γ, e) := by
    rcases h with hc | hroot
    · exact not_recurs_of_not_memoize hc
    · exact hroot
  have hfinishes := finishes_of_not_recurs (x := (Γ, e)) hroot _ rfl (traced_after requests) .refl
  refine ⟨hfinishes.result (deepens_normalizeWithin e Γ), fun hsteps d => ?_⟩
  have hcounted := (c.counted_normalizeWithin d e Γ (c.after requests {})).steps_leaves.2
  omega

/-- Normalization that goes on with smaller terms only does not recur. -/
theorem not_recurs_of_size_lt {P : Context × Term → Prop} (hx : P x)
    (h : ∀ y z, P y → c.Enters y z → P z ∧ z.2.size < y.2.size) : ¬ c.Recurs x := by
  have hreach : ∀ y, ReflTransGen c.Enters x y → P y := by
    intro y hxy
    induction hxy with
    | refl => exact hx
    | tail _ hstep ih => exact (h _ _ ih hstep).1
  have hshrink : ∀ y z, P y → TransGen c.EntersFree y z → P z ∧ z.2.size < y.2.size := by
    intro y z hy hyz
    induction hyz with
    | single hstep => exact h _ _ hy hstep.enters
    | tail _ hstep ih =>
      obtain ⟨hP, hlt⟩ := h _ _ ih.1 hstep.enters
      exact ⟨hP, Nat.lt_trans hlt ih.2⟩
  rintro ⟨y, z, hreached, -, hfree, hsame⟩
  have hlt := (hshrink y z (hreach y hreached) hfree).2
  rw [hsame] at hlt
  exact Nat.lt_irrefl _ hlt

/-- A pair of an application with itself: the second component is found in the
table. -/
theorem normalizeWithin_finishes_pair :
    let c := ofEnvironment .empty 100
    let a := Term.app (.lam (.atom "x") (.sort (.ofNat 1)) (.bvar 0)) (.sort .zero)
    c.limit < 2 ^ 64 - 1 ∧ ¬ c.Recurs ([], .pair a a) ∧
      (∃ d r, (∀ q, r ≠ .ok none q) ∧
        ∀ d', d ≤ d' → (c.normalizeWithin d' (.pair a a) []).run (c.after [] {}) = r) ∧
      ∀ d, ((c.normalizeWithin d (.pair a a) []).run.leaves (c.after [] {})).steps < 2 ^ 64 := by
  intro c a
  have hvalue (Δ : Context) (w : Term) (h : Evaluates c.const? true Δ a w) : w = .sort .zero :=
    h.unique (.beta (.bind ..) (.sort _))
  have hrecurs : ¬ c.Recurs ([], .pair a a) := by
    refine not_recurs_of_size_lt (P := fun y => y.2 = .pair a a ∨ y.2 = a) (.inl rfl) ?_
    rintro ⟨Δ, y⟩ z hy ⟨w, ⟨Δ', -, hw⟩, hz⟩
    rcases hy with rfl | rfl
    · cases hw
      have hsize := Term.size_lt_of_mem_parts hz
      simp only [Term.parts, List.mem_cons, List.not_mem_nil, or_false] at hz
      rcases hz with rfl | rfl
      · exact ⟨.inr rfl, hsize⟩
      · exact ⟨.inr rfl, hsize⟩
    · rw [hvalue Δ' w hw] at hz
      cases hz
  have hlimit : c.limit < 2 ^ 64 - 1 := by decide
  obtain ⟨hfinishes, hcounter⟩ := normalizeWithin_finishes c hlimit [] [] (.pair a a) (.inr hrecurs)
  exact ⟨hlimit, hrecurs, hfinishes, hcounter (by decide)⟩

/-! ## A term that recurs -/

/-- A function that gives a function, whatever it is given, which applies the
argument to itself. -/
def unwinding : Term :=
  .lam (.atom "x") (.sort .zero) (.lam (.atom "y") (.sort .zero) (.app (.bvar 1) (.bvar 1)))

/-- Applied to itself it is a function whose body is that application. -/
def unwound : Term :=
  .lam (.atom "y") (.sort .zero) (.app unwinding unwinding)

theorem reduce_sort (δ : Bool) (Γ : Context) (l : Level) (p : Progress) :
    c.reduce δ Γ (.sort l) p = .ok (.sort l) p := by
  change c.reduceHead δ Γ (c.limit - p.steps) (.sort l) p = _
  rw [reduceHead_eq]
  rfl

/-- A table that holds the application, and nothing but itself for the sort. -/
def Unwinds (p : Progress) : Prop :=
  p.whnf.find? (.app unwinding unwinding) = some unwound ∧
    ∀ w, p.whnf.find? (.sort .zero) = some w → w = .sort .zero

/-- A remembered term is reduced to what the table holds, without a step. -/
theorem whnf_of_find? (h : p.whnf.find? e = some w) (Γ : Context) : c.whnf e Γ p = .ok w p := by
  have hmemo : (p.memo .whnf).find? e = some w := h
  rw [whnf, remembered_eq, hmemo]

/-- A term that is not remembered is reduced, and the result is kept. -/
theorem whnf_of_find?_eq_none {s : Progress} (h : p.whnf.find? e = none)
    (hrun : c.answer .whnf e Γ p = .ok w s) : c.whnf e Γ p = .ok w (c.keep .whnf e w s) := by
  have hmemo : (p.memo .whnf).find? e = none := h
  rw [whnf, remembered_eq, hmemo]
  change adjust _ (c.answer .whnf e Γ p) = _
  rw [hrun]
  rfl

theorem answer_whnf_sort (Γ : Context) (l : Level) (p : Progress) :
    c.answer .whnf (.sort l) Γ p = .ok (.sort l) { p with whnfCalls := p.whnfCalls + 1 } :=
  reduce_sort true Γ l _

/-- The table gives the new result for its term, and what it gave before for any other. -/
theorem find?_keep_whnf {e r x : Term} (hremembers : c.remembers e = true) :
    (c.keep .whnf e r p).whnf.find? x = if e = x then some r else p.whnf.find? x := by
  rw [keep, if_pos hremembers]
  exact Memo.find?_insert p.whnf e r x

/-- Reducing the sort leaves such a table. -/
theorem whnf_sort (hc : c.memoize = true) (hp : Unwinds p) (Γ : Context) :
    ∃ q, Unwinds q ∧ c.whnf (.sort .zero) Γ p = .ok (.sort .zero) q := by
  cases hfind : p.whnf.find? (.sort .zero) with
  | some w =>
    have hw := hp.2 w hfind
    exact ⟨p, hp, hw ▸ whnf_of_find? (hw ▸ hfind) Γ⟩
  | none =>
    have hremembers : c.remembers (.sort .zero) = true := by
      rw [remembers, hc]
      rfl
    refine ⟨_, ⟨?_, ?_⟩, whnf_of_find?_eq_none hfind (answer_whnf_sort Γ .zero p)⟩
    · rw [find?_keep_whnf hremembers, if_neg (by decide)]
      exact hp.1
    · intro w hw
      rw [find?_keep_whnf hremembers, if_pos rfl] at hw
      exact (Option.some.inj hw).symm

/-- Normalizing the sort is cut short or leaves such a table. -/
theorem normalizeWithin_sort (hc : c.memoize = true) (d : Nat) (hp : Unwinds p) (Γ : Context) :
    CutShort (c.normalizeWithin d (.sort .zero) Γ) p ∨
      ∃ q, Unwinds q ∧
        (c.normalizeWithin d (.sort .zero) Γ).run p = .ok (some (.sort .zero)) q := by
  cases d with
  | zero => exact .inl ⟨p, rfl⟩
  | succ d =>
    obtain ⟨q, hq, hwhnf⟩ := whnf_sort hc hp Γ
    refine .inr ⟨q, hq, ?_⟩
    rw [normalizeWithin_succ, run_bind_some (run_lift hwhnf)]
    rfl

/-- **Once the application is remembered, no nesting is enough**: its body is the
application again, and finding it costs nothing. -/
theorem cutShort_of_unwinds (hc : c.memoize = true) (d : Nat)
    (hwhnf : c.whnf (.app unwinding unwinding) Γ p = .ok unwound q) (hq : Unwinds q) :
    CutShort (c.normalizeWithin d (.app unwinding unwinding) Γ) p := by
  induction d generalizing Γ p q with
  | zero => exact ⟨p, rfl⟩
  | succ d ih =>
    have hparts : unwound.parts Γ = [(Γ, .sort .zero),
        (Γ.push (.atom "y") (.sort .zero), .app unwinding unwinding)] := rfl
    rw [normalizeWithin_succ]
    refine CutShort.after (run_lift hwhnf) (CutShort.bind ?_)
    rw [hparts, List.mapM_cons]
    rcases normalizeWithin_sort hc d hq Γ with hcut | ⟨s, hs, hsort⟩
    · exact hcut.bind
    · refine CutShort.after hsort (CutShort.bind ?_)
      rw [List.mapM_cons]
      exact (ih (whnf_of_find? hs.1 _) hs).bind

/-- **Normalization need not finish with remembered results**: whatever nesting it
may use, it is cut short on this application. -/
theorem normalizeWithin_unwinding :
    let c := ofEnvironment .empty 100
    ∀ d, ∃ q, (c.normalizeWithin d (.app unwinding unwinding) []).run {} = .ok none q := by
  intro c d
  have hfirst : c.answer .whnf (.app unwinding unwinding) [] {} =
      .ok unwound { steps := 1, whnfCalls := 1 } := rfl
  refine cutShort_of_unwinds rfl d (whnf_of_find?_eq_none rfl hfirst) ⟨?_, ?_⟩
  · rw [find?_keep_whnf rfl, if_pos rfl]
  · intro w hw
    rw [find?_keep_whnf rfl, if_neg (by decide)] at hw
    cases hw

end Checker

end TypeTheory
