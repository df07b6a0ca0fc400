import TypeTheory.Encoding.Basic

/-!
# Decoding machines

A decoder for trees is a machine with two stacks, so that deep trees need no deep
calls: one of things still to do, one of parts already built. Doing a thing may
read bytes and add more things to do, or put parts together.

A machine states its price: every byte read pays for that many steps. If doing a
thing never adds more steps than the bytes it read pay for, the machine ends
(`Machine.run`) and, like every other decoder, reads only forward
(`Machine.shrinks_run`).
-/

namespace TypeTheory.Encoding

open Decoder

variable {τ α β : Type}

/-- What is still to do and what is built, top first. -/
structure Stacks (τ α : Type) where
  tasks : List τ
  built : List α

namespace Stacks

/-- Bounds the number of steps that are left. -/
def weight (s : Stacks τ α) (price : Nat) (input : Bytes) : Nat :=
  price * input.length + s.tasks.length

end Stacks

/-- The decoder leaves at most `n` steps more than the unread bytes pay for. -/
def Adds (price n : Nat) (d : Decoder (Stacks τ α)) : Prop :=
  ∀ ⦃input : Bytes⦄ ⦃s : Stacks τ α⦄ ⦃rest : Bytes⦄,
    d input = .ok s rest → s.weight price rest ≤ price * input.length + n

variable {price n : Nat}

theorem adds_pure {s : Stacks τ α} (h : s.tasks.length ≤ n) : Adds price n (pure s) := by
  intro input s' rest eq
  cases eq
  exact Nat.add_le_add_left h _

theorem adds_throw (e : DecodeError) : Adds price n (throw e : Decoder (Stacks τ α)) := by
  intro input s rest eq
  cases eq

theorem adds_bind {d : Decoder β} {f : β → Decoder (Stacks τ α)} (hd : Shrinks d)
    (hf : ∀ b, Adds price n (f b)) : Adds price n (d >>= f) := by
  intro input s rest eq
  obtain ⟨b, middle, h₁, h₂⟩ := EStateM.bind_eq_ok.mp eq
  exact Nat.le_trans (hf b h₂) (Nat.add_le_add_right (Nat.mul_le_mul_left price (hd h₁)) n)

/-- **A read byte pays.** After a byte, the price of one may be added. -/
theorem weight_lt_of_consumes {d : Decoder β} {f : β → Decoder (Stacks τ α)} (hd : Consumes d)
    (hf : ∀ b, Adds price (n + price) (f b)) {input rest : Bytes} {s : Stacks τ α}
    (h : (d >>= f) input = .ok s rest) : s.weight price rest < price * input.length + (n + 1) := by
  obtain ⟨b, middle, h₁, h₂⟩ := EStateM.bind_eq_ok.mp h
  have hAdds := hf b h₂
  have hPaid := Nat.mul_le_mul_left price (hd h₁)
  rw [Nat.succ_eq_add_one, Nat.mul_succ] at hPaid
  omega

/-- A decoder that does one thing after the other. -/
structure Machine (τ α : Type) where
  /-- Does the thing on top, given what lies below it. -/
  step : τ → List τ → List α → Decoder (Stacks τ α)
  /-- What is wrong if the end leaves other than one part. -/
  flaw : Flaw
  /-- The number of steps that a byte pays for. -/
  price : Nat
  weight_step : ∀ {task : τ} {tasks : List τ} {built : List α} {input rest : Bytes}
    {s : Stacks τ α}, step task tasks built input = .ok s rest →
      s.weight price rest < Stacks.weight ⟨task :: tasks, built⟩ price input

namespace Machine

/-- Does everything that is to do. -/
def run (m : Machine τ α) (s : Stacks τ α) (input : Bytes) :
    EStateM.Result DecodeError Bytes α :=
  match s with
  | ⟨[], [part]⟩ => .ok part input
  | ⟨[], _⟩ => .error (.malformed m.flaw) input
  | ⟨task :: tasks, built⟩ =>
    match h : m.step task tasks built input with
    | .ok s rest =>
      have := m.weight_step h
      m.run s rest
    | .error e rest => .error e rest
termination_by s.weight m.price input

theorem shrinks_run (m : Machine τ α)
    (hStep : ∀ task tasks built, Shrinks (m.step task tasks built)) (s : Stacks τ α) :
    Shrinks (m.run s) := by
  intro input a rest h
  fun_induction run m s input with
  | case1 => cases h; exact Nat.le_refl _
  | case2 => cases h
  | case3 input task tasks built s middle eq _ ih =>
    exact Nat.le_trans (ih h) (hStep _ _ _ eq)
  | case4 => cases h

end Machine

end TypeTheory.Encoding
