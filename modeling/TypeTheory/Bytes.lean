/-!
# Byte strings

Byte strings are lists, so that they are cut and joined by the operations on
lists. They are shown in hexadecimal and ordered from left to right.
-/

namespace TypeTheory

abbrev Bytes := List UInt8

namespace Bytes

/-- The hexadecimal digits of a byte string, two for each byte. -/
def hex (bytes : Bytes) : String :=
  String.ofList (bytes.flatMap fun b =>
    [Nat.digitChar (b.toNat / 16), Nat.digitChar (b.toNat % 16)])

/-- Whether there are at least `n` bytes. It looks at no more than `n` of them. -/
def holds : Nat → Bytes → Bool
  | 0, _ => true
  | _ + 1, [] => false
  | n + 1, _ :: rest => holds n rest

@[simp] theorem holds_iff {n : Nat} {bytes : Bytes} : holds n bytes ↔ n ≤ bytes.length := by
  fun_induction holds n bytes <;> simp_all

/-- The order of byte strings: the first difference decides, and the end of a
string comes before every byte. -/
def cmp : Bytes → Bytes → Ordering
  | [], [] => .eq
  | [], _ :: _ => .lt
  | _ :: _, [] => .gt
  | a :: as, b :: bs => (compare a b).then (cmp as bs)

end Bytes

end TypeTheory
