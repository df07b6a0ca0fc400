import TypeTheory.Digest.Basic

/-!
# The Blake3 hash

Blake3 cuts the input into chunks of 1024 bytes and hashes them in a binary tree
whose left subtrees are complete. A chunk is compressed block by block, 64 bytes
at a time, each block into the chaining value of the blocks before; an inner node
compresses the chaining values of its two sides. Flags tell first, last, inner
and root compressions apart.
-/

namespace TypeTheory.Blake3

/-- Eight words passed from one compression to the next. -/
abbrev Chain := Vector UInt32 8

/-- A block of sixteen words. -/
abbrev Block := Vector UInt32 16

/-- The initial chaining value. -/
def initial : Chain :=
  #v[0x6A09E667, 0xBB67AE85, 0x3C6EF372, 0xA54FF53A,
     0x510E527F, 0x9B05688C, 0x1F83D9AB, 0x5BE0CD19]

/-! ## Compression -/

/-- Rotates a word to the right. -/
def rotate (x : UInt32) (n : UInt32) : UInt32 :=
  (x >>> n) ||| (x <<< (32 - n))

/-- Mixes two words of the message into four words of the state. -/
def mix (v : Block) (i j k l : Fin 16) (x y : UInt32) : Block :=
  let a := v[i] + v[j] + x
  let d := rotate (v[l] ^^^ a) 16
  let c := v[k] + d
  let b := rotate (v[j] ^^^ c) 12
  let a := a + b + y
  let d := rotate (d ^^^ a) 8
  let c := c + d
  let b := rotate (b ^^^ c) 7
  (((v.set i a).set j b).set k c).set l d

/-- Mixes the message into the columns, then into the diagonals of the state. -/
def round (v m : Block) : Block :=
  let v := mix v 0 4 8 12 m[0] m[1]
  let v := mix v 1 5 9 13 m[2] m[3]
  let v := mix v 2 6 10 14 m[4] m[5]
  let v := mix v 3 7 11 15 m[6] m[7]
  let v := mix v 0 5 10 15 m[8] m[9]
  let v := mix v 1 6 11 12 m[10] m[11]
  let v := mix v 2 7 8 13 m[12] m[13]
  mix v 3 4 9 14 m[14] m[15]

/-- Permutes the message between two rounds. -/
def permute (m : Block) : Block :=
  #v[m[2], m[6], m[3], m[10], m[7], m[0], m[4], m[13],
     m[1], m[11], m[12], m[5], m[9], m[14], m[15], m[8]]

/-- Mixes the message into the state `n + 1` times, permuting it in between. -/
def rounds (v m : Block) : Nat → Block
  | 0 => round v m
  | n + 1 => rounds (round v m) (permute m) n

/-- What one compression takes: the chaining value, a block, its number of bytes,
the number of the chunk, and flags. -/
structure Input where
  chain : Chain
  block : Block
  length : Nat
  counter : Nat
  flags : UInt32

/-- The chaining value after a compression with more flags. -/
def Input.compress (t : Input) (more : UInt32) : Chain :=
  let h := t.chain
  let state : Block :=
    #v[h[0], h[1], h[2], h[3], h[4], h[5], h[6], h[7],
       initial[0], initial[1], initial[2], initial[3],
       UInt32.ofNat t.counter, UInt32.ofNat (t.counter >>> 32), UInt32.ofNat t.length,
       t.flags ||| more]
  let v := rounds state t.block 6
  Vector.ofFn fun i : Fin 8 => v[i.val] ^^^ v[i.val + 8]

/-! ## Flags -/

def chunkStart : UInt32 := 1
def chunkEnd : UInt32 := 2
def parent : UInt32 := 4
def root : UInt32 := 8

/-! ## Chunks and the tree -/

/-- The word of four bytes from position `i` on, lowest first; bytes past the end
are zero. -/
def wordAt (bytes : Array UInt8) (i : Nat) : UInt32 :=
  (bytes.getD i 0).toUInt32 ||| (bytes.getD (i + 1) 0).toUInt32 <<< 8 |||
    (bytes.getD (i + 2) 0).toUInt32 <<< 16 ||| (bytes.getD (i + 3) 0).toUInt32 <<< 24

/-- The words of up to 64 bytes. -/
def blockOf (bytes : Bytes) : Block :=
  let bytes := bytes.toArray
  Vector.ofFn fun i : Fin 16 => wordAt bytes (4 * i.val)

/-- The last compression of a chunk, after the blocks before it. -/
def chunk (counter : Nat) (chain : Chain) (flags : UInt32) (bytes : Bytes) : Input :=
  if bytes.length ≤ 64 then
    { chain, block := blockOf bytes, length := bytes.length, counter, flags := flags ||| chunkEnd }
  else
    let first : Input :=
      { chain, block := blockOf (bytes.take 64), length := 64, counter, flags }
    chunk counter (first.compress 0) 0 (bytes.drop 64)
termination_by bytes.length
decreasing_by
  simp only [List.length_drop]
  omega

/-- The last compression of an inner node with the given sides. -/
def node (left right : Chain) : Input :=
  { chain := initial, block := left ++ right, length := 64, counter := 0, flags := parent }

/-- The number of bytes on the left side of a tree over `n` bytes, more than one
chunk: the largest power of two of chunks that leaves something for the right
side. -/
def leftSize (n : Nat) : Nat :=
  1024 <<< Nat.log2 ((n - 1) / 1024)

theorem leftSize_pos (n : Nat) : 0 < leftSize n := by
  rw [leftSize, Nat.shiftLeft_eq]
  exact Nat.mul_pos (by decide) (Nat.two_pow_pos _)

theorem leftSize_lt {n : Nat} (h : 1024 < n) : leftSize n < n := by
  have hPos : (n - 1) / 1024 ≠ 0 := by omega
  have := Nat.log2_self_le hPos
  rw [leftSize, Nat.shiftLeft_eq]
  omega

/-- The last compression of the tree over some bytes, the first of which lies in
the chunk `counter`. -/
def tree (counter : Nat) (bytes : Bytes) : Input :=
  if h : bytes.length ≤ 1024 then chunk counter initial chunkStart bytes
  else
    let left := leftSize bytes.length
    have hLt : left < bytes.length := leftSize_lt (Nat.lt_of_not_le h)
    have hPos : 0 < left := leftSize_pos _
    node ((tree counter (bytes.take left)).compress 0)
      ((tree (counter + left / 1024) (bytes.drop left)).compress 0)
termination_by bytes.length
decreasing_by
  · simp only [List.length_take]
    omega
  · simp only [List.length_drop]
    omega

/-- The Blake3 digest of a byte string. -/
def digest (bytes : Bytes) : Digest :=
  let words := (tree 0 bytes).compress root
  ⟨Vector.ofFn fun i : Fin 32 => (words[i.val / 4] >>> (8 * UInt32.ofNat (i.val % 4))).toUInt8⟩

end TypeTheory.Blake3
