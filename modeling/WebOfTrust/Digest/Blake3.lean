import WebOfTrust.Bytes

/-!
# The BLAKE3 digest

A byte string is cut into chunks of 1024 bytes and each chunk into blocks of 64. The blocks of a
chunk are compressed in a chain. The chunks are the leaves of a binary tree whose left subtrees
are complete and as large as possible; a parent compresses the chaining values of its two
children. The digest is the output of the root.

* `compress`: the compression function;
* `pieces`: a byte string cut into pieces of one size;
* `Pending`: a compression that waits to learn whether it is the root;
* `digest`: the 32 bytes of the digest.
-/

namespace WebOfTrust.Blake3

/-- A chaining value. -/
abbrev Chain : Type := Vector UInt32 8

/-- The words of a block, or the state of the compression function. -/
abbrev Words : Type := Vector UInt32 16

/-- The chaining value that starts every chunk and every parent. -/
def start : Chain :=
  #v[0x6A09E667, 0xBB67AE85, 0x3C6EF372, 0xA54FF53A, 0x510E527F, 0x9B05688C, 0x1F83D9AB, 0x5BE0CD19]

/-- Marks the first block of a chunk. -/
def chunkStart : UInt32 := 1

/-- Marks the last block of a chunk. -/
def chunkEnd : UInt32 := 2

/-- Marks a block that holds two chaining values. -/
def parent : UInt32 := 4

/-- Marks the last compression of the whole digest. -/
def root : UInt32 := 8

/-! ## The compression function -/

/-- Rotate the bits of a word to the right. -/
def rotateRight (x n : UInt32) : UInt32 := (x >>> n) ||| (x <<< (32 - n))

/-- Mix two message words into four words of the state. -/
def mix (s : Words) (a b c d : Fin 16) (x y : UInt32) : Words :=
  let va := s[a] + s[b] + x
  let vd := rotateRight (s[d] ^^^ va) 16
  let vc := s[c] + vd
  let vb := rotateRight (s[b] ^^^ vc) 12
  let va := va + vb + y
  let vd := rotateRight (vd ^^^ va) 8
  let vc := vc + vd
  let vb := rotateRight (vb ^^^ vc) 7
  (((s.set a va).set b vb).set c vc).set d vd

/-- Mix all message words into the columns, then the diagonals, of the state. -/
def round (s m : Words) : Words :=
  let s := mix s 0 4 8 12 m[0] m[1]
  let s := mix s 1 5 9 13 m[2] m[3]
  let s := mix s 2 6 10 14 m[4] m[5]
  let s := mix s 3 7 11 15 m[6] m[7]
  let s := mix s 0 5 10 15 m[8] m[9]
  let s := mix s 1 6 11 12 m[10] m[11]
  let s := mix s 2 7 8 13 m[12] m[13]
  mix s 3 4 9 14 m[14] m[15]

/-- The order of the message words in the next round. -/
def permute (m : Words) : Words :=
  #v[m[2], m[6], m[3], m[10], m[7], m[0], m[4], m[13],
    m[1], m[11], m[12], m[5], m[9], m[14], m[15], m[8]]

/-- Some rounds, with the message words in a new order after each. -/
def rounds : Nat → Words → Words → Words
  | 0, s, _ => s
  | n + 1, s, m => rounds n (round s m) (permute m)

/-- The chaining value after a block. -/
def compress (chain : Chain) (block : Words) (counter : UInt64) (length flags : UInt32) : Chain :=
  let s : Words := #v[chain[0], chain[1], chain[2], chain[3], chain[4], chain[5], chain[6],
    chain[7], start[0], start[1], start[2], start[3], counter.toUInt32, (counter >>> 32).toUInt32,
    length, flags]
  let s := rounds 7 s block
  #v[s[0] ^^^ s[8], s[1] ^^^ s[9], s[2] ^^^ s[10], s[3] ^^^ s[11],
    s[4] ^^^ s[12], s[5] ^^^ s[13], s[6] ^^^ s[14], s[7] ^^^ s[15]]

/-! ## Blocks and chunks -/

/-- The words of a block of at most 64 bytes, the missing bytes being zero. -/
def words (block : Bytes) : Words :=
  let bytes := block.toArray
  Vector.ofFn fun i : Fin 16 =>
    let byte (j : Nat) : UInt32 := (bytes.getD (4 * i.val + j) 0).toUInt32
    byte 0 ||| (byte 1 <<< 8) ||| (byte 2 <<< 16) ||| (byte 3 <<< 24)

/-- A byte string cut into pieces of one size, the last of which may be shorter. -/
def pieces (size : Nat) (pos : 0 < size) (bytes : Bytes) : List Bytes :=
  match h : bytes.drop size with
  | [] => [bytes]
  | b :: rest =>
    have : rest.length + 1 < bytes.length := by
      have := congrArg List.length h
      simp only [List.length_drop, List.length_cons] at this
      omega
    bytes.take size :: pieces size pos (b :: rest)
termination_by bytes.length

/-- A compression that waits to learn whether it is the root. -/
structure Pending where
  chain : Chain
  block : Words
  counter : UInt64
  length : UInt32
  flags : UInt32

/-- Carry out a waiting compression, with a flag added. -/
def Pending.finish (p : Pending) (flag : UInt32) : Chain :=
  compress p.chain p.block p.counter p.length (p.flags ||| flag)

/-- Compress the blocks of a chunk but for the last. -/
def chunkFrom (counter : UInt64) (chain : Chain) (flags : UInt32) : List Bytes → Pending
  | [] => ⟨chain, words [], counter, 0, flags ||| chunkEnd⟩
  | [b] => ⟨chain, words b, counter, UInt32.ofNat b.length, flags ||| chunkEnd⟩
  | b :: rest => chunkFrom counter (compress chain (words b) counter 64 flags) 0 rest

/-- The last compression of a chunk. -/
def chunk (counter : UInt64) (bytes : Bytes) : Pending :=
  chunkFrom counter start chunkStart (pieces 64 (by decide) bytes)

/-! ## The tree -/

/-- The compression that joins two subtrees. -/
def join (left right : Pending) : Pending :=
  let l := left.finish 0
  let r := right.finish 0
  ⟨start, (l ++ r).cast rfl, 0, 64, parent⟩

/-- The number of leaves on the left of a tree: the largest power of two below their number. -/
def leftLeaves (n : Nat) : Nat := 1 <<< (n - 1).log2

theorem leftLeaves_pos (n : Nat) : 0 < leftLeaves n := by
  rw [leftLeaves, Nat.one_shiftLeft]
  exact Nat.two_pow_pos _

theorem leftLeaves_lt {n : Nat} (h : 1 < n) : leftLeaves n < n := by
  have := Nat.log2_self_le (n := n - 1) (by omega)
  rw [leftLeaves, Nat.one_shiftLeft]
  omega

/-- The last compression of the tree over some leaves. -/
def tree : List Pending → Pending
  | [] => chunk 0 []
  | [leaf] => leaf
  | a :: b :: rest =>
    let leaves := a :: b :: rest
    let n := leftLeaves leaves.length
    join (tree (leaves.take n)) (tree (leaves.drop n))
termination_by leaves => leaves.length
decreasing_by
  all_goals
    have := leftLeaves_pos (a :: b :: rest).length
    have := leftLeaves_lt (n := (a :: b :: rest).length) (by simp)
    simp only [List.length_take, List.length_drop, List.length_cons] at *
    omega

/-- The chaining value of the root. -/
def rootChain (bytes : Bytes) : Chain :=
  let chunks := (pieces 1024 (by decide) bytes).zipIdx
  (tree (chunks.map fun c => chunk (UInt64.ofNat c.2) c.1)).finish root

/-- The digest of a byte string. -/
def digest (bytes : Bytes) : Octets 32 :=
  ⟨(rootChain bytes).toList.flatMap fun w => LittleEndian.encode 4 w.toNat, by
    simp [List.length_flatMap, List.map_const']⟩

end WebOfTrust.Blake3
