/-!
# BLAKE3

The BLAKE3 digest of a list of bytes, in its plain hashing mode with 32 bytes of output.

A message is cut into chunks of 1024 bytes, a chunk into blocks of 64 bytes, and a block is mixed
into eight chaining words by `compress`.  The chaining words of the chunks are then paired in a
binary tree whose left subtrees are complete, up to a single root.
-/

namespace WgslKernel.Blake3

/-- The initial chaining words. -/
def initial : Array UInt32 :=
  #[0x6A09E667, 0xBB67AE85, 0x3C6EF372, 0xA54FF53A, 0x510E527F, 0x9B05688C, 0x1F83D9AB, 0x5BE0CD19]

/-- Where each message word comes from in the next round. -/
def permutation : Array Nat := #[2, 6, 3, 10, 7, 0, 4, 13, 1, 11, 12, 5, 9, 14, 15, 8]

/-! ## Flags -/

/-- Flag of the first block of a chunk. -/
def chunkStart : UInt32 := 1

/-- Flag of the last block of a chunk. -/
def chunkEnd : UInt32 := 2

/-- Flag of a node above chunks. -/
def parent : UInt32 := 4

/-- Flag of the output. -/
def root : UInt32 := 8

/-! ## Compression -/

/-- A word of an array. -/
def word (a : Array UInt32) (i : Nat) : UInt32 := a.getD i 0

/-- Rotation of a word to the right. -/
def rotateRight (x : UInt32) (n : UInt32) : UInt32 := (x >>> n) ||| (x <<< (32 - n))

/-- Mix two message words into one column or diagonal of the state. -/
def mix (v : Array UInt32) (a b c d : Nat) (x y : UInt32) : Array UInt32 :=
  let va := word v a + word v b + x
  let vd := rotateRight (word v d ^^^ va) 16
  let vc := word v c + vd
  let vb := rotateRight (word v b ^^^ vc) 12
  let va := va + vb + y
  let vd := rotateRight (vd ^^^ va) 8
  let vc := vc + vd
  let vb := rotateRight (vb ^^^ vc) 7
  (((v.setIfInBounds a va).setIfInBounds b vb).setIfInBounds c vc).setIfInBounds d vd

/-- Mix the columns, then the diagonals. -/
def mixAll (v m : Array UInt32) : Array UInt32 :=
  let v := mix v 0 4 8 12 (word m 0) (word m 1)
  let v := mix v 1 5 9 13 (word m 2) (word m 3)
  let v := mix v 2 6 10 14 (word m 4) (word m 5)
  let v := mix v 3 7 11 15 (word m 6) (word m 7)
  let v := mix v 0 5 10 15 (word m 8) (word m 9)
  let v := mix v 1 6 11 12 (word m 10) (word m 11)
  let v := mix v 2 7 8 13 (word m 12) (word m 13)
  mix v 3 4 9 14 (word m 14) (word m 15)

/-- The message words of the next round. -/
def permute (m : Array UInt32) : Array UInt32 := permutation.map (word m)

/-- The given number of rounds. -/
def rounds : Nat → Array UInt32 → Array UInt32 → Array UInt32
  | 0, v, _ => v
  | n + 1, v, m => rounds n (mixAll v m) (permute m)

/-- Mix a block into chaining words. -/
def compress (chaining block : Array UInt32) (counter : Nat) (blockLength : Nat)
    (flags : UInt32) : Array UInt32 :=
  let v := chaining ++
    #[word initial 0, word initial 1, word initial 2, word initial 3,
      UInt32.ofNat counter, UInt32.ofNat (counter / 0x100000000), UInt32.ofNat blockLength, flags]
  let v := rounds 7 v block
  (Array.range 8).map fun i => word v i ^^^ word v (i + 8)

/-! ## Blocks and chunks -/

/-- The little-endian word at the head of a list of bytes, which counts as followed by zeros. -/
def wordAt (bytes : List UInt8) : UInt32 :=
  match bytes with
  | [] => 0
  | a :: rest =>
    let b := rest.getD 0 0
    let c := rest.getD 1 0
    let d := rest.getD 2 0
    a.toUInt32 ||| (b.toUInt32 <<< 8) ||| (c.toUInt32 <<< 16) ||| (d.toUInt32 <<< 24)

/-- The first `count` words of a list of bytes. -/
def words : Nat → List UInt8 → List UInt32
  | 0, _ => []
  | count + 1, bytes => wordAt bytes :: words count (bytes.drop 4)

/-- The last compression of a subtree, kept back because the root's differs by a flag. -/
structure Node where
  chaining : Array UInt32
  block : Array UInt32
  counter : Nat
  blockLength : Nat
  flags : UInt32

/-- The chaining words of a subtree below the root. -/
def Node.output (n : Node) : Array UInt32 :=
  compress n.chaining n.block n.counter n.blockLength n.flags

/-- The chaining words of the root. -/
def Node.rootOutput (n : Node) : Array UInt32 :=
  compress n.chaining n.block 0 n.blockLength (n.flags ||| root)

/-- Take in the blocks of a chunk, at most `blocks`, but for the last with at most 64 bytes. -/
def chunkFrom (counter : Nat) : Nat → Array UInt32 → UInt32 → List UInt8 → Node
  | 0, chaining, start, bytes =>
    ⟨chaining, (words 16 bytes).toArray, counter, bytes.length, start ||| chunkEnd⟩
  | blocks + 1, chaining, start, bytes =>
    if bytes.length ≤ 64 then
      ⟨chaining, (words 16 bytes).toArray, counter, bytes.length, start ||| chunkEnd⟩
    else
      let block := (words 16 (bytes.take 64)).toArray
      chunkFrom counter blocks (compress chaining block counter 64 start) 0 (bytes.drop 64)

/-- The subtree of one chunk. -/
def chunk (counter : Nat) (bytes : List UInt8) : Node :=
  chunkFrom counter 16 initial chunkStart bytes

/-- The subtree over two subtrees. -/
def join (left right : Node) : Node :=
  ⟨initial, left.output ++ right.output, 0, 64, parent⟩

/-- The largest power of two below `n`, for `n` at least two; `fuel` bounds the doublings. -/
def splitPoint : Nat → Nat → Nat → Nat
  | 0, p, _ => p
  | fuel + 1, p, n => if 2 * p < n then splitPoint fuel (2 * p) n else p

/-- The subtree over bytes of `count` chunks, from a given one on.  `depth` bounds its height. -/
def tree : Nat → Nat → Nat → List UInt8 → Node
  | 0, counter, _, bytes => chunk counter bytes
  | depth + 1, counter, count, bytes =>
    if count ≤ 1 then chunk counter bytes
    else
      let left := splitPoint count 1 count
      join (tree depth counter left (bytes.take (1024 * left)))
        (tree depth (counter + left) (count - left) (bytes.drop (1024 * left)))

/-! ## Digests -/

/-- The root of the tree of a message. -/
def rootOf (bytes : List UInt8) : Node :=
  let count := max 1 ((bytes.length + 1023) / 1024)
  tree count 0 count bytes

/-- Lowercase hexadecimal digits of a byte. -/
def hexByte (b : Nat) : List Char := [Nat.digitChar (b / 16), Nat.digitChar (b % 16)]

/-- The bytes of a word in little-endian order, in hexadecimal. -/
def hexWord (w : UInt32) : List Char :=
  let n := w.toNat
  hexByte (n % 256) ++ hexByte (n / 256 % 256) ++ hexByte (n / 65536 % 256) ++
    hexByte (n / 16777216)

/-- The digest of a message, as 64 hexadecimal digits. -/
def hex (bytes : List UInt8) : String :=
  String.ofList ((rootOf bytes).rootOutput.toList.flatMap hexWord)

end WgslKernel.Blake3
