import BlackCat.ByteMemory

/-!
The MD5 functions of ServerLib, from their source. Words are unsigned 32-bit
numbers; `in` is written as bytes and read as words, so it is modelled as the
memory it occupies, and the byte order of the machine and the width of its
pointers are parameters. A write behind the end of an array makes the whole call
fail.
-/
namespace BlackCat.Md5

open ByteMemory

inductive ByteOrder
  | little
  | big
  deriving DecidableEq, Repr

/-- The width of a pointer: that of the Win32 builds, and that of the 64-bit ones. -/
inductive PointerWidth
  | bits32
  | bits64
  deriving DecidableEq, Repr

def PointerWidth.bytes : PointerWidth → ℕ
  | .bits32 => 4
  | .bits64 => 8

/-- The four bytes by which the machine stores a word. -/
def storeWord : ByteOrder → UInt32 → List Byte
  | .little, w => valueBytes 4 w.toNat
  | .big, w => (valueBytes 4 w.toNat).reverse

/-- The word the machine reads from four bytes. -/
def readWord : ByteOrder → List Byte → UInt32
  | .little, bytes => UInt32.ofNat (bytesValue bytes)
  | .big, bytes => UInt32.ofNat (bytesValue bytes.reverse)

def wordAt (order : ByteOrder) (mem : List Byte) (i : ℕ) : UInt32 :=
  readWord order ((mem.drop (4 * i)).take 4)

/-- `memcpy` into an array from an offset on. -/
def memcpy (mem : List Byte) (offset : ℕ) (bytes : List Byte) : Option (List Byte) :=
  if offset + bytes.length ≤ mem.length then
    some (mem.take offset ++ bytes ++ mem.drop (offset + bytes.length))
  else none

/-- `memset` with zero. -/
def memset (mem : List Byte) (offset count : ℕ) : Option (List Byte) :=
  memcpy mem offset (List.replicate count 0)

/-- `byteSwap`, in place: each word is read byte by byte before it is stored. -/
def byteSwap (order : ByteOrder) : ℕ → List Byte → List Byte
  | words + 1, p0 :: p1 :: p2 :: p3 :: rest =>
    storeWord order ((p3.toUInt32 <<< 8 ||| p2.toUInt32) <<< 16 |||
      (p1.toUInt32 <<< 8 ||| p0.toUInt32)) ++ byteSwap order words rest
  | _, mem => mem

/-- The four words of `buf`, under the names they have in `MD5Transform`. -/
structure Buf where
  a : UInt32
  b : UInt32
  c : UInt32
  d : UInt32
  deriving DecidableEq, Repr

def Buf.store (order : ByteOrder) (buf : Buf) : List Byte :=
  storeWord order buf.a ++ (storeWord order buf.b ++ (storeWord order buf.c ++
    storeWord order buf.d))

def Buf.read (order : ByteOrder) (mem : List Byte) : Buf :=
  ⟨wordAt order mem 0, wordAt order mem 1, wordAt order mem 2, wordAt order mem 3⟩

/-- `MD5Context`: `input` is the memory of `in`. -/
structure MD5Context where
  buf : Buf
  bytes0 : UInt32
  bytes1 : UInt32
  input : List Byte
  deriving DecidableEq, Repr

def f1 (x y z : UInt32) : UInt32 := z ^^^ (x &&& (y ^^^ z))

def f2 (x y z : UInt32) : UInt32 := f1 z x y

def f3 (x y z : UInt32) : UInt32 := x ^^^ y ^^^ z

def f4 (x y z : UInt32) : UInt32 := y ^^^ (x ||| ~~~z)

inductive CoreFunction
  | f1
  | f2
  | f3
  | f4
  deriving DecidableEq, Repr

def CoreFunction.apply : CoreFunction → UInt32 → UInt32 → UInt32 → UInt32
  | .f1 => Md5.f1
  | .f2 => Md5.f2
  | .f3 => Md5.f3
  | .f4 => Md5.f4

/-- The local variables of `MD5Transform`. -/
inductive Register
  | a
  | b
  | c
  | d
  deriving DecidableEq, Repr

def Buf.get (r : Buf) : Register → UInt32
  | .a => r.a
  | .b => r.b
  | .c => r.c
  | .d => r.d

def Buf.set (r : Buf) (v : UInt32) : Register → Buf
  | .a => { r with a := v }
  | .b => { r with b := v }
  | .c => { r with c := v }
  | .d => { r with d := v }

/-- One use of `MD5STEP`: its arguments, with the index into `in` and the constant
added to that word. -/
structure Step where
  f : CoreFunction
  w : Register
  x : Register
  y : Register
  z : Register
  index : ℕ
  constant : UInt32
  s : UInt32
  deriving DecidableEq, Repr

def md5Step (input : ℕ → UInt32) (r : Buf) (step : Step) : Buf :=
  let w := r.get step.w + (step.f.apply (r.get step.x) (r.get step.y) (r.get step.z) +
    (input step.index + step.constant))
  r.set ((w <<< step.s ||| w >>> (32 - step.s)) + r.get step.x) step.w

/-- The body of `MD5Transform`, line by line. -/
def md5Steps : List Step := [
  ⟨.f1, .a, .b, .c, .d, 0, 0xd76aa478, 7⟩,
  ⟨.f1, .d, .a, .b, .c, 1, 0xe8c7b756, 12⟩,
  ⟨.f1, .c, .d, .a, .b, 2, 0x242070db, 17⟩,
  ⟨.f1, .b, .c, .d, .a, 3, 0xc1bdceee, 22⟩,
  ⟨.f1, .a, .b, .c, .d, 4, 0xf57c0faf, 7⟩,
  ⟨.f1, .d, .a, .b, .c, 5, 0x4787c62a, 12⟩,
  ⟨.f1, .c, .d, .a, .b, 6, 0xa8304613, 17⟩,
  ⟨.f1, .b, .c, .d, .a, 7, 0xfd469501, 22⟩,
  ⟨.f1, .a, .b, .c, .d, 8, 0x698098d8, 7⟩,
  ⟨.f1, .d, .a, .b, .c, 9, 0x8b44f7af, 12⟩,
  ⟨.f1, .c, .d, .a, .b, 10, 0xffff5bb1, 17⟩,
  ⟨.f1, .b, .c, .d, .a, 11, 0x895cd7be, 22⟩,
  ⟨.f1, .a, .b, .c, .d, 12, 0x6b901122, 7⟩,
  ⟨.f1, .d, .a, .b, .c, 13, 0xfd987193, 12⟩,
  ⟨.f1, .c, .d, .a, .b, 14, 0xa679438e, 17⟩,
  ⟨.f1, .b, .c, .d, .a, 15, 0x49b40821, 22⟩,

  ⟨.f2, .a, .b, .c, .d, 1, 0xf61e2562, 5⟩,
  ⟨.f2, .d, .a, .b, .c, 6, 0xc040b340, 9⟩,
  ⟨.f2, .c, .d, .a, .b, 11, 0x265e5a51, 14⟩,
  ⟨.f2, .b, .c, .d, .a, 0, 0xe9b6c7aa, 20⟩,
  ⟨.f2, .a, .b, .c, .d, 5, 0xd62f105d, 5⟩,
  ⟨.f2, .d, .a, .b, .c, 10, 0x02441453, 9⟩,
  ⟨.f2, .c, .d, .a, .b, 15, 0xd8a1e681, 14⟩,
  ⟨.f2, .b, .c, .d, .a, 4, 0xe7d3fbc8, 20⟩,
  ⟨.f2, .a, .b, .c, .d, 9, 0x21e1cde6, 5⟩,
  ⟨.f2, .d, .a, .b, .c, 14, 0xc33707d6, 9⟩,
  ⟨.f2, .c, .d, .a, .b, 3, 0xf4d50d87, 14⟩,
  ⟨.f2, .b, .c, .d, .a, 8, 0x455a14ed, 20⟩,
  ⟨.f2, .a, .b, .c, .d, 13, 0xa9e3e905, 5⟩,
  ⟨.f2, .d, .a, .b, .c, 2, 0xfcefa3f8, 9⟩,
  ⟨.f2, .c, .d, .a, .b, 7, 0x676f02d9, 14⟩,
  ⟨.f2, .b, .c, .d, .a, 12, 0x8d2a4c8a, 20⟩,

  ⟨.f3, .a, .b, .c, .d, 5, 0xfffa3942, 4⟩,
  ⟨.f3, .d, .a, .b, .c, 8, 0x8771f681, 11⟩,
  ⟨.f3, .c, .d, .a, .b, 11, 0x6d9d6122, 16⟩,
  ⟨.f3, .b, .c, .d, .a, 14, 0xfde5380c, 23⟩,
  ⟨.f3, .a, .b, .c, .d, 1, 0xa4beea44, 4⟩,
  ⟨.f3, .d, .a, .b, .c, 4, 0x4bdecfa9, 11⟩,
  ⟨.f3, .c, .d, .a, .b, 7, 0xf6bb4b60, 16⟩,
  ⟨.f3, .b, .c, .d, .a, 10, 0xbebfbc70, 23⟩,
  ⟨.f3, .a, .b, .c, .d, 13, 0x289b7ec6, 4⟩,
  ⟨.f3, .d, .a, .b, .c, 0, 0xeaa127fa, 11⟩,
  ⟨.f3, .c, .d, .a, .b, 3, 0xd4ef3085, 16⟩,
  ⟨.f3, .b, .c, .d, .a, 6, 0x04881d05, 23⟩,
  ⟨.f3, .a, .b, .c, .d, 9, 0xd9d4d039, 4⟩,
  ⟨.f3, .d, .a, .b, .c, 12, 0xe6db99e5, 11⟩,
  ⟨.f3, .c, .d, .a, .b, 15, 0x1fa27cf8, 16⟩,
  ⟨.f3, .b, .c, .d, .a, 2, 0xc4ac5665, 23⟩,

  ⟨.f4, .a, .b, .c, .d, 0, 0xf4292244, 6⟩,
  ⟨.f4, .d, .a, .b, .c, 7, 0x432aff97, 10⟩,
  ⟨.f4, .c, .d, .a, .b, 14, 0xab9423a7, 15⟩,
  ⟨.f4, .b, .c, .d, .a, 5, 0xfc93a039, 21⟩,
  ⟨.f4, .a, .b, .c, .d, 12, 0x655b59c3, 6⟩,
  ⟨.f4, .d, .a, .b, .c, 3, 0x8f0ccc92, 10⟩,
  ⟨.f4, .c, .d, .a, .b, 10, 0xffeff47d, 15⟩,
  ⟨.f4, .b, .c, .d, .a, 1, 0x85845dd1, 21⟩,
  ⟨.f4, .a, .b, .c, .d, 8, 0x6fa87e4f, 6⟩,
  ⟨.f4, .d, .a, .b, .c, 15, 0xfe2ce6e0, 10⟩,
  ⟨.f4, .c, .d, .a, .b, 6, 0xa3014314, 15⟩,
  ⟨.f4, .b, .c, .d, .a, 13, 0x4e0811a1, 21⟩,
  ⟨.f4, .a, .b, .c, .d, 4, 0xf7537e82, 6⟩,
  ⟨.f4, .d, .a, .b, .c, 11, 0xbd3af235, 10⟩,
  ⟨.f4, .c, .d, .a, .b, 2, 0x2ad7d2bb, 15⟩,
  ⟨.f4, .b, .c, .d, .a, 9, 0xeb86d391, 21⟩]

/-- The words added at the end of `MD5Transform`. -/
def Buf.add (buf r : Buf) : Buf := ⟨buf.a + r.a, buf.b + r.b, buf.c + r.c, buf.d + r.d⟩

def md5Transform (buf : Buf) (input : ℕ → UInt32) : Buf :=
  buf.add (md5Steps.foldl (md5Step input) buf)

/-- `byteSwap(ctx->in, 16)` and `MD5Transform(ctx->buf, ctx->in)`. -/
def swapTransform (order : ByteOrder) (ctx : MD5Context) : MD5Context :=
  let input := byteSwap order 16 ctx.input
  { ctx with buf := md5Transform ctx.buf (wordAt order input), input := input }

/-- `MD5Init`, which leaves `in` as it is. -/
def md5Init (ctx : MD5Context) : MD5Context :=
  { ctx with
    buf := ⟨0x67452301, 0xefcdab89, 0x98badcfe, 0x10325476⟩
    bytes0 := 0
    bytes1 := 0 }

/-- The loop of `MD5Update` over blocks of 64 bytes, and the rest behind it. -/
def md5Chunks (order : ByteOrder) (ctx : MD5Context) (data : List Byte) : Option MD5Context :=
  if 64 ≤ data.length then do
    let input ← memcpy ctx.input 0 (data.take 64)
    md5Chunks order (swapTransform order { ctx with input := input }) (data.drop 64)
  else do
    let input ← memcpy ctx.input 0 data
    some { ctx with input := input }
termination_by data.length
decreasing_by
  rw [List.length_drop]
  omega

def md5Update (order : ByteOrder) (ctx : MD5Context) (data : List Byte) : Option MD5Context :=
  let len := UInt32.ofNat data.length
  let t := ctx.bytes0
  let ctx := { ctx with
    bytes0 := t + len
    bytes1 := if t + len < t then ctx.bytes1 + 1 else ctx.bytes1 }
  let t := 64 - (t &&& 0x3f)
  if len < t then do
    let input ← memcpy ctx.input (64 - t.toNat) data
    some { ctx with input := input }
  else do
    let input ← memcpy ctx.input (64 - t.toNat) (data.take t.toNat)
    md5Chunks order (swapTransform order { ctx with input := input }) (data.drop t.toNat)

/-- `MD5Final` from `memset(p, 0, count)` on: the digest, and what is left in the
context. The `sizeof` in the call that should clear it is that of a pointer. -/
def md5Finish (order : ByteOrder) (pointer : PointerWidth) (ctx : MD5Context) (p count : ℕ) :
    Option (List Byte × MD5Context) := do
  let input ← memset ctx.input p count
  let input ← memcpy (byteSwap order 14 input) 56 (storeWord order (ctx.bytes0 <<< 3))
  let input ← memcpy input 60 (storeWord order (ctx.bytes1 <<< 3 ||| ctx.bytes0 >>> 29))
  let digest := byteSwap order 4 ((md5Transform ctx.buf (wordAt order input)).store order)
  let cleared ← memset digest 0 pointer.bytes
  some (digest, { ctx with buf := Buf.read order cleared, input := input })

def md5Final (order : ByteOrder) (pointer : PointerWidth) (ctx : MD5Context) :
    Option (List Byte × MD5Context) := do
  let count := (ctx.bytes0 &&& 0x3f).toNat
  let input ← memcpy ctx.input count [0x80]
  if 55 < count then do
    let input ← memset input (count + 1) (63 - count)
    md5Finish order pointer (swapTransform order { ctx with input := input }) 0 56
  else md5Finish order pointer { ctx with input := input } (count + 1) (55 - count)

/-- `GetMD5` on a context with any contents. -/
def getMD5 (order : ByteOrder) (pointer : PointerWidth) (context : MD5Context)
    (buf : List Byte) : Option (List Byte) := do
  let context ← md5Update order (md5Init context) buf
  let (digest, _) ← md5Final order pointer context
  some digest

end BlackCat.Md5
