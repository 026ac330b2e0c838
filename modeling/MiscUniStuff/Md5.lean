import MiscUniStuff.ByteOrder

/-! `md5.c` and `md5.h`: MD5 sums of memory and of streams. A step that would read or write
outside its object is `none`. -/
namespace MiscUniStuff
namespace Pingu
namespace Md5

open ByteOrder

/-- What the file is compiled for: the byte order of the machine, and whether
`WORDS_BIGENDIAN` is defined. -/
structure Build where
  order : Order
  wordsBigendian : Bool

/-- `SWAP`. -/
def Build.swap (b : Build) (n : UInt32) : UInt32 :=
  if b.wordsBigendian then
    (n <<< 24) ||| ((n &&& (0xff00 : UInt32)) <<< 8) ||| ((n >>> 8) &&& (0xff00 : UInt32)) |||
      (n >>> 24)
  else n

/-- `rol`. -/
def rol (x : UInt32) (n : ℕ) : UInt32 := (x <<< UInt32.ofNat n) ||| (x >>> UInt32.ofNat (32-n))

/-- The variables `A`, `B`, `C` and `D`. -/
structure Registers where
  A : UInt32
  B : UInt32
  C : UInt32
  D : UInt32
  deriving DecidableEq

/-- The names of these variables. -/
inductive Register
  | A | B | C | D
  deriving DecidableEq

def Registers.get (r : Registers) : Register → UInt32
  | .A => r.A
  | .B => r.B
  | .C => r.C
  | .D => r.D

def Registers.set (r : Registers) (x : UInt32) : Register → Registers
  | .A => { r with A := x }
  | .B => { r with B := x }
  | .C => { r with C := x }
  | .D => { r with D := x }

/-- A `char [128]`. -/
abbrev Buffer := { bytes : List UInt8 // bytes.length = 128 }

/-- `struct md5_ctx`. -/
structure Md5Ctx extends Registers where
  total0 : UInt32
  total1 : UInt32
  buflen : UInt32
  buffer : Buffer

/-- `memcpy (&dst[offset], src, n)`, the function of the library (`STDC_HEADERS` or
`HAVE_MEMCPY`). With neither it is a macro for `bcopy`, whose missing value is used. -/
def memcpy (dst : Buffer) (offset : ℕ) (src : List UInt8) (n : ℕ) : Option Buffer :=
  if h : offset + n ≤ 128 ∧ n ≤ src.length then
    some ⟨dst.1.take offset ++ src.take n ++ dst.1.drop (offset+n),by
      have hdst := dst.2
      simp only [List.length_append,List.length_take,List.length_drop]
      omega⟩
  else none

/-- `md5_init_ctx`. -/
def md5InitCtx (ctx : Md5Ctx) : Md5Ctx :=
  { ctx with
    A := 0x67452301
    B := 0xefcdab89
    C := 0x98badcfe
    D := 0x10325476
    total0 := 0
    total1 := 0
    buflen := 0 }

/-! ### `md5_process_block` -/

def FF (b c d : UInt32) : UInt32 := d ^^^ (b &&& (c ^^^ d))
def FG (b c d : UInt32) : UInt32 := FF d b c
def FH (b c d : UInt32) : UInt32 := b ^^^ c ^^^ d
def FI (b c d : UInt32) : UInt32 := c ^^^ (b ||| ~~~d)

/-- The macros that `OP` is given. -/
inductive Macro
  | FF | FG | FH | FI
  deriving DecidableEq

def Macro.apply : Macro → UInt32 → UInt32 → UInt32 → UInt32
  | .FF => Md5.FF
  | .FG => Md5.FG
  | .FH => Md5.FH
  | .FI => Md5.FI

/-- What both macros `OP` do to the registers; `x` is the word they take. -/
def Registers.op (r : Registers) (f : Macro) (a b c d : Register) (x : UInt32) (s : ℕ)
    (T : UInt32) : Registers :=
  let r := r.set (r.get a + (f.apply (r.get b) (r.get c) (r.get d) + x + T)) a
  let r := r.set (rol (r.get a) s) a
  r.set (r.get a + r.get b) a

/-- A line `OP (a, b, c, d, s, T)` of the first round. -/
structure FirstOp where
  a : Register
  b : Register
  c : Register
  d : Register
  s : ℕ
  T : UInt32
  deriving DecidableEq

/-- A line `OP (f, a, b, c, d, k, s, T)` of the later rounds. -/
structure Op extends FirstOp where
  f : Macro
  k : ℕ
  deriving DecidableEq

/-- The lines of the second to fourth round in the order of the arguments of `OP`. -/
def OP (f : Macro) (a b c d : Register) (k s : ℕ) (T : UInt32) : Op :=
  { a, b, c, d, s, T, f, k }

open Register

def round1 : List FirstOp :=
  [⟨A,B,C,D,7,0xd76aa478⟩,
   ⟨D,A,B,C,12,0xe8c7b756⟩,
   ⟨C,D,A,B,17,0x242070db⟩,
   ⟨B,C,D,A,22,0xc1bdceee⟩,
   ⟨A,B,C,D,7,0xf57c0faf⟩,
   ⟨D,A,B,C,12,0x4787c62a⟩,
   ⟨C,D,A,B,17,0xa8304613⟩,
   ⟨B,C,D,A,22,0xfd469501⟩,
   ⟨A,B,C,D,7,0x698098d8⟩,
   ⟨D,A,B,C,12,0x8b44f7af⟩,
   ⟨C,D,A,B,17,0xffff5bb1⟩,
   ⟨B,C,D,A,22,0x895cd7be⟩,
   ⟨A,B,C,D,7,0x6b901122⟩,
   ⟨D,A,B,C,12,0xfd987193⟩,
   ⟨C,D,A,B,17,0xa679438e⟩,
   ⟨B,C,D,A,22,0x49b40821⟩]

def round2 : List Op :=
  [OP .FG A B C D  1  5 0xf61e2562,
   OP .FG D A B C  6  9 0xc040b340,
   OP .FG C D A B 11 14 0x265e5a51,
   OP .FG B C D A  0 20 0xe9b6c7aa,
   OP .FG A B C D  5  5 0xd62f105d,
   OP .FG D A B C 10  9 0x02441453,
   OP .FG C D A B 15 14 0xd8a1e681,
   OP .FG B C D A  4 20 0xe7d3fbc8,
   OP .FG A B C D  9  5 0x21e1cde6,
   OP .FG D A B C 14  9 0xc33707d6,
   OP .FG C D A B  3 14 0xf4d50d87,
   OP .FG B C D A  8 20 0x455a14ed,
   OP .FG A B C D 13  5 0xa9e3e905,
   OP .FG D A B C  2  9 0xfcefa3f8,
   OP .FG C D A B  7 14 0x676f02d9,
   OP .FG B C D A 12 20 0x8d2a4c8a]

def round3 : List Op :=
  [OP .FH A B C D  5  4 0xfffa3942,
   OP .FH D A B C  8 11 0x8771f681,
   OP .FH C D A B 11 16 0x6d9d6122,
   OP .FH B C D A 14 23 0xfde5380c,
   OP .FH A B C D  1  4 0xa4beea44,
   OP .FH D A B C  4 11 0x4bdecfa9,
   OP .FH C D A B  7 16 0xf6bb4b60,
   OP .FH B C D A 10 23 0xbebfbc70,
   OP .FH A B C D 13  4 0x289b7ec6,
   OP .FH D A B C  0 11 0xeaa127fa,
   OP .FH C D A B  3 16 0xd4ef3085,
   OP .FH B C D A  6 23 0x04881d05,
   OP .FH A B C D  9  4 0xd9d4d039,
   OP .FH D A B C 12 11 0xe6db99e5,
   OP .FH C D A B 15 16 0x1fa27cf8,
   OP .FH B C D A  2 23 0xc4ac5665]

def round4 : List Op :=
  [OP .FI A B C D  0  6 0xf4292244,
   OP .FI D A B C  7 10 0x432aff97,
   OP .FI C D A B 14 15 0xab9423a7,
   OP .FI B C D A  5 21 0xfc93a039,
   OP .FI A B C D 12  6 0x655b59c3,
   OP .FI D A B C  3 10 0x8f0ccc92,
   OP .FI C D A B 10 15 0xffeff47d,
   OP .FI B C D A  1 21 0x85845dd1,
   OP .FI A B C D  8  6 0x6fa87e4f,
   OP .FI D A B C 15 10 0xfe2ce6e0,
   OP .FI C D A B  6 15 0xa3014314,
   OP .FI B C D A 13 21 0x4e0811a1,
   OP .FI A B C D  4  6 0xf7537e82,
   OP .FI D A B C 11 10 0xbd3af235,
   OP .FI C D A B  2 15 0x2ad7d2bb,
   OP .FI B C D A  9 21 0xeb86d391]

/-- What the first round changes: the registers, `correct_words` up to `cwp`, and the words
that are left of the block. -/
structure Work where
  registers : Registers
  correctWords : List UInt32
  words : List UInt32

/-- A line of the first round. -/
def FirstOp.run (m : Build) (o : FirstOp) (w : Work) : Work :=
  let x := m.swap (w.words.headD 0)
  { registers := w.registers.op .FF o.a o.b o.c o.d x o.s o.T
    correctWords := w.correctWords ++ [x]
    words := w.words.tail }

/-- A line of the later rounds. -/
def Op.run (correctWords : List UInt32) (o : Op) (r : Registers) : Registers :=
  r.op o.f o.a o.b o.c o.d (correctWords.getD o.k 0) o.s o.T

/-- The words that start at `bytes`. -/
def loadWords (o : Order) : ℕ → List UInt8 → List UInt32
  | 0, _ => []
  | n+1, bytes => UInt32.ofNat (load o (bytes.take 4)) :: loadWords o n (bytes.drop 4)

/-- `A += A_save` and the like. -/
def Registers.add (r save : Registers) : Registers :=
  ⟨r.A + save.A,r.B + save.B,r.C + save.C,r.D + save.D⟩

/-- The body of the loop, for the block of 64 bytes at `words`. -/
def processOne (m : Build) (words : List UInt8) (r : Registers) : Registers :=
  let w := round1.foldl (fun w o => o.run m w) ⟨r,[],loadWords m.order 16 words⟩
  ((round2 ++ round3 ++ round4).foldl (fun r o => o.run w.correctWords r) w.registers).add r

/-- `while (words < endp)`: one round for every 16 words that are left, also where the last
of them are fewer. -/
def blockLoop (m : Build) : ℕ → List UInt8 → Registers → Option Registers
  | 0, _, r => some r
  | rounds+1, words, r =>
    if words.length < 64 then none
    else blockLoop m rounds (words.drop 64) (processOne m words r)

/-- `md5_process_block`; `buffer` is what lies in memory from there on. -/
def md5ProcessBlock (m : Build) (buffer : List UInt8) (len : ℕ) (ctx : Md5Ctx) : Option Md5Ctx :=
  let nwords := len/4
  let total0 := ctx.total0 + UInt32.ofNat len
  -- the comparison is made in `size_t`
  let total1 := if total0.toNat < len then ctx.total1 + 1 else ctx.total1
  (blockLoop m ((nwords+15)/16) buffer ctx.toRegisters).map fun r =>
    { ctx with toRegisters := r, total0 := total0, total1 := total1 }

/-! ### `md5_process_bytes` -/

/-- `UNALIGNED_P`. -/
def UnalignedP (p : ℕ) : Prop := p % 4 ≠ 0

instance (p : ℕ) : Decidable (UnalignedP p) := inferInstanceAs (Decidable (p % 4 ≠ 0))

/-- The first part after the bytes have been added, `filled` of them in all. -/
def flushBuffer (m : Build) (filled : ℕ) (ctx : Md5Ctx) : Option Md5Ctx :=
  if ctx.buflen > 64 then
    (md5ProcessBlock m ctx.buffer.1 (ctx.buflen &&& ~~~63).toNat ctx).bind fun ctx =>
    let buflen := ctx.buflen &&& 63
    (memcpy ctx.buffer 0 (ctx.buffer.1.drop (filled/64*64)) buflen.toNat).map fun buffer =>
    { ctx with buflen, buffer }
  else some ctx

/-- The first part: bytes that wait in the buffer get more behind them. The result is also
how many have been taken. -/
def fillBuffer (m : Build) (buffer : List UInt8) (ctx : Md5Ctx) : Option (ℕ × Md5Ctx) :=
  if ctx.buflen ≠ 0 then
    let leftOver := ctx.buflen.toNat
    let add := if 128 - leftOver > buffer.length then buffer.length else 128 - leftOver
    (memcpy ctx.buffer leftOver buffer add).bind fun dst =>
    let ctx := { ctx with buffer := dst, buflen := ctx.buflen + UInt32.ofNat add }
    (flushBuffer m (leftOver+add) ctx).map fun ctx => (add,ctx)
  else some (0,ctx)

/-- `while (len > 64)`. -/
def unalignedLoop (m : Build) (buffer : List UInt8) (ctx : Md5Ctx) :
    Option (List UInt8 × Md5Ctx) :=
  if 64 < buffer.length then
    (memcpy ctx.buffer 0 buffer 64).bind fun dst =>
    (md5ProcessBlock m dst.1 64 { ctx with buffer := dst }).bind fun ctx =>
    unalignedLoop m (buffer.drop 64) ctx
  else some (buffer,ctx)
termination_by buffer.length
decreasing_by
  rw [List.length_drop]
  omega

/-- The second part: the available complete blocks; `address` is that of the buffer. -/
def completeBlocks (m : Build) (address : ℕ) (buffer : List UInt8) (ctx : Md5Ctx) :
    Option (List UInt8 × Md5Ctx) :=
  if buffer.length ≥ 64 then
    if UnalignedP address then unalignedLoop m buffer ctx
    else
      (md5ProcessBlock m buffer (buffer.length/64*64) ctx).bind fun ctx =>
      some (buffer.drop (buffer.length/64*64),ctx)
  else some (buffer,ctx)

/-- The third part: the remaining bytes go to the internal buffer. -/
def keepRemaining (m : Build) (buffer : List UInt8) (ctx : Md5Ctx) : Option Md5Ctx :=
  if buffer.length > 0 then
    let leftOver := ctx.buflen.toNat
    (memcpy ctx.buffer leftOver buffer buffer.length).bind fun dst =>
    let ctx := { ctx with buffer := dst }
    let leftOver := leftOver + buffer.length
    if leftOver ≥ 64 then
      (md5ProcessBlock m ctx.buffer.1 64 ctx).bind fun ctx =>
      let leftOver := leftOver - 64
      (memcpy ctx.buffer 0 (ctx.buffer.1.drop 64) leftOver).map fun buffer =>
      { ctx with buffer, buflen := UInt32.ofNat leftOver }
    else some { ctx with buflen := UInt32.ofNat leftOver }
  else some ctx

/-- `md5_process_bytes`; `len` is the length of the list. -/
def md5ProcessBytes (m : Build) (address : ℕ) (buffer : List UInt8) (ctx : Md5Ctx) :
    Option Md5Ctx :=
  (fillBuffer m buffer ctx).bind fun (add,ctx) =>
  (completeBlocks m (address+add) (buffer.drop add) ctx).bind fun (buffer,ctx) =>
  keepRemaining m buffer ctx

/-! ### The digest -/

/-- `SWAP` of a word, as it lies in memory. -/
def Build.storeWord (m : Build) (n : UInt32) : List UInt8 := store m.order 4 (m.swap n).toNat

/-- `md5_read_ctx`. -/
def md5ReadCtx (m : Build) (r : Registers) : List UInt8 :=
  m.storeWord r.A ++ m.storeWord r.B ++ m.storeWord r.C ++ m.storeWord r.D

def fillbuf : List UInt8 := 0x80 :: List.replicate 63 0

/-- `md5_finish_ctx`. -/
def md5FinishCtx (m : Build) (ctx : Md5Ctx) : Option (List UInt8) :=
  let bytes := ctx.buflen
  let total0 := ctx.total0 + bytes
  let total1 := if total0 < bytes then ctx.total1 + 1 else ctx.total1
  let pad := if bytes ≥ 56 then 64 + 56 - bytes.toNat else 56 - bytes.toNat
  (memcpy ctx.buffer bytes.toNat fillbuf pad).bind fun buffer =>
  (memcpy buffer (bytes.toNat+pad) (m.storeWord (total0 <<< 3)) 4).bind fun buffer =>
  let high := (total1 <<< 3) ||| (total0 >>> 29)
  (memcpy buffer (bytes.toNat+pad+4) (m.storeWord high) 4).bind fun buffer =>
  let ctx := { ctx with total0, total1, buffer }
  (md5ProcessBlock m buffer.1 (bytes.toNat+pad+8) ctx).map fun ctx =>
  md5ReadCtx m ctx.toRegisters

/-- What reading a file brings: the bytes, in the portions they arrive in, whether they end
with an error, and whether the end is noticed together with the last of them. -/
structure Reads where
  arrivals : List { bytes : List UInt8 // bytes ≠ [] }
  failed : Bool
  early : Bool

def Reads.content (r : Reads) : List UInt8 := (r.arrivals.map Subtype.val).flatten

/-- An open file; `atEnd` tells whether a read has come to the end. -/
structure File extends Reads where
  atEnd : Bool

/-- The file after `fopen`. -/
def Reads.fopen (r : Reads) : File := { r with atEnd := false }

/-- `fread (ptr, 1, n, stream)`: at most one arrival. -/
def File.fread (f : File) (n : ℕ) : List UInt8 × File :=
  match f.arrivals with
  | [] => ([],{ f with atEnd := true })
  | bytes::arrivals =>
    if h : n < bytes.1.length then
      (bytes.1.take n,{ f with arrivals := ⟨bytes.1.drop n,by simpa using h⟩ :: arrivals })
    else (bytes.1,{ f with arrivals })

def File.feof (f : File) : Bool := !f.failed && (f.atEnd || f.early && f.arrivals.isEmpty)

def File.ferror (f : File) : Bool := f.failed && f.atEnd

def BLOCKSIZE : ℕ := 4096

theorem File.length_fread (f : File) (n : ℕ) : (f.fread n).1.length ≤ n := by
  unfold fread
  split
  · exact Nat.zero_le n
  split
  · exact List.length_take_le ..
  · exact Nat.le_of_not_lt ‹_›

/-- How the loop that reads one block ends. -/
inductive ReadResult
  | error
  | processPartialBlock (buffer : List UInt8)
  | block (buffer : List UInt8) (stream : File)

/-- The loop that reads one block; `sum` is the number of bytes in the buffer. -/
def readBlock (buffer : List UInt8) (stream : File) : ReadResult :=
  let n := stream.fread (BLOCKSIZE - buffer.length)
  let sum := buffer ++ n.1
  if sum.length = BLOCKSIZE then .block sum n.2
  else if n.1.length = 0 then
    if n.2.ferror then .error else .processPartialBlock sum
  else if n.2.feof then .processPartialBlock sum
  else readBlock sum n.2
termination_by BLOCKSIZE - buffer.length
decreasing_by
  have hlen := stream.length_fread (BLOCKSIZE - buffer.length)
  simp only [n,sum,List.length_append] at *
  omega

theorem File.content_fread (f : File) (n : ℕ) :
    (f.fread n).1 ++ (f.fread n).2.content = f.content := by
  unfold fread Reads.content
  split
  · simp_all
  split
  · simp_all [← List.append_assoc]
  · simp_all

theorem readBlock_block {buffer : List UInt8} {stream : File} {block : List UInt8} {rest : File}
    (h : readBlock buffer stream = .block block rest) :
    block.length = BLOCKSIZE ∧ block ++ rest.content = buffer ++ stream.content := by
  induction buffer, stream using readBlock.induct with
  | case1 buffer stream n sum hsum =>
    rw [readBlock,if_pos hsum] at h
    cases h
    refine ⟨hsum,?_⟩
    rw [List.append_assoc,stream.content_fread]
  | case2 buffer stream n sum hsum hzero herr =>
    rw [readBlock,if_neg hsum,if_pos hzero,if_pos herr] at h
    cases h
  | case3 buffer stream n sum hsum hzero herr =>
    rw [readBlock,if_neg hsum,if_pos hzero,if_neg herr] at h
    cases h
  | case4 buffer stream n sum hsum hzero heof =>
    rw [readBlock,if_neg hsum,if_neg hzero,if_pos heof] at h
    cases h
  | case5 buffer stream n sum hsum hzero heof ih =>
    rw [readBlock,if_neg hsum,if_neg hzero,if_neg heof] at h
    have hh := ih h
    refine ⟨hh.1,hh.2.trans ?_⟩
    rw [List.append_assoc,stream.content_fread]

/-- The loop over the whole stream. -/
def streamLoop (m : Build) (address : ℕ) (stream : File) (ctx : Md5Ctx) :
    Option (Option (List UInt8)) :=
  match _h : readBlock [] stream with
  | .error => some none
  | .block buffer stream =>
    (md5ProcessBlock m buffer BLOCKSIZE ctx).bind fun ctx => streamLoop m address stream ctx
  | .processPartialBlock buffer =>
    (if buffer.length > 0 then md5ProcessBytes m address buffer ctx else some ctx).bind fun ctx =>
    (md5FinishCtx m ctx).map some
termination_by stream.content.length
decreasing_by
  have hh := readBlock_block _h
  have hlen := congrArg List.length hh.2
  simp only [List.length_append,List.nil_append,hh.1,BLOCKSIZE] at hlen
  omega

section Loop
variable {m : Build} {address : ℕ} {stream rest : File} {ctx : Md5Ctx} {buffer : List UInt8}

theorem streamLoop_error (h : readBlock [] stream = .error) :
    streamLoop m address stream ctx = some none := by
  rw [streamLoop]
  split
  · rfl
  · simp_all
  · simp_all

theorem streamLoop_block (h : readBlock [] stream = .block buffer rest) :
    streamLoop m address stream ctx =
      (md5ProcessBlock m buffer BLOCKSIZE ctx).bind (streamLoop m address rest) := by
  rw [streamLoop]
  split
  · simp_all
  · rename_i hh
    rw [h] at hh
    cases hh
    rfl
  · simp_all

theorem streamLoop_processPartialBlock (h : readBlock [] stream = .processPartialBlock buffer) :
    streamLoop m address stream ctx =
      (if buffer.length > 0 then md5ProcessBytes m address buffer ctx else some ctx).bind fun ctx =>
        (md5FinishCtx m ctx).map some := by
  rw [streamLoop]
  split
  · simp_all
  · simp_all
  · rename_i hh
    rw [h] at hh
    cases hh
    rfl

end Loop

/-- `md5_stream`: the digest, or `none` where it returns 1. The context and the buffer are on
the stack, the buffer at `address`. -/
def md5Stream (m : Build) (junk : Md5Ctx) (address : ℕ) (stream : File) :
    Option (Option (List UInt8)) :=
  streamLoop m address stream (md5InitCtx junk)

end Md5
end Pingu
end MiscUniStuff
