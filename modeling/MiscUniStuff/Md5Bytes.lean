import MiscUniStuff.Md5Spec

/-! `md5_process_bytes` and `md5_finish_ctx` in any number of pieces against MD5 of the
whole. -/
namespace MiscUniStuff
namespace Pingu
namespace Md5

open ByteOrder BlockHash

/-- The number in both words of `total`. -/
def Md5Ctx.count (ctx : Md5Ctx) : ℕ := ctx.total1.toNat*2^32 + ctx.total0.toNat

/-- What `md5_process_block` makes of this number. -/
def addLength (count len : ℕ) : ℕ :=
  (count/2^32 + if (count+len)%2^32 < len then 1 else 0)%2^32*2^32 + (count+len)%2^32

/-- The counter is right where at most one carry is missing from its high word. -/
theorem addLength_eq {count len : ℕ} (h : count%2^32 + len < 2^33) :
    addLength count len = (count+len)%2^64 := by
  unfold addLength
  split
  · omega
  · omega

/-- MD5 with padding for another length than that of the message. -/
noncomputable def Rfc.digestCounting (o : Order) (m : List UInt8) (k : ℕ) : List UInt8 :=
  Rfc.output o (fold 64 (Rfc.compress o) Rfc.initial
    (m ++ (Rfc.padding o).fill m.length ++ (Rfc.padding o).count k))

theorem Rfc.digestCounting_length (o : Order) (m : List UInt8) :
    Rfc.digestCounting o m m.length = Rfc.digest o m := rfl

/-- The context has absorbed `input` but for the bytes `waiting`, and counts a length of
`total` with these. -/
structure Absorbing (m : Build) (input : List UInt8) (total : ℕ) (waiting : List UInt8)
    (ctx : Md5Ctx) : Prop where
  absorbed : Absorbed 64 (Rfc.compress m.words) Rfc.initial input ctx.toRegisters waiting
  counted : (ctx.count + waiting.length)%2^64 = total%2^64

/-- The bytes that wait are in the buffer. -/
structure Holding (m : Build) (input : List UInt8) (total : ℕ) (ctx : Md5Ctx) : Prop where
  buflen_le : ctx.buflen.toNat ≤ 64
  absorbing : Absorbing m input total (ctx.buffer.1.take ctx.buflen.toNat) ctx

theorem holding_init (m : Build) (junk : Md5Ctx) : Holding m [] 0 (md5InitCtx junk) where
  buflen_le := by simp [md5InitCtx]
  absorbing := ⟨Absorbed.start,by simp [Md5Ctx.count,md5InitCtx]⟩

theorem Absorbing.more {m : Build} {input waiting : List UInt8} {total : ℕ} {ctx : Md5Ctx}
    (h : Absorbing m input total waiting ctx) (bytes : List UInt8) :
    Absorbing m (input ++ bytes) (total+bytes.length) (waiting ++ bytes) ctx where
  absorbed := h.absorbed.more bytes
  counted := by
    have hcounted := h.counted
    rw [List.length_append]
    omega

/-! ### Whole blocks -/

theorem blockLoop_eq (m : Build) {k : ℕ} {front : List UInt8} (rest : List UInt8) (r : Registers)
    (hfront : front.length = 64*k) :
    blockLoop m k (front ++ rest) r = some (blocks 64 (Rfc.compress m.words) k r front) := by
  induction k generalizing front r with
  | zero => rfl
  | succ k ih =>
    have htake : (front.take 64).length = 64 := by rw [List.length_take]; omega
    have hdrop : (front.drop 64).length = 64*k := by rw [List.length_drop]; omega
    have hone := processOne_eq m r htake (front.drop 64 ++ rest)
    rw [← List.append_assoc,List.take_append_drop] at hone
    have hlong : ¬(front ++ rest).length < 64 := by rw [List.length_append]; omega
    rw [blockLoop,if_neg hlong,List.drop_append_of_le_length (by omega),hone,ih _ hdrop,blocks]

/-- What `md5_process_block` does with a length of `len` if it compresses `front`. -/
structure Processed (m : Build) (front : List UInt8) (len : ℕ) (ctx ctx' : Md5Ctx) : Prop where
  registers : ctx'.toRegisters = fold 64 (Rfc.compress m.words) ctx.toRegisters front
  count : ctx'.count = addLength ctx.count len
  buflen : ctx'.buflen = ctx.buflen
  buffer : ctx'.buffer = ctx.buffer

/-- The two words of `total` after a call. -/
theorem count_add (ctx : Md5Ctx) (len : ℕ) :
    (if (ctx.total0 + UInt32.ofNat len).toNat < len then ctx.total1 + 1
      else ctx.total1).toNat*2^32 + (ctx.total0 + UInt32.ofNat len).toNat =
    addLength ctx.count len := by
  have htotal0 := ctx.total0.toNat_lt
  have hlow : (ctx.total0 + UInt32.ofNat len).toNat = (ctx.count+len)%2^32 := by
    rw [UInt32.toNat_add,UInt32.toNat_ofNat',Md5Ctx.count]
    omega
  have hhigh : ctx.count/2^32 = ctx.total1.toNat := by
    rw [Md5Ctx.count]
    omega
  have htotal1 : (if (ctx.count+len)%2^32 < len then ctx.total1 + 1 else ctx.total1).toNat =
      (ctx.total1.toNat + if (ctx.count+len)%2^32 < len then 1 else 0)%2^32 := by
    split
    · exact UInt32.toNat_add ..
    · exact (Nat.mod_eq_of_lt ctx.total1.toNat_lt).symm
  rw [addLength,hhigh,← htotal1,← hlow]

theorem processRounds (m : Build) {front : List UInt8} {len : ℕ}
    (hfront : front.length = 64*((len/4+15)/16)) (rest : List UInt8) (ctx : Md5Ctx) :
    ∃ ctx', md5ProcessBlock m (front ++ rest) len ctx = some ctx' ∧
      Processed m front len ctx ctx' := by
  have hloop := blockLoop_eq m rest ctx.toRegisters hfront
  refine ⟨{ ctx with
    toRegisters := blocks 64 (Rfc.compress m.words) ((len/4+15)/16) ctx.toRegisters front
    total0 := ctx.total0 + UInt32.ofNat len
    total1 := if (ctx.total0 + UInt32.ofNat len).toNat < len
      then ctx.total1 + 1 else ctx.total1 },?_,?_,count_add ctx len,rfl,rfl⟩
  · rw [md5ProcessBlock,hloop,Option.map_some]
  · rw [fold,hfront,Nat.mul_div_cancel_left _ (by omega)]

/-- Whole blocks. -/
theorem processBlock (m : Build) {front : List UInt8} (hfront : 64 ∣ front.length)
    (rest : List UInt8) (ctx : Md5Ctx) :
    ∃ ctx', md5ProcessBlock m (front ++ rest) front.length ctx = some ctx' ∧
      Processed m front front.length ctx ctx' :=
  processRounds m (by omega) rest ctx

theorem blockLoop_none (m : Build) {k : ℕ} {buffer : List UInt8} (r : Registers)
    (h : buffer.length < 64*k) : blockLoop m k buffer r = none := by
  induction k generalizing buffer r with
  | zero => omega
  | succ k ih =>
    rw [blockLoop]
    split
    · rfl
    · exact ih _ (by rw [List.length_drop]; omega)

/-- For any length, also one that is no multiple of 64: what is compressed are the blocks
that the words of the length begin in, all of which have to be in memory, and what is
counted is the length. -/
theorem md5ProcessBlock_any (m : Build) (buffer : List UInt8) (len : ℕ) (ctx : Md5Ctx) :
    if 64*((len/4+15)/16) ≤ buffer.length then
      ∃ ctx', md5ProcessBlock m buffer len ctx = some ctx' ∧
        Processed m (buffer.take (64*((len/4+15)/16))) len ctx ctx'
    else md5ProcessBlock m buffer len ctx = none := by
  split
  · rename_i hle
    have hlen : (buffer.take (64*((len/4+15)/16))).length = 64*((len/4+15)/16) := by
      rw [List.length_take]
      omega
    have hh := processRounds m hlen (buffer.drop (64*((len/4+15)/16))) ctx
    rwa [List.take_append_drop] at hh
  · rename_i hlong
    rw [md5ProcessBlock,blockLoop_none m _ (by omega),Option.map_none]

/-- Whole blocks that waited, fewer than 2^32 bytes. -/
theorem Absorbing.block {m : Build} {input front waiting : List UInt8} {total : ℕ}
    {ctx ctx' : Md5Ctx} (h : Absorbing m input total (front ++ waiting) ctx)
    (hfront : 64 ∣ front.length) (hlen : front.length < 2^32)
    (hstep : Processed m front front.length ctx ctx') :
    Absorbing m input total waiting ctx' where
  absorbed := by
    rw [hstep.registers]
    exact h.absorbed.compress hfront
  counted := by
    have hcounted := h.counted
    have hcount := hstep.count
    rw [addLength_eq (by omega)] at hcount
    rw [List.length_append] at hcounted
    omega

/-! ### The parts of `md5_process_bytes` -/

/-- After `memcpy` the copied bytes are behind those before them. -/
theorem memcpy_eq (dst : Buffer) (src : List UInt8) {offset n : ℕ} (hdst : offset + n ≤ 128)
    (hsrc : n ≤ src.length) : ∃ dst' : Buffer, memcpy dst offset src n = some dst' ∧
      dst'.1.take (offset+n) = dst.1.take offset ++ src.take n := by
  refine ⟨_,dif_pos ⟨hdst,hsrc⟩,?_⟩
  have hlen : (dst.1.take offset ++ src.take n).length = offset + n := by
    rw [List.length_append,List.length_take,List.length_take,dst.2]
    omega
  rw [List.take_append_of_le_length hlen.ge,List.take_of_length_le hlen.le]

theorem toNat_and_63 (x : UInt32) : (x &&& 63).toNat = x.toNat%64 := by
  rw [UInt32.toNat_and]
  exact Nat.and_two_pow_sub_one_eq_mod x.toNat 6

theorem toNat_and_not_63 (x : UInt32) : (x &&& ~~~63).toNat = x.toNat/64*64 := by
  have hx : x.toNat < 2^32 := x.toNat_lt
  have hmask : (~~~63 : UInt32).toNat = (2^26-1) <<< 6 := by decide
  have hshift : x.toNat/64*64 = x.toNat >>> 6 <<< 6 := by
    rw [Nat.shiftRight_eq_div_pow,Nat.shiftLeft_eq]
  rw [UInt32.toNat_and,hmask,hshift]
  apply Nat.eq_of_testBit_eq
  intro i
  simp only [Nat.testBit_and,Nat.testBit_shiftLeft,Nat.testBit_shiftRight,
    Nat.testBit_two_pow_sub_one]
  by_cases hlow : 6 ≤ i
  · rw [Nat.add_sub_cancel' hlow]
    by_cases hhigh : i - 6 < 26
    · simp [hlow,hhigh]
    · have hbit : x.toNat.testBit i = false :=
        Nat.testBit_lt_two_pow (hx.trans_le (Nat.pow_le_pow_right (by omega) (by omega)))
      simp [hbit]
  · simp [hlow]

/-- The bytes that wait, and the whole blocks at their front processed. -/
theorem Absorbing.wholeBlocks {m : Build} {input : List UInt8} {total n : ℕ} (ctx : Md5Ctx)
    (h : Absorbing m input total (ctx.buffer.1.take n) ctx) (hn : n ≤ 128) {k : ℕ} (hk : 64*k ≤ n) :
    ∃ ctx', md5ProcessBlock m ctx.buffer.1 (64*k) ctx = some ctx' ∧
      Absorbing m input total ((ctx.buffer.1.drop (64*k)).take (n-64*k)) ctx' ∧
      ctx'.buflen = ctx.buflen ∧ ctx'.buffer = ctx.buffer := by
  have hlen : (ctx.buffer.1.take (64*k)).length = 64*k := by
    rw [List.length_take,ctx.buffer.2]
    omega
  have hdvd : 64 ∣ (ctx.buffer.1.take (64*k)).length := by
    rw [hlen]
    exact dvd_mul_right 64 k
  obtain ⟨ctx',hrun,hstep⟩ := processBlock m hdvd (ctx.buffer.1.drop (64*k)) ctx
  rw [hlen,List.take_append_drop] at hrun
  have hsplit : ctx.buffer.1.take n =
      ctx.buffer.1.take (64*k) ++ (ctx.buffer.1.drop (64*k)).take (n-64*k) := by
    rw [← List.take_add,Nat.add_sub_cancel' hk]
  rw [hsplit] at h
  exact ⟨ctx',hrun,h.block hdvd (by omega) hstep,hstep.buflen,hstep.buffer⟩

theorem flushBuffer_eq {m : Build} {input : List UInt8} {total n : ℕ} (ctx : Md5Ctx)
    (h : Absorbing m input total (ctx.buffer.1.take n) ctx) (hn : ctx.buflen.toNat = n)
    (hle : n ≤ 128) : ∃ ctx', flushBuffer m n ctx = some ctx' ∧ Holding m input total ctx' ∧
      (n = 128 → ctx'.buflen = 0) := by
  by_cases hbig : ctx.buflen > 64
  · have hgt : 64 < n := by
      rw [← hn]
      exact UInt32.lt_iff_toNat_lt.mp hbig
    have hlen : (ctx.buflen &&& ~~~63).toNat = 64*(n/64) := by
      rw [toNat_and_not_63,hn,Nat.mul_comm]
    obtain ⟨ctx',hrun,habs,hbl,hbuf⟩ := h.wholeBlocks ctx hle (k:=n/64) (by omega)
    have hrest : (ctx'.buflen &&& 63).toNat = n%64 := by rw [hbl,toNat_and_63,hn]
    obtain ⟨dst,hdst,htake⟩ := memcpy_eq ctx'.buffer (ctx'.buffer.1.drop (n/64*64))
      (show 0 + n%64 ≤ 128 by omega) (by rw [List.length_drop,ctx'.buffer.2]; omega)
    refine ⟨{ ctx' with buflen := ctx'.buflen &&& 63, buffer := dst },?_,⟨?_,?_⟩,?_⟩
    · rw [flushBuffer,if_pos hbig,hlen,hrun,Option.bind_some]
      simp only [hrest,hdst,Option.map_some]
    · rw [hrest]
      omega
    · have hwaiting : dst.1.take (n%64) =
          (ctx.buffer.1.drop (64*(n/64))).take (n-64*(n/64)) := by
        rw [Nat.zero_add,List.take_zero,List.nil_append,hbuf] at htake
        rw [htake,Nat.mul_comm (n/64) 64]
        congr 1
        omega
      rw [← hwaiting,← hrest] at habs
      exact ⟨habs.absorbed,habs.counted⟩
    · intro hfull
      apply UInt32.toNat_inj.mp
      rw [hrest,hfull]
      rfl
  · have hsmall : n ≤ 64 := by
      rw [← hn]
      exact Nat.le_of_not_lt fun hh => hbig (UInt32.lt_iff_toNat_lt.mpr hh)
    refine ⟨ctx,if_neg hbig,⟨hn.trans_le hsmall,?_⟩,fun hfull => by omega⟩
    rw [hn]
    exact h

theorem fillBuffer_eq (m : Build) {input : List UInt8} {total : ℕ} {ctx : Md5Ctx}
    (h : Holding m input total ctx) (bytes : List UInt8) :
    ∃ add ctx', fillBuffer m bytes ctx = some (add,ctx') ∧ add ≤ bytes.length ∧
      Holding m (input ++ bytes.take add) (total+add) ctx' ∧
      (add = bytes.length ∨ ctx'.buflen = 0) := by
  have hle := h.buflen_le
  by_cases hzero : ctx.buflen = 0
  · refine ⟨0,ctx,?_,Nat.zero_le _,?_,Or.inr hzero⟩
    · simp [fillBuffer,hzero]
    · simpa using h
  set left := ctx.buflen.toNat with hleft
  set add := if 128 - left > bytes.length then bytes.length else 128 - left with hadd
  have hfit : left + add ≤ 128 ∧ add ≤ bytes.length ∧
      (add = bytes.length ∨ left + add = 128) := by
    rw [hadd]
    split
    · omega
    · omega
  obtain ⟨dst,hdst,htake⟩ := memcpy_eq ctx.buffer bytes hfit.1 hfit.2.1
  have hbuflen : (ctx.buflen + UInt32.ofNat add).toNat = left + add := by
    rw [UInt32.toNat_add,UInt32.toNat_ofNat',← hleft]
    omega
  have hmore := h.absorbing.more (bytes.take add)
  rw [← hleft,← htake,List.length_take,Nat.min_eq_left hfit.2.1] at hmore
  have habs : Absorbing m (input ++ bytes.take add) (total+add) (dst.1.take (left+add))
      { ctx with buffer := dst, buflen := ctx.buflen + UInt32.ofNat add } :=
    ⟨hmore.absorbed,hmore.counted⟩
  obtain ⟨ctx',hrun,hholding,hfull⟩ := flushBuffer_eq
    { ctx with buffer := dst, buflen := ctx.buflen + UInt32.ofNat add } habs hbuflen hfit.1
  refine ⟨add,ctx',?_,hfit.2.1,hholding,hfit.2.2.imp_right hfull⟩
  rw [fillBuffer,if_pos hzero]
  simp only [← hleft,← hadd,hdst,Option.bind_some,hrun,Option.map_some]

/-- Whole blocks that come from outside while nothing waits. -/
theorem Holding.block {m : Build} {input front : List UInt8} {total : ℕ} {ctx ctx' : Md5Ctx}
    (h : Holding m input total ctx) (hempty : ctx.buflen = 0) (hfront : 64 ∣ front.length)
    (hlen : front.length < 2^32) (hstep : Processed m front front.length ctx ctx') :
    Holding m (input ++ front) (total+front.length) ctx' := by
  have hbuflen : ctx'.buflen.toNat = 0 := by rw [hstep.buflen,hempty]; rfl
  have hnone : ctx.buffer.1.take ctx.buflen.toNat = [] := by rw [hempty]; rfl
  have hmore := h.absorbing.more front
  rw [hnone,List.nil_append,← List.append_nil front] at hmore
  have hblock := hmore.block hfront hlen hstep
  rw [List.append_nil] at hblock
  refine ⟨by omega,?_⟩
  rw [hbuflen,List.take_zero]
  exact hblock

theorem unalignedLoop_eq (m : Build) {input : List UInt8} (bytes : List UInt8) {total : ℕ}
    {ctx : Md5Ctx} (h : Holding m input total ctx) (hempty : ctx.buflen = 0) :
    ∃ front rest ctx', unalignedLoop m bytes ctx = some (rest,ctx') ∧ bytes = front ++ rest ∧
      rest.length ≤ 64 ∧ Holding m (input ++ front) (total+front.length) ctx' ∧
      ctx'.buflen = 0 := by
  induction hn : bytes.length using Nat.strong_induction_on generalizing bytes input total ctx with
  | _ n ih =>
    by_cases hlong : 64 < bytes.length
    · have hfront : (bytes.take 64).length = 64 := by rw [List.length_take]; omega
      obtain ⟨dst,hdst,htake⟩ := memcpy_eq ctx.buffer bytes (show 0 + 64 ≤ 128 by omega)
        hlong.le
      rw [Nat.zero_add,List.take_zero,List.nil_append] at htake
      have hcopied : Holding m input total { ctx with buffer := dst } := by
        have hnone (buffer : Buffer) : buffer.1.take ctx.buflen.toNat = [] := by rw [hempty]; rfl
        have habs := h.absorbing
        rw [hnone] at habs
        refine ⟨h.buflen_le,?_⟩
        rw [hnone]
        exact ⟨habs.absorbed,habs.counted⟩
      have hdvd : 64 ∣ (bytes.take 64).length := ⟨1,hfront⟩
      obtain ⟨ctx₁,hrun,hstep⟩ := processBlock m hdvd (dst.1.drop 64) { ctx with buffer := dst }
      rw [hfront,← htake,List.take_append_drop] at hrun
      have hblock := hcopied.block hempty hdvd (by omega) hstep
      have hempty₁ : ctx₁.buflen = 0 := hstep.buflen.trans hempty
      obtain ⟨front,rest,ctx',hloop,hsplit,hrest,hholding,hbuflen⟩ :=
        ih _ (by rw [List.length_drop]; omega) (bytes.drop 64) hblock hempty₁ rfl
      refine ⟨bytes.take 64 ++ front,rest,ctx',?_,?_,hrest,?_,hbuflen⟩
      · rw [unalignedLoop,if_pos hlong,hdst,Option.bind_some,hrun,Option.bind_some,hloop]
      · rw [List.append_assoc,← hsplit,List.take_append_drop]
      · rw [List.length_append,← List.append_assoc,← Nat.add_assoc]
        exact hholding
    · refine ⟨[],bytes,ctx,?_,rfl,by omega,?_,hempty⟩
      · rw [unalignedLoop,if_neg hlong]
      · simpa using h

theorem completeBlocks_eq (m : Build) (address : ℕ) {input : List UInt8} (bytes : List UInt8)
    {total : ℕ} {ctx : Md5Ctx} (h : Holding m input total ctx)
    (hempty : bytes = [] ∨ ctx.buflen = 0)
    (hlen : UnalignedP address ∨ bytes.length < 2^32) :
    ∃ front rest ctx', completeBlocks m address bytes ctx = some (rest,ctx') ∧
      bytes = front ++ rest ∧ rest.length ≤ 64 ∧
      Holding m (input ++ front) (total+front.length) ctx' ∧ (rest = [] ∨ ctx'.buflen = 0) := by
  by_cases hlong : bytes.length ≥ 64
  · have hbuflen : ctx.buflen = 0 := hempty.resolve_left fun hnil => by simp [hnil] at hlong
    by_cases hun : UnalignedP address
    · obtain ⟨front,rest,ctx',hloop,hsplit,hrest,hholding,hzero⟩ :=
        unalignedLoop_eq m bytes h hbuflen
      refine ⟨front,rest,ctx',?_,hsplit,hrest,hholding,Or.inr hzero⟩
      rw [completeBlocks,if_pos hlong,if_pos hun,hloop]
    · have hfront : (bytes.take (bytes.length/64*64)).length = bytes.length/64*64 := by
        rw [List.length_take]
        omega
      have hdvd : 64 ∣ (bytes.take (bytes.length/64*64)).length := by
        rw [hfront]
        exact dvd_mul_left 64 _
      obtain ⟨ctx',hrun,hstep⟩ := processBlock m hdvd (bytes.drop (bytes.length/64*64)) ctx
      rw [hfront,List.take_append_drop] at hrun
      have hblock := h.block hbuflen hdvd (by have := hlen.resolve_left hun; omega) hstep
      refine ⟨_,bytes.drop (bytes.length/64*64),ctx',?_,(List.take_append_drop _ _).symm,?_,hblock,
        Or.inr (hstep.buflen.trans hbuflen)⟩
      · rw [completeBlocks,if_pos hlong,if_neg hun,hrun,Option.bind_some]
      · rw [List.length_drop]
        omega
  · refine ⟨[],bytes,ctx,?_,rfl,by omega,?_,hempty⟩
    · rw [completeBlocks,if_neg hlong]
    · simpa using h

theorem keepRemaining_eq (m : Build) {input : List UInt8} (bytes : List UInt8) {total : ℕ}
    {ctx : Md5Ctx} (h : Holding m input total ctx) (hlen : bytes.length ≤ 64)
    (hempty : bytes = [] ∨ ctx.buflen = 0) : ∃ ctx', keepRemaining m bytes ctx = some ctx' ∧
      Holding m (input ++ bytes) (total+bytes.length) ctx' := by
  by_cases hpos : bytes.length > 0
  · have hbuflen : ctx.buflen.toNat = 0 := by
      rw [hempty.resolve_left (List.length_pos_iff.mp hpos)]
      rfl
    obtain ⟨dst,hdst,htake⟩ := memcpy_eq ctx.buffer bytes
      (show 0 + bytes.length ≤ 128 by omega) (le_refl _)
    have hmore := h.absorbing.more bytes
    rw [Nat.zero_add,List.take_zero,List.nil_append,List.take_length] at htake
    rw [hbuflen,List.take_zero,List.nil_append,← htake] at hmore
    have habs : Absorbing m (input ++ bytes) (total+bytes.length) (dst.1.take bytes.length)
        { ctx with buffer := dst } := by
      rw [htake] at hmore ⊢
      exact ⟨hmore.absorbed,hmore.counted⟩
    by_cases hfull : bytes.length ≥ 64
    · have hsame : bytes.length = 64 := Nat.le_antisymm hlen hfull
      obtain ⟨ctx',hrun,hblock,-,-⟩ := habs.wholeBlocks { ctx with buffer := dst }
        (by omega) (k:=1) (by omega)
      obtain ⟨dst₂,hdst₂,-⟩ := memcpy_eq ctx'.buffer (ctx'.buffer.1.drop 64)
        (show 0 + 0 ≤ 128 by omega) (Nat.zero_le _)
      refine ⟨{ ctx' with buffer := dst₂, buflen := 0 },?_,⟨by simp,?_⟩⟩
      · rw [keepRemaining,if_pos hpos]
        rw [Nat.mul_one] at hrun
        simp only [hbuflen,hdst,Option.bind_some,Nat.zero_add,if_pos hfull,hrun]
        simp only [hsame,Nat.sub_self,hdst₂,Option.map_some]
        rfl
      · have hnone : (dst.1.drop (64*1)).take (bytes.length-64*1) = [] := by rw [hsame]; rfl
        simp only [hnone] at hblock
        exact ⟨hblock.absorbed,hblock.counted⟩
    · have hbytes : (UInt32.ofNat bytes.length).toNat = bytes.length := by
        rw [UInt32.toNat_ofNat']
        omega
      refine ⟨{ ctx with buffer := dst, buflen := UInt32.ofNat bytes.length },?_,⟨?_,?_⟩⟩
      · rw [keepRemaining,if_pos hpos]
        simp only [hbuflen,hdst,Option.bind_some,Nat.zero_add,if_neg hfull]
      · rw [hbytes]
        exact hlen
      · rw [hbytes]
        exact ⟨habs.absorbed,habs.counted⟩
  · have hnil : bytes = [] := List.length_eq_zero_iff.mp (by omega)
    refine ⟨ctx,if_neg hpos,?_⟩
    simpa [hnil] using h

/-- One call of `md5_process_bytes`. -/
theorem md5ProcessBytes_eq (m : Build) (address : ℕ) {input bytes : List UInt8} {total : ℕ}
    {ctx : Md5Ctx} (h : Holding m input total ctx) (hlen : bytes.length < 2^32) :
    ∃ ctx', md5ProcessBytes m address bytes ctx = some ctx' ∧
      Holding m (input ++ bytes) (total+bytes.length) ctx' := by
  obtain ⟨add,ctx₁,hfill,hadd,hfilled,hempty⟩ := fillBuffer_eq m h bytes
  have hrest : bytes.drop add = [] ∨ ctx₁.buflen = 0 :=
    hempty.imp_left fun heq => by rw [heq,List.drop_length]
  obtain ⟨front,rest,ctx₂,hblocks,hsplit,hle,hblock,hnone⟩ := completeBlocks_eq m (address+add)
    (bytes.drop add) hfilled hrest (Or.inr (by rw [List.length_drop]; omega))
  obtain ⟨ctx₃,hkeep,hlast⟩ := keepRemaining_eq m rest hblock hle hnone
  have hall : bytes.take add ++ front ++ rest = bytes := by
    rw [List.append_assoc,← hsplit,List.take_append_drop]
  have htotal : total + add + front.length + rest.length = total + bytes.length := by
    have hlengths := congrArg List.length hall
    simp only [List.length_append,List.length_take] at hlengths
    omega
  refine ⟨ctx₃,?_,?_⟩
  · simp only [md5ProcessBytes,hfill,Option.bind_some,hblocks,hkeep]
  · rw [← htotal,← hall,← List.append_assoc,← List.append_assoc]
    exact hlast

/-! ### The end -/

/-- The filling that is copied from `fillbuf`. -/
theorem fillbuf_take {n : ℕ} (h : n < 64) :
    fillbuf.take (n+1) = 0x80 :: List.replicate n (0 : UInt8) := by
  rw [fillbuf,List.take_succ_cons,List.take_replicate]
  congr 2
  omega

theorem toNat_shiftLeft_3 (x : UInt32) : (x <<< 3).toNat = 8*x.toNat%2^32 := by
  rw [UInt32.toNat_shiftLeft]
  change x.toNat <<< 3%2^32 = _
  rw [Nat.shiftLeft_eq,Nat.mul_comm]

/-- The high word of the number of bits. -/
theorem toNat_high_bits (x y : UInt32) :
    ((x <<< 3) ||| (y >>> 29)).toNat = 8*x.toNat%2^32 + y.toNat/2^29 := by
  have hy := y.toNat_lt
  have hcarry : y.toNat/2^29 < 2^3 := by omega
  have hshift : 8*x.toNat%2^32 = (8*x.toNat%2^32/8) <<< 3 := by
    rw [Nat.shiftLeft_eq]
    omega
  rw [UInt32.toNat_or,toNat_shiftLeft_3,UInt32.toNat_shiftRight]
  change 8*x.toNat%2^32 ||| y.toNat >>> 29 = _
  rw [Nat.shiftRight_eq_div_pow,hshift,Nat.shiftLeft_add_eq_or_of_lt hcarry]

/-- What `md5_finish_ctx` writes behind the filling. -/
theorem count_eq_stores (m : Build) {ctx : Md5Ctx} {n : UInt32} {total : ℕ}
    (h : (ctx.count + n.toNat)%2^64 = total%2^64) :
    m.storeWord ((ctx.total0+n) <<< 3) ++ m.storeWord
      (((if ctx.total0+n < n then ctx.total1+1 else ctx.total1) <<< 3) |||
        ((ctx.total0+n) >>> 29)) = (Rfc.padding m.words).count total := by
  have htotal0 := ctx.total0.toNat_lt
  have htotal1 := ctx.total1.toNat_lt
  have hn := n.toNat_lt
  have hlow : (ctx.total0+n).toNat = total%2^32 := by
    rw [UInt32.toNat_add]
    rw [Md5Ctx.count] at h
    omega
  have hhigh : (if ctx.total0+n < n then ctx.total1+1 else ctx.total1).toNat =
      total%2^64/2^32 := by
    have hlow' : (ctx.total0.toNat+n.toNat)%2^32 = total%2^32 := by
      rw [← hlow,UInt32.toNat_add]
    rw [Md5Ctx.count] at h
    split
    · rename_i hcarry
      have hlt := UInt32.lt_iff_toNat_lt.mp hcarry
      rw [hlow] at hlt
      rw [UInt32.toNat_add]
      change (ctx.total1.toNat+1)%2^32 = _
      omega
    · rename_i hcarry
      have hge : n.toNat ≤ total%2^32 := by
        rw [← hlow]
        exact Nat.le_of_not_lt fun hh => hcarry (UInt32.lt_iff_toNat_lt.mpr hh)
      omega
  rw [storeWord_eq,storeWord_eq,toNat_shiftLeft_3,toNat_high_bits,hlow,hhigh]
  simp only [Rfc.padding]
  congr 2
  · omega
  · omega

/-- `md5_finish_ctx` with whatever length has been counted. -/
theorem md5FinishCtx_eq (m : Build) {input : List UInt8} {total : ℕ} {ctx : Md5Ctx}
    (h : Holding m input total ctx) :
    md5FinishCtx m ctx = some (Rfc.digestCounting m.words input total) := by
  have hle := h.buflen_le
  have hword (x : UInt32) : (m.storeWord x).length = 4 := by rw [storeWord_eq,length_store]
  set n := ctx.buflen.toNat with hn
  set pad := if ctx.buflen ≥ 56 then 64 + 56 - n else 56 - n with hpad
  have hfill : pad = (119-input.length%64)%64 + 1 ∧ n + pad ≤ 120 ∧ 64 ∣ n+pad+8 := by
    obtain ⟨front,hinput,hdvd,-⟩ := h.absorbing.absorbed
    have hlen := congrArg List.length hinput
    rw [List.length_append,List.length_take,ctx.buffer.2,← hn] at hlen
    have hge : ctx.buflen ≥ 56 ↔ 56 ≤ n := UInt32.le_iff_toNat_le
    rw [hpad]
    split
    · rename_i hbig
      have := hge.mp hbig
      omega
    · rename_i hsmall
      have := mt hge.mpr hsmall
      omega
  obtain ⟨b₁,hb₁,ht₁⟩ := memcpy_eq ctx.buffer fillbuf (show n + pad ≤ 128 by omega)
    (by rw [fillbuf,List.length_cons,List.length_replicate]; omega)
  obtain ⟨b₂,hb₂,ht₂⟩ := memcpy_eq b₁ (m.storeWord ((ctx.total0+ctx.buflen) <<< 3))
    (show n + pad + 4 ≤ 128 by omega) (hword _).ge
  obtain ⟨b₃,hb₃,ht₃⟩ := memcpy_eq b₂ (m.storeWord
    (((if ctx.total0+ctx.buflen < ctx.buflen then ctx.total1+1 else ctx.total1) <<< 3) |||
      ((ctx.total0+ctx.buflen) >>> 29))) (show n + pad + 4 + 4 ≤ 128 by omega) (hword _).ge
  have hfilling : fillbuf.take pad = (Rfc.padding m.words).fill input.length := by
    rw [hfill.1,fillbuf_take (Nat.mod_lt _ (by omega))]
    rfl
  have hcount : (ctx.count + ctx.buflen.toNat)%2^64 = total%2^64 := by
    have hcounted := h.absorbing.counted
    rw [List.length_take,ctx.buffer.2,Nat.min_eq_left (by omega)] at hcounted
    exact hcounted
  -- the buffer holds the waiting bytes, the filling and the length
  have hlast : b₃.1.take (n+pad+8) = ctx.buffer.1.take n ++
      ((Rfc.padding m.words).fill input.length ++ (Rfc.padding m.words).count total) := by
    rw [← count_eq_stores m hcount,← hfilling]
    rw [List.take_of_length_le (hword _).le] at ht₂ ht₃
    rw [show n+pad+8 = n+pad+4+4 from rfl,ht₃,ht₂,ht₁]
    simp only [List.append_assoc]
  have hlen : (b₃.1.take (n+pad+8)).length = n+pad+8 := by
    rw [List.length_take,b₃.2]
    omega
  have hdvd : 64 ∣ (b₃.1.take (n+pad+8)).length := by
    rw [hlen]
    exact hfill.2.2
  obtain ⟨ctx',hrun,hstep⟩ := processBlock m hdvd (b₃.1.drop (n+pad+8))
    { ctx with
      total0 := ctx.total0+ctx.buflen
      total1 := if ctx.total0+ctx.buflen < ctx.buflen then ctx.total1+1 else ctx.total1
      buffer := b₃ }
  rw [hlen,List.take_append_drop] at hrun
  have hdigest : ctx'.toRegisters = fold 64 (Rfc.compress m.words) Rfc.initial
      (input ++ (Rfc.padding m.words).fill input.length ++ (Rfc.padding m.words).count total) := by
    rw [hstep.registers,hlast,h.absorbing.absorbed.finish,List.append_assoc]
  simp only [md5FinishCtx,← hn,← hpad,hb₁,hb₂,hb₃,Option.bind_some,hrun,Option.map_some]
  rw [md5ReadCtx,hdigest,Rfc.digestCounting,Rfc.output,storeWord_eq,storeWord_eq,storeWord_eq,
    storeWord_eq]

/-! ### Any number of calls -/

/-- `md5_process_bytes` on one piece after another, each with its address. -/
def processAll (m : Build) : List (ℕ × List UInt8) → Md5Ctx → Option Md5Ctx
  | [], ctx => some ctx
  | (address,buffer)::pieces, ctx =>
    (md5ProcessBytes m address buffer ctx).bind (processAll m pieces)

theorem processAll_eq (m : Build) {input : List UInt8} {total : ℕ} {ctx : Md5Ctx}
    (h : Holding m input total ctx) {pieces : List (ℕ × List UInt8)}
    (hlen : ∀ piece ∈ pieces, piece.2.length < 2^32) :
    ∃ ctx', processAll m pieces ctx = some ctx' ∧
      Holding m (input ++ (pieces.map Prod.snd).flatten)
        (total+(pieces.map Prod.snd).flatten.length) ctx' := by
  induction pieces generalizing input total ctx with
  | nil =>
    refine ⟨ctx,rfl,?_⟩
    simpa using h
  | cons piece pieces ih =>
    obtain ⟨ctx₁,hone,hholding⟩ := md5ProcessBytes_eq m piece.1 h (hlen piece (by simp))
    obtain ⟨ctx₂,hrest,hh⟩ := ih hholding fun p hp => hlen p (List.mem_cons_of_mem _ hp)
    refine ⟨ctx₂,?_,?_⟩
    · rw [processAll,hone,Option.bind_some,hrest]
    · rw [List.map_cons,List.flatten_cons,List.length_append,← List.append_assoc,← Nat.add_assoc]
      exact hh

/-- However the input is cut into pieces, and wherever these lie, `md5_init_ctx`,
`md5_process_bytes` for each and `md5_finish_ctx` stay inside the buffers and give MD5 of the
whole, in the byte order of the build. -/
theorem digest_of_pieces (m : Build) (junk : Md5Ctx) {pieces : List (ℕ × List UInt8)}
    (hlen : ∀ piece ∈ pieces, piece.2.length < 2^32) :
    (processAll m pieces (md5InitCtx junk)).bind (md5FinishCtx m) =
      some (Rfc.digest m.words (pieces.map Prod.snd).flatten) := by
  obtain ⟨ctx,hrun,hholding⟩ := processAll_eq m (holding_init m junk) hlen
  rw [List.nil_append,Nat.zero_add] at hholding
  rw [hrun,Option.bind_some,md5FinishCtx_eq m hholding,Rfc.digestCounting_length]

theorem digest_of_two_pieces :
    (processAll ⟨.little,false⟩ [(0,[0x61]),(3,[0x62,0x63])] (md5InitCtx ⟨⟨0,0,0,0⟩,0,0,0,
      ⟨List.replicate 128 0,rfl⟩⟩)).bind (md5FinishCtx ⟨.little,false⟩) =
      some (Rfc.digest .little [0x61,0x62,0x63]) :=
  digest_of_pieces ⟨.little,false⟩ _ (by decide)

example : (processAll ⟨.little,false⟩ [(0,[0x61]),(3,[0x62,0x63])] (md5InitCtx ⟨⟨0,0,0,0⟩,0,0,0,
    ⟨List.replicate 128 0,rfl⟩⟩)).bind (md5FinishCtx ⟨.little,false⟩) =
    some [0x90,0x01,0x50,0x98,0x3c,0xd2,0x4f,0xb0,0xd6,0x96,0x3f,0x7d,0x28,0xe1,0x7f,0x72] := by
  decide +kernel

/-! ### `md5_buffer` for long buffers -/

end Md5
end Pingu
end MiscUniStuff
