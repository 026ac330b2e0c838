import MiscUniStuff.DirectoryScan
import MiscUniStuff.Md5Bytes

/-! `md5_stream`, however the reads cut the file, and the sums that the database of files
takes from it. -/
namespace MiscUniStuff
namespace Pingu
namespace Md5

open ByteOrder BlockHash

/-! ### Reading one block -/

/-- A file whose end no read has come to yet. -/
structure File.Fresh (f : File) (failed : Bool) : Prop where
  atEnd : f.atEnd = false
  failed : f.failed = failed

/-- A read of at least one byte ends the file or leaves it as it was but for the bytes. -/
theorem File.fread_cases {f : File} {failed : Bool} (h : f.Fresh failed) {n : ℕ} (hn : 0 < n) :
    ((f.fread n).1 = [] ∧ (f.fread n).2.content = [] ∧ (f.fread n).2.ferror = failed) ∨
    ((f.fread n).1 ≠ [] ∧ (f.fread n).2.Fresh failed ∧
      ((f.fread n).2.feof = true → failed = false ∧ (f.fread n).2.content = [])) := by
  have hend := h.atEnd
  have hfailed := h.failed
  unfold fread
  split
  · rename_i hnone
    left
    simp [Reads.content,hnone,ferror,hfailed]
  · rename_i bytes arrivals hsome
    right
    split
    · rename_i hlong
      refine ⟨?_,⟨hend,hfailed⟩,?_⟩
      · simp [List.take_eq_nil_iff,hn.ne',bytes.2]
      · simp [feof,hend]
    · refine ⟨bytes.2,⟨hend,hfailed⟩,?_⟩
      intro heof
      simp only [feof,hend,Bool.false_or,Bool.and_eq_true,Bool.not_eq_true',
        List.isEmpty_iff] at heof
      simp [Reads.content,heof.2.2,← hfailed,heof.1]

/-- How the loop over one block ends, for a file that has not come to its end. -/
theorem readBlock_cases (buffer : List UInt8) {stream : File} {failed : Bool}
    (h : stream.Fresh failed) (hlen : buffer.length < BLOCKSIZE) :
    (∃ block rest, readBlock buffer stream = .block block rest ∧ rest.Fresh failed) ∨
    (readBlock buffer stream = .error ∧ failed = true) ∨
    (readBlock buffer stream = .processPartialBlock (buffer ++ stream.content) ∧
      failed = false ∧ (buffer ++ stream.content).length < BLOCKSIZE) := by
  induction buffer, stream using readBlock.induct with
  | case1 buffer stream n sum hsum =>
    have hcases := File.fread_cases h (n:=BLOCKSIZE-buffer.length) (by omega)
    rcases hcases with ⟨hnil,-,-⟩ | ⟨-,hfresh,-⟩
    · have hshort : sum.length = buffer.length := by simp [sum,n,hnil]
      omega
    · exact Or.inl ⟨sum,n.2,by rw [readBlock,if_pos hsum],hfresh⟩
  | case2 buffer stream n sum hsum hzero herr =>
    have hcases := File.fread_cases h (n:=BLOCKSIZE-buffer.length) (by omega)
    rcases hcases with ⟨-,-,hfailed⟩ | ⟨hne,-,-⟩
    · refine Or.inr (Or.inl ⟨by rw [readBlock,if_neg hsum,if_pos hzero,if_pos herr],?_⟩)
      rw [← hfailed]
      exact herr
    · exact absurd (List.length_eq_zero_iff.mp hzero) hne
  | case3 buffer stream n sum hsum hzero herr =>
    have hcases := File.fread_cases h (n:=BLOCKSIZE-buffer.length) (by omega)
    have hcontent := stream.content_fread (BLOCKSIZE-buffer.length)
    rcases hcases with ⟨hnil,hnone,hfailed⟩ | ⟨hne,-,-⟩
    · rw [hnil,hnone] at hcontent
      have hsame : sum = buffer ++ stream.content := by rw [← hcontent]; simp [sum,n,hnil]
      refine Or.inr (Or.inr ⟨?_,?_,?_⟩)
      · rw [readBlock,if_neg hsum,if_pos hzero,if_neg herr,← hsame]
      · rw [← hfailed]
        exact Bool.eq_false_iff.mpr herr
      · rw [← hcontent]
        simpa using hlen
    · exact absurd (List.length_eq_zero_iff.mp hzero) hne
  | case4 buffer stream n sum hsum hzero heof =>
    have hcases := File.fread_cases h (n:=BLOCKSIZE-buffer.length) (by omega)
    have hcontent := stream.content_fread (BLOCKSIZE-buffer.length)
    have hread := stream.length_fread (BLOCKSIZE-buffer.length)
    rcases hcases with ⟨hnil,-,-⟩ | ⟨-,-,hend⟩
    · exact absurd (List.length_eq_zero_iff.mpr hnil) hzero
    · have hlast := hend heof
      rw [hlast.2,List.append_nil] at hcontent
      have hsame : sum = buffer ++ stream.content := by rw [← hcontent]
      refine Or.inr (Or.inr ⟨?_,hlast.1,?_⟩)
      · rw [readBlock,if_neg hsum,if_neg hzero,if_pos heof,← hsame]
      · rw [hsame] at hsum
        rw [← hcontent,List.length_append] at hsum ⊢
        omega
  | case5 buffer stream n sum hsum hzero heof ih =>
    have hcases := File.fread_cases h (n:=BLOCKSIZE-buffer.length) (by omega)
    have hcontent := stream.content_fread (BLOCKSIZE-buffer.length)
    have hread := stream.length_fread (BLOCKSIZE-buffer.length)
    rcases hcases with ⟨hnil,-,-⟩ | ⟨-,hfresh,-⟩
    · exact absurd (List.length_eq_zero_iff.mpr hnil) hzero
    · have hshort : sum.length < BLOCKSIZE := by
        have hadd : sum.length =
            buffer.length + (stream.fread (BLOCKSIZE-buffer.length)).1.length :=
          List.length_append
        omega
      have hsame : sum ++ n.2.content = buffer ++ stream.content := by
        rw [← hcontent,← List.append_assoc]
      have hrest := ih hfresh hshort
      rw [hsame] at hrest
      rw [readBlock,if_neg hsum,if_neg hzero,if_neg heof]
      exact hrest

/-! ### The whole stream -/

theorem streamLoop_eq (m : Build) (address : ℕ) {failed : Bool} {input : List UInt8} {total : ℕ}
    {stream : File} {ctx : Md5Ctx} (hstream : stream.Fresh failed) (h : Holding m input total ctx)
    (hempty : ctx.buflen = 0) : streamLoop m address stream ctx =
      some (if failed then none else
        some (Rfc.digestCounting m.words (input ++ stream.content)
          (total+stream.content.length))) := by
  induction hn : stream.content.length using Nat.strong_induction_on
      generalizing stream input total ctx with
  | _ k ih =>
    rcases readBlock_cases [] hstream (by decide) with
      ⟨block,rest,hread,hfresh⟩ | ⟨hread,hfailed⟩ | ⟨hread,hfailed,hshort⟩
    · obtain ⟨hlen,hcontent⟩ := readBlock_block hread
      rw [List.nil_append] at hcontent
      have hdvd : 64 ∣ block.length := by rw [hlen]; decide
      obtain ⟨ctx',hrun,hstep⟩ := processBlock m hdvd [] ctx
      rw [List.append_nil,hlen] at hrun
      have hblock := h.block hempty hdvd (by rw [hlen]; decide) hstep
      have hsum := congrArg List.length hcontent
      rw [List.length_append,hlen] at hsum
      have hpos : 0 < BLOCKSIZE := by decide
      have hh := ih _ (by omega) hfresh hblock (hstep.buflen.trans hempty) rfl
      have htotal : total + block.length + rest.content.length = total + k := by omega
      rw [streamLoop_block hread,hrun,Option.bind_some,hh,← hcontent,List.append_assoc,htotal]
    · rw [streamLoop_error hread,if_pos hfailed]
    · rw [List.nil_append] at hread hshort
      have hpartial : ∃ ctx', (if stream.content.length > 0 then
          md5ProcessBytes m address stream.content ctx else some ctx) = some ctx' ∧
          Holding m (input ++ stream.content) (total+stream.content.length) ctx' := by
        split
        · exact md5ProcessBytes_eq m address h (hshort.trans (by decide))
        · have hnil : stream.content = [] := List.length_eq_zero_iff.mp (by omega)
          refine ⟨ctx,rfl,?_⟩
          simpa [hnil] using h
      obtain ⟨ctx',hrun,hholding⟩ := hpartial
      rw [streamLoop_processPartialBlock hread,hrun,Option.bind_some,md5FinishCtx_eq m hholding,
        Option.map_some,hfailed,if_neg Bool.false_ne_true,hn]

theorem md5Stream_content (m : Build) (junk : Md5Ctx) (address : ℕ) (r : Reads) :
    md5Stream m junk address r.fopen =
      some (if r.failed then none else some (Rfc.digest m.words r.content)) := by
  have hstream : r.fopen.Fresh r.failed := ⟨rfl,rfl⟩
  have hh := streamLoop_eq m address hstream (holding_init m junk) rfl
  rw [List.nil_append,Nat.zero_add,Rfc.digestCounting_length] at hh
  exact hh

/-! ### The sums of the database -/

/-- MD5 as `file_db.c` gets it from `md5.c`. -/
noncomputable def Build.sum (m : Build) : Digest := fun bytes =>
  ⟨Rfc.digest m.words bytes,Rfc.length_digest m.words bytes⟩

/-- What `file_db.c` sees of a file. -/
def Reads.stream (r : Reads) : Stream := ⟨r.content,r.failed⟩

/-- `get_md5sum_file` down to the reads: the sum, or `none` where it exits. -/
def getMd5sumFile (m : Build) (junk : Md5Ctx) (address : ℕ) (fopen : CString → Option Reads)
    (filename : CString) : Option (Option (List UInt8)) :=
  match fopen filename with
  | none => some none
  | some r => md5Stream m junk address r.fopen

/-- The file system in which files are read so. -/
def onReads (fs : FileSystem) (fopen : CString → Option Reads) : FileSystem :=
  { fs with fopen := fun filename => (fopen filename).map Reads.stream }

/-- However short the reads of a file are, `get_md5sum_file` stays inside its buffers and
returns the sum that the scan of the directory is modelled with, or exits with it. -/
theorem getMd5sumFile_eq (m : Build) (junk : Md5Ctx) (address : ℕ) (fs : FileSystem)
    (fopen : CString → Option Reads) (filename : CString) :
    getMd5sumFile m junk address fopen filename =
      some ((Pingu.getMd5sumFile (onReads fs fopen) m.sum filename).map Subtype.val) := by
  have hopen : (onReads fs fopen).fopen filename = (fopen filename).map Reads.stream := rfl
  rw [getMd5sumFile,Pingu.getMd5sumFile,hopen]
  cases fopen filename with
  | none => rfl
  | some r =>
    simp only [Option.map_some,md5Stream_content,Pingu.md5Stream,Reads.stream]
    split
    · rfl
    · rfl

/-- Different contents with one sum give a collision of the compression function. -/
theorem Rfc.collision {o : Order} {x y : List UInt8} (hx : x.length < 2^61) (hy : y.length < 2^61)
    (h : Rfc.digest o x = Rfc.digest o y) : x = y ∨ Collision 64 (Rfc.compress o) := by
  by_cases hne : x = y
  · exact Or.inl hne
  · exact Or.inr ((Rfc.padding o).collision (by omega) (show 0 < 8 by omega) hx hy hne
      (Rfc.output_injective o h))

end Md5
end Pingu
end MiscUniStuff
