import MiscUniStuff.Md5Stream
import MiscUniStuff.PeerCopies
import MiscUniStuff.TransferBytes

/-! From the file that one program has scanned to the one that another has stored: the bytes
over the connection, and the sum that the user has seen in the row. -/
namespace MiscUniStuff
namespace Pingu

/-! ### The scan -/

/-- The entry has the sum of the file at its path. -/
def SumOf (fs : FileSystem) (md5 : Digest) (f : FileData) : Prop :=
  ∃ content, fs.fopen f.fullfilename = some ⟨content,false⟩ ∧ f.md5sum = (md5 content).1

section Scan
variable {fs : FileSystem} {md5 : Digest} {recurse : CString → List FileData → Option Scan}

end Scan

/-! ### The bytes -/

namespace Transfers

/-- A file is stored as it is, over a connection that delivers what is sent, if and only if
every write of the upload sends what is next in it and every write of the download takes all
that has been read. -/
theorem copy_iff {c c' : Outcomes} {content buf sent : List UInt8} {n n' m : ℕ}
    (buf' : List UInt8) (hreads : ReadsFile c content n) (hsome : WritesSome c n)
    (hsent : sendBytes c m 0 0 content buf = some sent) (hrec : Receives c' sent n') : ∃ stored,
      (∀ rounds, n' < rounds → fetchBytes c' rounds 0 sent buf' [] = some (true,stored)) ∧
      stored.length ≤ content.length ∧
      (stored = content ↔ (∀ i j, i < n → During c i j → SendsNext c content i j) ∧
        ∀ i, i < n' → ret (c'.write i) = ret (c'.read i)) := by
  obtain ⟨hlen,hsame⟩ := sendBytes_sent hreads hsome (Nat.zero_le n) rfl rfl hsent
  obtain ⟨stored,hstored,hcount,hfull⟩ := fetchBytes_stored (e:=n') (i:=0) buf' [] hrec
    (Nat.zero_add n') rfl
  simp only [given_zero,Nat.sub_zero,List.drop_zero,List.nil_append,Nat.zero_le,true_implies]
    at hlen hsame hstored hfull
  rw [taken_zero,Nat.zero_add] at hcount
  have hread : ∀ i, i < n' → ((c'.read i).getD 0 : ℤ) = ret (c'.read i) :=
    fun i hi => getD_of_ret_pos (hrec.data i hi).1
  have hwrite : ∀ i, i < n' → ((c'.write i).getD 0 : ℤ) = ret (c'.write i) :=
    fun i hi => getD_of_ret_pos (hrec.writes i hi).1
  have hle : ∀ i, i < n' → (c'.write i).getD 0 ≤ (c'.read i).getD 0 := by
    intro i hi
    have hwithin := (hrec.writes i hi).2
    rw [← hread i hi,← hwrite i hi] at hwithin
    exact_mod_cast hwithin
  have hmoved := moved_eq_iff hle
  have htotal := hrec.total
  have htaken : moved c'.write n' = stored.length := hcount.symm
  have hgiven : moved c'.read n' = sent.length := htotal
  refine ⟨stored,hstored,by omega,?_⟩
  constructor
  · intro heq
    have hequal : moved c'.write n' = moved c'.read n' := by
      rw [htaken,hgiven,hlen,heq]
    have hall : ∀ i, i < n' → ret (c'.write i) = ret (c'.read i) := by
      intro i hi
      rw [← hread i hi,← hwrite i hi,hmoved.2.mp hequal i hi]
    have hstream := hfull hall
    exact ⟨hsame.mp (hstream.symm.trans heq),hall⟩
  · rintro ⟨hnext,hall⟩
    exact (hfull hall).trans (hsame.mpr hnext)

end Transfers

/-! ### The network -/

open Transfers Md5 BlockHash

/-- What is copied is the file at a path, with the sum that has been asked for. However short
the reads and writes at both ends are, the copy is the file if and only if every write sends
what is next and takes all that has been read; if it has the sum and is not the file, then
MD5 has a collision. -/
def Deal.Exact {ι : Type} (m : ι → Build) (fs : ι → FileSystem) : Deal ι → Prop
  | asked _ _ => True
  | copied i fullfilename _ md5sum _ => ∃ content,
      (fs i).fopen fullfilename = some ⟨content,false⟩ ∧ md5sum = ((m i).sum content).1 ∧
      ∀ c c' buf buf' n n' rounds sent, ReadsFile c content n → WritesSome c n →
        sendBytes c rounds 0 0 content buf = some sent → Receives c' sent n' → ∃ stored,
        (∀ rounds, n' < rounds → fetchBytes c' rounds 0 sent buf' [] = some (true,stored)) ∧
        (stored = content ↔ (∀ i j, i < n → During c i j → SendsNext c content i j) ∧
          ∀ i, i < n' → ret (c'.write i) = ret (c'.read i)) ∧
        (content.length < 2^61 → ((m i).sum stored).1 = md5sum →
          stored = content ∨ Collision 64 (Rfc.compress (m i).words))

section Network
variable {ι : Type} {w : Wiring ι} {g : PatternMatch} {m : ι → Build} {fs : ι → FileSystem}
  {files : ι → List FileData}

theorem Deal.Correct.exact {deal : Deal ι} (hdeal : deal.Correct files)
    (hsums : ∀ i, ∀ f ∈ files i, SumOf (fs i) (m i).sum f) : deal.Exact m fs := by
  cases deal with
  | asked j md5sum => trivial
  | copied i fullfilename j md5sum fullfile =>
    obtain ⟨file,hfile,rfl,rfl,-⟩ := hdeal
    obtain ⟨content,hopen,hsum⟩ := hsums i file hfile
    refine ⟨content,hopen,hsum,?_⟩
    intro c c' buf buf' n n' rounds sent hreads hsome hsent hrec
    obtain ⟨stored,hstored,hshort,hiff⟩ := copy_iff buf' hreads hsome hsent hrec
    refine ⟨stored,hstored,hiff,fun hlen hsame => ?_⟩
    have hdigest : Rfc.digest (m i).words stored = Rfc.digest (m i).words content :=
      hsame.trans hsum
    exact Rfc.collision (hshort.trans_lt hlen) hlen hdigest

variable [DecidableEq ι]

end Network

/-- The triangle with the file `d/a` of a directory that one of the programs has scanned. -/
noncomputable def scanned (owner i : Fin 3) : List FileData :=
  if i = owner then single.database (Build.sum ⟨.little,false⟩) rootD else []

end Pingu
end MiscUniStuff
