import MiscUniStuff.BlockHash
import MiscUniStuff.Md5
import MiscUniStuff.Sines
import Mathlib.Data.List.GetD

/-! MD5 as RFC 1321 describes it, with the constants as integral parts of sines, and the
unrolled rounds of `md5_process_block` against its numbered steps. -/
namespace MiscUniStuff
namespace Pingu
namespace Md5

open ByteOrder BlockHash

namespace Rfc

def F (x y z : UInt32) : UInt32 := (x &&& y) ||| (~~~x &&& z)
def G (x y z : UInt32) : UInt32 := (x &&& z) ||| (y &&& ~~~z)
def H (x y z : UInt32) : UInt32 := x ^^^ y ^^^ z
def I (x y z : UInt32) : UInt32 := y ^^^ (x ||| ~~~z)

/-- The function of step `i`, where the steps are numbered from 0. -/
def function (i : ℕ) : UInt32 → UInt32 → UInt32 → UInt32 :=
  if i < 16 then F else if i < 32 then G else if i < 48 then H else I

/-- The word that step `i` takes. -/
def index (i : ℕ) : ℕ :=
  if i < 16 then i else if i < 32 then (1+5*i)%16 else if i < 48 then (5+3*i)%16 else 7*i%16

def shift (i : ℕ) : ℕ :=
  ([[7,12,17,22],[5,9,14,20],[4,11,16,23],[6,10,15,21]].getD (i/16) []).getD (i%4) 0

/-- The constant of step `i`. -/
noncomputable def T (i : ℕ) : UInt32 := UInt32.ofNat ⌊2^32*|Real.sin (i+1 : ℕ)|⌋₊

def rotateLeft (x : UInt32) (n : ℕ) : UInt32 := ⟨x.toBitVec.rotateLeft n⟩

/-- Word `k` of a block. -/
def word (o : Order) (block : List UInt8) (k : ℕ) : UInt32 :=
  UInt32.ofNat (load o ((block.drop (4*k)).take 4))

/-- Step `i`, after which the four words change their places. -/
noncomputable def step (o : Order) (block : List UInt8) (r : Registers) (i : ℕ) : Registers where
  A := r.D
  B := r.B + rotateLeft (r.A + function i r.B r.C r.D + word o block (index i) + T i) (shift i)
  C := r.B
  D := r.C

noncomputable def compress (o : Order) (r : Registers) (block : List UInt8) : Registers :=
  ((List.range 64).foldl (step o block) r).add r

def initial : Registers := ⟨0x67452301,0xefcdab89,0x98badcfe,0x10325476⟩

/-- A one and zeros up to 56 modulo 64, and the number of bits, its low word first. -/
def padding (o : Order) : Padding UInt8 64 (2^61) where
  fill k := 0x80 :: List.replicate ((119-k%64)%64) 0
  count k := store o 4 (8*k%2^32) ++ store o 4 (8*k/2^32%2^32)
  width := 8
  length_count k := by simp
  width_le := by norm_num
  whole k := by
    rw [List.length_cons,List.length_replicate]
    omega
  count_inj k l hk hl h := by
    have hstore {x y : ℕ} (hx : x < 2^32) (hy : y < 2^32) (heq : store o 4 x = store o 4 y) :
        x = y := by
      rw [← load_store (o:=o) (w:=4) (n:=x) (by omega),heq,load_store (by omega)]
    have hparts := List.append_inj h (by simp)
    have hlow := hstore (Nat.mod_lt _ (by omega)) (Nat.mod_lt _ (by omega)) hparts.1
    have hhigh := hstore (Nat.mod_lt _ (by omega)) (Nat.mod_lt _ (by omega)) hparts.2
    omega

/-- The four words one after another. -/
def output (o : Order) (r : Registers) : List UInt8 :=
  store o 4 r.A.toNat ++ store o 4 r.B.toNat ++ store o 4 r.C.toNat ++ store o 4 r.D.toNat

/-- MD5, if words are laid out in the order `o`. -/
noncomputable def digest (o : Order) (m : List UInt8) : List UInt8 :=
  output o ((padding o).digest (compress o) initial m)

/-- MD5: the low-order byte of a word comes first. -/
noncomputable def md5 (m : List UInt8) : List UInt8 := digest .little m

theorem length_digest (o : Order) (m : List UInt8) : (digest o m).length = 16 := by
  simp [digest,output]

theorem output_injective (o : Order) : Function.Injective (output o) := by
  intro r r' h
  have hword {x y : UInt32} (heq : store o 4 x.toNat = store o 4 y.toNat) : x = y := by
    apply UInt32.toNat_inj.mp
    have hx := x.toNat_lt
    have hy := y.toNat_lt
    rw [← load_store (o:=o) (w:=4) (n:=x.toNat) (by omega),heq,load_store (by omega)]
  have hd := List.append_inj h (by simp)
  have hc := List.append_inj hd.1 (by simp)
  have hab := List.append_inj hc.1 (by simp)
  cases r
  cases r'
  rw [Registers.mk.injEq]
  exact ⟨hword hab.1,hword hab.2,hword hc.2,hword hd.2⟩

end Rfc

/-! ### The functions -/

theorem FF_eq (b c d : UInt32) : FF b c d = Rfc.F b c d := by
  apply UInt32.toBitVec_inj.mp
  ext i hi
  simp only [FF,Rfc.F,UInt32.toBitVec_xor,UInt32.toBitVec_and,UInt32.toBitVec_or,
    UInt32.toBitVec_not,BitVec.getElem_xor,BitVec.getElem_and,BitVec.getElem_or,
    BitVec.getElem_not]
  cases b.toBitVec[i] <;> cases c.toBitVec[i] <;> cases d.toBitVec[i] <;> rfl

theorem FG_eq (b c d : UInt32) : FG b c d = Rfc.G b c d := by
  rw [FG,FF_eq,Rfc.F,Rfc.G,UInt32.and_comm d b,UInt32.and_comm _ c]

theorem rol_eq (x : UInt32) {n : ℕ} (hpos : 0 < n) (hn : n < 32) :
    rol x n = Rfc.rotateLeft x n := by
  have hamount {k : ℕ} (hk : k < 32) : ((UInt32.ofNat k).toBitVec%(32 : BitVec 32)).toNat = k := by
    rw [BitVec.toNat_umod,UInt32.toNat_toBitVec,UInt32.toNat_ofNat']
    change k%2^32%32 = k
    omega
  apply UInt32.toBitVec_inj.mp
  simp only [rol,Rfc.rotateLeft,BitVec.rotateLeft,BitVec.rotateLeftAux,UInt32.toBitVec_or,
    UInt32.toBitVec_shiftLeft,UInt32.toBitVec_shiftRight,BitVec.shiftLeft_eq',
    BitVec.ushiftRight_eq',Nat.mod_eq_of_lt hn]
  rw [hamount hn,hamount (by omega)]

/-! ### The words -/

/-- The order in which the bytes of a word are used: that of the machine, or the other one
where `SWAP` swaps them. -/
def Build.words : Build → Order
  | ⟨o,false⟩ => o
  | ⟨.little,true⟩ => .big
  | ⟨.big,true⟩ => .little

theorem load_four (a b c d : UInt8) :
    load .little [a,b,c,d] = (d.toBitVec ++ c.toBitVec ++ b.toBitVec ++ a.toBitVec).toNat := by
  have ha := a.toNat_lt
  have hb := b.toNat_lt
  have hc := c.toNat_lt
  simp only [load,Nat.ofDigits,List.map,BitVec.toNat_append,UInt8.toNat_toBitVec]
  rw [← Nat.shiftLeft_add_eq_or_of_lt hc,← Nat.shiftLeft_add_eq_or_of_lt hb,
    ← Nat.shiftLeft_add_eq_or_of_lt ha]
  simp only [Nat.shiftLeft_eq,Nat.cast_id]
  ring

/-- The macro takes the bytes of a word in the other order. -/
theorem swap_append (a b c d : BitVec 8) {x : BitVec 32} (hx : x = a ++ b ++ c ++ d) :
    (x <<< 24) ||| ((x &&& 0xff00#32) <<< 8) ||| ((x >>> 8) &&& 0xff00#32) ||| (x >>> 24) =
      d ++ c ++ b ++ a := by
  have hbit (i : ℕ) : x.getLsbD i = (a ++ b ++ c ++ d).getLsbD i := by rw [hx]
  apply BitVec.eq_of_getLsbD_eq
  intro i hi
  simp only [BitVec.getLsbD_append,BitVec.getLsbD_or,BitVec.getLsbD_and,BitVec.getLsbD_shiftLeft,
    BitVec.getLsbD_ushiftRight,hbit]
  interval_cases i <;> simp [-BitVec.getLsbD_eq_getElem]

theorem swap_true (o : Order) (x : UInt32) : Build.swap ⟨o,true⟩ x =
    (x <<< 24) ||| ((x &&& (0xff00 : UInt32)) <<< 8) ||| ((x >>> 8) &&& (0xff00 : UInt32)) |||
      (x >>> 24) := rfl

/-- The word that some bytes stand for. -/
def wordOf (o : Order) (bytes : List UInt8) : UInt32 := UInt32.ofNat (load o bytes)

theorem wordOf_four (a b c d : UInt8) : (wordOf .little [a,b,c,d]).toBitVec =
    d.toBitVec ++ c.toBitVec ++ b.toBitVec ++ a.toBitVec := by
  rw [wordOf,load_four]
  exact (BitVec.ofNat_toNat 32 _).trans (BitVec.setWidth_eq _)

theorem toNat_wordOf (o : Order) {bytes : List UInt8} (h : bytes.length = 4) :
    (wordOf o bytes).toNat = load o bytes := by
  have hlt := load_lt o bytes
  rw [h] at hlt
  rw [wordOf,UInt32.toNat_ofNat']
  exact Nat.mod_eq_of_lt hlt

theorem wordOf_store (o : Order) (x : UInt32) : wordOf o (store o 4 x.toNat) = x := by
  have hx := x.toNat_lt
  rw [wordOf,load_store (by omega),UInt32.ofNat_toNat]

theorem swap_wordOf_little (o : Order) (a b c d : UInt8) :
    Build.swap ⟨o,true⟩ (wordOf .little [a,b,c,d]) = wordOf .little [d,c,b,a] := by
  apply UInt32.toBitVec_inj.mp
  rw [wordOf_four,swap_true]
  exact swap_append _ _ _ _ (wordOf_four a b c d)

theorem swap_wordOf (m : Build) {bytes : List UInt8} (h : bytes.length = 4) :
    m.swap (wordOf m.order bytes) = wordOf m.words bytes := by
  obtain ⟨a,b,c,d,rfl⟩ := List.length_eq_four.mp h
  obtain ⟨o,_ | _⟩ := m
  · rfl
  · cases o with
    | little => exact swap_wordOf_little _ a b c d
    | big => exact swap_wordOf_little _ d c b a

/-- How a word is written. -/
theorem storeWord_eq (m : Build) (x : UInt32) : m.storeWord x = store m.words 4 x.toNat := by
  have hlen : (store m.words 4 x.toNat).length = 4 := length_store ..
  -- swapping goes both ways
  have hback : m.swap (wordOf m.words (store m.words 4 x.toNat)) =
      wordOf m.order (store m.words 4 x.toNat) := by
    obtain ⟨_ | _,_ | _⟩ := m
    · rfl
    · exact swap_wordOf ⟨.big,true⟩ hlen
    · rfl
    · exact swap_wordOf ⟨.little,true⟩ hlen
  rw [wordOf_store] at hback
  rw [Build.storeWord,hback,toNat_wordOf _ hlen]
  have hh := store_load m.order (store m.words 4 x.toNat)
  rwa [hlen] at hh

/-! ### The rounds -/

/-- The lines of the first round, with the macro and the number of the word that the later
rounds have as arguments. -/
def numbered : ℕ → List FirstOp → List Op
  | _, [] => []
  | k, o::os => { o with f := .FF, k } :: numbered (k+1) os

/-- All lines of the body. -/
def lines : List Op := numbered 0 round1 ++ round2 ++ round3 ++ round4

/-- The first round fills `correct_words` and runs its lines with these. -/
theorem first_round (m : Build) {correctWords : List UInt32} (os : List FirstOp)
    (done words : List UInt32) (r : Registers) (hlen : os.length = words.length)
    (hwords : correctWords = done ++ words.map m.swap) :
    os.foldl (fun w o => o.run m w) ⟨r,done,words⟩ =
      ⟨(numbered done.length os).foldl (fun r o => o.run correctWords r) r,correctWords,[]⟩ := by
  induction os generalizing done words r with
  | nil =>
    have hnil : words = [] := List.length_eq_zero_iff.mp hlen.symm
    rw [hnil] at hwords ⊢
    simp [numbered,hwords]
  | cons o os ih =>
    cases words with
    | nil => simp at hlen
    | cons x words =>
      have hget : correctWords.getD done.length 0 = m.swap x := by
        rw [hwords]
        simp [List.getD_eq_getElem?_getD]
      have hh := ih (done ++ [m.swap x]) words
        (r.op .FF o.a o.b o.c o.d (m.swap x) o.s o.T) (by simpa using hlen) (by simp [hwords])
      have hop : Op.run correctWords { o with f := .FF, k := done.length } r =
          r.op .FF o.a o.b o.c o.d (m.swap x) o.s o.T := by rw [Op.run,hget]
      rw [List.length_append,List.length_singleton] at hh
      rw [numbered,List.foldl_cons,List.foldl_cons,hop]
      exact hh

/-- The names that the registers have in line `i`. -/
def letters (i : ℕ) : Register × Register × Register × Register :=
  if i%4 = 0 then (.A,.B,.C,.D) else if i%4 = 1 then (.D,.A,.B,.C)
  else if i%4 = 2 then (.C,.D,.A,.B) else (.B,.C,.D,.A)

def macroOf (i : ℕ) : Macro :=
  if i < 16 then .FF else if i < 32 then .FG else if i < 48 then .FH else .FI

/-- Line `i`, with some constant. -/
def line (i : ℕ) (T : UInt32) : Op where
  f := macroOf i
  a := (letters i).1
  b := (letters i).2.1
  c := (letters i).2.2.1
  d := (letters i).2.2.2
  k := Rfc.index i
  s := Rfc.shift i
  T := T

/-- The registers in the places that the numbered steps give them. -/
def Registers.places (r : Registers) (i : ℕ) : Registers where
  A := r.get (letters i).1
  B := r.get (letters i).2.1
  C := r.get (letters i).2.2.1
  D := r.get (letters i).2.2.2

theorem macroOf_apply (i : ℕ) : (macroOf i).apply = Rfc.function i := by
  funext b c d
  unfold macroOf Rfc.function
  split
  · exact FF_eq b c d
  split
  · exact FG_eq b c d
  split
  · rfl
  · rfl

/-- The constants of the source are the sines. -/
theorem constants_between : ∀ i < 64, Sines.Between (i+1) (lines.getD i (line i 0)).T.toNat := by
  decide +kernel

theorem lines_getD : ∀ i < 64, lines.getD i (line i 0) = line i (lines.getD i (line i 0)).T := by
  decide

theorem lines_eq : lines = (List.range 64).map fun i => line i (Rfc.T i) := by
  have hlen : lines.length = 64 := by decide
  apply List.ext_getElem
  · rw [hlen,List.length_map,List.length_range]
  · intro i hi hi'
    have hlt : i < 64 := hlen ▸ hi
    have hT : Rfc.T i = (lines.getD i (line i 0)).T := by
      rw [Rfc.T,Sines.floor_abs_sin (constants_between i hlt),UInt32.ofNat_toNat]
    have hline := lines_getD i hlt
    rw [← hT,List.getD_eq_getElem _ _ hi] at hline
    rw [hline,List.getElem_map,List.getElem_range]

theorem Registers.get_set (r : Registers) (x : UInt32) (a b : Register) :
    (r.set x a).get b = if b = a then x else r.get b := by
  cases a <;> cases b <;> rfl

theorem Registers.get_op (r : Registers) (f : Macro) {a b : Register} (c d : Register)
    (x : UInt32) (s : ℕ) (T : UInt32) (q : Register) (hab : b ≠ a) :
    (r.op f a b c d x s T).get q = if q = a then
      rol (r.get a + (f.apply (r.get b) (r.get c) (r.get d) + x + T)) s + r.get b else r.get q := by
  simp only [op,get_set,if_true,if_neg hab]
  split
  · rfl
  · rfl

theorem shift_bounds : ∀ i < 64, 0 < Rfc.shift i ∧ Rfc.shift i < 32 := by decide

theorem line_run {i : ℕ} (hi : i < 64) (o : Order) {block : List UInt8} {correctWords : List UInt32}
    (hword : correctWords.getD (Rfc.index i) 0 = Rfc.word o block (Rfc.index i)) (r : Registers) :
    ((line i (Rfc.T i)).run correctWords r).places (i+1) = Rfc.step o block (r.places i) i := by
  have hshift := shift_bounds i hi
  have hab : (letters i).2.1 ≠ (letters i).1 := by
    unfold letters
    split
    · decide
    split
    · decide
    split
    · decide
    · decide
  have hnew : rol (r.get (letters i).1 + ((macroOf i).apply (r.get (letters i).2.1)
      (r.get (letters i).2.2.1) (r.get (letters i).2.2.2) + correctWords.getD (Rfc.index i) 0 +
        Rfc.T i)) (Rfc.shift i) + r.get (letters i).2.1 = (Rfc.step o block (r.places i) i).B := by
    rw [rol_eq _ hshift.1 hshift.2,hword,macroOf_apply,UInt32.add_comm]
    simp only [Rfc.step,Registers.places,UInt32.add_assoc]
  have hget (q : Register) : ((line i (Rfc.T i)).run correctWords r).get q =
      if q = (letters i).1 then (Rfc.step o block (r.places i) i).B else r.get q := by
    rw [← hnew]
    exact r.get_op _ _ _ _ _ _ q hab
  simp only [Registers.places,hget]
  have hrest := Nat.mod_lt i (show 0 < 4 by omega)
  interval_cases hmod : i%4
  · simp [letters,hmod,Nat.add_mod,Rfc.step]
  · simp [letters,hmod,Nat.add_mod,Rfc.step]
  · simp [letters,hmod,Nat.add_mod,Rfc.step]
  · simp [letters,hmod,Nat.add_mod,Rfc.step]

/-- The first `n` lines do what the first `n` steps do. -/
theorem run_lines {n : ℕ} (hn : n ≤ 64) (o : Order) {block : List UInt8}
    {correctWords : List UInt32}
    (hword : ∀ k < 16, correctWords.getD k 0 = Rfc.word o block k) (r : Registers) :
    (((List.range n).map fun i => line i (Rfc.T i)).foldl (fun r o => o.run correctWords r)
      r).places n = (List.range n).foldl (Rfc.step o block) r := by
  have hindex : ∀ i < 64, Rfc.index i < 16 := by decide
  induction n with
  | zero => rfl
  | succ n ih =>
    have hh := ih (by omega)
    rw [List.range_succ,List.map_append,List.foldl_append,List.foldl_append,← hh]
    exact line_run (by omega) o (hword _ (hindex n (by omega))) _

theorem loadWords_getD (o : Order) {n k : ℕ} (bytes : List UInt8) (hk : k < n) :
    (loadWords o n bytes).getD k 0 = Rfc.word o bytes k := by
  induction n generalizing k bytes with
  | zero => omega
  | succ n ih =>
    cases k with
    | zero => rfl
    | succ k =>
      rw [loadWords,List.getD_cons_succ,ih _ (by omega),Rfc.word,Rfc.word,List.drop_drop]
      congr 4
      omega

theorem length_loadWords (o : Order) (n : ℕ) (bytes : List UInt8) :
    (loadWords o n bytes).length = n := by
  induction n generalizing bytes with
  | zero => rfl
  | succ n ih => rw [loadWords,List.length_cons,ih]

/-- The unrolled body of the loop is the compression function. -/
theorem processOne_eq (m : Build) (r : Registers) {block : List UInt8} (h : block.length = 64)
    (rest : List UInt8) : processOne m (block ++ rest) r = Rfc.compress m.words r block := by
  have hlen := length_loadWords m.order 16 (block ++ rest)
  have hfirst := first_round m round1 [] (loadWords m.order 16 (block ++ rest)) r
    (by rw [hlen]; rfl) (List.nil_append _).symm
  have hword : ∀ k < 16, ((loadWords m.order 16 (block ++ rest)).map m.swap).getD k 0 =
      Rfc.word m.words block k := by
    intro k hk
    have hget : ((block ++ rest).drop (4*k)).take 4 = (block.drop (4*k)).take 4 := by
      rw [List.drop_append_of_le_length (by omega),
        List.take_append_of_le_length (by rw [List.length_drop]; omega)]
    have hfour : ((block.drop (4*k)).take 4).length = 4 := by
      rw [List.length_take,List.length_drop]
      omega
    have hload := loadWords_getD m.order (block ++ rest) hk
    rw [List.getD_eq_getElem _ _ (by rw [hlen]; exact hk),Rfc.word,hget] at hload
    rw [List.getD_eq_getElem _ _ (by rw [List.length_map,hlen]; exact hk),List.getElem_map,hload]
    exact swap_wordOf m hfour
  have hrun := run_lines (le_refl 64) m.words hword r
  have hplaces (r : Registers) : r.places 64 = r := rfl
  rw [← lines_eq,hplaces,lines,List.append_assoc,List.append_assoc,List.foldl_append,
    ← List.append_assoc] at hrun
  rw [processOne,hfirst,Rfc.compress,← hrun,List.length_nil]

end Md5
end Pingu
end MiscUniStuff
