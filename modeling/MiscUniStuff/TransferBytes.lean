import MiscUniStuff.Transfers

/-! The bytes that go through the read-write loops of `download.c`: when the loop of an
upload ends, what the socket gets of the file, and what a file gets from the socket. -/
namespace MiscUniStuff
namespace Pingu
namespace Transfers

/-- The bytes that the calls before call `i` have moved; an error moves none. -/
def moved (f : ℕ → Option ℕ) (i : ℕ) : ℕ := ((List.range i).map fun j => (f j).getD 0).sum

theorem moved_zero (f : ℕ → Option ℕ) : moved f 0 = 0 := rfl

theorem moved_succ (f : ℕ → Option ℕ) (i : ℕ) : moved f (i+1) = moved f i + (f i).getD 0 := by
  simp [moved,List.range_succ]

theorem moved_mono (f : ℕ → Option ℕ) : Monotone (moved f) := by
  refine monotone_nat_of_le_succ fun i => ?_
  rw [moved_succ]
  omega

/-- From some call on there are only errors. -/
theorem moved_le {f : ℕ → Option ℕ} {N : ℕ} (h : ∀ i, N ≤ i → f i = none) (i : ℕ) :
    moved f i ≤ moved f N := by
  obtain hi | hi := le_total i N
  · exact moved_mono f hi
  · induction i,hi using Nat.le_induction with
    | base => exact le_rfl
    | succ i hi ih =>
      rw [moved_succ,h i hi]
      exact ih

variable (c : Outcomes)

/-- The bytes read before read `i`. -/
def given (i : ℕ) : ℕ := moved c.read i

/-- The bytes written before write `j`. -/
def taken (j : ℕ) : ℕ := moved c.write j

theorem given_zero : given c 0 = 0 := rfl

theorem taken_zero : taken c 0 = 0 := rfl

theorem given_succ (i : ℕ) : given c (i+1) = given c i + (c.read i).getD 0 := moved_succ _ _

theorem taken_succ (j : ℕ) : taken c (j+1) = taken c j + (c.write j).getD 0 := moved_succ _ _

theorem given_mono : Monotone (given c) := moved_mono _

theorem taken_mono : Monotone (taken c) := moved_mono _

/-- The inner loop of `download_send_accept` counts a write down if it is positive. -/
theorem sub_ret (r : Option ℕ) (k : ℤ) :
    (if ret r > 0 then k-ret r else k) = k-(r.getD 0 : ℕ) := by
  cases r with
  | none => simp [ret]
  | some h =>
    simp only [ret,Option.elim_some,Option.getD_some]
    split_ifs <;> omega

theorem toNat_ret (r : Option ℕ) : (ret r).toNat = r.getD 0 := by
  cases r with
  | none => simp [ret]
  | some n => simp [ret]

theorem getD_of_ret_pos {r : Option ℕ} (h : 0 < ret r) : (r.getD 0 : ℤ) = ret r := by
  cases r with
  | none => simp [ret] at h
  | some n => rfl

/-- Reads `0` to `n-1` return data, and read `n` does not. -/
structure ReadsUntil (n : ℕ) : Prop where
  data : ∀ i, i < n → 0 < ret (c.read i)
  ends : ret (c.read n) ≤ 0

/-- Write `j` is for bytes of read `i`. -/
def During (i j : ℕ) : Prop := given c i ≤ taken c j ∧ taken c j < given c (i+1)

/-- No write takes more than it is asked to: what is left of the bytes of the last read. -/
def WritesWithin (n : ℕ) : Prop :=
  ∀ i j, i < n → During c i j → taken c (j+1) ≤ given c (i+1)

section Ends
variable {c} {n N : ℕ} {fileid sockid : ℕ}

/-- Once all bytes of a read are written, no later write is for that read. -/
theorem During.lt {i j k : ℕ} (h : During c i j) (hk : given c (i+1) ≤ taken c k) : j < k := by
  by_contra hge
  have hmono := taken_mono c (not_lt.mp hge)
  have hlt := h.2
  omega

/-- The inner loop ends once all bytes of the read are written. -/
theorem writeLoop_taken {i m w : ℕ} {k : ℤ} {r : ℕ × Performed} (hwithin : WritesWithin c n)
    (hi : i < n) (hlow : given c i ≤ taken c w) (hk : (taken c w : ℤ)+k = given c (i+1))
    (hnonneg : 0 ≤ k) (h : writeLoop c sockid m w k = some r) : taken c r.1 = given c (i+1) := by
  induction m generalizing w k r with
  | zero =>
    simp only [writeLoop] at h
    split_ifs at h with hpos
    cases h
    simp only
    omega
  | succ m ih =>
    by_cases hpos : k > 0
    · simp only [writeLoop,if_pos hpos,sub_ret,Option.map_eq_some_iff] at h
      obtain ⟨r',hr,rfl⟩ := h
      have hle := hwithin i w hi ⟨hlow,by omega⟩
      have hsucc := taken_succ c w
      have htail := ih (w:=w+1) (by omega) (by omega) (by omega) hr
      exact htail
    · simp only [writeLoop,if_neg hpos] at h
      cases h
      simp only
      omega

theorem writeLoop_isSome (sockid : ℕ) {i m w : ℕ} {k : ℤ} (hwithin : WritesWithin c n) (hi : i < n)
    (hlow : given c i ≤ taken c w) (hk : (taken c w : ℤ)+k = given c (i+1))
    (hN : given c (i+1) ≤ taken c N) (hm : N ≤ w+m) : (writeLoop c sockid m w k).isSome := by
  induction m generalizing w k with
  | zero =>
    have hmono := taken_mono c (show N ≤ w by omega)
    have hdone : ¬k > 0 := by omega
    simp [writeLoop,if_neg hdone]
  | succ m ih =>
    by_cases hpos : k > 0
    · have hle := hwithin i w hi ⟨hlow,by omega⟩
      have hsucc := taken_succ c w
      simp only [writeLoop,if_pos hpos,sub_ret,Option.isSome_map]
      exact ih (by omega) (by omega) (by omega)
    · simp [writeLoop,if_neg hpos]

/-- If the loops end, all bytes that were read have been written. -/
theorem sendLoop_taken {m r w : ℕ} {t : Performed} (hreads : ReadsUntil c n)
    (hwithin : WritesWithin c n) (hr : r ≤ n) (hw : taken c w = given c r)
    (h : sendLoop c fileid sockid m r w = some t) : ∃ w', taken c w' = given c n := by
  induction m generalizing r w t with
  | zero => simp [sendLoop] at h
  | succ m ih =>
    by_cases hlast : r = n
    · exact ⟨w,hlast ▸ hw⟩
    · have hpos := hreads.data r (by omega)
      have hgetD := getD_of_ret_pos hpos
      have hsucc := given_succ c r
      simp only [sendLoop,gt_iff_lt,if_pos hpos,bind,pure,Option.bind_eq_some_iff] at h
      obtain ⟨written,hwritten,rest,hrest,-⟩ := h
      have htaken := writeLoop_taken hwithin (by omega) hw.ge (by omega) (by omega) hwritten
      exact ih (by omega) htaken hrest

theorem sendLoop_isSome (fileid sockid : ℕ) {m r w : ℕ} (hreads : ReadsUntil c n) (hwithin : WritesWithin c n)
    (hN : given c n ≤ taken c N) (hr : r ≤ n) (hw : taken c w = given c r) (hm : N+n < m+r) :
    (sendLoop c fileid sockid m r w).isSome := by
  induction m generalizing r w with
  | zero => omega
  | succ m ih =>
    by_cases hlast : r = n
    · have hend : ¬ret (c.read r) > 0 := by
        rw [hlast]
        exact not_lt.mpr hreads.ends
      simp [sendLoop,if_neg hend]
    · have hpos := hreads.data r (by omega)
      have hgetD := getD_of_ret_pos hpos
      have hsucc := given_succ c r
      have hmono := given_mono c (show r+1 ≤ n by omega)
      have hk : (taken c w : ℤ)+ret (c.read r) = given c (r+1) := by omega
      have hinner := writeLoop_isSome sockid (m:=m) hwithin (by omega) hw.ge hk
        (hmono.trans hN) (by omega)
      obtain ⟨written,hwritten⟩ := Option.isSome_iff_exists.mp hinner
      have htaken := writeLoop_taken hwithin (by omega) hw.ge hk hpos.le hwritten
      obtain ⟨rest,hrest⟩ := Option.isSome_iff_exists.mp
        (ih (r:=r+1) (w:=written.1) (by omega) htaken (by omega))
      simp [sendLoop,hpos,hwritten,hrest]

/-- When the writes fail for good, the loops end if and only if everything that is read has
been written by then. -/
theorem upload_ends_iff (c : Outcomes) (fileid sockid : ℕ) (n N : ℕ) (hreads : ReadsUntil c n)
    (hwithin : WritesWithin c n) (hgone : ∀ j, N ≤ j → c.write j = none) :
    (∃ rounds, (sendLoop c fileid sockid rounds 0 0).isSome) ↔ given c n ≤ taken c N := by
  constructor
  · rintro ⟨rounds,h⟩
    obtain ⟨t,ht⟩ := Option.isSome_iff_exists.mp h
    obtain ⟨w,hw⟩ := sendLoop_taken hreads hwithin (Nat.zero_le n) rfl ht
    rw [← hw]
    exact moved_le hgone w
  · intro h
    exact ⟨N+n+1,sendLoop_isSome fileid sockid hreads hwithin h (Nat.zero_le n) rfl (by omega)⟩

/-- The reads and writes of a transfer return this; after that the file has ended, and the
peer is gone. -/
def exchange (reads writes : List ℕ) : Outcomes :=
  { served with
    read := fun i => some (reads[i]?.getD 0)
    write := fun j => writes[j]? }

theorem readsUntil_exchange {reads : List ℕ} (writes : List ℕ) (h : ∀ r ∈ reads, 0 < r) :
    ReadsUntil (exchange reads writes) reads.length where
  data i hi := by
    have hpos := h _ (List.getElem_mem hi)
    simpa [exchange,ret,List.getElem?_eq_getElem hi] using hpos
  ends := by simp [exchange,ret]

theorem upload_ends_two_bytes : ∃ rounds, (sendLoop (exchange [2] [2]) 4 6 rounds 0 0).isSome := by
  have hreads : ReadsUntil (exchange [2] [2]) 1 := readsUntil_exchange [2] (by decide)
  have hwithin : WritesWithin (exchange [2] [2]) 1 := by
    intro i j hi hduring
    obtain rfl : i = 0 := by omega
    have hj : j < 1 := hduring.lt (by decide)
    obtain rfl : j = 0 := by omega
    decide
  have hgone : ∀ j, 1 ≤ j → (exchange [2] [2]).write j = none :=
    fun j hj => List.getElem?_eq_none hj
  exact (upload_ends_iff _ 4 6 1 1 hreads hwithin hgone).mpr (by decide)

/-- The peer is gone before the first of its bytes is written. -/
theorem upload_spins : ¬∀ (c : Outcomes) (n N : ℕ), ReadsUntil c n → WritesWithin c n →
    (∀ j, N ≤ j → c.write j = none) → ∃ rounds, (sendLoop c 4 6 rounds 0 0).isSome := by
  intro h
  have hreads : ReadsUntil (exchange [1] []) 1 := readsUntil_exchange [] (by decide)
  have hgone : ∀ j, 0 ≤ j → (exchange [1] []).write j = none := fun _ _ => rfl
  have hwithin : WritesWithin (exchange [1] []) 1 := by
    intro i j _ ⟨_,hlt⟩
    rw [taken_succ,hgone j (Nat.zero_le j)]
    exact hlt.le
  obtain ⟨rounds,hsome⟩ := h (exchange [1] []) 1 0 hreads hwithin hgone
  obtain ⟨t,ht⟩ := Option.isSome_iff_exists.mp hsome
  obtain ⟨w,hw⟩ := sendLoop_taken hreads hwithin (Nat.zero_le 1) rfl ht
  have hle : taken (exchange [1] []) w ≤ taken (exchange [1] []) 0 := moved_le hgone w
  rw [hw] at hle
  exact absurd hle (by decide)

end Ends

/-! ### What the socket gets of a file -/

/-- `read` into `buf`. -/
def readInto (data buf : List UInt8) : List UInt8 := data ++ buf.drop data.length

theorem take_readInto {data : List UInt8} {k : ℕ} (h : k ≤ data.length) (buf : List UInt8) :
    (readInto data buf).take k = data.take k := List.take_append_of_le_length h

variable (c : Outcomes)

/-- The inner loop of `download_send_accept` with the bytes the socket takes. -/
def writeBytes (buf : List UInt8) : ℕ → ℕ → ℤ → Option (ℕ × List UInt8)
  | 0, w, k => if k > 0 then none else some (w,[])
  | n+1, w, k =>
    if k > 0 then
      let h := ret (c.write w)
      -- it is `buf` that is written, not `m`
      (writeBytes buf n (w+1) (if h > 0 then k-h else k)).map fun r => (r.1,buf.take h.toNat ++ r.2)
    else some (w,[])

/-- The read-write loop of `download_send_accept` with the rest of the file and `buf`. -/
def sendBytes : ℕ → ℕ → ℕ → List UInt8 → List UInt8 → Option (List UInt8)
  | 0, _, _, _, _ => none
  | n+1, r, w, file, buf =>
    let retcode := ret (c.read r)
    if retcode > 0 then do
      let buf := readInto (file.take retcode.toNat) buf
      let written ← writeBytes c buf n w retcode
      let rest ← sendBytes n (r+1) written.1 (file.drop retcode.toNat) buf
      return written.2 ++ rest
    else some []

section Sent
variable {c} {n : ℕ}

/-- The loops with and without the bytes are the same loops. -/
theorem writeBytes_fst (buf : List UInt8) (sockid m w : ℕ) (k : ℤ) :
    (writeBytes c buf m w k).map Prod.fst = (writeLoop c sockid m w k).map Prod.fst := by
  induction m generalizing w k with
  | zero =>
    simp only [writeBytes,writeLoop]
    split_ifs <;> rfl
  | succ m ih =>
    by_cases hk : k > 0
    · simp only [writeBytes,writeLoop,if_pos hk,Option.map_map]
      exact ih (w+1) _
    · simp [writeBytes,writeLoop,if_neg hk]

theorem sendBytes_isSome (fileid sockid m r w : ℕ) (file buf : List UInt8) :
    (sendBytes c m r w file buf).isSome = (sendLoop c fileid sockid m r w).isSome := by
  induction m generalizing r w file buf with
  | zero => rfl
  | succ m ih =>
    by_cases hr : ret (c.read r) > 0
    · have hinner := writeBytes_fst (c:=c)
        (readInto (file.take (ret (c.read r)).toNat) buf) sockid m w (ret (c.read r))
      simp only [sendBytes,sendLoop,if_pos hr,bind,pure]
      cases hb : writeBytes c (readInto (file.take (ret (c.read r)).toNat) buf) m w
          (ret (c.read r)) with
      | none =>
        rw [hb] at hinner
        cases hl : writeLoop c sockid m w (ret (c.read r)) with
        | none => rfl
        | some written => simp [hl] at hinner
      | some sent =>
        rw [hb] at hinner
        cases hl : writeLoop c sockid m w (ret (c.read r)) with
        | none => simp [hl] at hinner
        | some written =>
          have heq : sent.1 = written.1 := by simpa [hl] using hinner
          have htail := ih (r+1) sent.1 (file.drop (ret (c.read r)).toNat)
            (readInto (file.take (ret (c.read r)).toNat) buf)
          rw [heq] at htail
          simpa [Option.isSome_bind,heq] using htail
    · simp [sendBytes,sendLoop,if_neg hr]

/-- Every write takes something of what it is asked to, as long as there are bytes. -/
def WritesSome (c : Outcomes) (n : ℕ) : Prop :=
  ∀ i j, i < n → During c i j → 0 < ret (c.write j) ∧ taken c (j+1) ≤ given c (i+1)

/-- The reads go through the file, `BUFFER` bytes at most at a time. -/
structure ReadsFile (c : Outcomes) (content : List UInt8) (n : ℕ) : Prop where
  data : ∀ i, i < n → 0 < ret (c.read i) ∧ ret (c.read i) ≤ 1024
  ends : c.read n = some 0
  total : given c n = content.length

theorem ReadsFile.readsUntil {content : List UInt8} (h : ReadsFile c content n) : ReadsUntil c n where
  data i hi := (h.data i hi).1
  ends := by simp [h.ends,ret]

theorem WritesSome.within (h : WritesSome c n) : WritesWithin c n :=
  fun i j hi hj => (h i j hi hj).2

/-- Some read has every byte. -/
theorem exists_during {j : ℕ} (h : taken c j < given c n) : ∃ i, i < n ∧ During c i j := by
  induction n with
  | zero =>
    rw [given_zero] at h
    omega
  | succ n ih =>
    by_cases hlt : taken c j < given c n
    · obtain ⟨i,hi,hduring⟩ := ih hlt
      exact ⟨i,by omega,hduring⟩
    · exact ⟨n,by omega,not_lt.mp hlt,h⟩

/-- So as many writes as there are bytes will do. -/
theorem WritesSome.enough (h : WritesSome c n) : given c n ≤ taken c (given c n) := by
  have hmin : ∀ j, min j (given c n) ≤ taken c j := by
    intro j
    induction j with
    | zero => simp
    | succ j ih =>
      have hsucc := taken_succ c j
      by_cases hlt : taken c j < given c n
      · obtain ⟨i,hi,hduring⟩ := exists_during hlt
        have hgetD := getD_of_ret_pos (h i j hi hduring).1
        have hpos := (h i j hi hduring).1
        omega
      · omega
  simpa using hmin (given c n)

/-- What write `j` sends of `buf`, the first bytes of read `i`, is what comes next in the
file. -/
def SendsNext (c : Outcomes) (content : List UInt8) (i j : ℕ) : Prop :=
  (content.drop (given c i)).take ((c.write j).getD 0) =
    (content.drop (taken c j)).take ((c.write j).getD 0)

theorem append_inj_iff {α : Type} {a b a' b' : List α} (h : a.length = a'.length) :
    a ++ b = a' ++ b' ↔ a = a' ∧ b = b' :=
  ⟨fun heq => List.append_inj heq h,fun ⟨ha,hb⟩ => by rw [ha,hb]⟩

/-- The writes for read `i` from write `w` on are write `w` and those after it. -/
theorem during_after (hsome : WritesSome c n) {i j w : ℕ} (hi : i < n) (hw : During c i w) :
    taken c w ≤ taken c j ∧ taken c j < given c (i+1) ↔
      j = w ∨ taken c (w+1) ≤ taken c j ∧ taken c j < given c (i+1) := by
  have hmono := taken_mono c (Nat.le_succ w)
  constructor
  · rintro ⟨hle,hlt⟩
    rcases Nat.lt_trichotomy j w with hj | hj | hj
    · -- an earlier write would have got past byte `taken c j`
      have hpos := (hsome i j hi ⟨hw.1.trans hle,hlt⟩).1
      have hgetD := getD_of_ret_pos hpos
      have hsucc := taken_succ c j
      have hnext := taken_mono c (show j+1 ≤ w by omega)
      omega
    · exact .inl hj
    · exact .inr ⟨taken_mono c (show w+1 ≤ j by omega),hlt⟩
  · rintro (rfl | ⟨hle,hlt⟩)
    · exact ⟨le_rfl,hw.2⟩
    · exact ⟨hmono.trans hle,hlt⟩

/-- A read returns the bytes it says, while there are any. -/
theorem length_read {content : List UInt8} {i : ℕ} (h : given c (i+1) ≤ content.length) :
    ((content.drop (given c i)).take ((c.read i).getD 0)).length = (c.read i).getD 0 := by
  have hsucc := given_succ c i
  rw [List.length_take,List.length_drop]
  omega

theorem writeBytes_taken {buf : List UInt8} {i m w : ℕ} {k : ℤ} {s : ℕ × List UInt8}
    (hwithin : WritesWithin c n) (hi : i < n) (hlow : given c i ≤ taken c w)
    (hk : (taken c w : ℤ)+k = given c (i+1)) (hnonneg : 0 ≤ k)
    (h : writeBytes c buf m w k = some s) : taken c s.1 = given c (i+1) := by
  have hfst := writeBytes_fst (c:=c) buf 0 m w k
  rw [h,Option.map_some,eq_comm,Option.map_eq_some_iff] at hfst
  obtain ⟨r,hr,heq⟩ := hfst
  rw [← heq]
  exact writeLoop_taken hwithin hi hlow hk hnonneg hr

/-- The bytes are as many as are left from write `w` on, and they are the right ones if every
write sends what is next. -/
def SentFrom (c : Outcomes) (content : List UInt8) (i w k : ℕ) (s : List UInt8) : Prop :=
  s.length = k ∧ (s = (content.drop (taken c w)).take k ↔
    ∀ j, taken c w ≤ taken c j → taken c j < given c (i+1) → SendsNext c content i j)

theorem sentFrom_nil {content : List UInt8} {i w : ℕ} (h : given c (i+1) ≤ taken c w) :
    SentFrom c content i w 0 [] := by
  refine ⟨rfl,iff_of_true (by simp) fun j hj hlt => ?_⟩
  omega

/-- Write `w`, and those after it. -/
theorem SentFrom.cons {content first rest : List UInt8} {i w k : ℕ} (hsome : WritesSome c n)
    (hi : i < n) (hduring : During c i w) (htotal : given c (i+1) ≤ content.length)
    (hk : taken c w+k = given c (i+1))
    (hfirst : first = (content.drop (given c i)).take ((c.write w).getD 0))
    (h : SentFrom c content i (w+1) (k-(c.write w).getD 0) rest) :
    SentFrom c content i w k (first ++ rest) := by
  obtain ⟨hlength,hrest⟩ := h
  have hpast := (hsome i w hi hduring).2
  have hbehind := hduring.1
  have hsucc := taken_succ c w
  have hlen : first.length = (c.write w).getD 0 := by
    rw [hfirst,List.length_take,List.length_drop]
    omega
  have hlen' : ((content.drop (taken c w)).take ((c.write w).getD 0)).length =
      (c.write w).getD 0 := by
    rw [List.length_take,List.length_drop]
    omega
  have hsplit : (content.drop (taken c w)).take k =
      (content.drop (taken c w)).take ((c.write w).getD 0) ++
        (content.drop (taken c (w+1))).take (k-(c.write w).getD 0) := by
    have hsum : k = (c.write w).getD 0+(k-(c.write w).getD 0) := by omega
    rw [hsucc,← List.drop_drop,← List.take_add,← hsum]
  refine ⟨by rw [List.length_append,hlen,hlength]; omega,?_⟩
  rw [hsplit,append_inj_iff (hlen.trans hlen'.symm),hrest,hfirst]
  constructor
  · intro ⟨hw,hlater⟩ j hj hlt
    obtain rfl | hafter := (during_after hsome hi hduring).mp ⟨hj,hlt⟩
    · exact hw
    · exact hlater j hafter.1 hafter.2
  · intro hall
    refine ⟨hall w le_rfl hduring.2,fun j hj hlt => ?_⟩
    have hback := (during_after hsome hi hduring).mpr (.inr ⟨hj,hlt⟩)
    exact hall j hback.1 hback.2

/-- What the inner loop sends is what it is to send if every write sends what is next. -/
theorem writeBytes_sent {content buf : List UInt8} {i m w : ℕ} {k : ℤ} {s : ℕ × List UInt8}
    (hsome : WritesSome c n) (hi : i < n) (htotal : given c (i+1) ≤ content.length)
    (hbuf : buf.take ((c.read i).getD 0) = (content.drop (given c i)).take ((c.read i).getD 0))
    (hlow : given c i ≤ taken c w) (hk : (taken c w : ℤ)+k = given c (i+1)) (hnonneg : 0 ≤ k)
    (h : writeBytes c buf m w k = some s) : SentFrom c content i w k.toNat s.2 := by
  induction m generalizing w k s with
  | zero =>
    simp only [writeBytes] at h
    split_ifs at h with hpos
    cases h
    have hzero : k.toNat = 0 := by omega
    rw [hzero]
    exact sentFrom_nil (by omega)
  | succ m ih =>
    by_cases hpos : k > 0
    · simp only [writeBytes,if_pos hpos,sub_ret,Option.map_eq_some_iff] at h
      obtain ⟨s',hs,rfl⟩ := h
      have hduring : During c i w := ⟨hlow,by omega⟩
      have hwrite := hsome i w hi hduring
      have hgetD := getD_of_ret_pos hwrite.1
      have hsucc := taken_succ c w
      have hread := given_succ c i
      have hfirst : buf.take ((c.write w).getD 0) =
          (content.drop (given c i)).take ((c.write w).getD 0) := by
        have hle : (c.write w).getD 0 ≤ (c.read i).getD 0 := by omega
        have htake := congrArg (List.take ((c.write w).getD 0)) hbuf
        rwa [List.take_take,List.take_take,min_eq_left hle] at htake
      have htail := ih (w:=w+1) (by omega) (by omega) (by omega) hs
      have hleft : (k-((c.write w).getD 0 : ℕ)).toNat = k.toNat-(c.write w).getD 0 := by omega
      rw [hleft] at htail
      simp only [toNat_ret]
      exact htail.cons hsome hi hduring htotal (by omega) hfirst
    · simp only [writeBytes,if_neg hpos] at h
      cases h
      have hzero : k.toNat = 0 := by omega
      rw [hzero]
      exact sentFrom_nil (by omega)

/-- The same for the whole rest of the file. -/
theorem sendBytes_sent {content file buf s : List UInt8} {m r w : ℕ}
    (hreads : ReadsFile c content n) (hsome : WritesSome c n) (hr : r ≤ n)
    (hw : taken c w = given c r) (hfile : file = content.drop (given c r))
    (h : sendBytes c m r w file buf = some s) : s.length = content.length-given c r ∧
      (s = content.drop (given c r) ↔
        ∀ i j, r ≤ i → i < n → During c i j → SendsNext c content i j) := by
  induction m generalizing r w file buf s with
  | zero => simp [sendBytes] at h
  | succ m ih =>
    by_cases hlast : r = n
    · have hend : ¬ret (c.read r) > 0 := by
        rw [hlast]
        exact not_lt.mpr hreads.readsUntil.ends
      simp only [sendBytes,if_neg hend,Option.some.injEq] at h
      subst h
      have hall : given c r = content.length := hlast ▸ hreads.total
      simp only [hall,List.drop_length,List.length_nil,Nat.sub_self,true_and,true_iff]
      intro i j hi hin
      omega
    · have hpos := (hreads.data r (by omega)).1
      have hgetD := getD_of_ret_pos hpos
      have hsucc := given_succ c r
      have htotal : given c (r+1) ≤ content.length := by
        rw [← hreads.total]
        exact given_mono c (by omega)
      simp only [sendBytes,gt_iff_lt,if_pos hpos,toNat_ret,bind,pure,Option.bind_eq_some_iff,
        Option.some.injEq] at h
      obtain ⟨written,hwritten,rest,hrest,rfl⟩ := h
      have hlen := length_read htotal
      have hbuf : (readInto (file.take ((c.read r).getD 0)) buf).take ((c.read r).getD 0) =
          (content.drop (given c r)).take ((c.read r).getD 0) := by
        rw [hfile,take_readInto hlen.ge,List.take_take,min_self]
      have hk : (taken c w : ℤ)+ret (c.read r) = given c (r+1) := by omega
      obtain ⟨hlength,hbytes⟩ :=
        writeBytes_sent hsome (by omega) htotal hbuf hw.ge hk hpos.le hwritten
      have htaken := writeBytes_taken hsome.within (by omega) hw.ge hk hpos.le hwritten
      have hfile' : file.drop ((c.read r).getD 0) = content.drop (given c (r+1)) := by
        rw [hfile,List.drop_drop,hsucc]
      have houter := ih (by omega) htaken hfile' hrest
      have hsplit : content.drop (given c r) =
          (content.drop (given c r)).take ((c.read r).getD 0) ++ content.drop (given c (r+1)) := by
        rw [hsucc,← List.drop_drop,List.take_append_drop]
      rw [toNat_ret] at hlength hbytes
      rw [hw] at hbytes
      constructor
      · rw [List.length_append,hlength,houter.1]
        omega
      · rw [hsplit,append_inj_iff (hlength.trans hlen.symm),hbytes,houter.2]
        constructor
        · intro ⟨hhere,hlater⟩ i j hi hin hduring
          obtain rfl | hgt := hi.eq_or_lt
          · exact hhere j hduring.1 hduring.2
          · exact hlater i j hgt hin hduring
        · intro hall
          exact ⟨fun j hj hlt => hall r j le_rfl (by omega) ⟨hj,hlt⟩,
            fun i j hi hin hduring => hall i j (by omega) hin hduring⟩

/-- A loop that has ended does not use more rounds. -/
theorem writeBytes_more {buf : List UInt8} {m m' w : ℕ} {k : ℤ} {s : ℕ × List UInt8}
    (hle : m ≤ m') (h : writeBytes c buf m w k = some s) : writeBytes c buf m' w k = some s := by
  induction m generalizing m' w k s with
  | zero =>
    simp only [writeBytes] at h
    split_ifs at h with hpos
    cases m' with
    | zero => simpa [writeBytes,hpos] using h
    | succ m' => simpa [writeBytes,hpos] using h
  | succ m ih =>
    obtain ⟨m',rfl⟩ : ∃ l, m' = l+1 := ⟨m'-1,by omega⟩
    by_cases hpos : k > 0
    · simp only [writeBytes,if_pos hpos,Option.map_eq_some_iff] at h ⊢
      obtain ⟨s',hs,rfl⟩ := h
      exact ⟨s',ih (by omega) hs,rfl⟩
    · simp only [writeBytes,if_neg hpos] at h ⊢
      exact h

theorem sendBytes_more {file buf s : List UInt8} {m m' r w : ℕ} (hle : m ≤ m')
    (h : sendBytes c m r w file buf = some s) : sendBytes c m' r w file buf = some s := by
  induction m generalizing m' r w file buf s with
  | zero => simp [sendBytes] at h
  | succ m ih =>
    obtain ⟨m',rfl⟩ : ∃ l, m' = l+1 := ⟨m'-1,by omega⟩
    by_cases hpos : ret (c.read r) > 0
    · simp only [sendBytes,if_pos hpos,bind,pure,Option.bind_eq_some_iff] at h ⊢
      obtain ⟨written,hwritten,rest,hrest,hs⟩ := h
      exact ⟨written,writeBytes_more (by omega) hwritten,rest,ih (by omega) hrest,hs⟩
    · simp only [sendBytes,if_neg hpos] at h ⊢
      exact h

/-- An upload ends, and the socket gets the file if and only if every write sends what is
next in it, though it takes its bytes from the start of the buffer. -/
theorem upload_sends_file_iff (c : Outcomes) (content buf : List UInt8) (n : ℕ)
    (hreads : ReadsFile c content n) (hsome : WritesSome c n) : ∃ sent,
      (∃ rounds, ∀ more, rounds ≤ more → sendBytes c more 0 0 content buf = some sent) ∧
      (sent = content ↔ ∀ i j, i < n → During c i j → SendsNext c content i j) := by
  have hends := sendLoop_isSome 0 0 (r:=0) (w:=0) hreads.readsUntil hsome.within
    hsome.enough (Nat.zero_le n) rfl (Nat.lt_succ_self _)
  rw [← sendBytes_isSome 0 0 _ 0 0 content buf] at hends
  obtain ⟨sent,hsent⟩ := Option.isSome_iff_exists.mp hends
  refine ⟨sent,⟨_,fun more hmore => sendBytes_more hmore hsent⟩,?_⟩
  have hall := (sendBytes_sent hreads hsome (Nat.zero_le n) rfl rfl hsent).2
  simpa [given_zero] using hall

theorem readsFile_two {writes : List ℕ} {a b : UInt8} : ReadsFile (exchange [2] writes) [a,b] 1 where
  data i hi := by
    obtain rfl : i = 0 := by omega
    exact ⟨show (0 : ℤ) < 2 by decide,show (2 : ℤ) ≤ 1024 by decide⟩
  ends := rfl
  total := rfl

theorem upload_sends_two_bytes : ∃ sent,
    (∃ rounds, ∀ more, rounds ≤ more →
      sendBytes (exchange [2] [2]) more 0 0 [7,8] [] = some sent) ∧ sent = [7,8] := by
  have hfirst : ∀ i j, i < 1 → During (exchange [2] [2]) i j → i = 0 ∧ j = 0 := by
    intro i j hi hduring
    obtain rfl : i = 0 := by omega
    have hj : j < 1 := hduring.lt (by decide)
    exact ⟨rfl,by omega⟩
  have hsome : WritesSome (exchange [2] [2]) 1 := by
    intro i j hi hduring
    obtain ⟨rfl,rfl⟩ := hfirst i j hi hduring
    decide
  obtain ⟨sent,hsent,hiff⟩ := upload_sends_file_iff _ [7,8] [] 1 readsFile_two hsome
  refine ⟨sent,hsent,hiff.mpr fun i j hi hduring => ?_⟩
  obtain ⟨rfl,rfl⟩ := hfirst i j hi hduring
  rfl

/-- Two bytes in two writes: the first byte is sent twice. -/
theorem upload_repeats_byte : ¬∀ (c : Outcomes) (content buf : List UInt8) (n : ℕ),
    ReadsFile c content n → WritesSome c n →
      ∃ rounds, sendBytes c rounds 0 0 content buf = some content := by
  intro h
  have hsome : WritesSome (exchange [2] [1,1]) 1 := by
    intro i j hi hduring
    obtain rfl : i = 0 := by omega
    have hj : j < 2 := hduring.lt (by decide)
    interval_cases j <;> decide
  obtain ⟨rounds,hsent⟩ := h _ [7,8] [] 1 readsFile_two hsome
  have htwice : sendBytes (exchange [2] [1,1]) 4 0 0 [7,8] [] = some [7,7] := by decide
  have heq := (sendBytes_more (Nat.le_max_left rounds 4) hsent).symm.trans
    (sendBytes_more (Nat.le_max_right rounds 4) htwice)
  exact absurd heq (by decide)

end Sent

/-! ### What a file gets from the socket -/

/-- The read-write loop of `download_recv_fetch` with the bytes that are still to come, `buf`
and what is in the file. -/
def fetchBytes : ℕ → ℕ → List UInt8 → List UInt8 → List UInt8 → Option (Bool × List UInt8)
  | 0, _, _, _, _ => none
  | n+1, i, stream, buf, file =>
    let r := ret (c.read i)
    if r > 0 then
      let buf := readInto (stream.take r.toNat) buf
      let w := ret (c.write i)
      if w = -1 then some (false,file)
      else fetchBytes n (i+1) (stream.drop r.toNat) buf (file ++ buf.take w.toNat)
    else some (true,file)

section Stored
variable {c} {n : ℕ}

/-- It reports what the loop without the bytes reports. -/
theorem fetchBytes_fst (d : DownloadData) (m i : ℕ) (stream buf file : List UInt8) :
    (fetchBytes c m i stream buf file).map Prod.fst = (fetchLoop c d m i).map Prod.fst := by
  induction m generalizing i stream buf file with
  | zero => rfl
  | succ m ih =>
    simp only [fetchBytes,fetchLoop]
    split_ifs with hr hw
    · rfl
    · rw [Option.map_map]
      exact ih (i+1) _ _ _
    · rfl

/-- The reads go through what the socket receives, 4096 bytes at most at a time, and every
write takes something of what has been read. -/
structure Receives (c : Outcomes) (stream : List UInt8) (n : ℕ) : Prop where
  data : ∀ i, i < n → 0 < ret (c.read i) ∧ ret (c.read i) ≤ 4096
  ends : ret (c.read n) ≤ 0
  total : given c n = stream.length
  writes : ∀ i, i < n → 0 < ret (c.write i) ∧ ret (c.write i) ≤ ret (c.read i)

/-- Calls that move less each move less together, or just the same. -/
theorem moved_eq_iff {f g : ℕ → Option ℕ} (h : ∀ i, i < n → (f i).getD 0 ≤ (g i).getD 0) :
    moved f n ≤ moved g n ∧
      (moved f n = moved g n ↔ ∀ i, i < n → (f i).getD 0 = (g i).getD 0) := by
  induction n with
  | zero => simp [moved_zero]
  | succ n ih =>
    have hlast := h n (by omega)
    obtain ⟨hle,hiff⟩ := ih fun i hi => h i (by omega)
    rw [moved_succ,moved_succ]
    refine ⟨by omega,?_⟩
    constructor
    · intro heq i hi
      by_cases hin : i < n
      · exact hiff.mp (by omega) i hin
      · obtain rfl : i = n := by omega
        omega
    · intro hall
      rw [hiff.mpr fun i hi => hall i (by omega),hall n (by omega)]

/-- The file grows by what the writes take; where they take all, it grows by what comes. -/
theorem fetchBytes_stored {e i : ℕ} {stream rest : List UInt8} (buf file : List UInt8)
    (h : Receives c stream n) (hi : i+e = n) (hrest : rest = stream.drop (given c i)) : ∃ new,
      (∀ m, e < m → fetchBytes c m i rest buf file = some (true,file ++ new)) ∧
      taken c i+new.length = taken c n ∧
      ((∀ j, i ≤ j → j < n → ret (c.write j) = ret (c.read j)) → new = stream.drop (given c i)) := by
  induction e generalizing i rest buf file with
  | zero =>
    obtain rfl : i = n := hi
    have hend : ¬ret (c.read i) > 0 := not_lt.mpr h.ends
    refine ⟨[],fun m hm => ?_,rfl,fun _ => ?_⟩
    · obtain ⟨m,rfl⟩ : ∃ l, m = l+1 := ⟨m-1,by omega⟩
      simp [fetchBytes,if_neg hend]
    · rw [h.total,List.drop_length]
  | succ e ih =>
    have hpos := (h.data i (by omega)).1
    have hwrite := h.writes i (by omega)
    have hread : ((c.read i).getD 0 : ℤ) = ret (c.read i) := getD_of_ret_pos hpos
    have hwritten : ((c.write i).getD 0 : ℤ) = ret (c.write i) := getD_of_ret_pos hwrite.1
    have hok : ¬ret (c.write i) = -1 := by omega
    have hgiven := given_succ c i
    have htaken := taken_succ c i
    have htotal : given c (i+1) ≤ stream.length := by
      rw [← h.total]
      exact given_mono c (by omega)
    have hlen : (rest.take ((c.read i).getD 0)).length = (c.read i).getD 0 := by
      rw [hrest,length_read htotal]
    have hbuf : (readInto (rest.take ((c.read i).getD 0)) buf).take ((c.write i).getD 0) =
        rest.take ((c.write i).getD 0) := by
      have hle : (c.write i).getD 0 ≤ (c.read i).getD 0 := by omega
      rw [take_readInto (by omega),List.take_take,min_eq_left hle]
    have hnext : rest.drop ((c.read i).getD 0) = stream.drop (given c (i+1)) := by
      rw [hrest,List.drop_drop,hgiven]
    obtain ⟨new,hnew,hcount,hfull⟩ := ih (i:=i+1) (readInto (rest.take ((c.read i).getD 0)) buf)
      (file ++ rest.take ((c.write i).getD 0)) (by omega) hnext
    refine ⟨rest.take ((c.write i).getD 0) ++ new,fun m hm => ?_,?_,fun hall => ?_⟩
    · obtain ⟨m,rfl⟩ : ∃ l, m = l+1 := ⟨m-1,by omega⟩
      simp only [fetchBytes,gt_iff_lt,if_pos hpos,if_neg hok,toNat_ret,hbuf,hnew m (by omega),
        List.append_assoc]
    · rw [List.length_append,List.length_take,hrest,List.length_drop]
      omega
    · have heq : (c.write i).getD 0 = (c.read i).getD 0 := by
        have hhere := hall i le_rfl (by omega)
        omega
      have htail := hfull fun j hj hlt => hall j (by omega) hlt
      rw [htail,heq,← hnext,List.take_append_drop,hrest]

/-- A download reports that it has finished, and what came is in the file if and only if
every write has taken all bytes of the read before it. -/
theorem download_stores_stream_iff (c : Outcomes) (stream buf : List UInt8) (n : ℕ)
    (h : Receives c stream n) : ∃ file,
      (∀ rounds, n < rounds → fetchBytes c rounds 0 stream buf [] = some (true,file)) ∧
      (file = stream ↔ ∀ i, i < n → ret (c.write i) = ret (c.read i)) := by
  obtain ⟨file,hfile,hcount,hfull⟩ := fetchBytes_stored (e:=n) (i:=0) buf [] h
    (Nat.zero_add n) rfl
  simp only [given_zero,List.drop_zero,List.nil_append] at hfile hfull
  rw [taken_zero,Nat.zero_add] at hcount
  have hread : ∀ i, i < n → ((c.read i).getD 0 : ℤ) = ret (c.read i) :=
    fun i hi => getD_of_ret_pos (h.data i hi).1
  have hwrite : ∀ i, i < n → ((c.write i).getD 0 : ℤ) = ret (c.write i) :=
    fun i hi => getD_of_ret_pos (h.writes i hi).1
  refine ⟨file,hfile,fun heq i hi => ?_,fun hall => hfull fun j _ hj => hall j hj⟩
  have hle : ∀ i, i < n → (c.write i).getD 0 ≤ (c.read i).getD 0 := by
    intro i hi
    have hwithin := (h.writes i hi).2
    rw [← hread i hi,← hwrite i hi] at hwithin
    exact_mod_cast hwithin
  have hmoved : moved c.write n = moved c.read n := by
    rw [← taken,← given,← hcount,heq,h.total]
  rw [← hread i hi,← hwrite i hi,(moved_eq_iff hle).2.mp hmoved i hi]

theorem receives_two {w : ℕ} (hpos : 0 < w) (hle : w ≤ 2) {a b : UInt8} :
    Receives (exchange [2] [w]) [a,b] 1 where
  data i hi := by
    obtain rfl : i = 0 := by omega
    exact ⟨show (0 : ℤ) < 2 by decide,show (2 : ℤ) ≤ 4096 by decide⟩
  ends := le_rfl
  total := rfl
  writes i hi := by
    obtain rfl : i = 0 := by omega
    exact ⟨show (0 : ℤ) < w by omega,show (w : ℤ) ≤ 2 by omega⟩

theorem download_stores_two_bytes : ∃ file,
    (∀ rounds, 1 < rounds → fetchBytes (exchange [2] [2]) rounds 0 [7,8] [] [] = some (true,file)) ∧
      (file = [7,8]) := by
  obtain ⟨file,hfile,hiff⟩ := download_stores_stream_iff _ [7,8] [] 1
    (receives_two (by decide) le_rfl)
  refine ⟨file,hfile,hiff.mpr fun i hi => ?_⟩
  obtain rfl : i = 0 := by omega
  rfl

/-- A file that takes one byte of two, and a report that it is finished. -/
theorem download_loses_byte : ¬∀ (c : Outcomes) (stream buf : List UInt8) (n : ℕ),
    Receives c stream n → ∀ rounds file,
      fetchBytes c rounds 0 stream buf [] = some (true,file) → file = stream := by
  intro h
  have hrec : Receives (exchange [2] [1]) [7,8] 1 := receives_two (by decide) (by decide)
  have hshort : fetchBytes (exchange [2] [1]) 2 0 [7,8] [] [] = some (true,[7]) := by decide
  exact absurd (h _ _ _ _ hrec 2 [7] hshort) (by decide)

end Stored
end Transfers
end Pingu
end MiscUniStuff
