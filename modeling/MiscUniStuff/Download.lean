import MiscUniStuff.Host

/-! `download.c`: asking for a file, offering one, and fetching one that is offered. -/
namespace MiscUniStuff
namespace Pingu
open ByteOrder

/-- `md5cmp` of an entry's sum with the payload from `i` on, up to the first byte that
differs. -/
def md5cmp (p : FullPacket) : List UInt8 → ℕ → Except Fault Bool
  | [], _ => .ok true
  | b::text, i =>
    match p.data[i]? with
    | none => .error .payloadIndex
    | some c => if b ≠ c then .ok false else md5cmp p text (i+1)

/-- The payload of `download_send_file_reply`. The port is copied as four bytes, its own
two and the two of padding behind them; the sum then covers the surplus. -/
def transferPayload (port : InPort) (junk : ℕ → UInt8) (filename : CString)
    (md5sum : List UInt8) : List UInt8 :=
  let j := 6+16+filename.strlen
  let k := (List.range j).map junk
  let k := writeAt k 0 [0,0,0,0]
  let k := writeAt k 4 (port.bytes ++ [junk j,junk (j+1)])
  let k := writeAt k 6 md5sum
  writeAt k 22 filename.bytes

/-- `download_send_file` with `download_send_file_reply`; the sum is the one in the request. -/
def downloadSendFile (calls : Calls) (h : Host) (p : FullPacket) (f : FileData) :
    Except Fault (List Action) := do
  match calls.opened,calls.listenport with
  | true,some port =>
    let md5sum ← p.read 0 16
    let k := transferPayload port calls.junk f.filename md5sum
    let pa := fillinPacket h.order replyTransferwaiting (UInt16.ofNat k.length)
      p.packet.requestHandle
    return [.sendto p.addr (sendPacket h.order pa k),.downloadPool (some f.fullfilename)]
  | _,_ => return [.downloadPool none]

/-- `get_request_wantfile`: offer the first file of the list that has the sum. -/
def getRequestWantfile (calls : Calls) (h : Host) (p : FullPacket) :
    List FileData → Except Fault (List Action)
  | [] => .ok []
  | f::m => do
    if ← md5cmp p f.md5sum 0 then downloadSendFile calls h p f else getRequestWantfile calls h p m

/-- `DOWNLOAD_DIRECTORY "/"`. -/
def downloadDirectory : List UInt8 := "../downloads/".toUTF8.toList

/-- `download_reply_transferwaiting`. -/
def downloadReplyTransferwaiting (calls : Calls) (p : FullPacket) :
    Except Fault (List Action) := do
  let foo := p.length-22
  malloc (foo+1)
  let filename ← p.copy 22 foo
  let fullfile := downloadDirectory ++ (cstring filename).bytes
  let port ← p.readPort 4
  let ad : SockAddr := ⟨p.addr.addr,port⟩
  if ¬calls.socketed then return []
  else if ¬calls.connected then return [.connect ad]
  else if ¬calls.created then return [.connect ad,.creat fullfile]
  else return [.connect ad,.creat fullfile,.uploadPool]

/-- The request structure of `download_make_request`; only the callback is set. -/
def downloadRequest : Request := ⟨0,.downloadRequestTimeout,none,none,false,false,0⟩

/-- `download_make_request`. -/
def downloadMakeRequest (calls : Calls) (md5sum : List UInt8) (host : SockAddr) (h : Host) :
    Host × List Action :=
  let (requests,reqNo) := h.requests.requestStart calls.time downloadRequest
  let p := fillinPacket h.order requestWantfile 16 reqNo
  ({ h with requests := requests },[.sendto host (sendPacket h.order p md5sum)])

/-! Which payloads are long enough. -/
section Lengths
variable {p : FullPacket} {c : Calls} {h : Host}

/-- The data ends before it differs from the sum. -/
def Truncated (data text : List UInt8) : Prop := data <+: text ∧ data.length < text.length

instance (data text : List UInt8) : Decidable (Truncated data text) :=
  inferInstanceAs (Decidable (_ ∧ _))

theorem getElem?_of_drop {i : ℕ} {c : UInt8} {rest : List UInt8} (hd : p.data.drop i = c::rest) :
    p.data[i]? = some c ∧ p.data.drop (i+1) = rest := by
  have h₁ : p.data[i]? = some c := by
    rw [← List.head?_drop,hd]
    rfl
  have h₂ : p.data.drop (i+1) = rest := by
    rw [← List.drop_drop,hd]
    rfl
  exact ⟨h₁,h₂⟩

theorem md5cmp_truncated {t : List UInt8} {i : ℕ} (ht : Truncated (p.data.drop i) t) :
    md5cmp p t i = .error .payloadIndex := by
  induction t generalizing i with
  | nil => simp [Truncated] at ht
  | cons b text ih =>
    cases hd : p.data.drop i with
    | nil =>
      have hnone : p.data[i]? = none := by
        rw [← List.head?_drop,hd]
        rfl
      simp [md5cmp,hnone]
    | cons c rest =>
      have hget := getElem?_of_drop hd
      simp only [Truncated,hd,List.cons_prefix_cons,List.length_cons] at ht
      have hh := ih (i:=i+1) ⟨by simpa [hget.2] using ht.1.2,by rw [hget.2]; omega⟩
      simp [md5cmp,hget.1,ht.1.1,hh]

theorem md5cmp_ok {t : List UInt8} {i : ℕ} (ht : ¬Truncated (p.data.drop i) t) :
    md5cmp p t i = .ok (decide (t <+: p.data.drop i)) := by
  induction t generalizing i with
  | nil => simp [md5cmp]
  | cons b text ih =>
    cases hd : p.data.drop i with
    | nil => simp [Truncated,hd] at ht
    | cons c rest =>
      have hget := getElem?_of_drop hd
      by_cases hbc : b = c
      · subst hbc
        have hrest : ¬Truncated (p.data.drop (i+1)) text := by
          rintro ⟨h₁,h₂⟩
          refine ht ⟨?_,?_⟩
          · simpa [hd,hget.2] using h₁
          · rw [hget.2] at h₂
            simpa [hd] using h₂
        simp [md5cmp,hget.1,ih hrest,hget.2]
      · simp [md5cmp,hget.1,hbc]

theorem downloadSendFile_isOk {f : FileData} (hp : 16 ≤ p.data.length) :
    (downloadSendFile c h p f).isOk := by
  have hread := FullPacket.read_ok (p:=p) (i:=0) (n:=16) (by omega)
  unfold downloadSendFile
  split
  · simp [hread,bind,Except.bind,pure,Except.pure,Except.isOk,Except.toBool]
  · rfl

theorem sum_length_le {f : FileData} (hp : f.md5sum <+: p.data) : 16 ≤ p.data.length := by
  simpa [f.md5_length] using hp.length_le

/-- A request for a file goes through exactly when the payload is no truncation of a sum
in the list. -/
theorem getRequestWantfile_isOk (m : List FileData) :
    (getRequestWantfile c h p m).isOk ↔ ∀ f ∈ m, ¬Truncated p.data f.md5sum := by
  induction m with
  | nil => simp [getRequestWantfile,Except.isOk,Except.toBool]
  | cons f m ih =>
    by_cases ht : Truncated p.data f.md5sum
    · have hh := md5cmp_truncated (p:=p) (i:=0) (t:=f.md5sum) ht
      simp [getRequestWantfile,hh,ht,bind,Except.bind,Except.isOk,Except.toBool]
    · have hh := md5cmp_ok (p:=p) (i:=0) (t:=f.md5sum) ht
      simp only [List.drop_zero] at hh
      by_cases hp : f.md5sum <+: p.data
      · -- the whole sum has been read, no other one is a longer match
        have hlen := sum_length_le hp
        have hall : ∀ f' ∈ m, ¬Truncated p.data f'.md5sum := by
          rintro f' - ⟨-,hlt⟩
          rw [f'.md5_length] at hlt
          omega
        have hsend := downloadSendFile_isOk (c:=c) (h:=h) (f:=f) hlen
        simpa [getRequestWantfile,hh,hp,ht,bind,Except.bind,hsend] using hall
      · simpa [getRequestWantfile,hh,hp,ht,bind,Except.bind] using ih

theorem getRequestWantfile_fault {m : List FileData} {e : Fault}
    (he : getRequestWantfile c h p m = .error e) : e = .payloadIndex := by
  induction m with
  | nil => simp [getRequestWantfile] at he
  | cons f m ih =>
    by_cases ht : Truncated p.data f.md5sum
    · have hh := md5cmp_truncated (p:=p) (i:=0) (t:=f.md5sum) ht
      simpa [getRequestWantfile,hh,bind,Except.bind,eq_comm] using he
    · have hh := md5cmp_ok (p:=p) (i:=0) (t:=f.md5sum) ht
      simp only [getRequestWantfile,hh,bind,Except.bind,List.drop_zero,decide_eq_true_eq] at he
      split_ifs at he with hp
      · have hsend := downloadSendFile_isOk (c:=c) (h:=h) (f:=f) (sum_length_le hp)
        simp [he,Except.isOk,Except.toBool] at hsend
      · exact ih he

/-- The path handed to `creat`. -/
def FullPacket.fullfile (p : FullPacket) : List UInt8 :=
  downloadDirectory ++ (cstring (p.data.drop 22)).bytes

theorem downloadReplyTransferwaiting_eq (hp : 22 ≤ p.data.length) :
    downloadReplyTransferwaiting c p = .ok (
      if ¬c.socketed then []
      else if ¬c.connected then [.connect ⟨p.addr.addr,p.port⟩]
      else if ¬c.created then [.connect ⟨p.addr.addr,p.port⟩,.creat p.fullfile]
      else [.connect ⟨p.addr.addr,p.port⟩,.creat p.fullfile,.uploadPool]) := by
  have hlen := p.data_length
  have hneg : ¬p.length-22+1 < 0 := by
    simp only [FullPacket.length]
    omega
  have hcopy := FullPacket.copy_rest (p:=p) hp
  simp only [Nat.cast_ofNat] at hcopy
  simp only [downloadReplyTransferwaiting,malloc,hneg,if_false,hcopy,
    FullPacket.readPort_four (p:=p) (by omega),bind,Except.bind]
  split_ifs <;> rfl

theorem downloadReplyTransferwaiting_isOk (hp : 22 ≤ p.data.length) :
    (downloadReplyTransferwaiting c p).isOk := by
  rw [downloadReplyTransferwaiting_eq hp]
  rfl

/-- A file is created once the connection stands, and only under that path. -/
theorem creat_mem_iff {acts : List Action} (hp : 22 ≤ p.data.length)
    (h : downloadReplyTransferwaiting c p = .ok acts) (path : List UInt8) :
    .creat path ∈ acts ↔ c.socketed ∧ c.connected ∧ path = p.fullfile := by
  rw [downloadReplyTransferwaiting_eq hp] at h
  cases h
  split_ifs with hs hc
  all_goals simp_all

theorem downloadReplyTransferwaiting_short (hp : p.data.length < 22) :
    downloadReplyTransferwaiting c p = .error .negativeLength := by
  have hlen := p.data_length
  have hcopy : p.copy 22 (p.length-22) = .error .negativeLength := by
    have hneg : p.length-22 < 0 := by
      simp only [FullPacket.length]
      omega
    simp [FullPacket.copy,hneg]
  by_cases hneg : p.length-22+1 < 0
  · simp [downloadReplyTransferwaiting,malloc,hneg,bind,Except.bind]
  · simp [downloadReplyTransferwaiting,malloc,hneg,hcopy,bind,Except.bind]

end Lengths

end Pingu
end MiscUniStuff
