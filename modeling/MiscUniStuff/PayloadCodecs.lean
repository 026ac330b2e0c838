import Mathlib
import MiscUniStuff.Download
import MiscUniStuff.PacketFraming
import MiscUniStuff.SearchAnswers

/-! The two payloads that a peer takes apart by literal offsets: the reply to a search and
the offer of a file, each from the sender's variables to those of the receiver. -/
namespace MiscUniStuff
namespace Pingu
open ByteOrder

/-! ### The columns of a result list -/

/-- The bytes of a string. -/
def text (s : String) : List UInt8 := s.toUTF8.data.toList

theorem text_inj {s t : String} : text s = text t ↔ s = t := by
  constructor
  · intro h
    have hdata := Array.toList_inj.mp h
    exact String.toByteArray_inj.mp (ByteArray.ext hdata)
  · rintro rfl
    rfl

/-- `get_md5sum_text`: two hexadecimal digits a byte. -/
def getMd5sumText (md5sum : List UInt8) : String :=
  String.join (md5sum.map fun b =>
    String.ofList [Nat.digitChar (b.toNat/16),Nat.digitChar (b.toNat%16)])

/-- `get_reply_column`; the port is printed as it lies in memory. -/
def getReplyColumn (o : Order) (colno : ℤ) (k : FiledataResponse) : List UInt8 :=
  if colno = 0 then (cstring k.filename).bytes
  else if colno = 1 then text (getMd5sumText k.md5sum)
  else if colno = 2 then text (toString k.size.toInt ++ " bytes")
  else if colno = 3 then text (k.hostname ++ ":" ++ toString (load o k.addr.port.bytes))
  else text "Bar"

/-- The third column tells sizes apart. -/
theorem getReplyColumn_size {o : Order} {k : FiledataResponse} {n : ℕ} :
    getReplyColumn o 2 k = text (toString n ++ " bytes") ↔ k.size.toInt = n := by
  have hn : toString n = (n : ℤ).repr := rfl
  have hcolumn : getReplyColumn o 2 k = text (k.size.toInt.repr ++ " bytes") := rfl
  -- only Mathlib as a whole brings `Int.repr_inj`
  rw [hcolumn,hn,text_inj,String.append_left_inj,Int.repr_inj]

/-! ### The reply to a search -/

theorem take_lowBytes {v w : ℕ} (h : v ≤ w) (n : ℕ) : (lowBytes w n).take v = lowBytes v n := by
  induction v generalizing w n with
  | zero => rfl
  | succ v ih =>
    cases w with
    | zero => omega
    | succ w =>
      have hh := ih (w:=w) (by omega) (n/256)
      simp [lowBytes,hh]

theorem load_take_store {w n : ℕ} (hw : 4 ≤ w) (hn : n < 2^32) :
    load .little ((store .little w n).take 4) = n := by
  have hfour : (store .little w n).take 4 = store .little 4 n := take_lowBytes hw n
  rw [hfour,load_store (by simpa using hn)]

/-- An unsigned size in an `int`. -/
theorem toInt_toInt32_eq_iff {n : ℕ} (hn : n < 2^32) :
    (UInt32.ofNat n).toInt32.toInt = n ↔ n < 2^31 := by
  have hbits : (UInt32.ofNat n).toInt32.toInt = (n : ℤ).bmod (2^32) := by
    change (BitVec.ofNat 32 n).toInt = _
    rw [BitVec.toInt_ofNat']
  rw [hbits,Int.bmod_def]
  split_ifs <;> omega

theorem Host.addRow_inj {h : Host} {model : ℕ} {k k' : FiledataResponse} :
    h.addRow model k = h.addRow model k' ↔ k = k' := by
  constructor
  · intro heq
    have hmodels := congrFun (congrArg Host.models heq) model
    simpa [Host.addRow] using hmodels
  · rintro rfl
    rfl

/-- The reply that `send_file_details` sends, also for a search that is too short. -/
theorem sendFileDetails_ok {h : Host} {p : FullPacket} {f : FileData} {act : Action}
    (hr : sendFileDetails h p f = .ok act) : ∃ dest, act = .sendto dest (sendPacket h.order
      (fillinPacket h.order replyFilesearch (UInt16.ofNat (20+f.fullfilename.strlen))
        p.packet.requestHandle) (fileDetails h f)) := by
  cases ha : p.readAddr 0 with
  | error e => simp [sendFileDetails,ha,bind,Except.bind] at hr
  | ok local' =>
    cases hp : p.readPort 4 with
    | error e => simp [sendFileDetails,ha,hp,bind,Except.bind] at hr
    | ok j =>
      simp only [sendFileDetails,ha,hp,bind,Except.bind,pure,Except.pure,Except.ok.injEq] at hr
      exact ⟨_,hr.symm⟩

/-- The row that a host of the same byte order makes of the reply, whatever the reply
names. -/
theorem getReplySearch_sent {h h₁ : Host} {p : FullPacket} {f : FileData} {dest : SockAddr}
    {bs : List UInt8} {m : ℕ → UInt8} {ad : SockAddr} {b : ℕ} {l : Request} {model : ℕ}
    (hname : f.fullfilename.strlen ≤ 65515)
    (hsend : sendFileDetails h p f = .ok (.sendto dest bs)) (hm : StartsWith m bs)
    (hout : h₁.requests.outstanding (readPacket h₁.order m ad).packet.requestHandle = some (b,l))
    (hactive : l.active = true) (hmodel : l.data = some model) :
    getReplySearch h₁ (readPacket h₁.order m ad) =
      .ok (h₁.addRow model (responseOf h₁.order (fileDetails h f) ad)) := by
  obtain ⟨dest',hact⟩ := sendFileDetails_ok hsend
  simp only [Action.sendto.injEq] at hact
  rw [hact.2] at hm
  have hlen : (fileDetails h f).length = (UInt16.ofNat (20+f.fullfilename.strlen)).toNat := by
    rw [length_fileDetails,UInt16.toNat_ofNat_of_lt' (by simp only [UInt16.size]; omega)]
  have hread := readPacket_sendPacket h₁.order (p:=fillinPacket h.order replyFilesearch
    (UInt16.ofNat (20+f.fullfilename.strlen)) p.packet.requestHandle) hlen hm ad
  have hlong : 20 ≤ (readPacket h₁.order m ad).data.length := by
    rw [hread.data,length_fileDetails]
    omega
  rw [getReplySearch_active hout hactive hlong,hmodel,response_eq,hread.data]
  rfl

/-- The row carries the file name, the sum, and the size as it is shown. -/
def Decoded (o : Order) (f : FileData) (k : FiledataResponse) : Prop :=
  k.filename = f.fullfilename.bytes ∧ k.md5sum = f.md5sum ∧
    getReplyColumn o 2 k = text (toString f.filesize ++ " bytes")

theorem decoded_iff {h : Host} {f : FileData} (horder : h.order = .little)
    (hsize : f.filesize < 2^32) (hname : f.fullfilename.strlen ≤ 65515) (o : Order)
    (ad : SockAddr) :
    Decoded o f (responseOf .little (fileDetails h f) ad) ↔ f.filesize < 2^31 := by
  have hsent := sentDetails_eq (h:=h) (Nat.lt_succ_of_le hname)
  have hfields := responseOf_sentDetails (o:=.little) (h:=h) (Nat.lt_succ_of_le hname) ad
  rw [hsent] at hfields
  have hload : load .little ((fileDetails h f).take 4) = f.filesize := by
    have hfour := h.four_le
    have htake : (fileDetails h f).take 4 = (store .little h.sizeofSizeT f.filesize).take 4 := by
      simp [fileDetails,horder,hfour]
    rw [htake,load_take_store hfour hsize]
  have hshown : (responseOf .little (fileDetails h f) ad).size.toInt = f.filesize ↔
      f.filesize < 2^31 := by
    simp only [responseOf,hload]
    exact toInt_toInt32_eq_iff hsize
  simp only [Decoded,hfields,getReplyColumn_size,hshown,true_and]

/-- What is in the row that the reply becomes, against the size of the file. -/
theorem decodes_iff {h h₁ : Host} {p : FullPacket} {f : FileData} {ad : SockAddr} {model : ℕ}
    (horder : h.order = .little) (horder₁ : h₁.order = .little) (hsize : f.filesize < 2^32)
    (hname : f.fullfilename.strlen ≤ 65515)
    (hrow : getReplySearch h₁ p = .ok (h₁.addRow model (responseOf h₁.order (fileDetails h f) ad))) :
    (∃ k, getReplySearch h₁ p = .ok (h₁.addRow model k) ∧ Decoded h₁.order f k) ↔
      f.filesize < 2^31 := by
  rw [hrow,← decoded_iff horder hsize hname h₁.order ad,horder₁]
  constructor
  · rintro ⟨k,heq,hdec⟩
    rw [Except.ok.injEq,Host.addRow_inj] at heq
    rwa [heq]
  · intro hdec
    exact ⟨_,rfl,hdec⟩

/-- A file of the given size. -/
def fileOfSize (n : ℕ) : FileData := { someFile with filesize := n }

/-- A host that has just started its first search. -/
def searching : Host := (searchfile noCalls someFile.filename (.initial .little [])).1

/-- The search of that host. -/
def firstSearch : FullPacket where
  packet := fillinPacket .little requestFilesearch 9 requestInit.found
  data := List.replicate 9 0
  addr := ⟨⟨10,0,0,1⟩,⟨0x0E,0xBD⟩⟩
  data_length := rfl

/-- The bytes of the reply to it. -/
def sizeReply (n : ℕ) : List UInt8 :=
  sendPacket .little (fillinPacket .little replyFilesearch 22 requestInit.found)
    (fileDetails (.initial .little []) (fileOfSize n))

theorem sizeReply_sent (n : ℕ) : sendFileDetails (.initial .little []) firstSearch (fileOfSize n) =
    .ok (.sendto ⟨⟨10,0,0,1⟩,⟨0,0⟩⟩ (sizeReply n)) := by
  rw [sendFileDetails_eq _ (by decide)]
  rfl

theorem sizeReply_expected (n : ℕ) : ∃ b l, searching.requests.outstanding
    (readPacket .little (memoryOf (sizeReply n)) firstSearch.addr).packet.requestHandle = some (b,l) ∧
    l.active = true ∧ l.data = some 0 := by
  have hread := readPacket_sendPacket .little (d:=fileDetails (.initial .little []) (fileOfSize n))
    (length_fileDetails _ _) (memoryOf_startsWith (sizeReply n)) firstSearch.addr
  have hhandle := Packet.front_handle hread.front
  simp only [searching,outstanding_searchfile,hhandle]
  exact ⟨_,_,rfl,rfl,rfl⟩

/-- The reply of `send_file_details` as `get_reply_search` takes it apart, between hosts of
little-endian byte order: name and sum are always right, and the size is shown right
unless it is negative as an `int`. -/
theorem search_reply_decoded_iff (h h₁ : Host) (p : FullPacket) (f : FileData) (dest : SockAddr)
    (bs : List UInt8) (m : ℕ → UInt8) (ad : SockAddr) (b : ℕ) (l : Request) (model : ℕ)
    (horder : h.order = .little) (horder₁ : h₁.order = .little) (hsize : f.filesize < 2^32)
    (hname : f.fullfilename.strlen ≤ 65515)
    (hsend : sendFileDetails h p f = .ok (.sendto dest bs)) (hm : StartsWith m bs)
    (hout : h₁.requests.outstanding (readPacket h₁.order m ad).packet.requestHandle = some (b,l))
    (hactive : l.active = true) (hmodel : l.data = some model) :
    (∃ k, getReplySearch h₁ (readPacket h₁.order m ad) = .ok (h₁.addRow model k) ∧
      k.filename = f.fullfilename.bytes ∧ k.md5sum = f.md5sum) ∧
    ((∃ k, getReplySearch h₁ (readPacket h₁.order m ad) = .ok (h₁.addRow model k) ∧
      Decoded h₁.order f k) ↔ f.filesize < 2^31) := by
  have hrow := getReplySearch_sent hname hsend hm hout hactive hmodel
  have hfields := responseOf_sentDetails (o:=h₁.order) (h:=h) (Nat.lt_succ_of_le hname) ad
  rw [sentDetails_eq (h:=h) (Nat.lt_succ_of_le hname)] at hfields
  refine ⟨⟨_,hrow,hfields⟩,?_⟩
  exact decodes_iff horder horder₁ hsize hname hrow

/-- The reply for a file of one byte to a search that has just started. -/
theorem search_reply_decoded_iff_small :
    (∃ k, getReplySearch searching (readPacket .little (memoryOf (sizeReply 1)) firstSearch.addr) =
      .ok (searching.addRow 0 k) ∧ Decoded .little (fileOfSize 1) k) := by
  obtain ⟨b,l,hout,hactive,hmodel⟩ := sizeReply_expected 1
  have hh := search_reply_decoded_iff (.initial .little []) searching firstSearch (fileOfSize 1) _ _ _
    firstSearch.addr b l 0 rfl rfl (by decide) (by decide) (sizeReply_sent 1)
    (memoryOf_startsWith _) hout hactive hmodel
  exact hh.2.mpr (by decide)

/-- A file of 2 GiB is shown with a negative size. -/
theorem search_reply_negative : ¬∃ k, getReplySearch searching
    (readPacket .little (memoryOf (sizeReply (2^31))) firstSearch.addr) =
      .ok (searching.addRow 0 k) ∧ Decoded .little (fileOfSize (2^31)) k := by
  obtain ⟨b,l,hout,hactive,hmodel⟩ := sizeReply_expected (2^31)
  have hrow := getReplySearch_sent (h:=.initial .little []) (p:=firstSearch) (f:=fileOfSize (2^31))
    (by decide) (sizeReply_sent _) (memoryOf_startsWith _) hout hactive hmodel
  intro hdec
  have hsmall := (decodes_iff rfl rfl (by simp [fileOfSize]) (by decide) hrow).mp hdec
  simp [fileOfSize] at hsmall

/-! ### The offer of a file -/

theorem writeAt_append {front back bs : List UInt8} {off : ℕ} (hoff : front.length = off) :
    writeAt (front ++ back) off bs = front ++ bs ++ back.drop bs.length := by
  subst off
  simp [writeAt,List.drop_append]

/-- The sum covers the two bytes too many that are copied with the port. -/
theorem transferPayload_eq (port : InPort) (junk : ℕ → UInt8) (filename : CString)
    {md5sum : List UInt8} (hsum : md5sum.length = 16) :
    transferPayload port junk filename md5sum =
      [0,0,0,0] ++ port.bytes ++ md5sum ++ filename.bytes := by
  have hlen : ((List.range (6+16+filename.strlen)).map junk).length = 22+filename.strlen := by simp
  simp only [transferPayload]
  generalize (List.range (6+16+filename.strlen)).map junk = fresh at hlen
  generalize junk (6+16+filename.strlen) = x
  generalize junk (6+16+filename.strlen+1) = y
  have haddr : writeAt fresh 0 [0,0,0,0] = [0,0,0,0] ++ fresh.drop 4 :=
    writeAt_append (Eq.refl ([] : List UInt8).length)
  have hport : writeAt ([0,0,0,0] ++ fresh.drop 4) 4 (port.bytes ++ [x,y]) =
      ([0,0,0,0] ++ port.bytes) ++ ([x,y] ++ fresh.drop 8) := by
    rw [writeAt_append (by simp)]
    simp
  have hmd5 : writeAt (([0,0,0,0] ++ port.bytes) ++ ([x,y] ++ fresh.drop 8)) 6 md5sum =
      ([0,0,0,0] ++ port.bytes ++ md5sum) ++ fresh.drop 22 := by
    rw [writeAt_append (by simp),hsum,List.append_cancel_left_eq]
    simp
  have hname : writeAt (([0,0,0,0] ++ port.bytes ++ md5sum) ++ fresh.drop 22) 22 filename.bytes =
      [0,0,0,0] ++ port.bytes ++ md5sum ++ filename.bytes := by
    have hrest : (fresh.drop 22).drop filename.bytes.length = [] := by
      apply List.drop_eq_nil_of_le
      simp [hlen,CString.strlen]
    rw [writeAt_append (by simp [hsum]),hrest,List.append_nil]
  rw [haddr,hport,hmd5,hname]

theorem length_transferPayload (port : InPort) (junk : ℕ → UInt8) (filename : CString)
    {md5sum : List UInt8} (hsum : md5sum.length = 16) :
    (transferPayload port junk filename md5sum).length = 22+filename.strlen := by
  rw [transferPayload_eq port junk filename hsum]
  simp [hsum,CString.strlen]
  omega

/-- `download_send_file_reply`. -/
def downloadSendFileReply (h : Host) (p : FullPacket) (port : InPort) (junk : ℕ → UInt8)
    (filename : CString) (md5sum : List UInt8) : Action :=
  .sendto p.addr (sendPacket h.order
    (fillinPacket h.order replyTransferwaiting
      (UInt16.ofNat (transferPayload port junk filename md5sum).length) p.packet.requestHandle)
    (transferPayload port junk filename md5sum))

/-- A file that has been opened is offered with the sum of the request. -/
theorem downloadSendFile_eq {calls : Calls} {h : Host} {p : FullPacket} {f : FileData}
    {port : InPort} (hopen : calls.opened = true) (hport : calls.listenport = some port)
    (hp : 16 ≤ p.data.length) : downloadSendFile calls h p f =
      .ok [downloadSendFileReply h p port calls.junk f.filename (p.data.take 16),
        .downloadPool (some f.fullfilename)] := by
  have hread := FullPacket.read_ok (p:=p) (i:=0) (n:=16) (by omega)
  simp only [List.drop_zero] at hread
  simp [downloadSendFile,hopen,hport,hread,bind,Except.bind,pure,Except.pure,
    downloadSendFileReply]

/-- An offer as it was built, and what the other end does about it: it connects to the port
at the address the offer came from and creates a file of that name. -/
theorem transfer_waiting_codec (port : InPort) (md5sum : List UInt8) (filename : CString)
    (hsum : md5sum.length = 16) (hlen : 22+filename.strlen ≤ 65535) (junk : ℕ → UInt8) :
    transferPayload port junk filename md5sum =
        [0,0,0,0] ++ port.bytes ++ md5sum ++ filename.bytes ∧
      ∀ h p dest bs o m ad calls,
        downloadSendFileReply h p port junk filename md5sum = .sendto dest bs → StartsWith m bs →
        (readPacket o m ad).port = port ∧
        cstring ((readPacket o m ad).data.drop 22) = filename ∧
        downloadReplyTransferwaiting calls (readPacket o m ad) = .ok (
          if ¬calls.socketed then []
          else if ¬calls.connected then [.connect ⟨ad.addr,port⟩]
          else if ¬calls.created then
            [.connect ⟨ad.addr,port⟩,.creat (downloadDirectory ++ filename.bytes)]
          else [.connect ⟨ad.addr,port⟩,.creat (downloadDirectory ++ filename.bytes),
            .uploadPool]) := by
  have hpayload := transferPayload_eq port junk filename hsum
  have hlong := length_transferPayload port junk filename hsum
  refine ⟨hpayload,fun h p dest bs o m ad calls hsend hm => ?_⟩
  simp only [downloadSendFileReply,Action.sendto.injEq] at hsend
  rw [← hsend.2] at hm
  have hfits : (transferPayload port junk filename md5sum).length =
      (UInt16.ofNat (transferPayload port junk filename md5sum).length).toNat := by
    rw [UInt16.toNat_ofNat_of_lt' (by rw [hlong]; simp only [UInt16.size]; omega)]
  have hread := readPacket_sendPacket o (p:=fillinPacket h.order replyTransferwaiting
    (UInt16.ofNat (transferPayload port junk filename md5sum).length) p.packet.requestHandle)
    hfits hm ad
  have hport : (readPacket o m ad).port = port := by
    simp only [FullPacket.port,hread.data,hpayload]
    rfl
  have hname : cstring ((readPacket o m ad).data.drop 22) = filename := by
    have hdrop : (transferPayload port junk filename md5sum).drop 22 = filename.bytes := by
      rw [hpayload]
      exact List.drop_left' (by simp [hsum])
    rw [hread.data,hdrop,cstring_bytes]
  have haddr : (readPacket o m ad).addr = ad := rfl
  refine ⟨hport,hname,?_⟩
  rw [downloadReplyTransferwaiting_eq (by rw [hread.data,hlong]; omega),FullPacket.fullfile,hname,
    hport,haddr]

/-- A name of two letters. -/
def nameHi : CString := ⟨[0x68,0x69],by decide⟩

/-- A big-endian host offers the file of this name, and a little-endian one connects and
creates it. -/
theorem transfer_waiting_codec_hi :
    transferPayload ⟨0x12,0x34⟩ (fun _ => 0xFF) nameHi (List.replicate 16 7) =
      [0,0,0,0,0x12,0x34] ++ List.replicate 16 7 ++ [0x68,0x69] ∧
    ∃ bs, downloadSendFileReply (.initial .big []) firstSearch ⟨0x12,0x34⟩ (fun _ => 0xFF) nameHi
        (List.replicate 16 7) = .sendto firstSearch.addr bs ∧
      downloadReplyTransferwaiting ⟨0,false,none,true,true,true,fun _ => 0⟩
          (readPacket .little (memoryOf bs) ⟨⟨10,0,0,2⟩,⟨0x0E,0xBD⟩⟩) =
        .ok [.connect ⟨⟨10,0,0,2⟩,⟨0x12,0x34⟩⟩,.creat (downloadDirectory ++ [0x68,0x69]),
          .uploadPool] := by
  have hh := transfer_waiting_codec ⟨0x12,0x34⟩ (List.replicate 16 7) nameHi rfl (by decide)
    fun _ => 0xFF
  refine ⟨hh.1,_,rfl,?_⟩
  exact (hh.2 (.initial .big []) firstSearch _ _ .little _ _ _ rfl (memoryOf_startsWith _)).2.2

end Pingu
end MiscUniStuff
