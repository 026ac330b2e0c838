import MiscUniStuff.PacketFraming
import MiscUniStuff.SearchForwarding
import MiscUniStuff.SearchReplies

/-! The replies to the copies of a search on their way back, next to the traffic of
other searches. -/
namespace MiscUniStuff
namespace Pingu
open ByteOrder

/-- What a host reads of a datagram that another has sent. -/
theorem Flight.packet_sent {f : Flight} {o : Order} {q : Packet} {d : List UInt8}
    (hd : d.length = q.packetLength.toNat) (hf : f.datagram.bytes = sendPacket o q d) (h : Host)
    (buffer : ℕ → UInt8) :
    store16 h.order (f.packet h buffer).packet.requestHandle = store16 o q.requestHandle ∧
      (f.packet h buffer).packet.operation = q.operation ∧ (f.packet h buffer).data = d := by
  have hstart := recvfrom_startsWith f.datagram buffer
  rw [hf] at hstart
  have hread := readPacket_sendPacket h.order hd hstart f.source
  exact ⟨(Packet.front_eq hread.front).2.2,hread.operation,hread.data⟩

theorem length_fileDetails (h : Host) (file : FileData) :
    (fileDetails h file).length = 20+file.fullfilename.strlen := by
  have hfour := h.four_le
  simp [fileDetails,file.md5_length,CString.strlen]
  omega

/-- As much of the details as the 16 bits of the length allow. -/
def sentDetails (h : Host) (file : FileData) : List UInt8 :=
  (fileDetails h file).take (UInt16.ofNat (20+file.fullfilename.strlen)).toNat

theorem sentDetails_eq {h : Host} {file : FileData} (hlen : file.fullfilename.strlen < 65516) :
    sentDetails h file = fileDetails h file := by
  apply List.take_of_length_le
  rw [length_fileDetails,UInt16.toNat_ofNat_of_lt' (by simp only [UInt16.size]; omega)]

/-- The row that a reply with that payload becomes. -/
def responseOf (o : Order) (data : List UInt8) (addr : SockAddr) : FiledataResponse where
  filename := data.drop 20
  md5sum := (data.drop 4).take 16
  size := (UInt32.ofNat (load o (data.take 4))).toInt32
  addr := addr
  hostname := inetNtop addr.addr

theorem response_eq (o : Order) (p : FullPacket) : p.response o = responseOf o p.data p.addr := rfl

/-- The row has the name and the sum of the file. -/
theorem responseOf_sentDetails {o : Order} {h : Host} {file : FileData}
    (hlen : file.fullfilename.strlen < 65516) (addr : SockAddr) :
    (responseOf o (sentDetails h file) addr).filename = file.fullfilename.bytes ∧
      (responseOf o (sentDetails h file) addr).md5sum = file.md5sum := by
  have hfour : ((store h.order h.sizeofSizeT file.filesize).take 4).length = 4 := by
    simpa using h.four_le
  have hdetails : fileDetails h file = (store h.order h.sizeofSizeT file.filesize).take 4 ++
      (file.md5sum ++ file.fullfilename.bytes) := List.append_assoc _ _ _
  have hsum : (fileDetails h file).drop 4 = file.md5sum ++ file.fullfilename.bytes := by
    rw [hdetails,List.drop_left' hfour]
  refine ⟨?_,?_⟩
  · change (sentDetails h file).drop 20 = _
    rw [sentDetails_eq hlen,← List.drop_drop (i:=16) (j:=4),hsum,List.drop_left' file.md5_length]
  · change ((sentDetails h file).drop 4).take 16 = _
    rw [sentDetails_eq hlen,hsum,List.take_left' file.md5_length]

/-- What a host reads of a reply. -/
theorem packet_reply {f : Flight} {h : Host} {n : UInt16} {file : FileData}
    (hf : f.datagram.bytes = sendPacket h.order (fillinPacket h.order replyFilesearch
      (UInt16.ofNat (20+file.fullfilename.strlen)) n) (fileDetails h file)) (h₁ : Host)
    (buffer : ℕ → UInt8) :
    store16 h₁.order (f.packet h₁ buffer).packet.requestHandle = store16 h.order n ∧
      (f.packet h₁ buffer).packet.operation = replyFilesearch ∧
      (f.packet h₁ buffer).data = sentDetails h file := by
  have htake := sendPacket_take h.order (fillinPacket h.order replyFilesearch
    (UInt16.ofNat (20+file.fullfilename.strlen)) n) (fileDetails h file)
  refine Flight.packet_sent ?_ (hf.trans htake.symm) h₁ buffer
  have hle := Nat.mod_le (20+file.fullfilename.strlen) 65536
  simpa [fillinPacket,length_fileDetails] using hle

/-! Other searches. -/

section Others
variable {ι : Type} {w : Wiring ι} {k : Watched ι}

/-- A packet of another search: it has another number than the one under watch, or its
answers go to another program. -/
def ForOthers (w : Wiring ι) (k : Watched ι) (dest : SockAddr) (o : Order) (p : FullPacket) :
    Prop :=
  p.packet.operation = requestFilesearch ∧
      (store16 o p.packet.requestHandle = store16 k.order k.handle → 8 ≤ p.data.length →
        w.route ⟨setDestinationIp p.address p.addr.addr,p.port⟩ ≠ some k.origin) ∨
    p.packet.operation = replyFilesearch ∧
      (store16 o p.packet.requestHandle = store16 k.order k.handle → w.route dest ≠ some k.origin)

/-- A flight that is one of another search, whoever reads it. -/
structure Elsewhere (w : Wiring ι) (k : Watched ι) (f : Flight) : Prop where
  source : f.source.addr ≠ .zero
  others : ∀ h buffer, ForOthers w k f.dest h.order (f.packet h buffer)

theorem FullPacket.forwardData_port {p q : FullPacket} (hq : q.data = p.forwardData) : q.port = p.port := by
  have hdrop : p.forwardData.drop 4 = p.data.drop 4 := by
    unfold FullPacket.forwardData
    split_ifs
    · exact List.drop_left' (by simp)
    · rfl
  rw [FullPacket.port,hq,hdrop]
  rfl

/-- Whoever gets a copy that was passed on sends its replies to the same address as the
one who passed it on. -/
theorem FullPacket.forwardData_destination {p q : FullPacket} (hq : q.data = p.forwardData) (hsource : p.addr.addr ≠ .zero) :
    setDestinationIp q.address q.addr.addr = setDestinationIp p.address p.addr.addr := by
  have haddress : q.address = if p.address = .zero then p.addr.addr else p.address := by
    rw [FullPacket.address,hq,FullPacket.forwardData]
    split_ifs
    · rw [List.take_left' (by simp),InAddr.ofBytes_bytes]
    · rfl
  rw [setDestinationIp,setDestinationIp,haddress]
  by_cases hz : p.address = .zero
  · rw [if_pos hz,if_neg hsource]
  · rw [if_neg hz,if_neg hz]

/-- What is sent in answer to another search belongs to another search. -/
theorem Elsewhere.sent {f f' : Flight} (hf : Elsewhere w k f) {g : PatternMatch} {calls : Calls}
    {h h' : Host} {buffer : ℕ → UInt8} {acts : List Action}
    (ha : applyPacket g calls (f.packet h buffer) h = .ok (h',acts)) {j : ι}
    (hsource : f'.source = w.seen j f'.dest)
    (hsent : .sendto f'.dest f'.datagram.bytes ∈ acts) : Elsewhere w k f' := by
  refine ⟨hsource ▸ w.seen_ne_zero _ _,fun h₁ buffer₁ => ?_⟩
  rcases hf.others h buffer with ⟨hop,hother⟩ | ⟨hop,-⟩
  · rcases applyPacket_search hop ha with ⟨-,rfl | ⟨hp,rfl⟩⟩
    · simp at hsent
    · rcases List.mem_append.mp hsent with hm | hm
      · obtain ⟨file,-,heq⟩ := List.mem_map.mp hm
        simp only [reply,Action.sendto.injEq] at heq
        have hread := packet_reply heq.2.symm h₁ buffer₁
        refine .inr ⟨hread.2.1,fun hn => ?_⟩
        rw [← heq.1]
        exact hother (hread.1.symm.trans hn) hp
      · rw [forwards_eq] at hm
        obtain ⟨dest,-,heq⟩ := List.mem_map.mp hm
        simp only [Action.sendto.injEq] at heq
        have hlen := FullPacket.length_forwardData hp
        have hread := Flight.packet_sent hlen heq.2.symm h₁ buffer₁
        refine .inl ⟨hread.2.1.trans hop,fun hn hlong => ?_⟩
        rw [FullPacket.forwardData_destination hread.2.2 hf.source,
          FullPacket.forwardData_port hread.2.2]
        exact hother (hread.1.symm.trans hn) hp
  · rw [(applyPacket_reply hop ha).1] at hsent
    simp at hsent

end Others

end Pingu
end MiscUniStuff
