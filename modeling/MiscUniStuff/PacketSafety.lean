import MiscUniStuff.ApplyPacket
import MiscUniStuff.Runs

/-! What a datagram can make the program read: the handlers inside the payload, and
`read_packet` inside the buffer it shares with earlier datagrams. -/
namespace MiscUniStuff
namespace Pingu
open ByteOrder

/-! The handlers. -/

/-- All reads are inside the payload and all lengths are non-negative. -/
def PayloadSafe {α : Type} (r : Except Fault α) : Prop :=
  r ≠ .error .payloadIndex ∧ r ≠ .error .negativeLength

theorem payloadSafe_map {α β : Type} {f : α → β} {r : Except Fault α} :
    PayloadSafe (r.map f) ↔ PayloadSafe r := by
  cases r <;> simp [PayloadSafe,Except.map]

theorem payloadSafe_of_isOk {α : Type} {r : Except Fault α} (h : r.isOk) : PayloadSafe r := by
  cases r with
  | error e => simp [Except.isOk,Except.toBool] at h
  | ok a => simp [PayloadSafe]

/-- The payload is as long as the handler of its operation takes for granted. -/
structure LongEnough (p : FullPacket) (h : Host) : Prop where
  search : p.packet.operation = requestFilesearch → 8 ≤ p.data.length
  wantfile : p.packet.operation = requestWantfile →
    ∀ f ∈ h.database, ¬Truncated p.data f.md5sum
  transfer : p.packet.operation = replyTransferwaiting → 22 ≤ p.data.length
  reply : p.packet.operation = replyFilesearch → 20 ≤ p.data.length ∨
    ∀ b l, h.requests.outstanding p.packet.requestHandle = some (b,l) → l.active = false
  servers : p.packet.operation = replyServers → 6 ≤ p.data.length

section Handlers
variable {g : PatternMatch} {c : Calls} {p : FullPacket} {h : Host}

theorem getRequestSearch_safe_iff : PayloadSafe (getRequestSearch g h p) ↔ 8 ≤ p.data.length := by
  by_cases hp : 8 ≤ p.data.length
  · simp [getRequestSearch_eq hp,PayloadSafe,hp]
  · simp [getRequestSearch_short (not_le.mp hp),PayloadSafe,hp]

theorem getRequestWantfile_safe_iff {m : List FileData} :
    PayloadSafe (getRequestWantfile c h p m) ↔ ∀ f ∈ m, ¬Truncated p.data f.md5sum := by
  rw [← getRequestWantfile_isOk (c:=c) (h:=h)]
  refine ⟨fun hs => ?_,payloadSafe_of_isOk⟩
  cases hr : getRequestWantfile c h p m with
  | error e => simp [getRequestWantfile_fault hr,PayloadSafe,hr] at hs
  | ok a => rfl

theorem downloadReplyTransferwaiting_safe_iff :
    PayloadSafe (downloadReplyTransferwaiting c p) ↔ 22 ≤ p.data.length := by
  by_cases hp : 22 ≤ p.data.length
  · simp [payloadSafe_of_isOk (downloadReplyTransferwaiting_isOk (c:=c) hp),hp]
  · simp [downloadReplyTransferwaiting_short (not_le.mp hp),PayloadSafe,hp]

theorem addUpstreamServer_safe_iff {now : ℤ} :
    PayloadSafe (addUpstreamServer now p h) ↔ 6 ≤ p.data.length := by
  by_cases hp : 6 ≤ p.data.length
  · simp [payloadSafe_of_isOk (addUpstreamServer_isOk (h:=h) hp),hp]
  · simp [addUpstreamServer_short (not_le.mp hp),PayloadSafe,hp]

theorem getReplySearch_safe_iff : PayloadSafe (getReplySearch h p) ↔ 20 ≤ p.data.length ∨
    ∀ b l, h.requests.outstanding p.packet.requestHandle = some (b,l) → l.active = false := by
  rcases hr : h.requests.outstanding p.packet.requestHandle with _ | ⟨b,l⟩
  · simp [getReplySearch_missing hr,PayloadSafe]
  · cases ha : l.active with
    | false =>
      have hh : ∀ b' l', some (b,l) = some (b',l') → l'.active = false := by
        rintro _ _ ⟨⟩
        exact ha
      simp [getReplySearch_inactive hr ha,PayloadSafe,hh]
    | true =>
      have hh : ¬∀ b' l', some (b,l) = some (b',l') → l'.active = false := by
        intro hall
        simp [hall b l rfl] at ha
      by_cases hp : 20 ≤ p.data.length
      · rw [getReplySearch_active hr ha hp]
        cases l.data <;> simp [PayloadSafe,hp]
      · simp [getReplySearch_short hr ha (not_le.mp hp),PayloadSafe,hp,ha]

/-- The operations apart. -/
theorem longEnough_iff : LongEnough p h ↔
    if p.packet.operation = requestFilesearch then 8 ≤ p.data.length
    else if p.packet.operation = requestWantfile then
      ∀ f ∈ h.database, ¬Truncated p.data f.md5sum
    else if p.packet.operation = replyTransferwaiting then 22 ≤ p.data.length
    else if p.packet.operation = replyFilesearch then 20 ≤ p.data.length ∨
      ∀ b l, h.requests.outstanding p.packet.requestHandle = some (b,l) → l.active = false
    else p.packet.operation = replyServers → 6 ≤ p.data.length := by
  constructor
  · intro hl
    split_ifs with h₁ h₂ h₃ h₄
    · exact hl.search h₁
    · exact hl.wantfile h₂
    · exact hl.transfer h₃
    · exact hl.reply h₄
    · exact hl.servers
  · intro hh
    constructor <;> intro hop <;> simpa [hop,requestFilesearch,requestWantfile,
      replyTransferwaiting,replyFilesearch,replyServers] using hh

theorem applyOperation_safe_iff : PayloadSafe (applyOperation g c p h) ↔ LongEnough p h := by
  rw [longEnough_iff]
  by_cases h₀ : p.packet.operation = requestPing
  · simp [applyOperation,h₀,PayloadSafe,requestPing,requestFilesearch,requestWantfile,
      replyTransferwaiting,replyFilesearch,replyServers]
  simp only [applyOperation,h₀,if_false]
  split_ifs with h₁ h₂ h₃ h₄ h₅ h₆
  · rw [payloadSafe_map,getRequestSearch_safe_iff]
  · rw [payloadSafe_map,getRequestWantfile_safe_iff]
  · rw [payloadSafe_map,downloadReplyTransferwaiting_safe_iff]
  · rw [payloadSafe_map,getReplySearch_safe_iff]
  · simp [payloadSafe_map,addUpstreamServer_safe_iff,h₅]
  · simp [PayloadSafe,h₅]
  · simp [PayloadSafe,h₅]

/-- An accepted packet makes its handler leave the payload, or compute a negative length,
exactly when the payload is shorter than the handler takes for granted. -/
theorem applyPacket_safe_iff (g : PatternMatch) (c : Calls) (p : FullPacket) (h : Host)
    (hp : Accepted h.order p) : PayloadSafe (applyPacket g c p h) ↔ LongEnough p h := by
  rw [applyPacket,if_pos hp]
  exact applyOperation_safe_iff

/-- A search that announces no payload. -/
def emptySearch (o : Order) : FullPacket where
  packet := fillinPacket o requestFilesearch 0 1
  data := []
  addr := ⟨⟨10,0,0,2⟩,⟨0x0E,0xBD⟩⟩
  data_length := rfl

theorem applyPacket_safe_iff_emptySearch :
    PayloadSafe (applyPacket (fun _ _ => true) noCalls (emptySearch .little)
      (.initial .little [])) ↔ LongEnough (emptySearch .little) (.initial .little []) :=
  applyPacket_safe_iff _ _ _ _ (by decide)

theorem applyPacket_unsafe : ¬∀ g c p h, Accepted h.order p → PayloadSafe (applyPacket g c p h) := by
  intro hall
  have hsafe := hall (fun _ _ => true) noCalls (emptySearch .little) (.initial .little []) (by decide)
  rw [applyPacket,if_pos (by decide),applyOperation_safe_iff] at hsafe
  exact absurd (hsafe.search rfl) (by decide)

end Handlers

/-! The shared buffer. -/

/-- The packet handed on for the last of a list of datagrams, from given contents of the
buffer. -/
def packetAfter (o : Order) (buffer : ℕ → UInt8) (history : List (Datagram × SockAddr))
    (last : Datagram × SockAddr) : FullPacket :=
  readPacket o (recvfrom last.1 (Runs.run (incomingStep o) buffer history).1) last.2

/-- The packet read from a datagram depends on nothing but the datagram: not on the
datagrams before it, nor on what was in the buffer before those. -/
def NoLeak (o : Order) (last : Datagram × SockAddr) : Prop :=
  ∀ buffer₁ buffer₂ history₁ history₂,
    packetAfter o buffer₁ history₁ last = packetAfter o buffer₂ history₂ last

/-- The payload length that a header announces. -/
def Datagram.announced (d : Datagram) : ℕ := load .big ((d.bytes.drop 8).take 2)

/-- The datagram holds a header and all of the payload that this announces. -/
def Datagram.Complete (d : Datagram) : Prop :=
  sizeofPacket ≤ d.bytes.length ∧ sizeofPacket+d.announced ≤ d.bytes.length

instance (d : Datagram) : Decidable d.Complete := inferInstanceAs (Decidable (_ ∧ _))

theorem toNat_htons_load16 (o : Order) (a b : UInt8) :
    (htons o (load16 o a b)).toNat = load .big [a,b] := by
  rw [toNat_htons,toNat_load16]
  exact network_load o [a,b]

/-- `read_packet` looks at the header and as many bytes behind it as this announces. -/
theorem readPacket_congr {o : Order} {m m' : ℕ → UInt8} (hhead : ∀ i < 10, m i = m' i)
    (hdata : ∀ i < load .big [m 8,m 9], m (10+i) = m' (10+i)) (ad : SockAddr) :
    readPacket o m ad = readPacket o m' ad := by
  have himage : Packet.ofImage o m = Packet.ofImage o m' := by
    simp only [Packet.ofImage,hhead 0 (by omega),hhead 1 (by omega),hhead 2 (by omega),
      hhead 3 (by omega),hhead 4 (by omega),hhead 5 (by omega),hhead 6 (by omega),
      hhead 7 (by omega),hhead 8 (by omega),hhead 9 (by omega)]
  refine FullPacket.ext ?_ ?_ rfl
  · simp only [readPacket,himage]
  · have hlen : (htons o (Packet.ofImage o m').packetLength).toNat = load .big [m 8,m 9] := by
      rw [← himage]
      exact toNat_htons_load16 o (m 8) (m 9)
    simp only [readPacket,himage,sizeofPacket]
    refine List.map_congr_left fun i hi => hdata i ?_
    rwa [List.mem_range,hlen] at hi

theorem announced_eq {d : Datagram} (hd : sizeofPacket ≤ d.bytes.length) (buffer : ℕ → UInt8) :
    load .big [recvfrom d buffer 8,recvfrom d buffer 9] = d.announced := by
  simp only [sizeofPacket] at hd
  have h₈ := recvfrom_startsWith d buffer 8 (by omega)
  have h₉ := recvfrom_startsWith d buffer 9 (by omega)
  rw [h₈,h₉,Datagram.announced]
  congr 1
  rw [List.drop_eq_getElem_cons (by omega),List.drop_eq_getElem_cons (by omega)]
  rfl

theorem noLeak_of_complete {d : Datagram} (hd : d.Complete) (o : Order) (ad : SockAddr) :
    NoLeak o (d,ad) := by
  intro buffer₁ buffer₂ history₁ history₂
  have hsame : ∀ b b' i, i < d.bytes.length → recvfrom d b i = recvfrom d b' i := by
    intro b b' i hi
    rw [recvfrom_startsWith d b i hi,recvfrom_startsWith d b' i hi]
  have h₁ := hd.1
  have h₂ := hd.2
  simp only [sizeofPacket] at h₁ h₂
  refine readPacket_congr (fun i hi => hsame _ _ i (by omega)) (fun i hi => ?_) ad
  rw [announced_eq hd.1] at hi
  exact hsame _ _ _ (by omega)

/-- What a datagram leaves of the buffer can be read when it is not complete. -/
theorem complete_of_noLeak {d : Datagram} {o : Order} {ad : SockAddr} (h : NoLeak o (d,ad)) :
    d.Complete := by
  have hh := h (fun _ => 0) (fun _ => 1) [] []
  simp only [packetAfter,Runs.run_nil] at hh
  have hbeyond : ∀ b i, d.bytes.length ≤ i → recvfrom d b i = b i := by
    intro b i hi
    simp [recvfrom_eq,List.getElem?_eq_none hi]
  by_contra hd
  by_cases h₁ : sizeofPacket ≤ d.bytes.length
  · -- the first byte behind the datagram is copied as payload
    simp only [Datagram.Complete,sizeofPacket] at hd h₁
    have hlen : ∀ b, (htons o (Packet.ofImage o (recvfrom d b)).packetLength).toNat =
        d.announced := by
      intro b
      rw [← announced_eq (by simpa [sizeofPacket] using h₁) b]
      exact toNat_htons_load16 o _ _
    have hdata := congrArg (fun q => q.data[d.bytes.length-10]?) hh
    simp only [readPacket,List.getElem?_map,hlen] at hdata
    have hrange : (List.range d.announced)[d.bytes.length-10]? = some (d.bytes.length-10) :=
      List.getElem?_range (by omega)
    rw [hrange] at hdata
    simp only [Option.map_some,Option.some.injEq,sizeofPacket] at hdata
    rw [hbeyond _ _ (by omega),hbeyond _ _ (by omega)] at hdata
    exact absurd hdata (by decide)
  · -- the last byte of the header is not in the datagram
    simp only [sizeofPacket,not_le] at h₁
    have hpacket := congrArg (fun q => htons o q.packet.packetLength) hh
    simp only [readPacket,htons_htons,Packet.ofImage] at hpacket
    have hlast := (load16_inj.mp hpacket).2
    rw [hbeyond _ _ (by omega),hbeyond _ _ (by omega)] at hlast
    exact absurd hlast (by decide)

/-- Earlier datagrams do not show exactly in the packets read from complete datagrams. -/
theorem noLeak_iff (o : Order) (d : Datagram) (ad : SockAddr) : NoLeak o (d,ad) ↔ d.Complete :=
  ⟨complete_of_noLeak,fun hd => noLeak_of_complete hd o ad⟩

/-- The header of a search for a pattern of one character, without the payload. -/
def bareHeader : Datagram := ⟨preamble ++ [0,1,3,1,0,9],by decide⟩

/-- A datagram with some bytes where the payload of the next one would be. -/
def earlier : Datagram := ⟨List.replicate 20 0x41,by decide⟩

/-- After another datagram the header brings that one's bytes along as its payload. -/
theorem packetAfter_leaks : ¬∀ o buffer history₁ history₂ last,
    packetAfter o buffer history₁ last = packetAfter o buffer history₂ last := by
  intro hall
  have hh := hall .little (fun _ => 0) [] [(earlier,⟨.zero,⟨0,0⟩⟩)] (bareHeader,⟨.zero,⟨0,0⟩⟩)
  exact absurd (congrArg FullPacket.data hh) (by decide)

end Pingu
end MiscUniStuff
