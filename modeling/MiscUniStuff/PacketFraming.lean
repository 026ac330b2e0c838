import MiscUniStuff.ApplyPacket

/-! A packet from the memory of one host to that of another: what `read_packet` gets
back of what `send_packet` sent, on the way on through other hosts, and of the handle
in the answer. -/
namespace MiscUniStuff
namespace Pingu
open ByteOrder

/-- The three fields in front of the ttl as they lie in memory. They travel unswapped. -/
def Packet.front (o : Order) (p : Packet) : List UInt8 :=
  store16 o p.magic ++ store16 o p.version ++ store16 o p.requestHandle

section Front
variable {o o' : Order} {p p' : Packet}

theorem Packet.front_eq (h : p.front o = p'.front o') : store16 o p.magic = store16 o' p'.magic ∧
    store16 o p.version = store16 o' p'.version ∧
    store16 o p.requestHandle = store16 o' p'.requestHandle := by
  have hsplit := List.append_inj h (by simp)
  have hhead := List.append_inj hsplit.1 (by simp)
  exact ⟨hhead.1,hhead.2,hsplit.2⟩

theorem Packet.front_handle (h : p.front o = p'.front o) : p.requestHandle = p'.requestHandle :=
  store16_inj (Packet.front_eq h).2.2

/-- The two comparisons of `apply_packet` only look at these bytes. -/
theorem accepted_iff_front {q : FullPacket} :
    Accepted o q ↔ ∃ hs, q.packet.front o = preamble ++ hs := by
  constructor
  · rintro ⟨hmagic,hversion⟩
    refine ⟨store16 o q.packet.requestHandle,?_⟩
    simp [Packet.front,hmagic,hversion,store16_protocolMagic,store16_protocolVersion,preamble]
  · rintro ⟨hs,hfront⟩
    have hpre : preamble =
        store16 o (htons o protocolMagic) ++ store16 o (htons o protocolVersion) := by
      rw [store16_protocolMagic,store16_protocolVersion]
      rfl
    rw [hpre] at hfront
    have hsplit := List.append_inj hfront (by simp)
    have hhead := List.append_inj hsplit.1 (by simp)
    exact ⟨store16_inj hhead.1,store16_inj hhead.2⟩

theorem front_fillinPacket (o : Order) (operation : UInt8) (datalen request : UInt16) :
    (fillinPacket o operation datalen request).front o = preamble ++ store16 o request := by
  simp [Packet.front,fillinPacket,store16_protocolMagic,store16_protocolVersion,preamble]

end Front

/-- What `read_packet` gets back of what `send_packet` sent. -/
structure Framed (o : Order) (p : Packet) (d : List UInt8) (o' : Order) (q : FullPacket) : Prop where
  data : q.data = d
  packetLength : q.packet.packetLength = p.packetLength
  ttl : q.packet.ttl = p.ttl
  operation : q.packet.operation = p.operation
  front : q.packet.front o' = p.front o

theorem readPacket_sendPacket {o : Order} (o' : Order) {p : Packet} {d : List UInt8} {m : ℕ → UInt8}
    (hd : d.length = p.packetLength.toNat) (hm : StartsWith m (sendPacket o p d)) (ad : SockAddr) :
    Framed o p d o' (readPacket o' m ad) := by
  obtain ⟨a,b,hmagic⟩ := exists_store16 o p.magic
  obtain ⟨c,e,hversion⟩ := exists_store16 o p.version
  obtain ⟨f,g,hhandle⟩ := exists_store16 o p.requestHandle
  have hlt : d.length < 65536 := hd ▸ p.packetLength.toNat_lt
  have hlen : UInt16.ofNat d.length = p.packetLength := by simp [hd]
  have hwire : StartsWith m (wire [a,b,c,e,f,g] p.ttl p.operation d) := by
    simpa [sendPacket_eq_wire hd,hmagic,hversion,hhandle] using hm
  have hread := readPacket_wire (o:=o') hlt hwire ad
  have hfront : p.front o = [a,b,c,e,f,g] := by simp [Packet.front,hmagic,hversion,hhandle]
  rw [hread]
  refine ⟨rfl,hlen,rfl,rfl,?_⟩
  rw [hfront]
  simp [Packet.front]

/-- A packet of some host as it lies in the memory of the hosts it passes through. Each of
them may change the ttl and the data, as `get_request_search_passon` does. -/
inductive Relayed (origin : Order) (p₀ : Packet) : Order → Packet → Prop
  | own : Relayed origin p₀ origin p₀
  | passedOn {o : Order} {p : Packet} (h : Relayed origin p₀ o p) (o' : Order) {d : List UInt8}
      (hd : d.length = p.packetLength.toNat) {m : ℕ → UInt8}
      (hm : StartsWith m (sendPacket o p d)) (ad : SockAddr) (ttl : UInt8) :
      Relayed origin p₀ o' { (readPacket o' m ad).packet with ttl := ttl }

theorem Relayed.front {origin o : Order} {p₀ p : Packet} (h : Relayed origin p₀ o p) :
    p.front o = p₀.front origin := by
  induction h with
  | own => rfl
  | passedOn h o' hd hm ad ttl ih => exact (readPacket_sendPacket o' hd hm ad).front.trans ih

/-- The search that a host passes on is the one it has read, with another ttl. -/
theorem Relayed.forwardHeader {origin o : Order} {p₀ p : Packet} (h : Relayed origin p₀ o p)
    (o' : Order) {d : List UInt8} (hd : d.length = p.packetLength.toNat) {m : ℕ → UInt8}
    (hm : StartsWith m (sendPacket o p d)) (ad : SockAddr) :
    Relayed origin p₀ o' (readPacket o' m ad).forwardHeader :=
  h.passedOn o' hd hm ad _

/-- A handle that is copied out of a packet into the answer comes back as it was. -/
theorem echo_handle {o o' : Order} {p : Packet} {q : FullPacket} (hq : q.packet.front o' = p.front o)
    {operation : UInt8} {datalen : UInt16} {d : List UInt8} (hd : d.length = datalen.toNat)
    {m : ℕ → UInt8}
    (hm : StartsWith m (sendPacket o' (fillinPacket o' operation datalen q.packet.requestHandle) d))
    (ad : SockAddr) : (readPacket o m ad).packet.requestHandle = p.requestHandle := by
  have hread := readPacket_sendPacket o
    (p:=fillinPacket o' operation datalen q.packet.requestHandle) hd hm ad
  have hback := (Packet.front_eq hread.front).2.2
  have hthere := (Packet.front_eq hq).2.2
  exact store16_inj (hback.trans hthere)

/-- `send_packet` followed by `read_packet`, between hosts of any two byte orders: the data,
the length, the ttl and the operation of every packet. One that goes back to
`fillin_packet` of some host is accepted, and the answer to it brings that host its own
handle. -/
theorem packet_framing (o o' : Order) (p : Packet) (d : List UInt8)
    (hd : d.length = p.packetLength.toNat) (m : ℕ → UInt8) (hm : StartsWith m (sendPacket o p d))
    (ad : SockAddr) :
    let q := readPacket o' m ad
    q.data = d ∧ q.packet.packetLength = p.packetLength ∧ q.packet.ttl = p.ttl ∧
      q.packet.operation = p.operation ∧
      ∀ origin p₀, Relayed origin p₀ o p →
        (∀ operation datalen request, p₀ = fillinPacket origin operation datalen request →
          Accepted o' q) ∧
        ∀ operation datalen reply m' ad', reply.length = UInt16.toNat datalen →
          StartsWith m'
            (sendPacket o' (fillinPacket o' operation datalen q.packet.requestHandle) reply) →
          (readPacket origin m' ad').packet.requestHandle = p₀.requestHandle := by
  have hread := readPacket_sendPacket o' hd hm ad
  refine ⟨hread.data,hread.packetLength,hread.ttl,hread.operation,fun origin p₀ hrel => ?_⟩
  have hfront : (readPacket o' m ad).packet.front o' = p₀.front origin :=
    hread.front.trans hrel.front
  constructor
  · rintro operation datalen request rfl
    exact accepted_iff_front.mpr ⟨_,hfront.trans (front_fillinPacket ..)⟩
  · intro operation datalen reply m' ad' hlen hm'
    exact echo_handle hfront hlen hm' ad'

/-- Memory that holds the given bytes and zeros behind them. -/
def memoryOf (bs : List UInt8) : ℕ → UInt8 := fun i => (bs[i]?).getD 0

theorem memoryOf_startsWith (bs : List UInt8) : StartsWith (memoryOf bs) bs := by
  intro i hi
  simp [memoryOf,hi]

/-- A search for `a` from a little-endian host to a big-endian one, which sees the handle with
its bytes exchanged and the length as it was, and a reply of 21 bytes to it. -/
theorem packet_framing_search :
    let d : List UInt8 := [0,0,0,0,0x0E,0xBD,0,0,0x61]
    let p := fillinPacket .little requestFilesearch 9 7
    let q := readPacket .big (memoryOf (sendPacket .little p d)) ⟨⟨10,0,0,1⟩,⟨0x0E,0xBD⟩⟩
    let reply := fillinPacket .big replyFilesearch 21 q.packet.requestHandle
    (sendPacket .little p d).drop 8 = [0,9] ++ d ∧
      q.data = d ∧ q.packet.packetLength = 9 ∧ q.packet.ttl = 3 ∧
      q.packet.operation = requestFilesearch ∧ q.packet.requestHandle = 0x0700 ∧
      Accepted .big q ∧
      (readPacket .little (memoryOf (sendPacket .big reply (List.replicate 21 5)))
        ⟨⟨10,0,0,2⟩,⟨0x0E,0xBD⟩⟩).packet.requestHandle = 7 := by
  have hh := packet_framing .little .big (fillinPacket .little requestFilesearch 9 7)
    [0,0,0,0,0x0E,0xBD,0,0,0x61] rfl _ (memoryOf_startsWith _) ⟨⟨10,0,0,1⟩,⟨0x0E,0xBD⟩⟩
  obtain ⟨hdata,hlen,httl,hop,hback⟩ := hh
  have hown := hback _ _ .own
  refine ⟨by decide,hdata,hlen,httl,hop,by decide,hown.1 _ _ _ rfl,?_⟩
  exact hown.2 _ 21 (List.replicate 21 5) _ _ rfl (memoryOf_startsWith _)

end Pingu
end MiscUniStuff
