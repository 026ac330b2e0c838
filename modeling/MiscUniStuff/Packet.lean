import MiscUniStuff.ByteOrder

/-! `protocol.h` and the packet functions of `socket.c`. The header lies in memory in
the byte order of the host, only the fields passed through `htons` do not. -/
namespace MiscUniStuff
namespace Pingu
open ByteOrder

/-- `struct in_addr`, its four bytes as they lie in memory. -/
structure InAddr where
  (a b c d : UInt8)
  deriving DecidableEq

/-- `sin_port`, its two bytes as they lie in memory. -/
structure InPort where
  (a b : UInt8)
  deriving DecidableEq

/-- `struct sockaddr_in`, without the constant `sin_family`. -/
structure SockAddr where
  addr : InAddr
  port : InPort
  deriving DecidableEq

def InAddr.bytes (i : InAddr) : List UInt8 := [i.a,i.b,i.c,i.d]

def InPort.bytes (i : InPort) : List UInt8 := [i.a,i.b]

def InAddr.zero : InAddr := ⟨0,0,0,0⟩

@[simp] theorem InAddr.length_bytes (i : InAddr) : i.bytes.length = 4 := rfl

@[simp] theorem InPort.length_bytes (i : InPort) : i.bytes.length = 2 := rfl

theorem InAddr.bytes_inj {i j : InAddr} : i.bytes = j.bytes ↔ i = j := by
  cases i
  cases j
  simp [InAddr.bytes]

theorem InPort.bytes_inj {i j : InPort} : i.bytes = j.bytes ↔ i = j := by
  cases i
  cases j
  simp [InPort.bytes]

/-- `cmp_sockaddr` of a servlet's address and another one, on a host of byte order `o`. -/
def cmpSockaddr (o : Order) (j i : SockAddr) : ℤ :=
  if load o j.addr.bytes > load o i.addr.bytes then 1
  else if load o j.addr.bytes < load o i.addr.bytes then -1
  else if load o j.port.bytes > load o i.port.bytes then 1
  else if load o j.port.bytes < load o i.port.bytes then -1
  else 0

theorem cmpSockaddr_eq_zero {o : Order} {j i : SockAddr} : cmpSockaddr o j i = 0 ↔ j = i := by
  constructor
  · intro h
    have hload : load o j.addr.bytes = load o i.addr.bytes ∧
        load o j.port.bytes = load o i.port.bytes := by
      unfold cmpSockaddr at h
      split_ifs at h <;> omega
    have haddr : j.addr = i.addr := InAddr.bytes_inj.mp (load_injective o rfl hload.1)
    have hport : j.port = i.port := InPort.bytes_inj.mp (load_injective o rfl hload.2)
    cases j
    cases i
    simp_all
  · rintro rfl
    simp [cmpSockaddr]

def load16 (o : Order) (a b : UInt8) : UInt16 := UInt16.ofNat (load o [a,b])

def store16 (o : Order) (x : UInt16) : List UInt8 := store o 2 x.toNat

/-- `htons` and `ntohs`. -/
def htons (o : Order) (x : UInt16) : UInt16 := UInt16.ofNat (network o 2 x.toNat)

@[simp] theorem length_store16 (o : Order) (x : UInt16) : (store16 o x).length = 2 := by
  simp [store16]

theorem toNat_load16 (o : Order) (a b : UInt8) : (load16 o a b).toNat = load o [a,b] := by
  have hlt : load o [a,b] < 65536 := by simpa using load_lt o [a,b]
  exact UInt16.toNat_ofNat_of_lt' hlt

@[simp] theorem store16_load16 (o : Order) (a b : UInt8) : store16 o (load16 o a b) = [a,b] := by
  rw [store16,toNat_load16]
  exact store_load o [a,b]

theorem toNat_htons (o : Order) (x : UInt16) : (htons o x).toNat = network o 2 x.toNat := by
  have hlt : network o 2 x.toNat < 65536 := by simpa using network_lt o 2 x.toNat
  exact UInt16.toNat_ofNat_of_lt' hlt

@[simp] theorem htons_htons (o : Order) (x : UInt16) : htons o (htons o x) = x := by
  apply UInt16.toNat_inj.mp
  rw [toNat_htons,toNat_htons,network_network o x.toNat_lt]

theorem store16_htons (o : Order) (x : UInt16) : store16 o (htons o x) = store16 .big x := by
  rw [store16,toNat_htons,store_network,store16]

theorem load16_store16 {o : Order} {x : UInt16} {a b : UInt8} (h : store16 o x = [a,b]) :
    load16 o a b = x := by
  apply UInt16.toNat_inj.mp
  rw [toNat_load16,← h,store16,load_store x.toNat_lt]

theorem load16_inj {o : Order} {a b c d : UInt8} : load16 o a b = load16 o c d ↔ a = c ∧ b = d := by
  constructor
  · intro h
    have hh := congrArg (store16 o) h
    simpa using hh
  · rintro ⟨rfl,rfl⟩
    rfl
/-- `struct _Packet`; a field holds the number the host reads in its memory. -/
structure Packet where
  magic : UInt16
  version : UInt16
  requestHandle : UInt16
  ttl : UInt8
  operation : UInt8
  packetLength : UInt16
  deriving DecidableEq

def standardTtl : UInt8 := 3
def requestPing : UInt8 := 0x00
def requestFilesearch : UInt8 := 0x01
def requestWantfile : UInt8 := 0x02
def replyServers : UInt8 := 0xFF
def replyNoservers : UInt8 := 0xFB
def replyFilesearch : UInt8 := 0xFE
def replyTransferwaiting : UInt8 := 0xFD
def protocolMagic : UInt16 := 0x3773
def protocolVersion : UInt16 := 0x0010

/-- The ten bytes of a packet header in memory. -/
def Packet.image (o : Order) (p : Packet) : List UInt8 :=
  store16 o p.magic ++ store16 o p.version ++ store16 o p.requestHandle ++ [p.ttl,p.operation] ++
    store16 o p.packetLength

/-- The header that lies at the start of `m`. -/
def Packet.ofImage (o : Order) (m : ℕ → UInt8) : Packet :=
  ⟨load16 o (m 0) (m 1),load16 o (m 2) (m 3),load16 o (m 4) (m 5),m 6,m 7,load16 o (m 8) (m 9)⟩

/-- `sizeof(Packet)`. -/
def sizeofPacket : ℕ := 10

@[simp] theorem Packet.length_image (o : Order) (p : Packet) : (p.image o).length = 10 := by
  simp [Packet.image]

/-- `fillin_packet`. -/
def fillinPacket (o : Order) (operation : UInt8) (datalen request : UInt16) : Packet where
  magic := htons o protocolMagic
  version := htons o protocolVersion
  operation := operation
  ttl := standardTtl
  requestHandle := request
  packetLength := datalen

/-- `send_packet`: the bytes handed to `sendto`. -/
def sendPacket (o : Order) (p : Packet) (d : List UInt8) : List UInt8 :=
  { p with packetLength := htons o p.packetLength }.image o ++ d.take p.packetLength.toNat

theorem sendPacket_take (o : Order) (p : Packet) (d : List UInt8) :
    sendPacket o p (d.take p.packetLength.toNat) = sendPacket o p d := by
  simp [sendPacket]

theorem sendPacket_ttl (o : Order) (p : Packet) (d : List UInt8) :
    (sendPacket o p d)[6]? = some p.ttl := by
  simp [sendPacket,Packet.image,List.getElem?_append]

theorem sendPacket_operation (o : Order) (p : Packet) (d : List UInt8) :
    (sendPacket o p d)[7]? = some p.operation := by
  simp [sendPacket,Packet.image,List.getElem?_append]

theorem sendPacket_handle {o : Order} {p : Packet} {a b : UInt8}
    (h : store16 o p.requestHandle = [a,b]) (d : List UInt8) :
    (sendPacket o p d)[4]? = some a ∧ (sendPacket o p d)[5]? = some b := by
  simp [sendPacket,Packet.image,List.getElem?_append,h]

/-- `struct _FullPacket`: a header and as many bytes of data as it announces (`NULL`
for none), with the address the datagram came from. -/
structure FullPacket where
  packet : Packet
  data : List UInt8
  addr : SockAddr
  data_length : data.length = packet.packetLength.toNat

@[ext] theorem FullPacket.ext {p q : FullPacket} (hp : p.packet = q.packet)
    (hd : p.data = q.data) (ha : p.addr = q.addr) : p = q := by
  cases p
  cases q
  simp_all

/-- `read_packet`, on the memory at `read`. -/
def readPacket (o : Order) (read : ℕ → UInt8) (ad : SockAddr) : FullPacket :=
  let p := Packet.ofImage o read
  let len := htons o p.packetLength
  { packet := { p with packetLength := len }
    data := (List.range len.toNat).map fun i => read (sizeofPacket+i)
    addr := ad
    data_length := by simp }

/-! What a packet looks like on the wire. -/

/-- The datagram that carries `data`, with the six bytes in front of the ttl given. -/
def wire (front : List UInt8) (ttl operation : UInt8) (data : List UInt8) : List UInt8 :=
  front ++ [ttl,operation] ++ store16 .big (UInt16.ofNat data.length) ++ data

@[simp] theorem length_wire (front : List UInt8) (ttl operation : UInt8) (data : List UInt8) :
    (wire front ttl operation data).length = front.length+4+data.length := by
  simp [wire]
  omega

/-- The magic and the version of the protocol on the wire. -/
def preamble : List UInt8 := [0x37,0x73,0x00,0x10]

theorem sendPacket_eq_wire {o : Order} {p : Packet} {d : List UInt8}
    (hd : d.length = p.packetLength.toNat) : sendPacket o p d =
      wire (store16 o p.magic ++ store16 o p.version ++ store16 o p.requestHandle) p.ttl
        p.operation d := by
  have hlen : UInt16.ofNat d.length = p.packetLength := by simp [hd]
  simp only [sendPacket,Packet.image,wire,hlen,store16_htons,← hd,List.take_length]

theorem store16_protocolMagic (o : Order) : store16 o (htons o protocolMagic) = [0x37,0x73] := by
  rw [store16_htons]
  decide

theorem store16_protocolVersion (o : Order) :
    store16 o (htons o protocolVersion) = [0x00,0x10] := by
  rw [store16_htons]
  decide

theorem sendPacket_fillinPacket {o : Order} {operation : UInt8} {datalen request : UInt16}
    {d : List UInt8} (hd : d.length = datalen.toNat) :
    sendPacket o (fillinPacket o operation datalen request) d =
      wire (preamble ++ store16 o request) standardTtl operation d := by
  rw [sendPacket_eq_wire (p:=fillinPacket o operation datalen request) hd]
  simp [fillinPacket,store16_protocolMagic,store16_protocolVersion,preamble]

/-- Memory that starts with the given bytes. -/
def StartsWith (m : ℕ → UInt8) (bs : List UInt8) : Prop := ∀ i (h : i < bs.length), m i = bs[i]

theorem StartsWith.getElem? {m : ℕ → UInt8} {bs : List UInt8} (hm : StartsWith m bs) {i : ℕ}
    {b : UInt8} (hb : bs[i]? = some b) : m i = b := by
  obtain ⟨hi,rfl⟩ := List.getElem?_eq_some_iff.mp hb
  exact hm i hi

theorem exists_store16 (o : Order) (x : UInt16) : ∃ a b, store16 o x = [a,b] := by
  have hh := length_store16 o x
  rcases hl : store16 o x with _ | ⟨a,_ | ⟨b,_ | ⟨c,l⟩⟩⟩ <;> simp_all

theorem store16_inj {o : Order} {x y : UInt16} (h : store16 o x = store16 o y) : x = y := by
  obtain ⟨a,b,hab⟩ := exists_store16 o x
  rw [← load16_store16 hab,load16_store16 (h ▸ hab)]

theorem readPacket_wire {o : Order} {m : ℕ → UInt8} {a b c d e f ttl operation : UInt8}
    {data : List UInt8} (hlen : data.length < 65536)
    (hm : StartsWith m (wire [a,b,c,d,e,f] ttl operation data)) (ad : SockAddr) :
    readPacket o m ad = ⟨⟨load16 o a b,load16 o c d,load16 o e f,ttl,operation,
      UInt16.ofNat data.length⟩,data,ad,by simp; omega⟩ := by
  have hnat : (UInt16.ofNat data.length).toNat = data.length := UInt16.toNat_ofNat_of_lt' hlen
  obtain ⟨x,y,hxy⟩ := exists_store16 .big (UInt16.ofNat data.length)
  have hhead : ∀ i, i < 10 → m i = ([a,b,c,d,e,f,ttl,operation,x,y][i]?).getD 0 := by
    intro i hi
    have hh := hm i (by simp; omega)
    simp only [wire,hxy] at hh
    interval_cases i <;> simpa using hh
  have hlength : htons o (load16 o x y) = UInt16.ofNat data.length := by
    have hh : store16 o (htons o (UInt16.ofNat data.length)) = [x,y] := by
      rw [store16_htons,hxy]
    rw [load16_store16 hh,htons_htons]
  have hdata : (List.range data.length).map (fun i => m (10+i)) = data := by
    refine List.ext_getElem (by simp) fun i h₁ h₂ => ?_
    have hh := hm (10+i) (by simp; omega)
    simp only [wire,hxy] at hh
    simp only [List.getElem_map,List.getElem_range,hh]
    rw [List.getElem_append_right (by simp)]
    simp
  have hpacket : Packet.ofImage o m = ⟨load16 o a b,load16 o c d,load16 o e f,ttl,operation,
      load16 o x y⟩ := by
    simp [Packet.ofImage,hhead]
  refine FullPacket.ext ?_ ?_ rfl
  · simp [readPacket,hpacket,hlength]
  · simp only [readPacket,hpacket,hlength,hnat,sizeofPacket]
    exact hdata

end Pingu
end MiscUniStuff
