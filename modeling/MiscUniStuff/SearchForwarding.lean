import MiscUniStuff.SearchFlood

/-! The copies of a search on their way through the network: every one still carries
the pattern, the number and, from the second hop on, the address of the originator. -/
namespace MiscUniStuff
namespace Pingu
open ByteOrder

/-- A search under watch: who started it, on a machine of which byte order, under which
number, with which two unset bytes, for what, and how much of the payload is sent. -/
structure Watched (ι : Type) where
  origin : ι
  order : Order
  handle : UInt16
  junk : ℕ → UInt8
  pattern : CString
  length : ℕ

/-- Where the copy with the given hops has got to. -/
def position {ι : Type} (w : Wiring ι) (o : ι) (hops : List SockAddr) : Option ι :=
  match hops.getLast? with
  | none => some o
  | some a => w.route a

namespace Watched
variable {ι : Type} {w : Wiring ι} {k : Watched ι} {hops : List SockAddr}

/-- The six bytes in front of the ttl. -/
def front (k : Watched ι) : List UInt8 := preamble ++ store16 k.order k.handle

/-- What stands behind the address. -/
def body (k : Watched ι) : List UInt8 := [0x0E,0xBD,k.junk 6,k.junk 7] ++ k.pattern.bytes

def payload (k : Watched ι) (i : InAddr) : List UInt8 := (i.bytes ++ k.body).take k.length

/-- The pattern as far as it is sent. -/
def asked (k : Watched ι) : CString := cstring (k.pattern.bytes.take (k.length-8))

theorem asked_eq (hk : k.length = 8+k.pattern.strlen) : k.asked = k.pattern := by
  rw [asked,List.take_of_length_le (by simp [hk,CString.strlen]),cstring_bytes]

/-- The address a copy carries: none at first, then the one the first hop saw. -/
def address (w : Wiring ι) (k : Watched ι) : List SockAddr → InAddr
  | a::_::_ => (w.seen k.origin a).addr
  | _ => .zero

theorem address_one (a : SockAddr) : k.address w [a] = .zero := rfl

theorem address_more (a b : SockAddr) (rest : List SockAddr) :
    k.address w (a::b::rest) = (w.seen k.origin a).addr := rfl

/-- What a copy of the search is. -/
structure IsCopy (w : Wiring ι) (k : Watched ι) (hops : List SockAddr) (f : Flight) : Prop where
  bytes : f.datagram.bytes =
    wire k.front (ttlAt hops.length) requestFilesearch (k.payload (k.address w hops))
  few : hops.length ≤ 3
  last : hops.getLast? = some f.dest
  source : ∃ j, position w k.origin hops.dropLast = some j ∧ f.source = w.seen j f.dest

theorem length_payload (i : InAddr) :
    (k.payload i).length = min k.length (8+k.pattern.strlen) := by
  simp [payload,body,CString.strlen]
  omega

theorem payload_eq (hk : 4 ≤ k.length) (i : InAddr) :
    k.payload i = i.bytes ++ k.body.take (k.length-4) := by
  rw [payload,List.take_append,List.take_of_length_le (by simpa using hk),InAddr.length_bytes]

/-- How a host reads a copy. -/
structure ReadAs (w : Wiring ι) (k : Watched ι) (hops : List SockAddr) (f : Flight) (h : Host)
    (p : FullPacket) : Prop where
  accepted : Accepted h.order p
  magic : store16 h.order p.packet.magic = [0x37,0x73]
  version : store16 h.order p.packet.version = [0x00,0x10]
  handle : store16 h.order p.packet.requestHandle = store16 k.order k.handle
  operation : p.packet.operation = requestFilesearch
  ttl : p.packet.ttl = ttlAt hops.length
  data : p.data = k.payload (k.address w hops)
  addr : p.addr = f.source

theorem IsCopy.read {f : Flight} (hc : IsCopy w k hops f) (h : Host) (buffer : ℕ → UInt8) :
    ReadAs w k hops f h (f.packet h buffer) := by
  obtain ⟨x,y,hxy⟩ := exists_store16 k.order k.handle
  have hfront : k.front = [0x37,0x73,0x00,0x10,x,y] := by simp [front,preamble,hxy]
  have hlen : (k.payload (k.address w hops)).length < 65536 := by
    have hh := f.datagram.bounded
    rw [hc.bytes,length_wire,maxDatagram] at hh
    omega
  have hstart := recvfrom_startsWith f.datagram buffer
  rw [hc.bytes,hfront] at hstart
  have hp := readPacket_wire (o:=h.order) hlen hstart f.source
  have hmagic : load16 h.order 0x37 0x73 = htons h.order protocolMagic :=
    load16_store16 (store16_protocolMagic h.order)
  have hversion : load16 h.order 0x00 0x10 = htons h.order protocolVersion :=
    load16_store16 (store16_protocolVersion h.order)
  rw [Flight.packet,hp]
  exact ⟨⟨hmagic,hversion⟩,store16_load16 _ _ _,store16_load16 _ _ _,
    by rw [hxy]; exact store16_load16 _ _ _,rfl,rfl,rfl,rfl⟩

section Reading
variable {f : Flight} {h : Host} {p : FullPacket} (hr : ReadAs w k hops f h p)
include hr

theorem ReadAs.length (hp : 8 ≤ p.data.length) : 8 ≤ k.length := by
  rw [hr.data,length_payload] at hp
  omega

theorem ReadAs.search : p.search = k.asked := by
  have hdrop : (i : InAddr) → (i.bytes ++ k.body).drop 8 = k.pattern.bytes := fun _ => rfl
  rw [FullPacket.search,hr.data,payload,List.drop_take,hdrop,asked]

theorem ReadAs.address (hp : 8 ≤ p.data.length) : p.address = k.address w hops := by
  have hk := hr.length hp
  rw [FullPacket.address,hr.data,payload_eq (by omega),
    List.take_append_of_le_length (by simp),List.take_of_length_le (by simp),
    InAddr.ofBytes_bytes]

theorem ReadAs.port (hp : 8 ≤ p.data.length) : p.port = ⟨0x0E,0xBD⟩ := by
  have hk := hr.length hp
  have htake : (p.data.drop 4).take 2 = [0x0E,0xBD] := by
    rw [hr.data,payload_eq (by omega),List.drop_left' (by simp),List.take_take,
      min_eq_left (by omega)]
    rfl
  rw [FullPacket.port,htake]
  rfl

theorem ReadAs.front_eq : store16 h.order p.packet.magic ++ store16 h.order p.packet.version ++
    store16 h.order p.packet.requestHandle = k.front := by
  rw [hr.magic,hr.version,hr.handle]
  rfl

/-- Where the replies to a copy go: to the address of the originator that the first hop
saw, whichever hop the reply is from. -/
theorem ReadAs.destination {a : SockAddr} {rest : List SockAddr} (hp : 8 ≤ p.data.length)
    (hhops : hops = a::rest) (hsource : rest = [] → f.source = w.seen k.origin a) :
    setDestinationIp p.address p.addr.addr = (w.seen k.origin a).addr := by
  rw [hr.address hp,hr.addr,hhops,setDestinationIp]
  cases rest with
  | nil => rw [address_one,if_pos rfl,hsource rfl]
  | cons b rest => rw [address_more,if_neg (w.seen_ne_zero _ _)]

/-- The payload that is passed on. -/
theorem ReadAs.forwardData {a : SockAddr} {rest : List SockAddr} (hp : 8 ≤ p.data.length)
    (hhops : hops = a::rest) (hsource : rest = [] → f.source = w.seen k.origin a) :
    p.forwardData = k.payload (w.seen k.origin a).addr := by
  have hk := hr.length hp
  rw [FullPacket.forwardData,hr.address hp,hr.addr,hhops]
  cases rest with
  | nil =>
    rw [address_one,if_pos rfl,hsource rfl,hr.data,payload_eq (by omega),payload_eq (by omega),
      List.drop_left' (by simp)]
  | cons b rest => rw [address_more,if_neg (w.seen_ne_zero _ _),hr.data,hhops,address_more]

end Reading

/-- The first hop of a copy that has been sent once is the address it is under way to. -/
theorem IsCopy.source_of_one {f : Flight} {a : SockAddr} (hc : IsCopy w k [a] f) :
    f.source = w.seen k.origin a := by
  obtain ⟨j,hj,hs⟩ := hc.source
  have hdest : a = f.dest := by simpa using hc.last
  obtain rfl : k.origin = j := by simpa [position] using hj
  rw [hs,hdest]

theorem IsCopy.exists_first {f : Flight} (hc : IsCopy w k hops f) :
    ∃ a rest, hops = a::rest ∧ (rest = [] → f.source = w.seen k.origin a) := by
  cases hops with
  | nil => simpa using hc.last
  | cons a rest =>
    refine ⟨a,rest,rfl,?_⟩
    rintro rfl
    exact hc.source_of_one

/-- What a program passes on is a copy again. -/
theorem IsCopy.forward {f f' : Flight} (hc : IsCopy w k hops f) {j : ι} {h : Host}
    {buffer : ℕ → UInt8} (hp : 8 ≤ (f.packet h buffer).data.length) (hj : w.route f.dest = some j)
    (hdest : f'.dest ∈ forwardDests h (f.packet h buffer)) (hsource : f'.source = w.seen j f'.dest)
    (hbytes : f'.datagram.bytes = sendPacket h.order (f.packet h buffer).forwardHeader
      (f.packet h buffer).forwardData) : IsCopy w k (hops ++ [f'.dest]) f' := by
  have hr := hc.read h buffer
  obtain ⟨a,rest,hhops,hfirst⟩ := hc.exists_first
  have hpos : clampTtl (ttlAt hops.length) > 0 := by
    by_contra hneg
    simp [forwardDests,hr.ttl,hneg] at hdest
  have hsucc := ttlAt_succ (by simp [hhops]) hc.few hpos
  have hdata := hr.forwardData hp hhops hfirst
  have hlen := FullPacket.length_forwardData hp
  have haddress : k.address w (hops ++ [f'.dest]) = (w.seen k.origin a).addr := by
    rw [hhops]
    cases rest <;> rfl
  refine ⟨?_,by simpa using hsucc.1,by simp,?_⟩
  · rw [hbytes,sendPacket_eq_wire hlen,hdata,haddress,List.length_append,List.length_singleton,
      ← hsucc.2,FullPacket.forwardHeader,hr.ttl,hr.operation,hr.front_eq]
  · refine ⟨j,?_,hsource⟩
    rw [List.dropLast_concat,position,hc.last]
    exact hj

variable [DecidableEq ι] {g : PatternMatch}

/-- Every copy of the search that is in flight is one. -/
def Copies (w : Wiring ι) (k : Watched ι) (s : Net ι) : Prop :=
  ∀ f ∈ s.flights, ∀ hops, f.trace = .search hops → IsCopy w k hops f

theorem Copies.happens {s s' : Net ι} {new : List Flight} (hs : Copies w k s)
    (hh : Happens w g s s' new) : Copies w k s' := by
  cases hh with
  | lost i => exact Bags.forall_exchange hs (by simp)
  | crashed hf => exact Bags.forall_exchange hs (by simp)
  | @handled i f j h h' calls acts hf hj hhost ha =>
    have hold := hs f (List.mem_of_getElem? hf)
    refine Bags.forall_exchange hs fun f' hf' hops' ht' => ?_
    have hop : ∀ hops, f.trace = .search hops →
        (f.packet h (s.buffer j)).packet.operation = requestFilesearch :=
      fun hops ht => ((hold hops ht).read h _).operation
    rcases launched_cases hop ha hf' with ⟨hl,-⟩ | ⟨hops,ht,hp,⟨file,-,hl,-⟩ | ⟨hdest,hl,hdata⟩⟩
    · simp [hl] at ht'
    · simp [hl] at ht'
    · obtain rfl : hops ++ [f'.dest] = hops' := by simpa [hl] using ht'
      exact (hold hops ht).forward hp hj hdest (mem_launch.mp hf').1 hdata

/-- The search that `searchfile` starts; its length is counted in 16 bits. -/
def started (o : ι) (h : Host) (calls : Calls) (search : CString) : Watched ι :=
  ⟨o,h.order,h.requests.found,calls.junk,search,(8+search.strlen) % 65536⟩

theorem store16_port (o : Order) : store16 o (htons o 3773) = [0x0E,0xBD] := by
  rw [store16_htons]
  decide

omit [DecidableEq ι] in
theorem isCopy_started {o : ι} {h : Host} {calls : Calls} {search : CString} {f : Flight}
    (hsource : f.source = w.seen o f.dest)
    (hbytes : f.datagram.bytes = sendPacket h.order
      (fillinPacket h.order requestFilesearch (UInt16.ofNat (8+search.strlen)) h.requests.found)
      (searchPayload h.order calls.junk search)) :
    IsCopy w (started o h calls search) [f.dest] f := by
  have hnat : (UInt16.ofNat (8+search.strlen)).toNat = (8+search.strlen) % 65536 := by simp
  have hpayload : (searchPayload h.order calls.junk search).take
      (UInt16.ofNat (8+search.strlen)).toNat = (started o h calls search).payload .zero := by
    simp [searchPayload,payload,body,started,store16_port,InAddr.bytes,InAddr.zero]
  have hlen : ((started o h calls search).payload .zero).length =
      (UInt16.ofNat (8+search.strlen)).toNat := by
    rw [length_payload,hnat]
    exact min_eq_left (Nat.mod_le _ _)
  have htake := sendPacket_take h.order (fillinPacket h.order requestFilesearch
    (UInt16.ofNat (8+search.strlen)) h.requests.found) (searchPayload h.order calls.junk search)
  change sendPacket _ _ (List.take (UInt16.ofNat (8+search.strlen)).toNat _) = _ at htake
  rw [hpayload] at htake
  refine ⟨?_,by simp,by simp,o,rfl,hsource⟩
  rw [hbytes,← htake,sendPacket_fillinPacket hlen]
  rfl

theorem copies_run {s : Net ι} (hs : ∀ f ∈ s.flights, f.trace = .other) {o : ι} {h : Host}
    (ho : s.host o = some h) (calls : Calls) (search : CString) (ops : List NetOp) :
    Copies w (started o h calls search) ((s.search w calls search o).run w g ops).1 := by
  refine Net.run_invariant (w:=w) (g:=g) (s:=s.search w calls search o)
    (P:=fun s' _ => Copies w (started o h calls search) s') ?_
    (fun s₁ log s₂ new hc hnext => hc.happens hnext) ops
  intro f hf hops ht
  rcases search_flights hf with hold | ⟨h₁,ho₁,hsource,-,htrace,hbytes⟩
  · simp [hs f hold] at ht
  · obtain rfl : [f.dest] = hops := by simpa [htrace] using ht
    obtain rfl : h = h₁ := by simpa [ho] using ho₁
    exact isCopy_started hsource hbytes

end Watched

/-- A program in any state handles a copy of a search as the originator meant it. It looks
for the pattern of the search; its replies go to the given address, at the port in the
payload, and the originator reads its own number in them; and what it passes on differs
from what it got in the ttl and, if they were zero, in the four bytes of the address. -/
structure HandledFaithfully (g : PatternMatch) (calls : Calls) (origin : InAddr) (order : Order)
    (handle : UInt16) (search : CString) (f : Flight) (h : Host) (p : FullPacket) : Prop where
  pattern : p.search = search
  handled : applyPacket g calls p h =
    .ok (h,(matching g h p).map (reply h p) ++ forwards h p)
  replies : ∀ file ∈ matching g h p, ∃ bytes,
    reply h p file = .sendto ⟨origin,⟨0x0E,0xBD⟩⟩ bytes ∧ ∀ m ad, StartsWith m bytes →
      (readPacket order m ad).packet.operation = replyFilesearch ∧
      (readPacket order m ad).packet.requestHandle = handle
  forwards : ∃ front data, f.datagram.bytes = wire front p.packet.ttl requestFilesearch p.data ∧
    (data = p.data ∨ p.address = .zero ∧ data = p.addr.addr.bytes ++ p.data.drop 4) ∧
    ∀ a ∈ forwards h p, ∃ dest ttl, a = .sendto dest (wire front ttl requestFilesearch data)

/-- What a reply tells the originator. -/
theorem reply_read {o o' : Order} {handle handle' len : UInt16} {d : List UInt8} {m : ℕ → UInt8}
    (hhandle : store16 o handle = store16 o' handle') (hm : StartsWith m
      (sendPacket o (fillinPacket o replyFilesearch len handle) d)) (ad : SockAddr) :
    (readPacket o' m ad).packet.operation = replyFilesearch ∧
      (readPacket o' m ad).packet.requestHandle = handle' := by
  obtain ⟨x,y,hxy⟩ := exists_store16 o' handle'
  have hbytes := sendPacket_handle (p:=fillinPacket o replyFilesearch len handle)
    (hhandle.trans hxy) d
  have h₄ := hm.getElem? hbytes.1
  have h₅ := hm.getElem? hbytes.2
  have h₇ := hm.getElem? (sendPacket_operation o (fillinPacket o replyFilesearch len handle) d)
  refine ⟨h₇,?_⟩
  simp only [readPacket,Packet.ofImage,h₄,h₅]
  exact load16_store16 hxy

theorem Watched.IsCopy.handled {ι : Type} {w : Wiring ι} {k : Watched ι} {f : Flight}
    {a : SockAddr} {rest : List SockAddr} (hc : Watched.IsCopy w k (a::rest) f)
    (hk : k.length = 8+k.pattern.strlen) (g : PatternMatch) (calls : Calls) (h : Host)
    (buffer : ℕ → UInt8) :
    HandledFaithfully g calls (w.seen k.origin a).addr k.order k.handle k.pattern f h
      (f.packet h buffer) := by
  have hr := hc.read h buffer
  have hfirst : rest = [] → f.source = w.seen k.origin a := by
    rintro rfl
    exact hc.source_of_one
  have hp : 8 ≤ (f.packet h buffer).data.length := by
    rw [hr.data,Watched.length_payload]
    omega
  refine ⟨hr.search.trans (Watched.asked_eq hk),applyPacket_search_eq hr.operation hr.accepted hp,fun file _ => ?_,
    k.front,(f.packet h buffer).forwardData,?_,?_,fun act hact => ?_⟩
  · refine ⟨_,by rw [reply,hr.destination hp rfl hfirst,hr.port hp],fun m ad hm => ?_⟩
    exact reply_read hr.handle hm ad
  · rw [hc.bytes,hr.ttl,hr.data]
  · rw [FullPacket.forwardData]
    by_cases hz : (f.packet h buffer).address = .zero
    · exact .inr ⟨hz,if_pos hz⟩
    · exact .inl (if_neg hz)
  · rw [forwards_eq] at hact
    obtain ⟨dest,-,rfl⟩ := List.mem_map.mp hact
    have hlen := FullPacket.length_forwardData hp
    refine ⟨dest,(f.packet h buffer).forwardHeader.ttl,?_⟩
    rw [sendPacket_eq_wire hlen]
    simp only [FullPacket.forwardHeader,hr.operation,hr.front_eq]

/-- Whatever else goes on in the network: a copy of a started search, at whichever hop,
is handled by whoever gets it as the originator meant it, with the replies going to the
address of the originator that the first hop saw. -/
theorem search_forwarded {ι : Type} [DecidableEq ι] (w : Wiring ι) (g : PatternMatch) (s : Net ι)
    (hs : ∀ f ∈ s.flights, f.trace = .other) (o : ι) (h₀ : Host) (ho : s.host o = some h₀)
    (calls₀ : Calls) (search : CString) (hlen : 8+search.strlen ≤ 65535) (ops : List NetOp)
    (f : Flight) (hf : f ∈ ((s.search w calls₀ search o).run w g ops).1.flights)
    (hops : List SockAddr) (ht : f.trace = .search hops) (calls : Calls) (h : Host)
    (buffer : ℕ → UInt8) : ∃ first, hops.head? = some first ∧
      (w.seen o first).addr ≠ .zero ∧
      HandledFaithfully g calls (w.seen o first).addr h₀.order h₀.requests.found search f h
        (f.packet h buffer) := by
  have hc := Watched.copies_run (w:=w) (g:=g) hs ho calls₀ search ops f hf hops ht
  obtain ⟨a,rest,rfl,-⟩ := hc.exists_first
  exact ⟨a,rfl,w.seen_ne_zero o a,hc.handled (Nat.mod_eq_of_lt (by omega)) g calls h buffer⟩

/-- The search for the file of the triangle, after the second program has passed it on. -/
def passedOn : Net (Fin 3) :=
  (triangleSearched.run triangleWiring sameName [.deliver 0 noCalls]).1

theorem search_forwarded_triangle : ∃ first, [addressOf 1,addressOf 2].head? = some first ∧
    (triangleWiring.seen 0 first).addr ≠ .zero ∧
    HandledFaithfully sameName noCalls (triangleWiring.seen 0 first).addr .little 1
      someFile.filename (passedOn.flights.get ⟨1,by decide⟩) (.initial .big [someFile])
      ((passedOn.flights.get ⟨1,by decide⟩).packet (.initial .big [someFile]) fun _ => 0) :=
  search_forwarded triangleWiring sameName triangle (by simp [triangle]) 0 _ rfl noCalls _
    (by decide) [.deliver 0 noCalls] _ (List.get_mem _ _) _ (by decide) _ _ _

end Pingu
end MiscUniStuff
