import MiscUniStuff.PacketFraming
import MiscUniStuff.ServletLists

/-! A ping and its answers. One program answers a ping with the addresses it knows;
the other takes the answers in whatever order and as often as they come. -/
namespace MiscUniStuff
namespace Pingu
open ByteOrder

/-! ### The answers -/

/-- What `generate_reply_servers_single` sends for a server. -/
def serverReply (o : Order) (request : UInt16) (client : SockAddr) : List UInt8 :=
  sendPacket o (fillinPacket o replyServers 6 request) (client.addr.bytes ++ client.port.bytes)

/-- What is sent when there is no server to tell of. -/
def noServersReply (h : Host) (request : UInt16) : List UInt8 :=
  sendPacket h.order (fillinPacket h.order replyNoservers 4 request)
    (store h.order 4 h.listening.toNat)

/-- The active servers other than the one that asks. -/
def Host.others (h : Host) (asking : SockAddr) : List SockAddr :=
  h.known.filter fun client => client ≠ asking

theorem mem_others {h : Host} {asking i : SockAddr} :
    i ∈ h.others asking ↔ i ∈ h.known ∧ i ≠ asking := by
  simp [Host.others]

theorem others_eq_nil {h : Host} {asking : SockAddr} :
    h.others asking = [] ↔ ∀ i ∈ h.known, i = asking := by
  simp [Host.others,List.filter_eq_nil_iff]

/-- The datagrams sent back for a ping. -/
def pingReplies (h : Host) (p : FullPacket) : List (List UInt8) :=
  if h.others p.addr = [] then [noServersReply h p.packet.requestHandle]
  else (h.others p.addr).map (serverReply h.order p.packet.requestHandle)

theorem generateReplyServers_eq (h : Host) (p : FullPacket) :
    generateReplyServers h p = (pingReplies h p).map (.sendto p.addr) := by
  have hothers : h.known.filter (fun client => cmpSockaddr h.order client p.addr ≠ 0) =
      h.others p.addr := by
    simp [Host.others,cmpSockaddr_eq_zero]
  simp only [generateReplyServers,hothers,pingReplies]
  split_ifs
  · rfl
  · simp [serverReply]

/-- Taking note of the sender does not change what it is told. -/
theorem pingReplies_seen {h : Host} (hall : h.servers.Allocated) (p : FullPacket) (now : ℤ) :
    pingReplies { h with servers := h.servers.checkAddServer h.order p.addr now } p =
      pingReplies h p := by
  have hknown : Host.known { h with servers := h.servers.checkAddServer h.order p.addr now } =
      if p.addr ∈ h.known then h.known else h.known ++ [p.addr] :=
    Servers.active_checkAddServer hall
  have hothers : Host.others { h with
      servers := h.servers.checkAddServer h.order p.addr now } p.addr = h.others p.addr := by
    rw [Host.others,hknown,Host.others]
    split_ifs
    · rfl
    · simp
  simp only [pingReplies,hothers,noServersReply]

section Answering
variable {g : PatternMatch} {c : Calls} {p : FullPacket} {h : Host}

theorem applyPacket_ping (hacc : Accepted h.order p) (hop : p.packet.operation = requestPing)
    (hall : h.servers.Allocated) : applyPacket g c p h =
      .ok ({ h with servers := h.servers.checkAddServer h.order p.addr c.time },
        (pingReplies h p).map (.sendto p.addr)) := by
  rw [← pingReplies_seen hall p c.time,← generateReplyServers_eq]
  simp [applyPacket,hacc,applyOperation,hop]

theorem serverReply_operation (o : Order) (request : UInt16) (client : SockAddr) :
    (serverReply o request client)[7]? = some replyServers := sendPacket_operation _ _ _

theorem noServersReply_operation (request : UInt16) :
    (noServersReply h request)[7]? = some replyNoservers := sendPacket_operation _ _ _

/-- One of the answers says that there are no servers, if and only if there are none. -/
theorem noServers_iff : (∃ data ∈ pingReplies h p, data[7]? = some replyNoservers) ↔
    ∀ i ∈ h.known, i = p.addr := by
  rw [← others_eq_nil]
  unfold pingReplies
  split_ifs with hnil
  · simp [hnil,noServersReply_operation]
  · simp [hnil,serverReply_operation,replyServers,replyNoservers]

end Answering

/-! ### Reading an answer -/

/-- A datagram that arrives at a program: the source address and the buffer it meets there,
and what the calls of its handler return. -/
structure Arrival where
  datagram : Datagram
  source : SockAddr
  buffer : ℕ → UInt8
  g : PatternMatch
  calls : Calls

def Arrival.packet (o : Order) (x : Arrival) : FullPacket :=
  readPacket o (recvfrom x.datagram x.buffer) x.source

/-- What another program has sent is read back whatever the two byte orders. -/
theorem Arrival.packet_sent {x : Arrival} {o : Order} {operation : UInt8} {n request : UInt16}
    {d : List UInt8} (hd : d.length = n.toNat)
    (hx : x.datagram.bytes = sendPacket o (fillinPacket o operation n request) d) (o' : Order) :
    Accepted o' (x.packet o') ∧ (x.packet o').packet.operation = operation ∧
      (x.packet o').data = d := by
  have hstart := recvfrom_startsWith x.datagram x.buffer
  rw [hx] at hstart
  have hread := readPacket_sendPacket (p:=fillinPacket o operation n request) o' hd hstart x.source
  have hfront := hread.front.trans (front_fillinPacket o operation n request)
  exact ⟨accepted_iff_front.mpr ⟨_,hfront⟩,hread.operation,hread.data⟩

theorem news_serverReply {x : Arrival} {o : Order} {request : UInt16} {client : SockAddr}
    (hx : x.datagram.bytes = serverReply o request client) (o' : Order) :
    (x.packet o').news o' = .announced client ∧ 6 ≤ (x.packet o').data.length := by
  obtain ⟨hacc,hop,hdata⟩ := Arrival.packet_sent rfl hx o'
  have haddr : (x.packet o').address = client.addr := by
    rw [FullPacket.address,hdata]
    rfl
  have hport : (x.packet o').port = client.port := by
    rw [FullPacket.port,hdata]
    rfl
  constructor
  · simp [FullPacket.news,hacc,hop,haddr,hport,replyServers,requestPing,replyNoservers]
  · simp [hdata]

theorem news_noServersReply {x : Arrival} {h : Host} {request : UInt16}
    (hx : x.datagram.bytes = noServersReply h request) (o' : Order) :
    (x.packet o').news o' = .heard := by
  obtain ⟨hacc,hop,-⟩ := Arrival.packet_sent (by simp) hx o'
  simp [FullPacket.news,hacc,hop]

/-! ### Taking note of the answers -/

/-- The effect of one packet that comes through: the addresses it adds to the possible ones. -/
def News.adds : News → SockAddr → Prop
  | .announced i, j => j = i
  | _, _ => False

/-- The program goes on with its lists as they should be after such a packet. -/
structure Noted (a a' : Host) (news : News) : Prop where
  allocated : a'.servers.Allocated
  nodup : a'.servers.possible.Nodup
  mem : ∀ i, i ∈ a'.servers.possible ↔ i ∈ a.servers.possible ∨ news.adds i

variable {g : PatternMatch} {c : Calls} {p : FullPacket} {a : Host}

theorem applyPacket_heard (hall : a.servers.Allocated) (hnd : a.servers.possible.Nodup)
    (hnews : p.news a.order = .heard) :
    ∃ a' acts, applyPacket g c p a = .ok (a',acts) ∧ Noted a a' .heard := by
  have hcases : Accepted a.order p ∧
      (p.packet.operation = requestPing ∨ p.packet.operation = replyNoservers) := by
    unfold FullPacket.news at hnews
    split_ifs at hnews with h₁ h₂
    exact ⟨h₁,h₂⟩
  have hnoted : Noted a
      { a with servers := a.servers.checkAddServer a.order p.addr c.time } .heard :=
    ⟨Servers.allocated_checkAddServer hall,by rwa [Servers.possible_checkAddServer hall],
      fun i => by rw [Servers.possible_checkAddServer hall]; simp [News.adds]⟩
  obtain ⟨hacc,hop | hop⟩ := hcases
  · exact ⟨_,_,applyPacket_ping hacc hop hall,hnoted⟩
  · refine ⟨_,[],?_,hnoted⟩
    simp [applyPacket,hacc,applyOperation,hop,replyNoservers,requestPing,requestFilesearch,
      requestWantfile,replyTransferwaiting,replyFilesearch,replyServers]

theorem applyPacket_announced {i : SockAddr} (hall : a.servers.Allocated)
    (hnd : a.servers.possible.Nodup) (hnews : p.news a.order = .announced i)
    (hlen : 6 ≤ p.data.length) :
    ∃ a' acts, applyPacket g c p a = .ok (a',acts) ∧ Noted a a' (.announced i) := by
  have hcases : Accepted a.order p ∧ p.packet.operation = replyServers ∧
      i = ⟨p.address,p.port⟩ := by
    unfold FullPacket.news at hnews
    split_ifs at hnews with h₁ h₂ h₃
    cases hnews
    exact ⟨h₁,h₃,rfl⟩
  obtain ⟨hacc,hop,rfl⟩ := hcases
  have hall' : (a.servers.checkAddServer a.order p.addr c.time).Allocated :=
    Servers.allocated_checkAddServer hall
  have hposs : (a.servers.checkAddServer a.order p.addr c.time).possible = a.servers.possible :=
    Servers.possible_checkAddServer hall
  let heard := a.servers.checkAddServer a.order p.addr c.time
  refine ⟨{ a with servers := heard.addUpstream a.order ⟨p.address,p.port⟩ c.time },[],?_,?_⟩
  · simp [heard,applyPacket,hacc,applyOperation,hop,requestPing,requestFilesearch,
      requestWantfile,replyTransferwaiting,replyFilesearch,replyServers,addUpstreamServer_eq hlen,
      Except.map]
  · refine ⟨Servers.allocated_addUpstream hall',Servers.nodup_addUpstream hall' (hposs ▸ hnd),?_⟩
    intro j
    rw [Servers.possible_addUpstream hall',hposs]
    split_ifs with hi
    · simp only [News.adds]
      constructor
      · exact .inl
      · rintro (hj | rfl)
        · exact hj
        · exact hi
    · simp [News.adds]

/-- Handle the arrivals one after the other. -/
def applyAll : List Arrival → Host → Except Fault Host
  | [], a => .ok a
  | x::xs, a => (applyPacket x.g x.calls (x.packet a.order) a).bind fun r => applyAll xs r.1

/-- An answer to the ping adds the address it carries, and the one that there are no
servers adds none. -/
theorem applyPacket_pingReply {b : Host} {ping : FullPacket} {x : Arrival}
    (hx : x.datagram.bytes ∈ pingReplies b ping) (hall : a.servers.Allocated)
    (hnd : a.servers.possible.Nodup) : ∃ a' acts news,
      applyPacket x.g x.calls (x.packet a.order) a = .ok (a',acts) ∧ Noted a a' news ∧
        ∀ i, news.adds i ↔ i ∈ b.others ping.addr ∧
          x.datagram.bytes = serverReply b.order ping.packet.requestHandle i := by
  unfold pingReplies at hx
  split_ifs at hx with hnil
  · have hnews := news_noServersReply (List.mem_singleton.mp hx) a.order
    obtain ⟨a',acts,hrun,hnoted⟩ := applyPacket_heard (g:=x.g) (c:=x.calls) hall hnd hnews
    exact ⟨a',acts,.heard,hrun,hnoted,by simp [News.adds,hnil]⟩
  · obtain ⟨i,hi,heq⟩ := List.mem_map.mp hx
    obtain ⟨hnews,hlen⟩ := news_serverReply heq.symm a.order
    obtain ⟨a',acts,hrun,hnoted⟩ :=
      applyPacket_announced (g:=x.g) (c:=x.calls) hall hnd hnews hlen
    refine ⟨a',acts,.announced i,hrun,hnoted,?_⟩
    intro j
    constructor
    · rintro rfl
      exact ⟨hi,heq.symm⟩
    · rintro ⟨-,hj⟩
      -- the receiver can read only one address from the datagram
      have hread := (news_serverReply hj a.order).1
      rw [hnews] at hread
      exact (News.announced.inj hread).symm

theorem applyAll_pingReplies {b : Host} {ping : FullPacket} {xs : List Arrival}
    (hxs : ∀ x ∈ xs, x.datagram.bytes ∈ pingReplies b ping) (hall : a.servers.Allocated)
    (hnd : a.servers.possible.Nodup) : ∃ a', applyAll xs a = .ok a' ∧
      a'.servers.possible.Nodup ∧ ∀ i, i ∈ a'.servers.possible ↔
        i ∈ a.servers.possible ∨ i ∈ b.others ping.addr ∧
          ∃ x ∈ xs, x.datagram.bytes = serverReply b.order ping.packet.requestHandle i := by
  induction xs generalizing a with
  | nil => exact ⟨a,rfl,hnd,by simp⟩
  | cons x xs ih =>
    obtain ⟨hx,hxs⟩ := List.forall_mem_cons.mp hxs
    obtain ⟨a₁,acts,news,hrun,hnoted,hadds⟩ := applyPacket_pingReply hx hall hnd
    obtain ⟨a₂,hall₂,hnd₂,hmem₂⟩ := ih hxs hnoted.allocated hnoted.nodup
    refine ⟨a₂,?_,hnd₂,?_⟩
    · rw [applyAll,hrun]
      exact hall₂
    · intro i
      rw [hmem₂,hnoted.mem,hadds]
      simp only [List.mem_cons,exists_eq_or_imp]
      tauto

/-- One ping from `A` to `B`. All answers go to `A` and tell it of no servers exactly
when `B` has no other; and when `A` has received each of them, in any order and as
often as the network likes, its possible servers are the old ones and all that `B`
knows but `A` itself, each once. -/
theorem ping_gossip (b a : Host) (hb : b.servers.Allocated) (ha : a.servers.Allocated)
    (hnd : a.servers.possible.Nodup) (g : PatternMatch) (calls : Calls) (ping : FullPacket)
    (hacc : Accepted b.order ping) (hop : ping.packet.operation = requestPing) :
    ∃ b' acts, applyPacket g calls ping b = .ok (b',acts) ∧
      (∀ act ∈ acts, ∃ data, act = .sendto ping.addr data) ∧
      ((∃ data, .sendto ping.addr data ∈ acts ∧ data[7]? = some replyNoservers) ↔
        ∀ i ∈ b.known, i = ping.addr) ∧
      ∀ xs : List Arrival,
        (∀ data, (∃ x ∈ xs, x.datagram.bytes = data) ↔ .sendto ping.addr data ∈ acts) →
        ∃ a', applyAll xs a = .ok a' ∧ a'.servers.possible.Nodup ∧
          ∀ i, i ∈ a'.servers.possible ↔
            i ∈ a.servers.possible ∨ i ∈ b.known ∧ i ≠ ping.addr := by
  have hsent (data : List UInt8) : .sendto ping.addr data ∈
      (pingReplies b ping).map (Action.sendto ping.addr) ↔ data ∈ pingReplies b ping := by
    simp
  refine ⟨_,_,applyPacket_ping hacc hop hb,?_,?_,?_⟩
  · intro act hact
    obtain ⟨data,-,rfl⟩ := List.mem_map.mp hact
    exact ⟨data,rfl⟩
  · simp only [hsent]
    exact noServers_iff
  · intro xs hxs
    simp only [hsent] at hxs
    have harrive : ∀ x ∈ xs, x.datagram.bytes ∈ pingReplies b ping :=
      fun x hx => (hxs _).mp ⟨x,hx,rfl⟩
    obtain ⟨a',hrun,hnd',hmem⟩ := applyAll_pingReplies harrive ha hnd
    refine ⟨a',hrun,hnd',?_⟩
    intro i
    rw [hmem,← mem_others]
    apply or_congr_right
    apply and_iff_left_of_imp
    intro hi
    -- the answer for `i` is one of those that have arrived
    apply (hxs _).mpr
    have hne : b.others ping.addr ≠ [] := List.ne_nil_of_mem hi
    rw [pingReplies,if_neg hne]
    exact List.mem_map.mpr ⟨i,hi,rfl⟩

/-- The machines 10.0.0.1 to 10.0.0.4. -/
def machine (n : UInt8) : SockAddr := ⟨⟨10,0,0,n⟩,⟨0x0E,0xBD⟩⟩

/-- The program on the second machine, which knows the other three. -/
def knowsThree : Host :=
  let h := Host.initial .little []
  let servers := [machine 1,machine 3,machine 4].foldl (fun s i => (s.newServlet i 0).1) h.servers
  { h with servers := servers }

theorem length_ping :
    ([] : List UInt8).length = (fillinPacket .little requestPing 0 0).packetLength.toNat := rfl

/-- A ping from the first machine, as that program reads it. -/
def onePing : FullPacket where
  packet := fillinPacket .little requestPing 0 0
  data := []
  addr := machine 1
  data_length := length_ping

theorem allocated_initial (o : Order) (database : List FileData) :
    (Host.initial o database).servers.Allocated := by
  constructor <;> simp [Host.initial]

theorem allocated_newServlets (l : List SockAddr) {s : Servers} (h : s.Allocated) :
    (l.foldl (fun s i => (s.newServlet i 0).1) s).Allocated := by
  induction l generalizing s with
  | nil => exact h
  | cons i l ih => exact ih (Servers.allocated_newServlet h)

theorem allocated_knowsThree : knowsThree.servers.Allocated :=
  allocated_newServlets _ (allocated_initial _ _)

/-- The answer that tells of a machine. -/
def telling (i : SockAddr) : Datagram where
  bytes := serverReply .little 0 i
  bounded := by
    have hlen := min_le_right (fillinPacket .little replyServers 6 0).packetLength.toNat 6
    simp only [serverReply,sendPacket,maxDatagram,List.length_append,Packet.length_image,
      List.length_take,InAddr.length_bytes,InPort.length_bytes]
    omega

/-- The answer for the fourth machine overtakes the one for the third and comes twice. -/
def overtaken : List Arrival :=
  [machine 4,machine 3,machine 4].map fun i =>
    ⟨telling i,machine 2,fun _ => 0xFF,fun _ _ => false,noCalls⟩

/-- A big-endian program on the first machine hears of the third and of the fourth once each,
and not of itself. -/
theorem ping_gossip_three : ∃ b' acts,
    applyPacket (fun _ _ => false) noCalls onePing knowsThree = .ok (b',acts) ∧
    (¬∃ data, .sendto onePing.addr data ∈ acts ∧ data[7]? = some replyNoservers) ∧
    ∃ a', applyAll overtaken (Host.initial .big []) = .ok a' ∧ a'.servers.possible.Nodup ∧
      ∀ i, i ∈ a'.servers.possible ↔ i = machine 3 ∨ i = machine 4 := by
  obtain ⟨b',acts,hrun,-,hnone,hgossip⟩ := ping_gossip knowsThree (Host.initial .big [])
    allocated_knowsThree (allocated_initial _ _) (by simp [Servers.possible,Host.initial])
    (fun _ _ => false) noCalls onePing ⟨rfl,rfl⟩ rfl
  have hacts : acts = (pingReplies knowsThree onePing).map (.sendto onePing.addr) := by
    rw [applyPacket_ping ⟨rfl,rfl⟩ rfl allocated_knowsThree] at hrun
    exact (congrArg Prod.snd (Except.ok.inj hrun)).symm
  have hreplies : pingReplies knowsThree onePing =
      [serverReply .little 0 (machine 3),serverReply .little 0 (machine 4)] := by decide
  have harrive (data : List UInt8) : (∃ x ∈ overtaken, x.datagram.bytes = data) ↔
      .sendto onePing.addr data ∈ acts := by
    simp only [hacts,hreplies,overtaken,telling,List.map_cons,List.map_nil,List.mem_cons,
      List.not_mem_nil,or_false,exists_eq_or_imp,exists_eq_left,Action.sendto.injEq,true_and,
      eq_comm (b:=data)]
    tauto
  obtain ⟨a',hrun',hnodup,hmem⟩ := hgossip overtaken harrive
  refine ⟨b',acts,hrun,?_,a',hrun',hnodup,fun i => ?_⟩
  · rw [hnone]
    decide
  · have hknown : knowsThree.known = [machine 1,machine 3,machine 4] := by decide
    have hpossible : (Host.initial .big []).servers.possible = [] := rfl
    rw [hmem,hknown,hpossible]
    constructor
    · rintro (hi | ⟨hi,hne⟩)
      · simp at hi
      · simpa [show i ≠ machine 1 from hne] using hi
    · rintro (rfl | rfl)
      · exact .inr ⟨by decide,by decide⟩
      · exact .inr ⟨by decide,by decide⟩

end Pingu
end MiscUniStuff
