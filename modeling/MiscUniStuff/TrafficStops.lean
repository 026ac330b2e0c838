import MiscUniStuff.PeerOffers
import MiscUniStuff.SearchFlood

/-! Whatever is in flight, a network whose users do nothing comes to rest: pings and what is
said about servers make the lists of servers grow, but only so far, and with a bound on these
every datagram is worth more than all that is sent when it arrives. -/
namespace MiscUniStuff
namespace Pingu
open ByteOrder

/-! ### How many servers a program can get to know -/

/-- A bound on the active servers of a program, with `p` pings in flight and `e` servers that are
known or told of: a ping makes its sender known, and is answered with all that are known. -/
def growth : ℕ → ℕ → ℕ
  | 0, e => e
  | p+1, e => growth p (2*e+2)

theorem growth_le_growth {p e e' : ℕ} (h : e ≤ e') : growth p e ≤ growth p e' := by
  induction p generalizing e e' with
  | zero => exact h
  | succ p ih => exact ih (by omega)

theorem growth_le_succ (p e : ℕ) : growth p e ≤ growth (p+1) e :=
  growth_le_growth (by omega)

theorem growth_mono {p p' e e' : ℕ} (hp : p ≤ p') (he : e ≤ e') : growth p e ≤ growth p' e' := by
  induction hp with
  | refl => exact growth_le_growth he
  | step _ ih => exact ih.trans (growth_le_succ _ _)

theorem le_growth (p e : ℕ) : e ≤ growth p e := growth_mono (p:=0) (Nat.zero_le p) le_rfl

/-! ### What a datagram is worth -/

/-- The receipts that a packet of this operation can cause. -/
def operationCost (D M : ℕ) (operation ttl : UInt8) : ℕ :=
  if operation = requestFilesearch then receipts D M (clampTtl ttl).toNat
  else if operation = requestWantfile then 2
  else if operation = requestPing then D+2
  else 1

/-- The same for a datagram. One that is too short to have an operation gets it from what was
received before, so it may be any. -/
def cost (D M : ℕ) (bytes : List UInt8) : ℕ :=
  match bytes[7]? with
  | some operation => operationCost D M operation ((bytes[6]?).getD 0)
  | none => receipts D M 2+(D+2)

def actionCost (D M : ℕ) : Action → ℕ
  | .sendto _ bytes => cost D M bytes
  | _ => 0

section Costs
variable {D M : ℕ}

theorem receipts_le_succ (t : ℕ) : receipts D M t ≤ receipts D M (t+1) := by
  induction t with
  | zero => exact Nat.le_add_right (1+M) _
  | succ t ih => exact Nat.add_le_add_left (Nat.mul_le_mul_left D ih) (1+M)

theorem receipts_mono {t t' : ℕ} (h : t ≤ t') : receipts D M t ≤ receipts D M t' :=
  monotone_nat_of_le_succ receipts_le_succ h

theorem operationCost_le (operation ttl : UInt8) :
    operationCost D M operation ttl ≤ receipts D M 2+(D+2) := by
  have hsearch : receipts D M (clampTtl ttl).toNat ≤ receipts D M 2 :=
    receipts_mono (by rw [toNat_clampTtl]; exact min_le_right _ _)
  unfold operationCost
  split_ifs <;> omega

theorem operationCost_pos (operation ttl : UInt8) : 1 ≤ operationCost D M operation ttl := by
  have hsearch := lt_receipts D M (clampTtl ttl).toNat
  unfold operationCost
  split_ifs <;> omega

theorem cost_sendPacket (o : Order) (p : Packet) (d : List UInt8) :
    cost D M (sendPacket o p d) = operationCost D M p.operation p.ttl := by
  simp [cost,sendPacket_operation,sendPacket_ttl]

/-- A datagram is worth what is read of it. -/
theorem operationCost_packet (f : Flight) (h : Host) (buffer : ℕ → UInt8) :
    operationCost D M (f.packet h buffer).packet.operation (f.packet h buffer).packet.ttl ≤
      cost D M f.datagram.bytes := by
  unfold cost
  cases hop : f.datagram.bytes[7]? with
  | none => exact operationCost_le _ _
  | some operation =>
    obtain ⟨ttl,httl⟩ : ∃ ttl, f.datagram.bytes[6]? = some ttl := by
      have hlen := (List.getElem?_eq_some_iff.mp hop).1
      exact ⟨_,List.getElem?_eq_getElem (by omega)⟩
    rw [Flight.packet_operation hop,Flight.packet_ttl httl,httl]
    exact le_rfl

end Costs

/-! ### What a program makes of a packet -/

/-- The operations that tell of a server. -/
def Greets (operation : UInt8) : Prop :=
  operation = requestPing ∨ operation = replyServers ∨ operation = replyNoservers

instance (operation : UInt8) : Decidable (Greets operation) :=
  inferInstanceAs (Decidable (_ ∨ _))

section Packets
variable {g : PatternMatch} {c : Calls} {p : FullPacket} {h h' : Host} {acts : List Action}
  {D M d : ℕ}

theorem length_checkAddServer (o : Order) (source : SockAddr) (now : ℤ) (s : Servers) :
    (s.checkAddServer o source now).sockets.length ≤ s.sockets.length+1 := by
  cases hf : s.findServlet o source with
  | none =>
    rw [Servers.checkAddServer_none hf]
    simp [Servers.newServlet,Servers.newServletReal,Servers.newServletStartup]
  | some j =>
    rw [Servers.checkAddServer_some hf]
    exact Nat.le_succ _

/-- One server more at most, and only for such an operation. -/
theorem known_applyPacket (ha : applyPacket g c p h = .ok (h',acts)) :
    h'.known.length ≤ h.known.length + if Greets p.packet.operation then 1 else 0 := by
  simp only [Host.known,List.length_map,applyPacket_servers ha]
  by_cases hgreets : Greets p.packet.operation
  · rw [if_pos hgreets]
    cases p.news h.order with
    | nothing => exact Nat.le_succ _
    | heard => exact length_checkAddServer _ _ _ _
    | announced i =>
      simp only [Servers.hear,Servers.sockets_addUpstream]
      exact length_checkAddServer _ _ _ _
  · have hnews : p.news h.order = .nothing := by
      simp only [Greets,not_or] at hgreets
      simp [FullPacket.news,hgreets]
    rw [hnews]
    exact Nat.le_add_right _ _

/-- A ping is answered by as many datagrams as servers are known, or by one. -/
theorem length_ping_answers (hop : p.packet.operation = requestPing) (hd : h.known.length ≤ d)
    (ha : applyPacket g c p h = .ok (h',acts)) : acts.length ≤ d+1 := by
  unfold applyPacket at ha
  split_ifs at ha with hacc
  · simp only [applyOperation,hop,if_true,Except.ok.injEq,Prod.mk.injEq] at ha
    rw [← ha.2,generateReplyServers_eq,List.length_map,pingReplies]
    split_ifs
    · exact Nat.le_add_left 1 d
    · rw [List.length_map]
      refine (List.length_filter_le _ _).trans ?_
      simp only [Host.known,List.length_map] at hd ⊢
      exact (length_checkAddServer _ _ _ _).trans (Nat.succ_le_succ hd)
  · simp only [Except.ok.injEq,Prod.mk.injEq] at ha
    rw [← ha.2]
    exact Nat.zero_le _

/-- Unless it was a search, an answer is worth one receipt. -/
theorem cost_answer {dest : SockAddr} {bytes : List UInt8} (ha : Answers g h p dest bytes)
    (hop : p.packet.operation ≠ requestFilesearch) : cost D M bytes = 1 := by
  cases ha with
  | server => exact cost_sendPacket _ _ _
  | noServers => exact cost_sendPacket _ _ _
  | file hsearch => exact absurd hsearch hop
  | copy hsearch => exact absurd hsearch hop
  | offer => exact cost_sendPacket _ _ _

theorem sum_actionCost (hone : ∀ dest bytes, .sendto dest bytes ∈ acts → cost D M bytes = 1) :
    (acts.map (actionCost D M)).sum = acts.countP Action.isSendto := by
  induction acts with
  | nil => rfl
  | cons a acts ih =>
    have hrest := ih fun dest bytes hmem => hone dest bytes (List.mem_cons_of_mem a hmem)
    rw [List.map_cons,List.sum_cons,hrest,List.countP_cons]
    cases a with
    | sendto dest bytes =>
      simp only [actionCost,hone dest bytes List.mem_cons_self,Action.isSendto]
      exact Nat.add_comm 1 _
    | _ => simp [actionCost,Action.isSendto]

/-- Only one offer is made for a request. -/
theorem one_offer (hop : p.packet.operation = requestWantfile)
    (ha : applyPacket g c p h = .ok (h',acts)) : acts.countP Action.isSendto ≤ 1 := by
  by_cases hacc : Accepted h.order p
  · rw [applyPacket_wantfile hacc hop] at ha
    obtain ⟨made,hmade,heq⟩ := map_eq_ok.mp ha
    cases heq
    by_cases hp : 16 ≤ p.data.length
    · rcases getRequestWantfile_acts hp hmade with rfl | rfl | ⟨f,-,port,-,-,rfl⟩
      · exact Nat.zero_le 1
      · exact Nat.zero_le 1
      · exact le_rfl
    · rw [getRequestWantfile_short (not_le.mp hp) hmade]
      exact Nat.zero_le 1
  · simp only [applyPacket,if_neg hacc,Except.ok.injEq,Prod.mk.injEq] at ha
    rw [← ha.2]
    exact Nat.zero_le 1

/-- For a search, the worth is what it was when only searches were in flight. -/
theorem actionCost_search (hop : p.packet.operation = requestFilesearch)
    {a : Action} (ha : a ∈ (matching g h p).map (reply h p) ++ forwards h p) :
    actionCost D M a = actionWeight D M a := by
  rcases List.mem_append.mp ha with hreply | hforward
  · obtain ⟨f,-,rfl⟩ := List.mem_map.mp hreply
    simp [reply,actionCost,actionWeight,cost_sendPacket,byteWeight,sendPacket_operation,
      operationCost,fillinPacket,replyFilesearch,requestFilesearch,requestWantfile,requestPing]
  · rw [forwards_eq] at hforward
    obtain ⟨dest,-,rfl⟩ := List.mem_map.mp hforward
    simp [actionCost,actionWeight,cost_sendPacket,byteWeight,sendPacket_operation,sendPacket_ttl,
      operationCost,FullPacket.forwardHeader,hop]

/-- What is sent when a packet arrives is worth less than the packet. -/
theorem acts_cost (hd : h.known.length ≤ d) (hD : d ≤ D) (hM : h.database.length ≤ M)
    (ha : applyPacket g c p h = .ok (h',acts)) : (acts.map (actionCost D M)).sum+1 ≤
      operationCost D M p.packet.operation p.packet.ttl := by
  by_cases hsearch : p.packet.operation = requestFilesearch
  · rw [operationCost,if_pos hsearch]
    rcases applyPacket_search hsearch ha with ⟨-,rfl | ⟨-,rfl⟩⟩
    · have hpos := lt_receipts D M (clampTtl p.packet.ttl).toNat
      simp only [List.map_nil,List.sum_nil]
      omega
    · rw [List.map_congr_left fun a hmem => actionCost_search hsearch hmem]
      exact search_weight hsearch (hd.trans hD) hM
  · rw [sum_actionCost fun dest bytes hmem => cost_answer (answers_of_mem ha hmem) hsearch,
      operationCost,if_neg hsearch]
    by_cases hwant : p.packet.operation = requestWantfile
    · rw [if_pos hwant]
      exact Nat.succ_le_succ (one_offer hwant ha)
    · rw [if_neg hwant]
      by_cases hping : p.packet.operation = requestPing
      · have hlen := length_ping_answers hping hd ha
        have hcount := List.countP_le_length (p:=Action.isSendto) (l:=acts)
        rw [if_pos hping]
        omega
      · have hnone : acts.countP Action.isSendto = 0 := by
          rw [List.countP_eq_zero]
          intro a hmem hsend
          cases a with
          | sendto dest bytes =>
            cases answers_of_mem ha hmem with
            | server hop => exact hping hop
            | noServers hop => exact hping hop
            | file hop => exact hsearch hop
            | copy hop => exact hsearch hop
            | offer hop => exact hwant hop
          | _ => cases hsend
        rw [hnone,if_neg hping]

end Packets

/-! ### The network -/

/-- The datagram may be read as a ping. -/
def Flight.MayPing (f : Flight) : Prop :=
  f.datagram.bytes[7]? = none ∨ f.datagram.bytes[7]? = some requestPing

/-- It is an answer to a ping. -/
def Flight.Answer (f : Flight) : Prop :=
  f.datagram.bytes[7]? = some replyServers ∨ f.datagram.bytes[7]? = some replyNoservers

instance (f : Flight) : Decidable f.MayPing := inferInstanceAs (Decidable (_ ∨ _))

instance (f : Flight) : Decidable f.Answer := inferInstanceAs (Decidable (_ ∨ _))

section Flights
variable {ι : Type} {w : Wiring ι} {g : PatternMatch} {D M : ℕ} {f : Flight} {h h' : Host}
  {c : Calls} {acts : List Action} {buffer : ℕ → UInt8} {j : ι} {t : Trace} {found : List FileData}

theorem launch_cost (l : List (Action × Trace)) :
    ((launch w j l).map fun f => cost D M f.datagram.bytes).sum ≤
      ((l.map Prod.fst).map (actionCost D M)).sum := by
  induction l with
  | nil => simp [launch]
  | cons a l ih =>
    rcases a with ⟨a,t⟩
    simp only [launch,List.map_cons,List.sum_cons] at ih ⊢
    cases a with
    | sendto dest data =>
      by_cases hlen : data.length ≤ maxDatagram
      · simp only [List.filterMap_cons,hlen,dif_pos,List.map_cons,List.sum_cons,actionCost]
        exact Nat.add_le_add_left ih _
      · simp only [List.filterMap_cons,hlen,dif_neg,not_false_eq_true]
        exact ih.trans (Nat.le_add_left _ _)
    | _ =>
      simp only [List.filterMap_cons]
      exact ih.trans (Nat.le_add_left _ _)

/-- No program pings in answer to something. -/
theorem launch_mayPing (ha : applyPacket g c (f.packet h buffer) h = .ok (h',acts)) :
    (launch w j (follow t found acts)).countP (fun f => f.MayPing) = 0 := by
  rw [List.countP_eq_zero]
  intro f' hf' hping
  have hmay : f'.MayPing := of_decide_eq_true hping
  unfold Flight.MayPing at hmay
  have hanswer := answers_of_mem ha (mem_launch_follow hf').2
  generalize f'.datagram.bytes = bytes at hmay hanswer
  generalize f'.dest = dest at hanswer
  cases hanswer with
  | server hop =>
    simp [serverReply,sendPacket_operation,fillinPacket,replyServers,requestPing] at hmay
  | noServers hop =>
    simp [noServersReply,sendPacket_operation,fillinPacket,replyNoservers,requestPing] at hmay
  | file hop =>
    simp [sendPacket_operation,fillinPacket,replyFilesearch,requestPing] at hmay
  | copy hop =>
    simp [sendPacket_operation,FullPacket.forwardHeader,hop,requestFilesearch,requestPing] at hmay
  | offer hop =>
    simp [sendPacket_operation,fillinPacket,replyTransferwaiting,requestPing] at hmay

/-- Only a ping is answered with what is known of servers. -/
theorem launch_answer (hop : (f.packet h buffer).packet.operation ≠ requestPing)
    (ha : applyPacket g c (f.packet h buffer) h = .ok (h',acts)) :
    (launch w j (follow t found acts)).countP (fun f => f.Answer) = 0 := by
  rw [List.countP_eq_zero]
  intro f' hf' hanswer
  have htells : f'.Answer := of_decide_eq_true hanswer
  unfold Flight.Answer at htells
  have hsent := answers_of_mem ha (mem_launch_follow hf').2
  generalize f'.datagram.bytes = bytes at htells hsent
  generalize f'.dest = dest at hsent
  cases hsent with
  | server hping => exact hop hping
  | noServers hping => exact hop hping
  | file hsearch =>
    simp [sendPacket_operation,fillinPacket,replyFilesearch,replyServers,replyNoservers] at htells
  | copy hsearch =>
    simp [sendPacket_operation,FullPacket.forwardHeader,hsearch,requestFilesearch,replyServers,
      replyNoservers] at htells
  | offer hwant =>
    simp [sendPacket_operation,fillinPacket,replyTransferwaiting,replyServers,
      replyNoservers] at htells

end Flights

section Network
variable {ι : Type} [DecidableEq ι] {w : Wiring ι} {g : PatternMatch} {D M : ℕ} {s s' : Net ι}

/-- No program knows more than `d` servers or has more than `M` files, and with all that is in
flight it will not get to know more than `D`. -/
structure Traffic (D M d : ℕ) (s : Net ι) : Prop where
  known : ∀ j h, s.host j = some h → h.known.length ≤ d
  database : ∀ j h, s.host j = some h → h.database.length ≤ M
  room : growth (s.flights.countP fun f => f.MayPing) (d+s.flights.countP fun f => f.Answer) ≤ D

omit [DecidableEq ι] in
theorem Traffic.le {d : ℕ} (hs : Traffic D M d s) : d ≤ D :=
  (Nat.le_add_right d _).trans ((le_growth _ _).trans hs.room)

def Net.cost (D M : ℕ) (s : Net ι) : ℕ :=
  (s.flights.map fun f => Pingu.cost D M f.datagram.bytes).sum

omit [DecidableEq ι] in
theorem Traffic.lost {d : ℕ} (hs : Traffic D M d s) (i : ℕ) {host : ι → Option Host}
    {buffer : ι → ℕ → UInt8} (hhost : ∀ j h, host j = some h → s.host j = some h) :
    Traffic D M d ⟨host,buffer,Bags.exchange s.flights i []⟩ where
  known j h hh := hs.known j h (hhost j h hh)
  database j h hh := hs.database j h (hhost j h hh)
  room := (growth_mono (Bags.countP_exchange_nil_le _)
    (Nat.add_le_add_left (Bags.countP_exchange_nil_le _) d)).trans hs.room

/-- One ping less in flight makes up for one server more and for what is said of all of them;
one answer less, for the server it tells of. -/
theorem Traffic.handled {d i : ℕ} {f : Flight} {j : ι} {h h' : Host} {c : Calls}
    {acts : List Action} (hs : Traffic D M d s) (hf : s.flights[i]? = some f)
    (hh : s.host j = some h) (buffer : ι → ℕ → UInt8)
    (ha : applyPacket g c (f.packet h (s.buffer j)) h = .ok (h',acts)) (t : Trace)
    (found : List FileData) : ∃ d', Traffic D M d'
      ⟨Function.update s.host j (some h'),buffer,
        Bags.exchange s.flights i (launch w j (follow t found acts))⟩ := by
  have hknown := known_applyPacket ha
  have hd := hs.known j h hh
  have hroom := hs.room
  have hping := Bags.countP_exchange (m:=launch w j (follow t found acts))
    (fun f => decide f.MayPing) hf
  have htold := Bags.countP_exchange (m:=launch w j (follow t found acts))
    (fun f => decide f.Answer) hf
  rw [launch_mayPing ha] at hping
  suffices hd' : ∃ d', h'.known.length ≤ d' ∧ d ≤ d' ∧ growth
      ((Bags.exchange s.flights i (launch w j (follow t found acts))).countP fun f => f.MayPing)
      (d'+(Bags.exchange s.flights i (launch w j (follow t found acts))).countP
        fun f => f.Answer) ≤ D by
    obtain ⟨d',hnew,hle,hbound⟩ := hd'
    refine ⟨d',fun k h₁ hk => ?_,fun k h₁ hk => ?_,hbound⟩
    · rcases update_some hk with ⟨rfl,rfl⟩ | hold
      · exact hnew
      · exact (hs.known k h₁ hold).trans hle
    · rcases update_some hk with ⟨rfl,rfl⟩ | hold
      · rw [(applyPacket_becomes ha).database]
        exact hs.database k h hh
      · exact hs.database k h₁ hold
  -- a datagram is read as what it says, when it is long enough to say so
  have hread : ∀ operation, (f.packet h (s.buffer j)).packet.operation = operation →
      f.datagram.bytes[7]? = none ∨ f.datagram.bytes[7]? = some operation := by
    intro operation hop
    cases hbyte : f.datagram.bytes[7]? with
    | none => exact Or.inl rfl
    | some b =>
      rw [← hop,Flight.packet_operation hbyte]
      exact Or.inr rfl
  have hspent : f.MayPing → ∀ e, e ≤ 2*(d+s.flights.countP fun f => f.Answer)+2 → growth
      ((Bags.exchange s.flights i (launch w j (follow t found acts))).countP fun f => f.MayPing)
      e ≤ D := by
    intro hmay e he
    simp only [hmay,decide_true,if_true,Nat.add_zero] at hping
    rw [← hping] at hroom
    exact (growth_le_growth he).trans hroom
  by_cases hop : (f.packet h (s.buffer j)).packet.operation = requestPing
  · rw [if_pos (show Greets _ from Or.inl hop)] at hknown
    have hlen := (length_launch_le (w:=w) (j:=j) t found acts).trans
      (List.countP_le_length.trans (length_ping_answers hop hd ha))
    have hcount := List.countP_le_length (p:=fun f : Flight => decide f.Answer)
      (l:=launch w j (follow t found acts))
    refine ⟨d+1,by omega,Nat.le_succ d,hspent (hread _ hop) _ ?_⟩
    omega
  rw [launch_answer hop ha] at htold
  by_cases hgreets : Greets (f.packet h (s.buffer j)).packet.operation
  · rw [if_pos hgreets] at hknown
    refine ⟨d+1,by omega,Nat.le_succ d,?_⟩
    by_cases hanswer : f.Answer
    · simp only [hanswer,decide_true,if_true] at htold
      exact (growth_mono (by omega) (by omega)).trans hroom
    · have hshort : f.MayPing := by
        rcases hgreets.resolve_left hop with hservers | hnoservers
        · exact (hread _ hservers).elim Or.inl fun hbyte => absurd (Or.inl hbyte) hanswer
        · exact (hread _ hnoservers).elim Or.inl fun hbyte => absurd (Or.inr hbyte) hanswer
      refine hspent hshort _ ?_
      omega
  · rw [if_neg hgreets] at hknown
    exact ⟨d,hknown.trans hd,le_rfl,(growth_mono (by omega) (by omega)).trans hroom⟩

/-- Whatever happens to a datagram, its worth pays for what is sent and for one receipt. -/
theorem Traffic.happens {d : ℕ} {new : List Flight} (hs : Traffic D M d s)
    (hh : Happens w g s s' new) :
    (∃ d', Traffic D M d' s') ∧ s'.cost D M+new.length ≤ s.cost D M := by
  cases hh with
  | lost i => exact ⟨⟨d,hs.lost i fun _ _ hk => hk⟩,Bags.sum_exchange_nil_le _⟩
  | @crashed i f j h calls e hf hj hhost he =>
    have hsum := Bags.sum_exchange (m:=[]) (fun f => Pingu.cost D M f.datagram.bytes) hf
    have hpos := (operationCost_pos (D:=D) (M:=M) _ _).trans
      (operationCost_packet f h (s.buffer j))
    refine ⟨⟨d,hs.lost i fun _ _ hk => update_none hk⟩,?_⟩
    simp only [List.map_nil,List.sum_nil] at hsum
    simp only [Net.cost,List.length_singleton]
    omega
  | @handled i f j h h' calls acts hf hj hhost ha =>
    refine ⟨hs.handled hf hhost _ ha _ _,?_⟩
    have hsum := Bags.sum_exchange (m:=launch w j (follow f.trace
      (matching g h (f.packet h (s.buffer j))) acts))
      (fun f => Pingu.cost D M f.datagram.bytes) hf
    have hlaunch := launch_cost (w:=w) (j:=j) (D:=D) (M:=M)
      (follow f.trace (matching g h (f.packet h (s.buffer j))) acts)
    rw [follow_map_fst] at hlaunch
    have hacts := (acts_cost (hs.known j h hhost) hs.le (hs.database j h hhost) ha).trans
      (operationCost_packet f h (s.buffer j))
    simp only [Net.cost,List.length_singleton]
    omega

end Network

/-- A network whose users do nothing comes to rest, whatever is in flight at the start: however
the datagrams are lost and delivered, there are only so many receipts. -/
theorem traffic_stops {ι : Type} [DecidableEq ι] [Finite ι] (w : Wiring ι) (g : PatternMatch)
    (s : Net ι) : ∃ n, ∀ ops, (s.run w g ops).2.length ≤ n := by
  obtain ⟨d,hd⟩ := Finite.exists_le fun j => ((s.host j).map fun h => h.known.length).getD 0
  obtain ⟨M,hM⟩ := Finite.exists_le fun j => ((s.host j).map fun h => h.database.length).getD 0
  set D := growth (s.flights.countP fun f => f.MayPing)
    (d+s.flights.countP fun f => f.Answer) with hD
  have htraffic : Traffic D M d s := {
    known := fun j h hj => by simpa [hj] using hd j
    database := fun j h hj => by simpa [hj] using hM j
    room := hD.ge }
  refine ⟨s.cost D M,fun ops => ?_⟩
  have hrun := Net.run_invariant (w:=w) (g:=g) (s:=s)
    (P:=fun s' log => (∃ d', Traffic D M d' s') ∧ s'.cost D M+log.length ≤ s.cost D M)
    ⟨⟨d,htraffic⟩,le_rfl⟩ (fun s₁ log s₂ new h hnext => by
      obtain ⟨⟨d₁,hs₁⟩,hlog⟩ := h
      have hstep := hs₁.happens hnext
      rw [List.length_append]
      exact ⟨hstep.1,by omega⟩) ops
  omega

/-- A ping from nowhere, and a datagram that ends before its operation. -/
def strayTraffic : List Flight := [
  { strayFlight with datagram := ⟨wire (preamble ++ [0,9]) 0 requestPing [],by decide⟩ },
  { strayFlight with datagram := ⟨[0x12,0x34],by decide⟩ }]

theorem traffic_stops_triangle : ∃ n, ∀ ops,
    (({ triangle with flights := strayFlight :: strayTraffic } : Net (Fin 3)).run
      triangleWiring sameName ops).2.length ≤ n :=
  traffic_stops triangleWiring sameName _

end Pingu
end MiscUniStuff
