import MiscUniStuff.PeerNetwork

/-! What the programs of such a network know of each other. If each of them has one address,
and users connect to other programs of the network only, then in every run the servers of a
program are other programs: no address is made up, and no program is told of itself. -/
namespace MiscUniStuff
namespace Pingu
open ByteOrder

/-! ### The lists of one program -/

/-- The addresses in both lists satisfy `P`. -/
structure Servers.Lists (P : SockAddr → Prop) (s : Servers) : Prop where
  allocated : s.Allocated
  active : ∀ a ∈ s.active, P a
  possible : ∀ a ∈ s.possible, P a

namespace Servers
variable {P : SockAddr → Prop} {o : Order} {source i : SockAddr} {now : ℤ} {s : Servers}

theorem Lists.newServlet (h : s.Lists P) (hi : P i) : (s.newServlet i now).1.Lists P where
  allocated := allocated_newServlet h.allocated
  active := by
    rw [active_newServlet h.allocated]
    exact List.forall_mem_append.mpr ⟨h.active,List.forall_mem_singleton.mpr hi⟩
  possible := by
    rw [possible_newServlet h.allocated]
    exact h.possible

theorem Lists.checkAddServer (h : s.Lists P) (hsource : P source) :
    (s.checkAddServer o source now).Lists P where
  allocated := allocated_checkAddServer h.allocated
  active := by
    rw [active_checkAddServer h.allocated]
    split_ifs
    · exact h.active
    · exact List.forall_mem_append.mpr ⟨h.active,List.forall_mem_singleton.mpr hsource⟩
  possible := by
    rw [possible_checkAddServer h.allocated]
    exact h.possible

theorem Lists.addUpstream (h : s.Lists P) (hi : P i) : (s.addUpstream o i now).Lists P where
  allocated := allocated_addUpstream h.allocated
  active := by
    rw [active_addUpstream h.allocated]
    exact h.active
  possible := by
    rw [possible_addUpstream h.allocated]
    split_ifs
    · exact h.possible
    · exact List.forall_mem_append.mpr ⟨h.possible,List.forall_mem_singleton.mpr hi⟩

/-- The addresses that a packet brings are its source and the one that it announces. -/
theorem Lists.hear (h : s.Lists P) {news : News} (hsource : news ≠ .nothing → P source)
    (hnews : ∀ i, news = .announced i → P i) : (s.hear o source now news).Lists P := by
  cases news with
  | nothing => exact h
  | heard => exact h.checkAddServer (hsource (by simp))
  | announced i => exact (h.checkAddServer (hsource (by simp))).addUpstream (hnews i rfl)

theorem Lists.idlePinger {s : Pingers} (h : s.servers.Lists P) (k : ℕ) :
    (s.idlePinger k now).1.servers.Lists P where
  allocated := Pingers.allocated_idlePinger k h.allocated
  active := by
    rcases Pingers.active_idlePinger (f:=now) (s:=s) k with hsub | hfill
    · exact fun a ha => h.active a (hsub.subset ha)
    · rw [hfill]
      exact fun a ha => h.possible a (List.mem_of_mem_take ha)
  possible := by
    rw [Pingers.possible_idlePinger]
    exact h.possible

end Servers

/-! ### Other programs -/

/-- Each program has one address, under which all others see and reach it. -/
structure Wiring.Plain {ι : Type} (w : Wiring ι) (home : ι → SockAddr) : Prop where
  seen : ∀ i a, w.seen i a = home i
  route : ∀ i, w.route (home i) = some i

/-- The address is that of a program other than `j`. -/
def Other {ι : Type} (home : ι → SockAddr) (j : ι) (a : SockAddr) : Prop := ∃ i ≠ j, a = home i

/-- The operations of what goes to servers and of what they answer about others. -/
def AmongServers (operation : UInt8) : Prop :=
  operation = requestPing ∨ operation = requestFilesearch ∨ operation = replyServers ∨
    operation = replyNoservers

instance (operation : UInt8) : Decidable (AmongServers operation) :=
  inferInstanceAs (Decidable (_ ∨ _))

theorem amongServers_of_news {o : Order} {p : FullPacket} (h : p.news o ≠ .nothing) :
    AmongServers p.packet.operation := by
  by_contra hno
  simp only [AmongServers,not_or] at hno
  exact h (by simp [FullPacket.news,hno])

theorem operation_of_announced {o : Order} {p : FullPacket} {a : SockAddr}
    (h : p.news o = .announced a) : p.packet.operation = replyServers := by
  by_contra hno
  unfold FullPacket.news at h
  rw [if_neg hno] at h
  split_ifs at h

/-- The program's servers are others. -/
structure Sociable {ι : Type} (home : ι → SockAddr) (j : ι) (h : Host) : Prop where
  tidy : Tidy h
  lists : h.servers.Lists (Other home j)

/-- Such a datagram goes from one program to another, and what it announces is a third. -/
structure Telling {ι : Type} (home : ι → SockAddr) (f : Flight) : Prop where
  proper : Proper f.datagram.bytes
  between : ∀ h buffer, AmongServers (f.packet h buffer).packet.operation →
    ∃ i k, i ≠ k ∧ f.source = home i ∧ f.dest = home k
  tells : ∀ h buffer a k, (f.packet h buffer).news h.order = .announced a → f.dest = home k →
    Other home k a

section Datagrams
variable {ι : Type} {w : Wiring ι} {home : ι → SockAddr} {g : PatternMatch} {f f' : Flight}
  {h h' : Host} {j : ι} {buffer : ℕ → UInt8}

/-- A datagram for one program that is neither a ping nor about servers. -/
theorem telling_quiet (hproper : Proper f.datagram.bytes)
    (hop : ∀ h buffer, ¬AmongServers (f.packet h buffer).packet.operation) : Telling home f where
  proper := hproper
  between h buffer hamong := absurd hamong (hop h buffer)
  tells h buffer a k hnews _ := by
    have hsome : (f.packet h buffer).news h.order ≠ .nothing := by simp [hnews]
    exact absurd (amongServers_of_news hsome) (hop h buffer)

/-- A ping or a search to another program. -/
theorem telling_sent (hproper : Proper f.datagram.bytes) (hsource : f.source = home j)
    (hdest : Other home j f.dest)
    (hop : ∀ h buffer, (f.packet h buffer).packet.operation ≠ replyServers) : Telling home f where
  proper := hproper
  between _ _ _ := by
    obtain ⟨k,hk,hto⟩ := hdest
    exact ⟨j,k,hk.symm,hsource,hto⟩
  tells h buffer _ _ hnews _ := absurd (operation_of_announced hnews) (hop h buffer)

/-- Who gets such a datagram has it from another program. -/
theorem Telling.source (ht : Telling home f) (hw : w.Plain home) (hj : w.route f.dest = some j)
    (hamong : AmongServers (f.packet h buffer).packet.operation) :
    f.dest = home j ∧ Other home j f.source := by
  obtain ⟨i,k,hne,hsource,hdest⟩ := ht.between h buffer hamong
  rw [hdest,hw.route,Option.some.injEq] at hj
  subst k
  exact ⟨hdest,i,hne,hsource⟩

/-- What a host reads of a datagram with a header that has been filled in. -/
theorem read_operation {o : Order} {operation : UInt8} {datalen request : UInt16} {d : List UInt8}
    (hd : d.length = datalen.toNat)
    (hf : f.datagram.bytes = sendPacket o (fillinPacket o operation datalen request) d) (h : Host)
    (buffer : ℕ → UInt8) : (f.packet h buffer).packet.operation = operation :=
  (Flight.packet_sent (q:=fillinPacket o operation datalen request) hd hf h buffer).2.1

/-- Neither answers to a ping nor anything else tell a program of itself. -/
theorem Sociable.answers (hw : w.Plain home) (hs : Sociable home j h) {buffer : ℕ → UInt8}
    (ht : Telling home f) (hj : w.route f.dest = some j) (hsource : f'.source = w.seen j f'.dest)
    (ha : Answers g h (f.packet h buffer) f'.dest f'.datagram.bytes) : Telling home f' := by
  have hacc := (ht.proper.packet h buffer).1
  have hproper := hs.tidy.answers hacc ha
  rw [hw.seen] at hsource
  generalize hbytes : f'.datagram.bytes = bytes at ha
  generalize hdest : f'.dest = dest at ha
  have haddr : (f.packet h buffer).addr = f.source := rfl
  have hfrom : AmongServers (f.packet h buffer).packet.operation → Other home j f.source :=
    fun hamong => (ht.source hw hj hamong).2
  cases ha with
  | @server client now hop hclient =>
    rw [mem_others] at hclient
    have hother : Other home j client :=
      (hs.lists.checkAddServer (hfrom (Or.inl hop))).active client hclient.1
    have hread : ∀ h₁ buffer₁, (f'.packet h₁ buffer₁).news h₁.order = .announced client :=
      fun h₁ buffer₁ => (news_serverReply
        (x:=⟨f'.datagram,f'.source,buffer₁,g,noCalls⟩) hbytes h₁.order).1
    obtain ⟨i,hi,hto⟩ := hfrom (Or.inl hop)
    refine ⟨hproper,fun _ _ _ => ⟨j,i,hi.symm,hsource,?_⟩,fun h₁ buffer₁ a k hnews hk => ?_⟩
    · rw [hdest,haddr,hto]
    · obtain ⟨m,-,rfl⟩ := hother
      rw [hread,News.announced.injEq] at hnews
      refine ⟨m,?_,hnews.symm⟩
      rintro rfl
      rw [hdest] at hk
      exact hclient.2 hk.symm
  | noServers hop =>
    obtain ⟨i,hi,hto⟩ := hfrom (Or.inl hop)
    refine telling_sent hproper hsource ⟨i,hi,?_⟩ fun h₁ buffer₁ => ?_
    · rw [hdest,haddr,hto]
    · rw [read_operation (by simp) hbytes]
      decide
  | file hop hp hfile =>
    refine telling_quiet hproper fun h₁ buffer₁ => ?_
    rw [(packet_reply hbytes h₁ buffer₁).2.1]
    decide
  | copy hop hp hforward =>
    unfold forwardDests at hforward
    split_ifs at hforward
    · have hother := hs.lists.active dest (List.mem_of_mem_filter hforward)
      refine telling_sent hproper hsource (hdest ▸ hother) fun h₁ buffer₁ => ?_
      have hcopy := (Flight.packet_sent (FullPacket.length_forwardData hp) hbytes h₁ buffer₁).2.1
      rw [hcopy,FullPacket.forwardHeader,hop]
      decide
    · cases hforward
  | @offer file port junk hop hp hfile =>
    have hname := (hs.tidy.names file (List.mem_of_find?_eq_some hfile)).2
    have hlen := length_transferPayload port junk file.filename file.md5_length
    have hcount : (transferPayload port junk file.filename file.md5sum).length =
        (UInt16.ofNat (transferPayload port junk file.filename file.md5sum).length).toNat := by
      rw [UInt16.toNat_ofNat_of_lt' (by simp only [UInt16.size]; omega)]
    refine telling_quiet hproper fun h₁ buffer₁ => ?_
    rw [read_operation hcount hbytes]
    decide

/-- What a program sends on its own goes to others. -/
theorem Sociable.starts (hw : w.Plain home) (hs : Sociable home j h) {o : ProgramOp} (ho : o.Fits)
    (hsource : f.source = w.seen j f.dest) (hstarts : Starts h o f.dest f.datagram.bytes) :
    Telling home f := by
  have hproper := hs.tidy.starts ho hstarts
  rw [hw.seen] at hsource
  generalize hbytes : f.datagram.bytes = bytes at hstarts
  generalize hdest : f.dest = dest at hstarts
  cases hstarts with
  | @ping i now servlet hi =>
    have hother := hs.lists.active _ (List.mem_map_of_mem (List.mem_of_getElem? hi))
    refine telling_sent hproper hsource (hdest ▸ hother) fun h₁ buffer => ?_
    rw [read_operation rfl hbytes]
    decide
  | @search calls search dest hknown =>
    have hlen := length_searchPayload h.order calls.junk search
    simp only [ProgramOp.Fits] at ho
    have hcount : (searchPayload h.order calls.junk search).length =
        (UInt16.ofNat (8+search.strlen)).toNat := by
      rw [hlen,UInt16.toNat_ofNat_of_lt' (by simp only [UInt16.size]; omega)]
    refine telling_sent hproper hsource (hdest ▸ hs.lists.active dest hknown) fun h₁ buffer => ?_
    rw [read_operation hcount hbytes]
    decide
  | @want calls model row k hk =>
    have hsum := hs.tidy.rows model k (List.mem_of_getElem? hk)
    refine telling_quiet hproper fun h₁ buffer => ?_
    rw [read_operation hsum hbytes]
    decide

/-- The user connects to other programs only. -/
def ProgramOp.Joins (home : ι → SockAddr) (j : ι) : ProgramOp → Prop
  | .connect host _ => Other home j ⟨host,connectionPort⟩
  | _ => True

theorem Sociable.step (hs : Sociable home j h) {o : ProgramOp} (hfits : o.Fits)
    (ho : o.Joins home j) : Sociable home j (o.step h).1 := by
  refine ⟨hs.tidy.keeps hfits (keeps_step o h),?_⟩
  cases o with
  | searchfile calls search => exact hs.lists
  | download calls model row =>
    simp only [ProgramOp.step,clickedFilesearchDownload]
    cases (h.models model)[row]? with
    | none => exact hs.lists
    | some k => exact hs.lists
  | close req => exact hs.lists
  | timeout curt => exact hs.lists
  | rescan found => exact hs.lists
  | connect host now => exact hs.lists.newServlet ho
  | ping i now =>
    simp only [ProgramOp.step]
    cases h.servers.sockets[i]? with
    | none => exact hs.lists
    | some servlet => exact Servers.Lists.idlePinger (s:=⟨h.servers,[]⟩) hs.lists servlet

theorem Sociable.handles (hw : w.Plain home) (hs : Sociable home j h) {buffer : ℕ → UInt8}
    (ht : Telling home f) (hj : w.route f.dest = some j) {c : Calls} {acts : List Action}
    (ha : applyPacket g c (f.packet h buffer) h = .ok (h',acts)) : Sociable home j h' := by
  refine ⟨hs.tidy.becomes (applyPacket_becomes ha),?_⟩
  rw [applyPacket_servers ha]
  refine hs.lists.hear (fun hnews => ?_) fun a hnews => ?_
  · exact (ht.source hw hj (amongServers_of_news hnews)).2
  · have hamong := amongServers_of_news (o:=h.order) (p:=f.packet h buffer) (by simp [hnews])
    exact ht.tells h buffer a j hnews (ht.source hw hj hamong).1

end Datagrams

/-- In a network in which only these programs send, each has one address, and users connect to
other programs only: in whatever order they act and datagrams arrive or get lost, every active
or possible server of a program is another program, and every ping, search or answer about
servers is on its way from one program to another. -/
theorem closed_network_servers {ι : Type} [DecidableEq ι] (w : Wiring ι) (home : ι → SockAddr)
    (hw : w.Plain home) (g : PatternMatch) (s : Net ι) (hflights : s.flights = [])
    (hhosts : ∀ j h, s.host j = some h → Sociable home j h) (ops : List (PeerOp ι))
    (hops : ∀ j o, .program j o ∈ ops → o.Fits ∧ o.Joins home j) :
    (∀ j h, (s.peers w g ops).1.host j = some h →
      ∀ a, a ∈ h.servers.active ∨ a ∈ h.servers.possible → ∃ i ≠ j, a = home i) ∧
    ∀ f ∈ (s.peers w g ops).1.flights, ∀ h buffer,
      AmongServers (f.packet h buffer).packet.operation →
        ∃ i k, i ≠ k ∧ f.source = home i ∧ f.dest = home k := by
  have hrun := Net.peers_invariant (w:=w) (g:=g) (s:=s) (P:=Sociable home) (Q:=Telling home) ops
    hhosts (by simp [hflights]) ?_ ?_
  · refine ⟨fun j h hh a ha => ?_,fun f hf => (hrun.2 f hf).between⟩
    have hlists := (hrun.1 j h hh).lists
    exact ha.elim (hlists.active a) (hlists.possible a)
  · intro j o h ho hs
    exact ⟨hs.step (hops j o ho).1 (hops j o ho).2,fun f hsource hmem =>
      hs.starts hw (hops j o ho).1 hsource (starts_of_mem hmem)⟩
  · intro j f h h' buffer c acts hj hs ht ha
    exact ⟨hs.handles hw ht hj ha,fun f' hsource hmem =>
      hs.answers hw ht hj hsource (answers_of_mem ha hmem)⟩

theorem plain_triangle : triangleWiring.Plain addressOf where
  seen _ _ := rfl
  route i := show triangleWiring.route (addressOf i) = some i by decide +revert

theorem sociable_triangle : ∀ j h, triangle.host j = some h → Sociable addressOf j h := by
  intro j h hh
  refine ⟨tidy_triangle j h hh,?_⟩
  fin_cases j
  all_goals
    obtain rfl := Option.some_inj.mp hh
    exact ⟨⟨by decide,by decide⟩,by unfold Other; decide,by unfold Other; decide⟩

/-- The third program connects to the first, which pings another, gets the answer and pings the
next one. -/
def meeting (i j : Fin 3) : List (PeerOp (Fin 3)) :=
  [.program j (.connect (addressOf i).addr 40),.program i (.ping 0 40),
   .network (.deliver 0 noCalls),.network (.deliver 0 noCalls),.program i (.ping 1 45)]

/-- The second ping is in flight at the end. -/
theorem closed_network_servers_triangle :
    (triangle.peers triangleWiring sameName (meeting 0 2)).1.flights.length = 1 ∧
    (∀ j h, (triangle.peers triangleWiring sameName (meeting 0 2)).1.host j = some h →
      ∀ a, a ∈ h.servers.active ∨ a ∈ h.servers.possible → ∃ i ≠ j, a = addressOf i) ∧
    ∀ f ∈ (triangle.peers triangleWiring sameName (meeting 0 2)).1.flights, ∀ h buffer,
      AmongServers (f.packet h buffer).packet.operation →
        ∃ i k, i ≠ k ∧ f.source = addressOf i ∧ f.dest = addressOf k := by
  refine ⟨by decide +kernel,closed_network_servers triangleWiring addressOf plain_triangle
    sameName triangle rfl sociable_triangle (meeting 0 2) ?_⟩
  intro j o ho
  simp only [meeting,List.mem_cons,PeerOp.program.injEq,reduceCtorEq,List.not_mem_nil,false_or,
    or_false] at ho
  rcases ho with ⟨rfl,rfl⟩ | ⟨rfl,rfl⟩ | ⟨rfl,rfl⟩
  · exact ⟨trivial,0,by decide,rfl⟩
  · exact ⟨trivial,trivial⟩
  · exact ⟨trivial,trivial⟩

end Pingu
end MiscUniStuff
