import MiscUniStuff.PeerRuns

/-! What the datagrams and the rows of that network say is so: a row is about a file that the
program at its address serves or has served, a request is for the sum of such a file, and the
offer is for a file of that sum. -/
namespace MiscUniStuff
namespace Pingu
open ByteOrder

/-- The row is about a file of the program that its address leads to. -/
def RowTrue {ι : Type} (w : Wiring ι) (files : ι → List FileData) (k : FiledataResponse) : Prop :=
  ∃ j, w.route k.addr = some j ∧
    ∃ f ∈ files j, k.filename = f.fullfilename.bytes ∧ k.md5sum = f.md5sum

/-- What a packet that comes from `source` and goes to `dest` says is so: a reply tells of a file of
its sender, a request asks for one of its receiver, and an offer is for one of its sender. -/
structure SaysTrue {ι : Type} (w : Wiring ι) (files : ι → List FileData) (source dest : SockAddr)
    (p : FullPacket) : Prop where
  reply : p.packet.operation = replyFilesearch → ∃ j, w.route source = some j ∧
    ∃ f ∈ files j, p.data.drop 20 = f.fullfilename.bytes ∧ (p.data.drop 4).take 16 = f.md5sum
  want : p.packet.operation = requestWantfile → ∃ j, w.route dest = some j ∧
    ∃ f ∈ files j, p.data = f.md5sum
  offer : p.packet.operation = replyTransferwaiting → ∃ j, w.route source = some j ∧
    ∃ f ∈ files j, ∃ port : InPort,
      p.data = [0,0,0,0] ++ port.bytes ++ f.md5sum ++ f.filename.bytes

/-- What is read of an offer. -/
theorem packet_offer {f : Flight} {o : Order} {n : UInt16} {port : InPort} {junk : ℕ → UInt8}
    {filename : CString} {md5sum : List UInt8} (hname : filename.strlen ≤ 65513)
    (hsum : md5sum.length = 16) (hf : f.datagram.bytes = sendPacket o
      (fillinPacket o replyTransferwaiting
        (UInt16.ofNat (transferPayload port junk filename md5sum).length) n)
      (transferPayload port junk filename md5sum)) (h : Host) (buffer : ℕ → UInt8) :
    (f.packet h buffer).packet.operation = replyTransferwaiting ∧
      (f.packet h buffer).data = [0,0,0,0] ++ port.bytes ++ md5sum ++ filename.bytes := by
  have hlen := length_transferPayload port junk filename hsum
  have hcount : (transferPayload port junk filename md5sum).length =
      (UInt16.ofNat (transferPayload port junk filename md5sum).length).toNat := by
    rw [UInt16.toNat_ofNat_of_lt' (by simp only [UInt16.size]; omega)]
  obtain ⟨-,hop,hdata⟩ := Flight.packet_sent
    (q:=fillinPacket o replyTransferwaiting _ n) hcount hf h buffer
  exact ⟨hop,hdata.trans (transferPayload_eq port junk filename hsum)⟩

section Truth
variable {ι : Type} {w : Wiring ι} {files : ι → List FileData} {source dest : SockAddr}
  {p q : FullPacket}

/-- Packets of the other operations say nothing. -/
theorem saysTrue_other (hreply : p.packet.operation ≠ replyFilesearch)
    (hwant : p.packet.operation ≠ requestWantfile)
    (hoffer : p.packet.operation ≠ replyTransferwaiting) : SaysTrue w files source dest p :=
  ⟨fun h => absurd h hreply,fun h => absurd h hwant,fun h => absurd h hoffer⟩

/-- The program serves no other files, and its rows are true. -/
structure Honest (w : Wiring ι) (files : ι → List FileData) (j : ι) (h : Host) : Prop where
  tidy : Tidy h
  database : h.database ⊆ files j
  rows : ∀ model, ∀ k ∈ h.models model, RowTrue w files k

/-- The datagram is proper and says what is so, whoever reads it. -/
structure Sound (w : Wiring ι) (files : ι → List FileData) (f : Flight) : Prop where
  proper : Proper f.datagram.bytes
  true : ∀ h buffer, SaysTrue w files f.source f.dest (f.packet h buffer)

variable {g : PatternMatch} {j : ι} {h h' : Host} {f f' : Flight}

/-- A scan finds no other files. -/
def ProgramOp.Finds (files : List FileData) : ProgramOp → Prop
  | .rescan found => found ⊆ files
  | _ => True

theorem Honest.keeps {o : ProgramOp} (hh : Honest w files j h) (ho : o.Fits)
    (hfinds : o.Finds (files j)) (hk : Keeps o h h') : Honest w files j h' where
  tidy := hh.tidy.keeps ho hk
  database := by
    rw [hk.database]
    cases o with
    | rescan found => exact hfinds
    | _ => exact hh.database
  rows model k hmem := hh.rows model k (hk.rows model k hmem)

/-- A row that is made of a true reply is true. -/
theorem Honest.becomes (hh : Honest w files j h) {buffer : ℕ → UInt8} (hf : Sound w files f)
    (hb : Becomes (f.packet h buffer) h h') : Honest w files j h' where
  tidy := hh.tidy.becomes hb
  database := hb.database ▸ hh.database
  rows := by
    intro model k hk
    rcases hb.rows model k hk with hold | ⟨hop,-,rfl⟩
    · exact hh.rows model k hold
    · obtain ⟨i,hroute,file,hfile,hname,hsum⟩ := (hf.true h buffer).reply hop
      exact ⟨i,hroute,file,hfile,hname,hsum⟩

/-- What is read of a datagram of an operation that says nothing. -/
theorem sound_other {o : Order} {operation : UInt8} {datalen request : UInt16} {d : List UInt8}
    (hproper : Proper f.datagram.bytes) (hd : d.length = datalen.toNat)
    (hf : f.datagram.bytes = sendPacket o (fillinPacket o operation datalen request) d)
    (hreply : operation ≠ replyFilesearch) (hwant : operation ≠ requestWantfile)
    (hoffer : operation ≠ replyTransferwaiting) : Sound w files f := by
  refine ⟨hproper,fun h buffer => ?_⟩
  have hop : (f.packet h buffer).packet.operation = operation :=
    (Flight.packet_sent (q:=fillinPacket o operation datalen request) hd hf h buffer).2.1
  apply saysTrue_other
  · rw [hop]
    exact hreply
  · rw [hop]
    exact hwant
  · rw [hop]
    exact hoffer

theorem Honest.answers (hw : w.Direct) (hh : Honest w files j h) {buffer : ℕ → UInt8}
    (hf : Sound w files f) (hsource : f'.source = w.seen j f'.dest)
    (ha : Answers g h (f.packet h buffer) f'.dest f'.datagram.bytes) : Sound w files f' := by
  have hread := hf.proper.packet h buffer
  have hproper := hh.tidy.answers hread.1 ha
  have hback : w.route f'.source = some j := by rw [hsource,hw.back]
  generalize hbytes : f'.datagram.bytes = bytes at ha
  generalize hdest : f'.dest = dest at ha
  cases ha with
  | server => exact sound_other hproper rfl hbytes (by decide) (by decide) (by decide)
  | noServers => exact sound_other hproper (by simp) hbytes (by decide) (by decide) (by decide)
  | @file file hop hp hfile =>
    have hmem := List.mem_of_mem_filter hfile
    have hname := (hh.tidy.names file hmem).1
    refine ⟨hproper,fun h₁ buffer₁ => ?_⟩
    obtain ⟨-,hreply,hdata⟩ := packet_reply hbytes h₁ buffer₁
    have hlen : file.fullfilename.strlen < 65516 := by omega
    have hfields := responseOf_sentDetails (o:=h.order) (h:=h) hlen f'.source
    constructor
    · intro _
      rw [hdata]
      exact ⟨j,hback,file,hh.database hmem,hfields⟩
    · intro hwant
      rw [hreply] at hwant
      exact absurd hwant (by decide)
    · intro hoffer
      rw [hreply] at hoffer
      exact absurd hoffer (by decide)
  | copy hop hp hforward =>
    refine ⟨hproper,fun h₁ buffer₁ => ?_⟩
    have hcopy := (Flight.packet_sent (FullPacket.length_forwardData hp) hbytes h₁ buffer₁).2.1
    have hsearch : (f'.packet h₁ buffer₁).packet.operation = requestFilesearch := hcopy.trans hop
    exact saysTrue_other (by rw [hsearch]; decide) (by rw [hsearch]; decide)
      (by rw [hsearch]; decide)
  | @offer file port junk hop hp hfile =>
    have hmem := List.mem_of_find?_eq_some hfile
    have hname := (hh.tidy.names file hmem).2
    refine ⟨hproper,fun h₁ buffer₁ => ?_⟩
    obtain ⟨hoffer,hdata⟩ := packet_offer hname file.md5_length hbytes h₁ buffer₁
    constructor
    · intro hreply
      rw [hoffer] at hreply
      exact absurd hreply (by decide)
    · intro hwant
      rw [hoffer] at hwant
      exact absurd hwant (by decide)
    · intro _
      exact ⟨j,hback,file,hh.database hmem,port,hdata⟩

theorem Honest.starts (hh : Honest w files j h) {o : ProgramOp} (ho : o.Fits)
    (hs : Starts h o f.dest f.datagram.bytes) : Sound w files f := by
  have hproper := hh.tidy.starts ho hs
  generalize hbytes : f.datagram.bytes = bytes at hs
  generalize hdest : f.dest = dest at hs
  cases hs with
  | ping => exact sound_other hproper rfl hbytes (by decide) (by decide) (by decide)
  | @search calls search dest hknown =>
    have hlen := length_searchPayload h.order calls.junk search
    simp only [ProgramOp.Fits] at ho
    refine sound_other hproper ?_ hbytes (by decide) (by decide) (by decide)
    rw [hlen,UInt16.toNat_ofNat_of_lt' (by simp only [UInt16.size]; omega)]
  | @want calls model row k hk =>
    have hmem := List.mem_of_getElem? hk
    obtain ⟨i,hroute,file,hfile,-,hsum⟩ := hh.rows model k hmem
    refine ⟨hproper,fun h₁ buffer => ?_⟩
    obtain ⟨-,hwant,hdata⟩ := Flight.packet_sent
      (q:=fillinPacket h.order requestWantfile 16 h.requests.found) (hh.tidy.rows model k hmem)
      hbytes h₁ buffer
    have hop : (f.packet h₁ buffer).packet.operation = requestWantfile := hwant
    constructor
    · intro hreply
      rw [hop] at hreply
      exact absurd hreply (by decide)
    · intro _
      rw [hdest,hdata]
      exact ⟨i,hroute,file,hfile,hsum⟩
    · intro hoffer
      rw [hop] at hoffer
      exact absurd hoffer (by decide)

/-! ### What a program makes of such a packet -/

/-- A request for one of these files is answered with an offer of the first file of that sum
that there is now, on the port that has been opened for it, and that file is uploaded. When
there is none any more, it is not answered. -/
structure Serves (g : PatternMatch) (files : List FileData) (h : Host) (p : FullPacket) :
    Prop where
  asked : ∃ f ∈ files, p.data = f.md5sum
  offered : ∀ f, h.database.find? (fun f => f.md5sum = p.data) = some f → ∀ c port,
    c.opened = true → c.listenport = some port → applyPacket g c p h =
      .ok (h,[downloadSendFileReply h p port c.junk f.filename f.md5sum,
        .downloadPool (some f.fullfilename)])
  gone : (∀ f ∈ h.database, f.md5sum ≠ p.data) → ∀ c, applyPacket g c p h = .ok (h,[])

/-- An offer of one of these files is followed to the port that it names, and what comes from
there is stored under the name of a file with the sum that it names. -/
def Follows (g : PatternMatch) (files : List FileData) (h : Host) (p : FullPacket) : Prop :=
  ∃ f ∈ files, (p.data.drop 6).take 16 = f.md5sum ∧
    p.fullfile = downloadDirectory ++ f.filename.bytes ∧
    ∀ c, c.socketed → c.connected → c.created → applyPacket g c p h =
      .ok (h,[.connect ⟨p.addr.addr,p.port⟩,.creat p.fullfile,.uploadPool])

theorem SaysTrue.serves (hacc : Accepted h.order p) (hop : p.packet.operation = requestWantfile)
    (ht : SaysTrue w files source dest p) (hj : w.route dest = some j) :
    Serves g (files j) h p := by
  obtain ⟨i,hi,file,hfile,hdata⟩ := ht.want hop
  rw [hj,Option.some.injEq] at hi
  subst i
  have hlen : p.data.length = 16 := by rw [hdata,file.md5_length]
  have htake : p.data.take 16 = p.data := List.take_of_length_le hlen.le
  refine ⟨⟨file,hfile,hdata⟩,fun f hfound c port hopen hport => ?_,fun hgone c => ?_⟩
  · have hsum : f.md5sum = p.data := by simpa using List.find?_some hfound
    rw [applyPacket_wantfile hacc hop,getRequestWantfile_eq hlen.ge,htake,hfound]
    simp only [downloadSendFile_eq hopen hport hlen.ge,htake,hsum]
    rfl
  · have hnone : h.database.find? (fun f => f.md5sum = p.data) = none := by
      simpa [List.find?_eq_none] using hgone
    rw [applyPacket_wantfile hacc hop,getRequestWantfile_eq hlen.ge,htake,hnone]
    rfl

theorem SaysTrue.follows (hacc : Accepted h.order p)
    (hop : p.packet.operation = replyTransferwaiting) (ht : SaysTrue w files source dest p) :
    ∃ i, w.route source = some i ∧ Follows g (files i) h p := by
  obtain ⟨i,hi,file,hfile,port,hdata⟩ := ht.offer hop
  have hsum := file.md5_length
  have hlen : 22 ≤ p.data.length := by
    rw [hdata]
    simp only [List.length_append,List.length_cons,List.length_nil,InPort.bytes,hsum]
    omega
  have hfield : (p.data.drop 6).take 16 = file.md5sum := by
    rw [hdata,List.append_assoc,List.drop_left' (by rfl),List.take_left' hsum]
  have hname : p.data.drop 22 = file.filename.bytes := by
    rw [hdata,List.drop_left' (by simp [InPort.bytes,hsum])]
  refine ⟨i,hi,file,hfile,hfield,?_,?_⟩
  · rw [FullPacket.fullfile,hname,cstring_bytes]
  · intro c hs hc hcr
    rw [applyPacket_transfer hacc hop,downloadReplyTransferwaiting_eq hlen]
    simp only [hs,hc,hcr,not_true_eq_false,if_false]
    rfl

/-! ### The network -/

variable [DecidableEq ι] {s : Net ι} {ops : List (PeerOp ι)}

theorem truth_run (hw : w.Direct) (hflights : s.flights = [])
    (hhosts : ∀ j h, s.host j = some h → Honest w files j h)
    (hops : ∀ j o, .program j o ∈ ops → o.Fits ∧ o.Finds (files j)) :
    (∀ j h, (s.peers w g ops).1.host j = some h → Honest w files j h) ∧
      ∀ f ∈ (s.peers w g ops).1.flights, Sound w files f := by
  refine Net.peers_invariant ops hhosts (by simp [hflights]) ?_ ?_
  · intro j o h hmem hh
    obtain ⟨hfits,hfinds⟩ := hops j o hmem
    exact ⟨hh.keeps hfits hfinds (keeps_step o h),fun f _ hsend =>
      hh.starts hfits (starts_of_mem hsend)⟩
  · intro j f h h' buffer c acts _ hh hf ha
    exact ⟨hh.becomes hf (applyPacket_becomes ha),fun f' hsource hsend =>
      hh.answers hw hf hsource (answers_of_mem ha hsend)⟩

/-- A network in which only these programs send, without translation of addresses, and whose
programs never serve other files than `files`: whatever they do and in whatever order datagrams
arrive or get lost, every row of a result list is about such a file of the program at its
address, a request that arrives is for the sum of such a file of the program that gets it, and
an offer that arrives is of such a file of the program that it comes from. -/
theorem closed_network_truth (w : Wiring ι) (hw : w.Direct) (g : PatternMatch)
    (files : ι → List FileData) (s : Net ι) (hflights : s.flights = [])
    (hhosts : ∀ j h, s.host j = some h → Honest w files j h) (ops : List (PeerOp ι))
    (hops : ∀ j o, .program j o ∈ ops → o.Fits ∧ o.Finds (files j)) :
    (∀ j h, (s.peers w g ops).1.host j = some h →
      ∀ model, ∀ k ∈ h.models model, RowTrue w files k) ∧
    ∀ f ∈ (s.peers w g ops).1.flights, ∀ j h buffer, w.route f.dest = some j →
      (s.peers w g ops).1.host j = some h →
      ((f.packet h buffer).packet.operation = requestWantfile →
        Serves g (files j) h (f.packet h buffer)) ∧
      ((f.packet h buffer).packet.operation = replyTransferwaiting →
        ∃ i, w.route f.source = some i ∧ Follows g (files i) h (f.packet h buffer)) := by
  obtain ⟨hhonest,hsound⟩ := truth_run (g:=g) hw hflights hhosts hops
  refine ⟨fun j h hh => (hhonest j h hh).rows,fun f hf j h buffer hj hh => ?_⟩
  have hread := (hsound f hf).proper.packet h buffer
  have hsays := (hsound f hf).true h buffer
  exact ⟨fun hop => hsays.serves hread.1 hop hj,
    fun hop => hsays.follows hread.1 hop⟩

end Truth

theorem database_triangle (j : Fin 3) (h : Host) (hh : triangle.host j = some h) :
    h.database = if j = 2 then [someFile] else [] := by
  fin_cases j
  all_goals
    obtain rfl := Option.some_inj.mp hh
    rfl

theorem honest_triangle : ∀ j h, triangle.host j = some h →
    Honest triangleWiring (fun j => if j = 2 then [someFile] else []) j h :=
  fun j h hh => ⟨tidy_triangle j h hh,fun _ hf => database_triangle j h hh ▸ hf,
    fun model k hk => by simp [models_triangle j h hh] at hk⟩

theorem errand_finds {c : Calls} {i j : Fin 3} {o : ProgramOp} (h : .program j o ∈ errand c i)
    (files : List FileData) : o.Finds files := by
  rcases mem_errand h with rfl | rfl
  · trivial
  · trivial

theorem closed_network_truth_triangle :
    (∀ j h, (triangle.peers triangleWiring sameName (errand noCalls 0)).1.host j = some h → ∀ model,
      ∀ k ∈ h.models model, RowTrue triangleWiring (fun j => if j = 2 then [someFile] else []) k) ∧
    ∀ f ∈ (triangle.peers triangleWiring sameName (errand noCalls 0)).1.flights, ∀ j h buffer,
      triangleWiring.route f.dest = some j →
      (triangle.peers triangleWiring sameName (errand noCalls 0)).1.host j = some h →
      ((f.packet h buffer).packet.operation = requestWantfile →
        Serves sameName (if j = 2 then [someFile] else []) h (f.packet h buffer)) ∧
      ((f.packet h buffer).packet.operation = replyTransferwaiting →
        ∃ i, triangleWiring.route f.source = some i ∧
          Follows sameName (if i = 2 then [someFile] else []) h (f.packet h buffer)) :=
  closed_network_truth triangleWiring direct_triangle sameName _ triangle rfl honest_triangle
    (errand noCalls 0) fun j o h => ⟨errand_fits noCalls 0 j o h,errand_finds h _⟩

end Pingu
end MiscUniStuff
