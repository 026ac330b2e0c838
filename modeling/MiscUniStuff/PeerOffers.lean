import MiscUniStuff.PeerSharing

/-! The offers in that network: each has a socket of its own, on which the file that it is of is
listened for. -/
namespace MiscUniStuff
namespace Pingu
open ByteOrder

/-! ### Datagrams, whoever reads them -/

/-- The datagram as a program reads it; if it is proper, it is the same to all of them. -/
def Flight.reads (f : Flight) : FullPacket := f.packet (.initial .little []) fun _ => 0

/-- It is an offer of a file on that port. -/
def Flight.Offers (f : Flight) (port : InPort) : Prop :=
  f.reads.packet.operation = replyTransferwaiting ∧ f.reads.port = port

/-- It neither asks for a file nor offers one. -/
def Flight.Quiet (f : Flight) : Prop :=
  f.reads.packet.operation ≠ requestWantfile ∧ f.reads.packet.operation ≠ replyTransferwaiting

theorem Flight.Quiet.offers {f : Flight} (hf : f.Quiet) (port : InPort) : ¬f.Offers port :=
  fun h => hf.2 h.1

section Datagrams
variable {f : Flight} {g : PatternMatch} {h : Host} {p : FullPacket}

theorem Proper.reads (hf : Proper f.datagram.bytes) (h : Host) (buffer : ℕ → UInt8) :
    (f.packet h buffer).packet.operation = f.reads.packet.operation ∧
      (f.packet h buffer).data = f.reads.data := by
  obtain ⟨o,q,d,hs,hbytes,hd,-,-⟩ := hf
  obtain ⟨-,hop,hdata⟩ := Flight.packet_sent hd hbytes h buffer
  obtain ⟨-,hop',hdata'⟩ := Flight.packet_sent hd hbytes (.initial .little []) fun _ => 0
  exact ⟨hop.trans hop'.symm,hdata.trans hdata'.symm⟩

/-- So is the port that is cut out of the payload. -/
theorem port_congr {q : FullPacket} (hdata : p.data = q.data) : p.port = q.port := by
  rw [FullPacket.port,hdata,FullPacket.port]

theorem quiet_other {o : Order} {operation : UInt8} {datalen request : UInt16} {d : List UInt8}
    (hd : d.length = datalen.toNat)
    (hf : f.datagram.bytes = sendPacket o (fillinPacket o operation datalen request) d)
    (hwant : operation ≠ requestWantfile) (hoffer : operation ≠ replyTransferwaiting) :
    f.Quiet := by
  have hop : f.reads.packet.operation = operation := (Flight.packet_sent
    (q:=fillinPacket o operation datalen request) hd hf (.initial .little []) fun _ => 0).2.1
  constructor
  · rw [hop]
    exact hwant
  · rw [hop]
    exact hoffer

/-- Only a request for a file is answered with an offer. -/
theorem Answers.quiet (hop : p.packet.operation ≠ requestWantfile)
    (ha : Answers g h p f.dest f.datagram.bytes) : f.Quiet := by
  generalize hbytes : f.datagram.bytes = bytes at ha
  generalize f.dest = dest at ha
  cases ha with
  | server => exact quiet_other rfl hbytes (by decide) (by decide)
  | noServers => exact quiet_other (by simp) hbytes (by decide) (by decide)
  | file hsearch hp hfile =>
    have hreply : f.reads.packet.operation = replyFilesearch :=
      (packet_reply hbytes (.initial .little []) fun _ => 0).2.1
    constructor
    · rw [hreply]
      decide
    · rw [hreply]
      decide
  | copy hsearch hp hdest =>
    have hcopy : f.reads.packet.operation = p.packet.operation := (Flight.packet_sent
      (FullPacket.length_forwardData hp) hbytes (.initial .little []) fun _ => 0).2.1
    constructor
    · rw [hcopy]
      exact hop
    · rw [hcopy,hsearch]
      decide
  | offer hwant => exact absurd hwant hop

/-- Only for a click on a row a program asks for a file. -/
theorem Starts.quiet {o : ProgramOp} (ho : o.Fits) (hs : Starts h o f.dest f.datagram.bytes) :
    f.Quiet ∨ ∃ calls model row k, o = .download calls model row ∧
      (h.models model)[row]? = some k ∧ f.dest = k.addr ∧
      f.datagram.bytes = sendPacket h.order
        (fillinPacket h.order requestWantfile 16 h.requests.found) k.md5sum := by
  generalize hbytes : f.datagram.bytes = bytes at hs
  generalize hdest : f.dest = dest at hs
  cases hs with
  | ping => exact Or.inl (quiet_other rfl hbytes (by decide) (by decide))
  | @search calls search dest hknown =>
    have hlen := length_searchPayload h.order calls.junk search
    simp only [ProgramOp.Fits] at ho
    refine Or.inl (quiet_other ?_ hbytes (by decide) (by decide))
    rw [hlen,UInt16.toNat_ofNat_of_lt' (by simp only [UInt16.size]; omega)]
  | @want calls model row k hk => exact Or.inr ⟨calls,model,row,k,rfl,hk,rfl,rfl⟩

end Datagrams

/-! ### Sockets after a packet has been handled -/

section Sockets
variable {ι : Type} [DecidableEq ι] {w : Wiring ι} {g : PatternMatch} {j : ι} {c : Calls}
  {p : FullPacket} {acts : List Action} {listening : ι → InPort → Option CString}

theorem after_sends (h : ∀ a ∈ acts, ∃ dest bytes, a = .sendto dest bytes) :
    acts.foldl (afterAction w j c) listening = listening := by
  induction acts with
  | nil => rfl
  | cons a acts ih =>
    obtain ⟨dest,bytes,rfl⟩ := h a List.mem_cons_self
    exact ih fun b hb => h b (List.mem_cons_of_mem _ hb)

/-- A connection takes away the socket that it reaches, and no other. -/
theorem after_connect (w : Wiring ι) (j : ι) (c : Calls) (listening : ι → InPort → Option CString)
    (ad : SockAddr) (i : ι) (port : InPort) :
    afterAction w j c listening (.connect ad) i port = listening i port ∨
      afterAction w j c listening (.connect ad) i port = none ∧
        w.route ⟨ad.addr,connectionPort⟩ = some i ∧ port = ad.port := by
  simp only [afterAction]
  cases hi' : w.route ⟨ad.addr,connectionPort⟩ with
  | none => exact Or.inl rfl
  | some i' =>
    by_cases hc : c.connected = true
    · simp only [if_pos hc]
      by_cases hi : i = i'
      · subst i'
        by_cases hport : port = ad.port
        · exact Or.inr ⟨by simp [hport],rfl,hport⟩
        · exact Or.inl (by simp [hport])
      · exact Or.inl (by simp [hi])
    · simp only [if_neg hc]
      exact Or.inl trivial

theorem after_offer (w : Wiring ι) (j : ι) (listening : ι → InPort → Option CString)
    (hp : 22 ≤ p.data.length) (hr : downloadReplyTransferwaiting c p = .ok acts)
    (i : ι) (port : InPort) :
    acts.foldl (afterAction w j c) listening i port = listening i port ∨
      acts.foldl (afterAction w j c) listening i port = none ∧
        w.route ⟨p.addr.addr,connectionPort⟩ = some i ∧ port = p.port := by
  have hconnect := after_connect w j c listening ⟨p.addr.addr,p.port⟩ i port
  rw [downloadReplyTransferwaiting_eq hp,Except.ok.injEq] at hr
  subst acts
  split_ifs
  · exact hconnect
  · exact hconnect
  · exact hconnect
  · exact Or.inl rfl

/-- An upload gets the port that has been found for it. -/
theorem after_upload {a : Action} {fullfilename : CString} {port : InPort}
    (ha : ∃ dest bytes, a = .sendto dest bytes) (hport : c.listenport = some port) :
    [a,.downloadPool (some fullfilename)].foldl (afterAction w j c) listening =
      Function.update listening j (Function.update (listening j) port (some fullfilename)) := by
  obtain ⟨dest,bytes,rfl⟩ := ha
  simp only [List.foldl_cons,List.foldl_nil,afterAction,hport]

def Action.isSendto : Action → Bool
  | .sendto _ _ => true
  | _ => false

omit [DecidableEq ι] in
/-- No more datagrams are launched than are sent. -/
theorem length_launch_le (t : Trace) (found : List FileData) (acts : List Action) :
    (launch w j (follow t found acts)).length ≤ acts.countP Action.isSendto := by
  have hmap : acts.countP Action.isSendto =
      (follow t found acts).countP (Action.isSendto ∘ Prod.fst) := by
    rw [← List.countP_map,follow_map_fst]
  rw [hmap,launch,List.length_filterMap_eq_countP]
  refine List.countP_mono_left fun a _ ha => ?_
  obtain ⟨a,t'⟩ := a
  cases a with
  | sendto dest bytes => rfl
  | _ => cases ha

end Sockets

/-! ### Every offer has a socket of its own -/

/-- Offers of one program are on different ports. -/
def OwnPorts {ι : Type} (w : Wiring ι) (f f' : Flight) : Prop :=
  ∀ port, f.Offers port → f'.Offers port → w.route f.source ≠ w.route f'.source

theorem OwnPorts.symm {ι : Type} {w : Wiring ι} {f f' : Flight} (h : OwnPorts w f f') :
    OwnPorts w f' f :=
  fun port hf' hf => (h port hf hf').symm

/-- On each port that is offered by a running program, the file of the offer is listened on. -/
structure Offering {ι : Type} (w : Wiring ι) (files : ι → List FileData) (s : Sharing ι) :
    Prop where
  source : ∀ f ∈ s.net.flights, ∃ i, f.source = w.seen i f.dest
  listens : ∀ f ∈ s.net.flights, ∀ i port, f.Offers port → w.route f.source = some i →
    s.net.host i ≠ none → ∃ file ∈ files i, s.listening i port = some file.fullfilename ∧
      f.reads.data = [0,0,0,0] ++ port.bytes ++ file.md5sum ++ file.filename.bytes
  apart : s.net.flights.Pairwise (OwnPorts w)
  dead : ∀ i port, s.net.host i = none → s.listening i port = none

section Steps
variable {ι : Type} [DecidableEq ι] {w : Wiring ι} {g : PatternMatch} {files : ι → List FileData}
  {s s' : Sharing ι} {l new : List Flight} {i : ℕ} {c : Calls} {f f' : Flight} {j : ι} {h h' : Host}
  {acts : List Action}

omit [DecidableEq ι] in
/-- It is so as long as no offer is added and the sockets of the offers that stay are kept. -/
theorem Offering.keep (hs : Offering w files s) (hl : l.Sublist s.net.flights)
    (hflights : s'.net.flights = l ++ new)
    (hnew : ∀ f ∈ new, (∃ i, f.source = w.seen i f.dest) ∧ ∀ port, ¬f.Offers port)
    (hentry : ∀ f ∈ l, ∀ i port, f.Offers port → w.route f.source = some i →
      s'.net.host i ≠ none → s.net.host i ≠ none ∧ s'.listening i port = s.listening i port)
    (hdead : ∀ i port, s'.net.host i = none → s'.listening i port = none) :
    Offering w files s' where
  source := by
    intro f hf
    rw [hflights] at hf
    rcases List.mem_append.mp hf with hold | hadded
    · exact hs.source f (hl.subset hold)
    · exact (hnew f hadded).1
  listens := by
    intro f hf i port hoffer hroute hrun
    rw [hflights] at hf
    rcases List.mem_append.mp hf with hold | hadded
    · obtain ⟨hran,hsame⟩ := hentry f hold i port hoffer hroute hrun
      rw [hsame]
      exact hs.listens f (hl.subset hold) i port hoffer hroute hran
    · exact absurd hoffer ((hnew f hadded).2 port)
  apart := by
    rw [hflights]
    refine List.pairwise_append.mpr ⟨hs.apart.sublist hl,?_,?_⟩
    · exact List.pairwise_of_forall_mem_list fun f hf _ _ port hoffer _ =>
        absurd hoffer ((hnew f hf).2 port)
    · exact fun _ _ f hf port _ hoffer => absurd hoffer ((hnew f hf).2 port)
  dead := hdead

/-- A program that goes on is still there. -/
theorem host_update_none {host : ι → Option Host} (hh : host j = some h) {i : ι} :
    Function.update host j (some h') i = none ↔ host i = none := by
  by_cases hi : i = j
  · subst i
    simp [hh]
  · simp [Function.update_of_ne hi]

theorem Offering.acted (hs : Offering w files s) {o : ProgramOp} (ho : o.Fits)
    (hh : s.net.host j = some h) (htidy : Tidy h) : Offering w files
      ⟨{ s.net with
          host := Function.update s.net.host j (some (o.step h).1)
          flights := s.net.flights ++ launch w j (follow .other [] (o.step h).2) },
        s.listening⟩ := by
  refine hs.keep (List.Sublist.refl _) rfl ?_ ?_ ?_
  · intro f hf
    obtain ⟨hsource,hmem⟩ := mem_launch_other hf
    refine ⟨⟨j,hsource⟩,fun port => ?_⟩
    rcases (starts_of_mem hmem).quiet ho with hquiet | ⟨calls,model,row,k,-,hk,-,hbytes⟩
    · exact hquiet.offers port
    · have hwant : f.reads.packet.operation = requestWantfile := (Flight.packet_sent
        (q:=fillinPacket h.order requestWantfile 16 h.requests.found)
        (htidy.rows model k (List.mem_of_getElem? hk)) hbytes (.initial .little []) fun _ => 0).2.1
      rintro ⟨hoffer,-⟩
      rw [hwant] at hoffer
      exact absurd hoffer (by decide)
  · intro f _ i port _ _ hrun
    exact ⟨fun hnone => hrun ((host_update_none hh).mpr hnone),rfl⟩
  · exact fun i port hnone => hs.dead i port ((host_update_none hh).mp hnone)

omit [DecidableEq ι] in
theorem Offering.lost (hs : Offering w files s) (i : ℕ) : Offering w files
    ⟨{ s.net with flights := Bags.exchange s.net.flights i [] },s.listening⟩ :=
  hs.keep (List.eraseIdx_sublist _ i) rfl (by simp) (fun _ _ _ _ _ _ hrun => ⟨hrun,rfl⟩) hs.dead

theorem Offering.crashed (hs : Offering w files s) (i : ℕ) (j : ι) (buffer : ι → ℕ → UInt8) :
    Offering w files ⟨{
        host := Function.update s.net.host j none
        buffer := buffer
        flights := Bags.exchange s.net.flights i [] },
      Function.update s.listening j fun _ => none⟩ := by
  refine hs.keep (List.eraseIdx_sublist _ i) rfl (by simp) ?_ ?_
  · intro f _ i' port _ _ hrun
    have hne : i' ≠ j := by
      rintro rfl
      exact hrun (Function.update_self _ _ _)
    exact ⟨by simpa [hne] using hrun,by simp [hne]⟩
  · intro i' port hnone
    by_cases hi : i' = j
    · subst i'
      simp
    · simp only [Function.update_of_ne hi] at hnone ⊢
      exact hs.dead i' port hnone

/-- The handler of any other operation leaves the sockets as they are. -/
theorem Offering.other (hs : Offering w files s) (hh : s.net.host j = some h)
    (buffer : ι → ℕ → UInt8)
    {p : FullPacket} (hwant : p.packet.operation ≠ requestWantfile)
    (hoffer : p.packet.operation ≠ replyTransferwaiting) {t : Trace} {found : List FileData}
    (ha : applyPacket g (s.calls w j p c) p h = .ok (h',acts)) : Offering w files
      ⟨{ host := Function.update s.net.host j (some h')
         buffer := buffer
         flights := Bags.exchange s.net.flights i (launch w j (follow t found acts)) },
        acts.foldl (afterAction w j (s.calls w j p c)) s.listening⟩ := by
  rw [after_sends (applyPacket_sends hwant hoffer ha)]
  refine hs.keep (List.eraseIdx_sublist _ i) rfl ?_ ?_ ?_
  · intro f hf
    obtain ⟨hsource,hmem⟩ := mem_launch_follow hf
    exact ⟨⟨j,hsource⟩,((answers_of_mem ha hmem).quiet hwant).offers⟩
  · intro f _ i' port _ _ hrun
    exact ⟨fun hnone => hrun ((host_update_none hh).mpr hnone),rfl⟩
  · exact fun i' port hnone => hs.dead i' port ((host_update_none hh).mp hnone)

omit [DecidableEq ι] in
/-- The others in flight are apart from one of them. -/
theorem Offering.apart_eraseIdx (hs : Offering w files s) (hf : s.net.flights[i]? = some f) :
    ∀ f' ∈ s.net.flights.eraseIdx i, OwnPorts w f f' := by
  have hcons := (Bags.perm_cons_eraseIdx hf).pairwise hs.apart fun h => h.symm
  exact (List.pairwise_cons.mp hcons).1

/-- The handler of an offer takes away its socket at most. -/
theorem Offering.followed (hs : Offering w files s) (hw : w.Direct)
    (hf : s.net.flights[i]? = some f)
    (hproper : Proper f.datagram.bytes) (hh : s.net.host j = some h) (buffer : ι → ℕ → UInt8)
    (hoffer : (f.packet h (s.net.buffer j)).packet.operation = replyTransferwaiting)
    {t : Trace} {found : List FileData} (ha : applyPacket g
      (s.calls w j (f.packet h (s.net.buffer j)) c) (f.packet h (s.net.buffer j)) h =
        .ok (h',acts)) :
    Offering w files
      ⟨{ host := Function.update s.net.host j (some h')
         buffer := buffer
         flights := Bags.exchange s.net.flights i (launch w j (follow t found acts)) },
        acts.foldl (afterAction w j (s.calls w j (f.packet h (s.net.buffer j)) c))
          s.listening⟩ := by
  have hmem := List.mem_of_getElem? hf
  have hreads := hproper.reads h (s.net.buffer j)
  have hread := hproper.packet h (s.net.buffer j)
  rw [applyPacket_transfer hread.1 hoffer] at ha
  obtain ⟨made,hmade,heq⟩ := map_eq_ok.mp ha
  cases heq
  have hlen : 22 ≤ (f.packet h (s.net.buffer j)).data.length := by
    simpa [shortest,hoffer,requestFilesearch,requestWantfile,replyTransferwaiting] using hread.2
  have hafter := after_offer w j s.listening hlen hmade
  obtain ⟨i₀,hsource⟩ := hs.source f hmem
  have hplace : w.route ⟨f.source.addr,connectionPort⟩ = w.route f.source := by
    rw [hsource,← hw.port i₀ f.dest]
  have haddr : (f.packet h (s.net.buffer j)).addr = f.source := rfl
  rw [haddr,hplace,port_congr hreads.2] at hafter
  refine hs.keep (List.eraseIdx_sublist _ i) rfl ?_ ?_ ?_
  · intro f' hf'
    obtain ⟨hsource,hsent⟩ := mem_launch_follow hf'
    exact absurd hsent (downloadReplyTransferwaiting_sends hmade)
  · intro f' hf' i' port hoffer' hroute hrun
    refine ⟨fun hnone => hrun ((host_update_none hh).mpr hnone),?_⟩
    rcases hafter i' port with hsame | ⟨-,hto,hport⟩
    · exact hsame
    · -- another offer on that port would not be apart from this one
      have hthis : f.Offers port := ⟨hreads.1.symm.trans hoffer,hport.symm⟩
      exact absurd (hto.trans hroute.symm) (hs.apart_eraseIdx hf f' hf' port hthis hoffer')
  · intro i' port hnone
    have hdead := hs.dead i' port ((host_update_none hh).mp hnone)
    rcases hafter i' port with hsame | ⟨hgone,-,-⟩
    · exact hsame.trans hdead
    · exact hgone

omit [DecidableEq ι] in
/-- What is launched when an offer is made. -/
theorem launched_offer {p : FullPacket} {port : InPort} {junk : ℕ → UInt8} {file : FileData}
    {t : Trace} {found : List FileData} (hname : file.filename.strlen ≤ 65513)
    (hf : f ∈ launch w j (follow t found [
      downloadSendFileReply h p port junk file.filename file.md5sum,
      .downloadPool (some file.fullfilename)])) :
    f.source = w.seen j f.dest ∧ f.dest = p.addr ∧
      f.reads.packet.operation = replyTransferwaiting ∧
      f.reads.data = [0,0,0,0] ++ port.bytes ++ file.md5sum ++ file.filename.bytes := by
  obtain ⟨hsource,hsent⟩ := mem_launch_follow hf
  simp only [downloadSendFileReply,List.mem_cons,Action.sendto.injEq,reduceCtorEq,
    List.not_mem_nil,or_false] at hsent
  obtain ⟨hop,hdata⟩ := packet_offer hname file.md5_length hsent.2 (.initial .little []) fun _ => 0
  exact ⟨hsource,hsent.1,hop,hdata⟩

theorem pairwise_of_length_le {α : Type} {R : α → α → Prop} {l : List α} (h : l.length ≤ 1) :
    l.Pairwise R := by
  match l,h with
  | [],_ => exact List.Pairwise.nil
  | [a],_ => exact List.pairwise_singleton R a

/-- A request for a file gets a socket on a port that is not in use. -/
theorem Offering.answered (hs : Offering w files s) (hw : w.Direct) (hsound : Sound w files f)
    (hh : s.net.host j = some h) (hhonest : Honest w files j h) (buffer : ι → ℕ → UInt8)
    (hwant : (f.packet h (s.net.buffer j)).packet.operation = requestWantfile)
    {t : Trace} {found : List FileData} (ha : applyPacket g
      (s.calls w j (f.packet h (s.net.buffer j)) c) (f.packet h (s.net.buffer j)) h =
        .ok (h',acts)) :
    Offering w files
      ⟨{ host := Function.update s.net.host j (some h')
         buffer := buffer
         flights := Bags.exchange s.net.flights i (launch w j (follow t found acts)) },
        acts.foldl (afterAction w j (s.calls w j (f.packet h (s.net.buffer j)) c))
          s.listening⟩ := by
  have hacc := (hsound.proper.packet h (s.net.buffer j)).1
  have hlen : 16 ≤ (f.packet h (s.net.buffer j)).data.length := by
    obtain ⟨-,-,wanted,-,hdata⟩ := (hsound.true h (s.net.buffer j)).want hwant
    rw [hdata,wanted.md5_length]
  rw [applyPacket_wantfile hacc hwant] at ha
  obtain ⟨made,hmade,heq⟩ := map_eq_ok.mp ha
  cases heq
  have hrun : ∀ {i' : ι}, Function.update s.net.host j (some h) i' ≠ none → s.net.host i' ≠ none :=
    fun hrun hnone => hrun ((host_update_none hh).mpr hnone)
  rcases getRequestWantfile_acts hlen hmade with rfl | rfl | ⟨file,hfile,port,-,hport,rfl⟩
  · exact hs.keep (List.eraseIdx_sublist _ i) rfl (by simp [launch,follow])
      (fun _ _ _ _ _ _ hran => ⟨hrun hran,rfl⟩)
      fun i' port hnone => hs.dead i' port ((host_update_none hh).mp hnone)
  · refine hs.keep (List.eraseIdx_sublist _ i) rfl (fun f' hf' => ?_)
      (fun _ _ _ _ _ _ hran => ⟨hrun hran,rfl⟩)
      fun i' port hnone => hs.dead i' port ((host_update_none hh).mp hnone)
    simpa using (mem_launch_follow hf').2
  · have hfresh : s.listening j port = none := by
      have hfree := (Option.filter_eq_some_iff.mp hport).2
      simpa using hfree
    have hname := (hhonest.tidy.names file hfile).2
    have hofnew : ∀ (f' : Flight) port', f'.reads.data =
        [0,0,0,0] ++ port.bytes ++ file.md5sum ++ file.filename.bytes →
        f'.Offers port' → port' = port := by
      intro f' port' hdata hoffers
      rw [← hoffers.2,FullPacket.port,hdata]
      rfl
    have hreply : ∃ dest bytes, downloadSendFileReply h (f.packet h (s.net.buffer j)) port
        (s.calls w j (f.packet h (s.net.buffer j)) c).junk file.filename file.md5sum =
          .sendto dest bytes := ⟨_,_,rfl⟩
    rw [after_upload hreply hport]
    constructor
    · intro f' hf'
      rcases Bags.mem_of_mem_exchange hf' with hold | hadded
      · exact hs.source f' hold
      · exact ⟨j,(launched_offer hname hadded).1⟩
    · intro f' hf' i' port' hoffers hroute hran
      rcases Bags.mem_of_mem_exchange hf' with hold | hadded
      · obtain ⟨file',hfile',hlisten,hdata⟩ :=
            hs.listens f' hold i' port' hoffers hroute (hrun hran)
        refine ⟨file',hfile',?_,hdata⟩
        by_cases hi : i' = j
        · subst i'
          have hne : port' ≠ port := by
            rintro rfl
            rw [hfresh] at hlisten
            cases hlisten
          simpa [hne] using hlisten
        · simpa [hi] using hlisten
      · obtain ⟨hsource,-,-,hdata⟩ := launched_offer hname hadded
        rw [hsource,hw.back,Option.some.injEq] at hroute
        subst i'
        rw [hofnew f' port' hdata hoffers]
        exact ⟨file,hhonest.database hfile,by simp,hdata⟩
    · refine List.pairwise_append.mpr ⟨hs.apart.sublist (List.eraseIdx_sublist _ i),?_,?_⟩
      · -- there is only one
        have hone := length_launch_le (w:=w) (j:=j) t found
          [downloadSendFileReply h (f.packet h (s.net.buffer j)) port
            (s.calls w j (f.packet h (s.net.buffer j)) c).junk file.filename file.md5sum,
            .downloadPool (some file.fullfilename)]
        exact pairwise_of_length_le hone
      · intro f' hold f₁ hadded port' hoffers hoffers₁ hroute
        obtain ⟨hsource,-,-,hdata⟩ := launched_offer hname hadded
        rw [hsource,hw.back] at hroute
        rw [hofnew f₁ port' hdata hoffers₁] at hoffers
        obtain ⟨file',-,hlisten,-⟩ := hs.listens f' (List.mem_of_mem_eraseIdx hold) j port hoffers
          hroute (by simp [hh])
        rw [hfresh] at hlisten
        cases hlisten
    · intro i' port' hnone
      have hi : i' ≠ j := by
        rintro rfl
        simp at hnone
      have hdead := hs.dead i' port' ((host_update_none hh).mp hnone)
      simpa [hi] using hdead

theorem Offering.shares (hs : Offering w files s) (hw : w.Direct)
    (hhosts : ∀ j h, s.net.host j = some h → Honest w files j h)
    (hsound : ∀ f ∈ s.net.flights, Sound w files f) {x : PeerOp ι} {deals : List (Deal ι)}
    (hx : ∀ j o, x = .program j o → o.Fits) (hstep : Shares w g s x s' deals) :
    Offering w files s' := by
  cases hstep with
  | absent => exact hs
  | acted hh => exact hs.acted (hx _ _ rfl) hh (hhosts _ _ hh).tidy
  | lost i => exact hs.lost i
  | undelivered => exact hs.lost _
  | crashed => exact hs.crashed _ _ _
  | @handled i c f j h h' acts hf hj hh ha =>
    have hof := hsound f (List.mem_of_getElem? hf)
    by_cases hwant : (f.packet h (s.net.buffer j)).packet.operation = requestWantfile
    · exact hs.answered hw hof hh (hhosts j h hh) _ hwant ha
    · by_cases hoffer : (f.packet h (s.net.buffer j)).packet.operation = replyTransferwaiting
      · exact hs.followed hw hf hof.proper hh _ hoffer ha
      · exact hs.other hh _ hwant hoffer ha

end Steps

end Pingu
end MiscUniStuff
