import MiscUniStuff.PeerCopies

/-! The same network while no datagram is lost, no file goes away and no call fails: for
everything that a user asks for, a copy is made or the datagram that will bring it is in
flight. -/
namespace MiscUniStuff
namespace Pingu
open ByteOrder

/-- The datagram is delivered, and the calls that are made for it succeed. -/
def Sharing.Delivers {ι : Type} (w : Wiring ι) (s : Sharing ι) : NetOp → Prop
  | .lose _ => False
  | .deliver i c => c.opened = true ∧ c.socketed = true ∧ c.connected = true ∧ c.created = true ∧
      ∀ f, s.net.flights[i]? = some f → ∀ j, w.route f.dest = some j →
        ∃ port, c.listenport = some port ∧ s.listening j port = none

/-- A scan finds all of the files. -/
def ProgramOp.FindsAll (files : List FileData) : ProgramOp → Prop
  | .rescan found => files ⊆ found
  | _ => True

/-! ### What is sent gets on the network -/

section Launches
variable {ι : Type} {w : Wiring ι} {i : ι} {o : Order} {operation : UInt8}
  {datalen request : UInt16} {d : List UInt8} {dest : SockAddr}

/-- A payload of up to 65497 bytes is not too long for a datagram. -/
theorem launch_sends (t : Trace) (found : List FileData) {acts : List Action}
    (hmem : .sendto dest (sendPacket o (fillinPacket o operation datalen request) d) ∈ acts)
    (hd : d.length ≤ 65497) : ∃ f ∈ launch w i (follow t found acts), f.source = w.seen i dest ∧
      f.dest = dest ∧
        f.datagram.bytes = sendPacket o (fillinPacket o operation datalen request) d := by
  rw [← follow_map_fst t found acts] at hmem
  obtain ⟨⟨a,t'⟩,hfollow,ha⟩ := List.mem_map.mp hmem
  dsimp only at ha
  subst a
  have hlen := length_sendPacket o (fillinPacket o operation datalen request) d
  have hfits :
      (sendPacket o (fillinPacket o operation datalen request) d).length ≤ maxDatagram := by
    simp only [maxDatagram,sizeofPacket] at hlen ⊢
    omega
  exact ⟨⟨w.seen i dest,dest,⟨_,hfits⟩,t'⟩,mem_launch.mpr ⟨rfl,hfollow⟩,rfl,rfl,rfl⟩

theorem countP_le_of_exists {α β : Type} {p : α → Bool} {q : β → Bool} {l : List α} {m : List β}
    (hl : l.length ≤ 1) (h : ∀ a ∈ l, p a = true → ∃ b ∈ m, q b = true) :
    l.countP p ≤ m.countP q := by
  by_cases hsome : ∃ a ∈ l, p a = true
  · obtain ⟨a,ha,hp⟩ := hsome
    have hpos : 0 < m.countP q := List.countP_pos_iff.mpr (h a ha hp)
    have hone := (List.countP_le_length (p:=p) (l:=l)).trans hl
    omega
  · have hzero : l.countP p = 0 := List.countP_eq_zero.mpr fun a ha hp => hsome ⟨a,ha,hp⟩
    omega

end Launches

section Steps
variable {ι : Type} [DecidableEq ι] {w : Wiring ι} {g : PatternMatch} {files : ι → List FileData}
  {s s' : Sharing ι} {i : ι} {h h' : Host} {c : Calls} {f : Flight} {acts : List Action}
  {log : List (Deal ι)}

/-- A user who asks for a file sends a request. -/
theorem asked_acted (hw : w.Direct) (o : ProgramOp) (htidy : Tidy h) (j : ι)
    (md5sum : List UInt8) : ((o.wants h).map (Deal.asked i)).countP (Deal.isAsked j md5sum) ≤
      (launch w i (follow .other [] (o.step h).2)).countP fun f => f.Brings w j md5sum := by
  cases o with
  | download calls model row =>
    cases hk : (h.models model)[row]? with
    | none => simp [ProgramOp.wants,hk]
    | some k =>
      have hsum := htidy.rows model k (List.mem_of_getElem? hk)
      have hwants : (ProgramOp.download calls model row).wants h = [k.md5sum] := by
        simp [ProgramOp.wants,hk]
      rw [hwants]
      refine countP_le_of_exists le_rfl fun deal hdeal hasked => ?_
      rw [List.map_singleton,List.mem_singleton] at hdeal
      subst deal
      obtain ⟨rfl,rfl⟩ : i = j ∧ k.md5sum = md5sum := of_decide_eq_true hasked
      have hmem : .sendto k.addr (sendPacket h.order
          (fillinPacket h.order requestWantfile 16 h.requests.found) k.md5sum) ∈
            ((ProgramOp.download calls model row).step h).2 := by
        simp [ProgramOp.step,clickedFilesearchDownload,hk,getReplyDownloadFile,
          downloadMakeRequest_wants]
      obtain ⟨f,hf,hsource,-,hbytes⟩ := launch_sends (w:=w) (i:=i) .other [] hmem
        (by omega)
      obtain ⟨-,hop,hdata⟩ := Flight.packet_sent
        (q:=fillinPacket h.order requestWantfile 16 h.requests.found) hsum hbytes
        (.initial .little []) fun _ => 0
      exact ⟨f,hf,decide_eq_true (Or.inl ⟨hop,by rw [hsource,hw.back],hdata⟩)⟩
  | _ => simp [ProgramOp.wants]

omit [DecidableEq ι] in
/-- A request for a file that is still there is answered with an offer. -/
theorem offer_launched (hsound : Sound w files f) (hh : Honest w files i h)
    (hserved : files i ⊆ h.database) (hnames : ∀ file ∈ files i, file.filename.strlen ≤ 65475)
    {buffer : ℕ → UInt8} (hwant : (f.packet h buffer).packet.operation = requestWantfile)
    (hi : w.route f.dest = some i) {port : InPort} (hopen : c.opened = true)
    (hport : c.listenport = some port)
    (ha : applyPacket g c (f.packet h buffer) h = .ok (h',acts)) {j : ι} {md5sum : List UInt8}
    (hbrings : f.Brings w j md5sum) (t : Trace) (found : List FileData) :
    ∃ f' ∈ launch w i (follow t found acts), f'.Brings w j md5sum := by
  have hreads := hsound.proper.reads h buffer
  have hacc := (hsound.proper.packet h buffer).1
  obtain ⟨hback,hsum⟩ : w.route f.source = some j ∧ f.reads.data = md5sum := by
    rcases hbrings with ⟨-,hwanted⟩ | ⟨hoffer,-⟩
    · exact hwanted
    · rw [← hreads.1,hwant] at hoffer
      exact absurd hoffer (by decide)
  have hserves := (hsound.true h buffer).serves (g:=g) hacc hwant hi
  obtain ⟨file,hfound⟩ : ∃ file,
      h.database.find? (fun file => file.md5sum = (f.packet h buffer).data) = some file := by
    obtain ⟨file,hfile,hdata⟩ := hserves.asked
    refine Option.ne_none_iff_exists'.mp fun hnone => ?_
    have hno := List.find?_eq_none.mp hnone file (hserved hfile)
    simp [hdata] at hno
  have hfile : file ∈ files i := hh.database (List.mem_of_find?_eq_some hfound)
  have hdata : file.md5sum = (f.packet h buffer).data := by simpa using List.find?_some hfound
  rw [hserves.offered file hfound c port hopen hport,Except.ok.injEq,Prod.mk.injEq] at ha
  obtain ⟨rfl,rfl⟩ := ha
  have hlen := length_transferPayload port c.junk file.filename file.md5_length
  have hname := hnames file hfile
  obtain ⟨f',hf',-,hdest,hbytes⟩ := launch_sends (w:=w) (i:=i) t found
    (List.mem_cons_self (a:=downloadSendFileReply h (f.packet h buffer) port c.junk file.filename
      file.md5sum) (l:=[.downloadPool (some file.fullfilename)])) (by omega)
  obtain ⟨hop,hoffered⟩ : f'.reads.packet.operation = replyTransferwaiting ∧
      f'.reads.data = [0,0,0,0] ++ port.bytes ++ file.md5sum ++ file.filename.bytes :=
    packet_offer (by omega) file.md5_length hbytes _ _
  refine ⟨f',hf',Or.inr ⟨hop,?_,?_⟩⟩
  · rw [hdest]
    exact hback
  · rw [hoffered,List.append_assoc,List.drop_left' (by rfl),List.take_left' file.md5_length,
      hdata,hreads.2,hsum]

omit [DecidableEq ι] in
/-- An offer of a program that runs is followed to a copy. -/
theorem copy_made (hs : Offering w files s) (hw : w.Direct) (hf : f ∈ s.net.flights)
    (hsound : Sound w files f) (hup : ∀ j, s.net.host j ≠ none)
    (hoffer : (f.packet h (s.net.buffer i)).packet.operation = replyTransferwaiting)
    (hi : w.route f.dest = some i) (hsocketed : c.socketed = true) (hconnected : c.connected = true)
    (hcreated : c.created = true) (ha : applyPacket g
      (s.calls w i (f.packet h (s.net.buffer i)) c) (f.packet h (s.net.buffer i)) h = .ok (h',acts))
    {j : ι} {md5sum : List UInt8} (hbrings : f.Brings w j md5sum) : ∃ k fullfilename fullfile,
      s.copies w i (f.packet h (s.net.buffer i)) acts =
        [.copied k fullfilename j md5sum fullfile] := by
  have hreads := hsound.proper.reads h (s.net.buffer i)
  have hacc := (hsound.proper.packet h (s.net.buffer i)).1
  obtain ⟨hj,hsum⟩ : w.route f.dest = some j ∧ (f.reads.data.drop 6).take 16 = md5sum := by
    rcases hbrings with ⟨hwant,-⟩ | ⟨-,hoffered⟩
    · rw [← hreads.1,hoffer] at hwant
      exact absurd hwant (by decide)
    · exact hoffered
  obtain rfl : i = j := Option.some_inj.mp (hi.symm.trans hj)
  obtain ⟨k,hk,-,-,-,-,hfollows⟩ := (hsound.true h (s.net.buffer i)).follows (g:=g) hacc hoffer
  obtain ⟨file,-,hupload,-⟩ := hs.upload hw hf hsound.proper hoffer hk (hup k)
  have hmade := hfollows (s.calls w i (f.packet h (s.net.buffer i)) c) hsocketed
    (by simp [Sharing.calls,hconnected,hupload]) hcreated
  rw [hmade,Except.ok.injEq,Prod.mk.injEq] at ha
  obtain ⟨-,rfl⟩ := ha
  refine ⟨k,file.fullfilename,(f.packet h (s.net.buffer i)).fullfile,?_⟩
  rw [Sharing.copies,if_pos (by simp),hupload,hreads.2,hsum]

/-- A datagram of which a copy may come is not lost when it is delivered: there is such a
datagram again, or the copy is made. -/
theorem brought_handled (hs : Offering w files s) (hw : w.Direct) (hf : f ∈ s.net.flights)
    (hsound : Sound w files f) (hhonest : Honest w files i h) (hserved : files i ⊆ h.database)
    (hnames : ∀ file ∈ files i, file.filename.strlen ≤ 65475) (hup : ∀ j, s.net.host j ≠ none)
    (hi : w.route f.dest = some i) {port : InPort} (hopen : c.opened = true)
    (hsocketed : c.socketed = true) (hconnected : c.connected = true) (hcreated : c.created = true)
    (hport : c.listenport = some port) (hfree : s.listening i port = none) (ha : applyPacket g
      (s.calls w i (f.packet h (s.net.buffer i)) c) (f.packet h (s.net.buffer i)) h = .ok (h',acts))
    (t : Trace) (found : List FileData) (j : ι) (md5sum : List UInt8) :
    (if f.Brings w j md5sum then 1 else 0) ≤
      (launch w i (follow t found acts)).countP (fun f => f.Brings w j md5sum) +
        (s.copies w i (f.packet h (s.net.buffer i)) acts).countP (Deal.isCopied j md5sum) := by
  have hreads := hsound.proper.reads h (s.net.buffer i)
  split_ifs with hbrings
  · have hkind : (f.packet h (s.net.buffer i)).packet.operation = requestWantfile ∨
        (f.packet h (s.net.buffer i)).packet.operation = replyTransferwaiting := by
      rw [hreads.1]
      exact hbrings.imp And.left And.left
    rcases hkind with hwant | hoffer
    · have hlisten : (s.calls w i (f.packet h (s.net.buffer i)) c).listenport = some port := by
        simp [Sharing.calls,hport,hfree]
      obtain ⟨f',hf',hbrings'⟩ := offer_launched
        (c:=s.calls w i (f.packet h (s.net.buffer i)) c) hsound hhonest hserved hnames hwant hi
        hopen hlisten ha hbrings t found
      have hpos : 0 < (launch w i (follow t found acts)).countP fun f => f.Brings w j md5sum :=
        List.countP_pos_iff.mpr ⟨f',hf',decide_eq_true hbrings'⟩
      omega
    · obtain ⟨k,fullfilename,fullfile,hcopies⟩ := copy_made hs hw hf hsound hup hoffer hi hsocketed
        hconnected hcreated ha hbrings
      rw [hcopies]
      simp [Deal.isCopied]
  · exact Nat.zero_le _

/-- Nothing gets lost in a step: what is asked for is pending until it is copied. -/
theorem pending_kept (hs : Shared w files s log) (hw : w.Direct)
    (hserved : ∀ j h, s.net.host j = some h → files j ⊆ h.database)
    (hnames : ∀ i, ∀ file ∈ files i, file.filename.strlen ≤ 65475) {x : PeerOp ι}
    {deals : List (Deal ι)} (hx : ∀ j o, x = .program j o → o.Fits)
    (hstep : Shares w g s x s' deals) (hup : ∀ j, s'.net.host j ≠ none)
    (hdelivers : ∀ o, x = .network o → s.Delivers w o) (j : ι) (md5sum : List UInt8) :
    s.pending w j md5sum + deals.countP (Deal.isAsked j md5sum) =
      s'.pending w j md5sum + deals.countP (Deal.isCopied j md5sum) := by
  have hle := pending_shares hw hs.honest hs.sound hx hstep j md5sum
  refine le_antisymm ?_ hle
  cases hstep with
  | absent => exact le_rfl
  | @acted i o h hh =>
    have hnew := asked_acted (i:=i) hw o (hs.honest _ _ hh).tidy j md5sum
    simp only [Sharing.pending,List.countP_append]
    omega
  | lost i => exact absurd (hdelivers _ rfl) id
  | @undelivered i c hnobody =>
    -- it was for nobody, so no copy could have come of it
    simp only [Sharing.pending,List.countP_nil,Nat.add_zero]
    cases hf : s.net.flights[i]? with
    | none =>
      rw [Bags.exchange,List.append_nil,
        List.eraseIdx_of_length_le (List.getElem?_eq_none_iff.mp hf)]
    | some f =>
      have hexchange := Bags.countP_exchange (m:=[]) (fun f => decide (f.Brings w j md5sum)) hf
      have hquiet : ¬f.Brings w j md5sum := by
        intro hbrings
        obtain ⟨k,hk⟩ : ∃ k, w.route f.dest = some k := by
          rcases hbrings with ⟨hwant,-⟩ | ⟨-,hto,-⟩
          · obtain ⟨k,hk,-⟩ := ((hs.sound f (List.mem_of_getElem? hf)).true _ _).want hwant
            exact ⟨k,hk⟩
          · exact ⟨j,hto⟩
        have hnone := hnobody f hf
        obtain ⟨h,hh⟩ := Option.ne_none_iff_exists'.mp (hup k)
        have hh : s.net.host k = some h := hh
        simp [Net.receiver,hk,hh] at hnone
      simp only [hquiet,decide_false,Bool.false_eq_true,if_false,List.countP_nil] at hexchange
      omega
  | @crashed i c f k h e hf hk hh he => exact absurd (Function.update_self _ _ _) (hup k)
  | @handled i c f k h h' acts hf hk hh ha =>
    obtain ⟨hopen,hsocketed,hconnected,hcreated,hports⟩ := hdelivers _ rfl
    obtain ⟨port,hport,hfree⟩ := hports f hf k hk
    have hmem := List.mem_of_getElem? hf
    have hran : ∀ i, s.net.host i ≠ none := fun i hnone => hup i ((host_update_none hh).mpr hnone)
    have hdone := brought_handled hs.fair hw hmem (hs.sound f hmem) (hs.honest k h hh)
      (hserved k h hh) (hnames k) hran hk hopen hsocketed hconnected hcreated hport hfree ha f.trace
      (matching g h (f.packet h (s.net.buffer k))) j md5sum
    have hexchange := Bags.countP_exchange (m:=launch w k (follow f.trace
      (matching g h (f.packet h (s.net.buffer k))) acts)) (fun f => decide (f.Brings w j md5sum)) hf
    have hnone : (s.copies w k (f.packet h (s.net.buffer k)) acts).countP
        (Deal.isAsked j md5sum) = 0 := by
      unfold Sharing.copies
      split_ifs
      · split
        · rfl
        · rfl
      · rfl
    simp only [decide_eq_true_eq] at hexchange
    simp only [Sharing.pending]
    omega

/-- A program that has stopped stays so. -/
theorem stopped_shares {x : PeerOp ι} {deals : List (Deal ι)} (hstep : Shares w g s x s' deals)
    {j : ι} (hj : s.net.host j = none) : s'.net.host j = none := by
  cases hstep with
  | absent => exact hj
  | acted hh => exact (host_update_none hh).mpr hj
  | lost i => exact hj
  | undelivered => exact hj
  | @crashed i c f k =>
    by_cases hk : j = k
    · subst k
      exact Function.update_self _ _ _
    · simpa [hk] using hj
  | handled hf hk hh ha => exact (host_update_none hh).mpr hj

end Steps

section Runs
variable {ι : Type} [DecidableEq ι]

/-- Nothing that a program serves goes away. -/
theorem served_run {w : Wiring ι} {g : PatternMatch} {files : ι → List FileData} {s : Sharing ι}
    {ops : List (PeerOp ι)} (hserved : ∀ j h, s.net.host j = some h → files j ⊆ h.database)
    (hops : ∀ j o, .program j o ∈ ops → o.FindsAll (files j)) (j : ι) (h : Host)
    (hh : (s.run w g ops).1.net.host j = some h) : files j ⊆ h.database := by
  obtain ⟨ops',hnet,hsame⟩ := share_run_net w g s ops
  rw [hnet] at hh
  refine (Net.peers_invariant (P:=fun j h => files j ⊆ h.database)
    (Q:=fun f => f.source = f.source) ops' hserved (fun _ _ => rfl) ?_ ?_).1 j h hh
  · intro i o h₁ hmem hold
    refine ⟨?_,fun _ _ _ => rfl⟩
    rw [(keeps_step o h₁).database]
    have hall := hops i o (hsame i o hmem)
    cases o with
    | rescan found => exact hall
    | _ => exact hold
  · intro i f h₁ h' buffer c acts _ hold _ ha
    refine ⟨?_,fun _ _ _ => rfl⟩
    rw [(applyPacket_becomes ha).database]
    exact hold

/-- While all programs run, no datagram is lost, no file goes away and no call fails, in whatever
order the programs act and the datagrams arrive: the times that a user has asked for a sum are
the copies that have been made of files with it and the datagrams in flight that will bring
one. -/
theorem shared_files_copied (w : Wiring ι) (hw : w.Direct) (g : PatternMatch)
    (files : ι → List FileData) (hnames : ∀ i, ∀ file ∈ files i, file.filename.strlen ≤ 65475)
    (s : Sharing ι) (hflights : s.net.flights = [])
    (hlistening : ∀ i port, s.listening i port = none)
    (hhosts : ∀ j h, s.net.host j = some h → Honest w files j h ∧ files j ⊆ h.database)
    (ops : List (PeerOp ι)) (hops : ∀ j o, .program j o ∈ ops →
      o.Fits ∧ o.Finds (files j) ∧ o.FindsAll (files j))
    (hup : ∀ j, (s.run w g ops).1.net.host j ≠ none)
    (hdelivers : ∀ before o after, ops = before ++ .network o :: after →
      (s.run w g before).1.Delivers w o) (j : ι) (md5sum : List UInt8) :
    (s.run w g ops).2.countP (Deal.isAsked j md5sum) =
      (s.run w g ops).2.countP (Deal.isCopied j md5sum) + (s.run w g ops).1.pending w j md5sum := by
  induction ops using List.reverseRecOn with
  | nil => simp [Sharing.run,Sharing.pending,hflights]
  | append_singleton ops x ih =>
    have hrun : s.run w g (ops ++ [x]) = ((x.share w g (s.run w g ops).1).1,
        (s.run w g ops).2 ++ (x.share w g (s.run w g ops).1).2) := Runs.run_snoc _ _ ops x
    have hstep := share_shares w g x (s.run w g ops).1
    rw [hrun] at hup ⊢
    have hops' := fun j o hmem => hops j o (List.mem_append_left [x] hmem)
    have hbefore := ih hops' (fun i hnone => hup i (stopped_shares hstep hnone)) ?_
    · have hold := shared_run (g:=g) hw hflights hlistening (fun j h hh => (hhosts j h hh).1)
        fun j o hmem => ⟨(hops' j o hmem).1,(hops' j o hmem).2.1⟩
      have hserved := served_run (w:=w) (g:=g) (fun j h hh => (hhosts j h hh).2)
        fun j o hmem => (hops' j o hmem).2.2
      have hnow := pending_kept hold hw hserved hnames
        (fun j o hx => (hops j o (by simp [hx])).1) hstep hup
        (fun o hx => hdelivers ops o [] (by rw [hx])) j md5sum
      simp only [List.countP_append]
      omega
    · intro before o after hsplit
      exact hdelivers before o (after ++ [x]) (by rw [hsplit]; simp)

end Runs

theorem fetching_findsAll {i : Fin 3} {n : ℕ} {files : Fin 3 → List FileData} (j : Fin 3)
    (o : ProgramOp) (h : .program j o ∈ fetching i n) :
    o.Fits ∧ o.Finds (files j) ∧ o.FindsAll (files j) := by
  obtain ⟨hfits,hfinds⟩ := fetching_ops files j o h
  refine ⟨hfits,hfinds,?_⟩
  rcases List.mem_append.mp h with herrand | hmem
  · rcases mem_errand herrand with rfl | rfl
    · trivial
    · trivial
  · cases List.eq_of_mem_replicate hmem

/-- In this run the port is free wherever a datagram arrives. -/
theorem fetching_delivers (before : List (PeerOp (Fin 3))) (o : NetOp)
    (after : List (PeerOp (Fin 3)))
    (h : fetching 0 2 = before ++ .network o :: after) :
    (triangleSharing.run triangleWiring sameName before).1.Delivers triangleWiring o := by
  have hfree : ∀ k < 9, ∀ j : Fin 3,
      (((triangleSharing.run triangleWiring sameName
        ((fetching 0 2).take k)).1.net.flights[0]?).bind
          fun f => triangleWiring.route f.dest) = some j →
      (triangleSharing.run triangleWiring sameName ((fetching 0 2).take k)).1.listening j
        ⟨0x12,0x34⟩ = none := by decide +kernel
  have hbefore : before = (fetching 0 2).take before.length := by
    rw [h,List.take_left' rfl]
  have hlen : before.length < 9 := by
    have htotal : (fetching 0 2).length = 9 := rfl
    rw [h,List.length_append,List.length_cons] at htotal
    omega
  have hmem : PeerOp.network o ∈ fetching 0 2 := by
    rw [h]
    simp
  obtain rfl : o = .deliver 0 allCalls := by
    simpa [fetching,errand] using hmem
  refine ⟨rfl,rfl,rfl,rfl,fun f hf j hj => ⟨⟨0x12,0x34⟩,rfl,?_⟩⟩
  rw [hbefore] at hf ⊢
  exact hfree _ hlen j (by rw [hf]; exact hj)

theorem shared_files_copied_triangle :
    (triangleSharing.run triangleWiring sameName (fetching 0 2)).2.countP
        (Deal.isAsked 0 someFile.md5sum) =
      (triangleSharing.run triangleWiring sameName (fetching 0 2)).2.countP
        (Deal.isCopied 0 someFile.md5sum) +
      (triangleSharing.run triangleWiring sameName (fetching 0 2)).1.pending triangleWiring 0
        someFile.md5sum := by
  have hup : ∀ j,
      ((triangleSharing.run triangleWiring sameName (fetching 0 2)).1.net.host j).isSome :=
    by decide +kernel
  exact shared_files_copied triangleWiring direct_triangle sameName
    (fun j => if j = 2 then [someFile] else []) (by decide) triangleSharing rfl (fun _ _ => rfl)
    (fun j h hh => ⟨honest_triangle j h hh,fun _ hf => (database_triangle j h hh).symm ▸ hf⟩)
    (fetching 0 2)
    fetching_findsAll (fun j => Option.isSome_iff_ne_none.mp (hup j)) fetching_delivers 0
    someFile.md5sum

end Pingu
end MiscUniStuff
