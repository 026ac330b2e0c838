import MiscUniStuff.PeerOffers

/-! What is copied in that network: every connection reaches the upload that it was offered,
and a user who asks for a file once gets one copy at most. -/
namespace MiscUniStuff
namespace Pingu
open ByteOrder

/-! ### Every copy has been asked for -/

/-- A copy of a file with that sum may come of the datagram to the program. -/
def Flight.Brings {ι : Type} (w : Wiring ι) (j : ι) (md5sum : List UInt8) (f : Flight) : Prop :=
  f.reads.packet.operation = requestWantfile ∧ w.route f.source = some j ∧ f.reads.data = md5sum ∨
  f.reads.packet.operation = replyTransferwaiting ∧ w.route f.dest = some j ∧
    (f.reads.data.drop 6).take 16 = md5sum

instance {ι : Type} [DecidableEq ι] (w : Wiring ι) (j : ι) (md5sum : List UInt8) (f : Flight) :
    Decidable (f.Brings w j md5sum) := inferInstanceAs (Decidable (_ ∨ _))

theorem Flight.Quiet.brings {ι : Type} {w : Wiring ι} {f : Flight} (hf : f.Quiet) (j : ι)
    (md5sum : List UInt8) : ¬f.Brings w j md5sum := by
  rintro (⟨hwant,-⟩ | ⟨hoffer,-⟩)
  · exact hf.1 hwant
  · exact hf.2 hoffer

section Counts
variable {ι : Type} [DecidableEq ι]

/-- The user of the program has asked for that sum. -/
def Deal.isAsked (j : ι) (md5sum : List UInt8) : Deal ι → Bool
  | asked j' md5sum' => j' = j ∧ md5sum' = md5sum
  | copied _ _ _ _ _ => false

/-- The program copies a file of that sum. -/
def Deal.isCopied (j : ι) (md5sum : List UInt8) : Deal ι → Bool
  | asked _ _ => false
  | copied _ _ j' md5sum' _ => j' = j ∧ md5sum' = md5sum

/-- The datagrams of which such copies may come. -/
def Sharing.pending (w : Wiring ι) (j : ι) (md5sum : List UInt8) (s : Sharing ι) : ℕ :=
  s.net.flights.countP fun f => f.Brings w j md5sum

variable {w : Wiring ι} {g : PatternMatch} {files : ι → List FileData} {s s' : Sharing ι}

theorem countP_le_of_length {α : Type} {p : α → Bool} {q : Bool} {l : List α} (hl : l.length ≤ 1)
    (h : ∀ a ∈ l, p a = true → q = true) : l.countP p ≤ if q then 1 else 0 := by
  by_cases hq : q = true
  · rw [if_pos hq]
    exact List.countP_le_length.trans hl
  · have hnone : l.countP p = 0 := List.countP_eq_zero.mpr fun a ha hp => hq (h a ha hp)
    omega

omit [DecidableEq ι] in
theorem copies_eq_nil {j : ι} {p : FullPacket} {acts : List Action} (h : .uploadPool ∉ acts) :
    s.copies w j p acts = [] := if_neg h

/-- A user who clicks on a row asks for one file. -/
theorem pending_acted (hw : w.Direct) {i : ι} {o : ProgramOp} {h : Host} (ho : o.Fits)
    (htidy : Tidy h) (j : ι) (md5sum : List UInt8) :
    (launch w i (follow .other [] (o.step h).2)).countP (fun f => f.Brings w j md5sum) ≤
      ((o.wants h).map (Deal.asked i)).countP (Deal.isAsked j md5sum) := by
  have hlaunched : ∀ f ∈ launch w i (follow .other [] (o.step h).2), f.Brings w j md5sum →
      ∃ calls model row k, o = .download calls model row ∧ (h.models model)[row]? = some k ∧
        i = j ∧ k.md5sum = md5sum := by
    intro f hf hbrings
    obtain ⟨hsource,hmem⟩ := mem_launch_other hf
    rcases (starts_of_mem hmem).quiet ho with hquiet | ⟨calls,model,row,k,rfl,hk,-,hbytes⟩
    · exact absurd hbrings (hquiet.brings j md5sum)
    · obtain ⟨-,hop,hdata⟩ := Flight.packet_sent
        (q:=fillinPacket h.order requestWantfile 16 h.requests.found)
        (htidy.rows model k (List.mem_of_getElem? hk)) hbytes (.initial .little []) fun _ => 0
      rcases hbrings with ⟨-,hroute,hsum⟩ | ⟨hoffer,-⟩
      · rw [hsource,hw.back,Option.some.injEq] at hroute
        exact ⟨calls,model,row,k,rfl,hk,hroute,hdata.symm.trans hsum⟩
      · have hop' : f.reads.packet.operation = requestWantfile := hop
        rw [hop'] at hoffer
        exact absurd hoffer (by decide)
  by_cases hnone : ∀ f ∈ launch w i (follow .other [] (o.step h).2), ¬f.Brings w j md5sum
  · have hzero : (launch w i (follow .other [] (o.step h).2)).countP
        (fun f => f.Brings w j md5sum) = 0 :=
      List.countP_eq_zero.mpr fun f hf => by simpa using hnone f hf
    omega
  · push Not at hnone
    obtain ⟨f,hf,hbrings⟩ := hnone
    obtain ⟨calls,model,row,k,rfl,hk,rfl,rfl⟩ := hlaunched f hf hbrings
    have hone := length_launch_le (w:=w) (j:=i) .other []
      ((ProgramOp.download calls model row).step h).2
    simp only [ProgramOp.step,clickedFilesearchDownload,hk,getReplyDownloadFile,
      downloadMakeRequest_wants] at hone ⊢
    have hwants : (ProgramOp.download calls model row).wants h = [k.md5sum] := by
      simp [ProgramOp.wants,hk]
    rw [hwants]
    refine List.countP_le_length.trans (hone.trans ?_)
    simp [Deal.isAsked,Action.isSendto]

/-- Of a request for a file comes one offer at most, and of an offer one copy at most. -/
theorem pending_handled {i : ι} {c : Calls} {f : Flight} {h h' : Host}
    {acts : List Action} (t : Trace) (found : List FileData) (hsound : Sound w files f)
    (hi : w.route f.dest = some i) (htidy : Tidy h)
    (ha : applyPacket g c (f.packet h (s.net.buffer i)) h = .ok (h',acts)) (j : ι)
    (md5sum : List UInt8) :
    (launch w i (follow t found acts)).countP (fun f => f.Brings w j md5sum) +
      (s.copies w i (f.packet h (s.net.buffer i)) acts).countP (Deal.isCopied j md5sum) ≤
      if f.Brings w j md5sum then 1 else 0 := by
  have hreads := hsound.proper.reads h (s.net.buffer i)
  have hacc := (hsound.proper.packet h (s.net.buffer i)).1
  by_cases hwant : (f.packet h (s.net.buffer i)).packet.operation = requestWantfile
  · obtain ⟨-,-,wanted,-,hdata⟩ := (hsound.true h (s.net.buffer i)).want hwant
    have hlen : (f.packet h (s.net.buffer i)).data.length = 16 := by
      rw [hdata,wanted.md5_length]
    have hsend := ha
    rw [applyPacket_wantfile hacc hwant] at hsend
    obtain ⟨made,hmade,heq⟩ := map_eq_ok.mp hsend
    cases heq
    rcases getRequestWantfile_acts hlen.ge hmade with rfl | rfl | ⟨file,hfile,port,hsum,-,rfl⟩
    · simp [launch,follow,copies_eq_nil]
    · have hone := length_launch_le (w:=w) (j:=i) t found [.downloadPool none]
      have hnil := List.length_eq_zero_iff.mp (Nat.le_zero.mp hone)
      simp [hnil,copies_eq_nil]
    · rw [copies_eq_nil (by simp [downloadSendFileReply]),List.countP_nil,Nat.add_zero]
      have hone := length_launch_le (w:=w) (j:=i) t found
        [downloadSendFileReply h (f.packet h (s.net.buffer i)) port c.junk file.filename
            file.md5sum,
          .downloadPool (some file.fullfilename)]
      refine (countP_le_of_length (q:=decide (f.Brings w j md5sum)) hone ?_).trans (by simp)
      intro f' hf' hbrings
      obtain ⟨-,hback,hop,hoffered⟩ := launched_offer (htidy.names file hfile).2 hf'
      rcases of_decide_eq_true hbrings with ⟨hno,-⟩ | ⟨-,hroute,hcut⟩
      · rw [hop] at hno
        exact absurd hno (by decide)
      · have hfield : (f'.reads.data.drop 6).take 16 = file.md5sum := by
          rw [hoffered,List.append_assoc,List.drop_left' (by rfl),List.take_left' file.md5_length]
        rw [List.take_of_length_le hlen.le] at hsum
        refine decide_eq_true (Or.inl ⟨hreads.1.symm.trans hwant,?_,?_⟩)
        · rw [hback] at hroute
          exact hroute
        · rw [← hreads.2,← hsum,← hfield,hcut]
  · have hquiet : ∀ f' ∈ launch w i (follow t found acts), ¬f'.Brings w j md5sum :=
      fun f' hf' => ((answers_of_mem ha (mem_launch_follow hf').2).quiet hwant).brings j md5sum
    have hzero : (launch w i (follow t found acts)).countP (fun f => f.Brings w j md5sum) = 0 :=
      List.countP_eq_zero.mpr fun f' hf' => by simpa using hquiet f' hf'
    rw [hzero,Nat.zero_add]
    by_cases hoffer : (f.packet h (s.net.buffer i)).packet.operation = replyTransferwaiting
    · have hone : (s.copies w i (f.packet h (s.net.buffer i)) acts).length ≤ 1 := by
        unfold Sharing.copies
        split_ifs
        · split
          · exact le_rfl
          · exact Nat.zero_le 1
        · exact Nat.zero_le 1
      refine (countP_le_of_length (q:=decide (f.Brings w j md5sum)) hone ?_).trans (by simp)
      intro deal hdeal hcopied
      unfold Sharing.copies at hdeal
      split_ifs at hdeal with hpool
      · split at hdeal
        · rw [List.mem_singleton.mp hdeal] at hcopied
          obtain ⟨hj,hsum⟩ := of_decide_eq_true hcopied
          refine decide_eq_true (Or.inr ⟨hreads.1.symm.trans hoffer,?_,?_⟩)
          · rw [hi,hj]
          · rw [← hreads.2]
            exact hsum
        · cases hdeal
      · cases hdeal
    · rw [copies_eq_nil (applyPacket_uploadPool hoffer ha)]
      exact Nat.zero_le _

theorem pending_shares (hw : w.Direct) (hhosts : ∀ j h, s.net.host j = some h → Honest w files j h)
    (hsound : ∀ f ∈ s.net.flights, Sound w files f) {x : PeerOp ι} {deals : List (Deal ι)}
    (hx : ∀ j o, x = .program j o → o.Fits) (hstep : Shares w g s x s' deals) (j : ι)
    (md5sum : List UInt8) : s'.pending w j md5sum + deals.countP (Deal.isCopied j md5sum) ≤
      s.pending w j md5sum + deals.countP (Deal.isAsked j md5sum) := by
  cases hstep with
  | absent => exact le_rfl
  | @acted i o h hh =>
    have hnew := pending_acted hw (hx _ _ rfl) (i:=i) (hhosts _ _ hh).tidy j md5sum
    have hnone : ((o.wants h).map (Deal.asked i)).countP (Deal.isCopied j md5sum) = 0 := by
      rw [List.countP_eq_zero]
      intro deal hdeal
      obtain ⟨m,-,rfl⟩ := List.mem_map.mp hdeal
      simp [Deal.isCopied]
    rw [hnone]
    simp only [Sharing.pending,List.countP_append]
    omega
  | lost i =>
    have hle := Bags.countP_exchange_nil_le (l:=s.net.flights) (i:=i) fun f => f.Brings w j md5sum
    simpa [Sharing.pending] using hle
  | @undelivered i =>
    have hle := Bags.countP_exchange_nil_le (l:=s.net.flights) (i:=i) fun f => f.Brings w j md5sum
    simpa [Sharing.pending] using hle
  | @crashed i =>
    have hle := Bags.countP_exchange_nil_le (l:=s.net.flights) (i:=i) fun f => f.Brings w j md5sum
    simpa [Sharing.pending] using hle
  | @handled i c f k h h' acts hf hk hh ha =>
    have hof := hsound f (List.mem_of_getElem? hf)
    have hdone := pending_handled (s:=s) f.trace (matching g h (f.packet h (s.net.buffer k))) hof hk
      (hhosts k h hh).tidy ha j md5sum
    have hexchange := Bags.countP_exchange (m:=launch w k (follow f.trace
      (matching g h (f.packet h (s.net.buffer k))) acts)) (fun f => decide (f.Brings w j md5sum)) hf
    simp only [decide_eq_true_eq] at hexchange
    simp only [Sharing.pending]
    omega

end Counts

/-! ### Runs -/

/-- What is copied is the file of an offer, to a file of its name. -/
def Deal.Correct {ι : Type} (files : ι → List FileData) : Deal ι → Prop
  | asked _ _ => True
  | copied i fullfilename _ md5sum fullfile => ∃ file ∈ files i,
      fullfilename = file.fullfilename ∧ md5sum = file.md5sum ∧
        fullfile = downloadDirectory ++ file.filename.bytes

section Runs
variable {ι : Type} {w : Wiring ι} {g : PatternMatch} {files : ι → List FileData} {s s' : Sharing ι}

/-- A connection for an offer of a running program reaches the file that is offered. -/
theorem Offering.upload (hs : Offering w files s) (hw : w.Direct) {f : Flight}
    (hf : f ∈ s.net.flights)
    (hproper : Proper f.datagram.bytes) {h : Host} {buffer : ℕ → UInt8}
    (hoffer : (f.packet h buffer).packet.operation = replyTransferwaiting) {i : ι}
    (hi : w.route f.source = some i) (hrun : s.net.host i ≠ none) : ∃ file ∈ files i,
      s.upload w ⟨(f.packet h buffer).addr.addr,(f.packet h buffer).port⟩ =
        some (i,file.fullfilename) ∧ ((f.packet h buffer).data.drop 6).take 16 = file.md5sum ∧
      (f.packet h buffer).fullfile = downloadDirectory ++ file.filename.bytes := by
  have hreads := hproper.reads h buffer
  obtain ⟨i₀,hsource⟩ := hs.source f hf
  have hplace : w.route ⟨f.source.addr,connectionPort⟩ = some i := by
    rw [← hi,hsource,← hw.port i₀ f.dest]
  obtain ⟨file,hfile,hlisten,hdata⟩ := hs.listens f hf i (f.packet h buffer).port
    ⟨hreads.1.symm.trans hoffer,(port_congr hreads.2).symm⟩ hi hrun
  have haddr : (f.packet h buffer).addr = f.source := rfl
  rw [← hreads.2] at hdata
  refine ⟨file,hfile,?_,?_,?_⟩
  · simp only [Sharing.upload,haddr,hplace,Option.bind_some,hlisten,Option.map_some]
  · rw [hdata,List.append_assoc,List.drop_left' (by rfl),List.take_left' file.md5_length]
  · have hname : (f.packet h buffer).data.drop 22 = file.filename.bytes := by
      rw [hdata,List.drop_left' (by simp [file.md5_length])]
    rw [FullPacket.fullfile,hname,cstring_bytes]

/-- So it is that file which is copied. -/
theorem Offering.copies (hs : Offering w files s) (hw : w.Direct) {f : Flight}
    (hf : f ∈ s.net.flights)
    (hproper : Proper f.datagram.bytes) {h : Host} {buffer : ℕ → UInt8}
    (hoffer : (f.packet h buffer).packet.operation = replyTransferwaiting) {j : ι}
    {acts : List Action} : ∀ deal ∈ s.copies w j (f.packet h buffer) acts, deal.Correct files := by
  intro deal hdeal
  unfold Sharing.copies at hdeal
  split_ifs at hdeal with hpool
  · split at hdeal
    · rename_i i fullfilename hupload
      rw [List.mem_singleton.mp hdeal]
      have hto := hupload
      simp only [Sharing.upload,Option.bind_eq_some_iff,Option.map_eq_some_iff,
        Prod.mk.injEq] at hto
      obtain ⟨i',hi',path,hpath,rfl,rfl⟩ := hto
      obtain ⟨i₀,hsource⟩ := hs.source f hf
      have haddr : (f.packet h buffer).addr = f.source := rfl
      have hi : w.route f.source = some i' := by
        rw [← hi',haddr,hsource,← hw.port i₀ f.dest]
      have hrun : s.net.host i' ≠ none := by
        intro hnone
        rw [hs.dead i' _ hnone] at hpath
        cases hpath
      obtain ⟨file,hfile,hreach,hsum,hname⟩ := hs.upload hw hf hproper hoffer hi hrun
      rw [hreach] at hupload
      cases hupload
      exact ⟨file,hfile,rfl,hsum,hname⟩
    · cases hdeal
  · cases hdeal

variable [DecidableEq ι]

theorem correct_shares (hs : Offering w files s) (hw : w.Direct)
    (hsound : ∀ f ∈ s.net.flights, Sound w files f) {x : PeerOp ι} {deals : List (Deal ι)}
    (hstep : Shares w g s x s' deals) : ∀ deal ∈ deals, deal.Correct files := by
  cases hstep with
  | absent => simp
  | acted hh =>
    intro deal hdeal
    obtain ⟨m,-,rfl⟩ := List.mem_map.mp hdeal
    trivial
  | lost i => simp
  | undelivered => simp
  | crashed => simp
  | @handled i c f j h h' acts hf hj hh ha =>
    have hmem := List.mem_of_getElem? hf
    by_cases hoffer : (f.packet h (s.net.buffer j)).packet.operation = replyTransferwaiting
    · exact hs.copies hw hmem (hsound f hmem).proper hoffer
    · rw [copies_eq_nil (applyPacket_uploadPool hoffer ha)]
      simp

/-- What holds after every run that starts with nothing in flight and nothing listened on. -/
structure Shared (w : Wiring ι) (files : ι → List FileData) (s : Sharing ι) (log : List (Deal ι)) :
    Prop where
  honest : ∀ j h, s.net.host j = some h → Honest w files j h
  sound : ∀ f ∈ s.net.flights, Sound w files f
  fair : Offering w files s
  correct : ∀ deal ∈ log, deal.Correct files
  asked : ∀ j md5sum, s.pending w j md5sum + log.countP (Deal.isCopied j md5sum) ≤
    log.countP (Deal.isAsked j md5sum)

theorem shared_run {ops : List (PeerOp ι)} (hw : w.Direct) (hflights : s.net.flights = [])
    (hlistening : ∀ i port, s.listening i port = none)
    (hhosts : ∀ j h, s.net.host j = some h → Honest w files j h)
    (hops : ∀ j o, .program j o ∈ ops → o.Fits ∧ o.Finds (files j)) :
    Shared w files (s.run w g ops).1 (s.run w g ops).2 := by
  have htruth : ∀ ops, (∀ j o, PeerOp.program j o ∈ ops → o.Fits ∧ o.Finds (files j)) →
      (∀ j h, (s.run w g ops).1.net.host j = some h → Honest w files j h) ∧
        ∀ f ∈ (s.run w g ops).1.net.flights, Sound w files f := by
    intro ops hops
    obtain ⟨ops',hnet,hsame⟩ := share_run_net w g s ops
    rw [hnet]
    exact truth_run hw hflights hhosts fun j o hmem => hops j o (hsame j o hmem)
  induction ops using List.reverseRecOn with
  | nil =>
    exact {
      honest := hhosts
      sound := (htruth [] hops).2
      fair := {
        source := by simp [Sharing.run,hflights]
        listens := by simp [Sharing.run,hflights]
        apart := by simp [Sharing.run,hflights]
        dead := fun i port _ => hlistening i port }
      correct := by simp [Sharing.run]
      asked := by simp [Sharing.run,Sharing.pending,hflights] }
  | append_singleton ops x ih =>
    have hold := ih fun j o hmem => hops j o (List.mem_append_left _ hmem)
    have hnew := htruth (ops ++ [x]) hops
    have hx : ∀ j o, x = .program j o → o.Fits := fun j o hx => (hops j o (by simp [hx])).1
    have hrun : s.run w g (ops ++ [x]) = ((x.share w g (s.run w g ops).1).1,
        (s.run w g ops).2 ++ (x.share w g (s.run w g ops).1).2) := Runs.run_snoc _ _ ops x
    have hstep := share_shares w g x (s.run w g ops).1
    rw [hrun] at hnew ⊢
    exact {
      honest := hnew.1
      sound := hnew.2
      fair := hold.fair.shares hw hold.honest hold.sound hx hstep
      correct := by
        intro deal hdeal
        rcases List.mem_append.mp hdeal with hbefore | hnow
        · exact hold.correct deal hbefore
        · exact correct_shares hold.fair hw hold.sound hstep deal hnow
      asked := by
        intro j md5sum
        have hbefore := hold.asked j md5sum
        have hnow := pending_shares hw hold.honest hold.sound hx hstep j md5sum
        simp only [List.countP_append]
        omega }

/-- In a network in which only these programs send, without translation of addresses, in
whatever order they act, datagrams arrive or get lost and connections are made: what a program
copies is always the file that it was offered, and the connection for an offer in flight
reaches the upload of that file as long as the program that has made the offer runs. -/
theorem shared_files_correct (w : Wiring ι) (hw : w.Direct) (g : PatternMatch)
    (files : ι → List FileData) (s : Sharing ι) (hflights : s.net.flights = [])
    (hlistening : ∀ i port, s.listening i port = none)
    (hhosts : ∀ j h, s.net.host j = some h → Honest w files j h) (ops : List (PeerOp ι))
    (hops : ∀ j o, .program j o ∈ ops → o.Fits ∧ o.Finds (files j)) :
    (∀ deal ∈ (s.run w g ops).2, deal.Correct files) ∧
    ∀ f ∈ (s.run w g ops).1.net.flights, ∀ h buffer i,
      (f.packet h buffer).packet.operation = replyTransferwaiting → w.route f.source = some i →
      (s.run w g ops).1.net.host i ≠ none → ∃ file ∈ files i,
        (s.run w g ops).1.upload w ⟨(f.packet h buffer).addr.addr,(f.packet h buffer).port⟩ =
          some (i,file.fullfilename) ∧
        ((f.packet h buffer).data.drop 6).take 16 = file.md5sum ∧
        (f.packet h buffer).fullfile = downloadDirectory ++ file.filename.bytes := by
  have hrun := shared_run (g:=g) hw hflights hlistening hhosts hops
  exact ⟨hrun.correct,fun f hf h buffer i hoffer hi hup =>
    hrun.fair.upload hw hf (hrun.sound f hf).proper hoffer hi hup⟩

/-- In such a network a program copies no file more often than its user has asked for the sum
of it, so an offer that was not asked for never comes. -/
theorem shared_files_asked (w : Wiring ι) (hw : w.Direct) (g : PatternMatch)
    (files : ι → List FileData) (s : Sharing ι) (hflights : s.net.flights = [])
    (hlistening : ∀ i port, s.listening i port = none)
    (hhosts : ∀ j h, s.net.host j = some h → Honest w files j h) (ops : List (PeerOp ι))
    (hops : ∀ j o, .program j o ∈ ops → o.Fits ∧ o.Finds (files j)) (j : ι)
    (md5sum : List UInt8) :
    (s.run w g ops).2.countP (Deal.isCopied j md5sum) ≤
      (s.run w g ops).2.countP (Deal.isAsked j md5sum) := by
  have hasked := (shared_run (g:=g) hw hflights hlistening hhosts hops).asked j md5sum
  omega

end Runs

/-- Every call succeeds, and a socket gets port 4660. -/
def allCalls : Calls := ⟨0,true,some ⟨0x12,0x34⟩,true,true,true,fun _ => 0⟩

/-- A program asks for the file, and so many of the datagrams that follow arrive. -/
def fetching (j : Fin 3) (n : ℕ) : List (PeerOp (Fin 3)) :=
  errand allCalls j ++ List.replicate n (.network (.deliver 0 allCalls))

theorem fetching_ops {i : Fin 3} {n : ℕ} (files : Fin 3 → List FileData) (j : Fin 3)
    (o : ProgramOp) (h : .program j o ∈ fetching i n) : o.Fits ∧ o.Finds (files j) := by
  rcases List.mem_append.mp h with herrand | hmem
  · exact ⟨errand_fits allCalls i j o herrand,errand_finds herrand _⟩
  · cases List.eq_of_mem_replicate hmem

/-- The triangle before anything is uploaded. -/
def triangleSharing : Sharing (Fin 3) := ⟨triangle,fun _ _ => none⟩

theorem shared_files_correct_triangle :
    (∀ deal ∈ (triangleSharing.run triangleWiring sameName (fetching 0 2)).2,
      deal.Correct fun j => if j = 2 then [someFile] else []) ∧
    ∀ f ∈ (triangleSharing.run triangleWiring sameName (fetching 0 1)).1.net.flights, ∀ h buffer i,
      (f.packet h buffer).packet.operation = replyTransferwaiting →
      triangleWiring.route f.source = some i →
      (triangleSharing.run triangleWiring sameName (fetching 0 1)).1.net.host i ≠ none →
      ∃ file ∈ (if i = 2 then [someFile] else []),
        (triangleSharing.run triangleWiring sameName (fetching 0 1)).1.upload triangleWiring
          ⟨(f.packet h buffer).addr.addr,(f.packet h buffer).port⟩ = some (i,file.fullfilename) ∧
        ((f.packet h buffer).data.drop 6).take 16 = file.md5sum ∧
        (f.packet h buffer).fullfile = downloadDirectory ++ file.filename.bytes :=
  ⟨(shared_files_correct triangleWiring direct_triangle sameName _ triangleSharing rfl
      (fun _ _ => rfl) honest_triangle (fetching 0 2) (fetching_ops _)).1,
    (shared_files_correct triangleWiring direct_triangle sameName _ triangleSharing rfl
      (fun _ _ => rfl) honest_triangle (fetching 0 1) (fetching_ops _)).2⟩

theorem shared_files_asked_triangle :
    (triangleSharing.run triangleWiring sameName (fetching 0 2)).2.countP
        (Deal.isCopied 0 someFile.md5sum) ≤
      (triangleSharing.run triangleWiring sameName (fetching 0 2)).2.countP
        (Deal.isAsked 0 someFile.md5sum) :=
  shared_files_asked triangleWiring direct_triangle sameName _ triangleSharing rfl
    (fun _ _ => rfl) honest_triangle (fetching 0 2) (fetching_ops _) 0 someFile.md5sum

/-- The file is asked for once and copied once, by the first program from the third. -/
example : ((triangleSharing.run triangleWiring sameName (fetching 0 2)).2.map fun
    | .asked j _ => (j,j)
    | .copied i _ j _ _ => (i,j)) = [(0,0),(2,0)] := by decide +kernel

end Pingu
end MiscUniStuff
