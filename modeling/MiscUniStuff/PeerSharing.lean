import MiscUniStuff.PeerTruth

/-! The same network with the sockets that uploads listen on: a file is copied over a
connection to such a socket, which is closed when somebody connects. -/
namespace MiscUniStuff
namespace Pingu
open ByteOrder

/-! ### Uploads and connections -/

/-- The programs and the datagrams, and the file that an upload listens to send on each port
of each machine. -/
structure Sharing (ι : Type) where
  net : Net ι
  listening : ι → InPort → Option CString

/-- What is noted of a run: the user of a program asks for a sum, and a program starts to copy
a file of another, with the connection made and the new file created. -/
inductive Deal (ι : Type)
  | asked (j : ι) (md5sum : List UInt8)
  | copied (i : ι) (fullfilename : CString) (j : ι) (md5sum fullfile : List UInt8)

/-- The upload that a connection reaches. The machine at an address is the one of the program
that gets the datagrams there. -/
def Sharing.upload {ι : Type} (w : Wiring ι) (s : Sharing ι) (ad : SockAddr) :
    Option (ι × CString) :=
  (w.route ⟨ad.addr,connectionPort⟩).bind fun i => (s.listening i ad.port).map (i,·)

/-- The calls of a program while it handles a packet: `getsockname` finds a port on which
nobody else listens there, and `connect` succeeds only where somebody listens. -/
def Sharing.calls {ι : Type} (w : Wiring ι) (s : Sharing ι) (j : ι) (p : FullPacket)
    (c : Calls) : Calls :=
  { c with
    listenport := c.listenport.filter fun port => (s.listening j port).isNone
    connected := c.connected && (s.upload w ⟨p.addr.addr,p.port⟩).isSome }

/-- The sums that the user asks for. -/
def ProgramOp.wants (h : Host) : ProgramOp → List (List UInt8)
  | download _ model row => (((h.models model)[row]?).map FiledataResponse.md5sum).toList
  | _ => []

section Steps
variable {ι : Type} [DecidableEq ι]

/-- The sockets after an action of program `j`: `download_send_file` leaves one on the port that
it has found, and `download_send_accept` closes the one that is connected to. -/
def afterAction (w : Wiring ι) (j : ι) (c : Calls) (listening : ι → InPort → Option CString) :
    Action → ι → InPort → Option CString
  | .downloadPool (some fullfilename) =>
    match c.listenport with
    | some port =>
      Function.update listening j (Function.update (listening j) port (some fullfilename))
    | none => listening
  | .connect ad =>
    match w.route ⟨ad.addr,connectionPort⟩ with
    | some i =>
      if c.connected then Function.update listening i (Function.update (listening i) ad.port none)
      else listening
    | none => listening
  | _ => listening

/-- The copy that is noted if `upload_pool` gets to work for a packet. -/
def Sharing.copies (w : Wiring ι) (s : Sharing ι) (j : ι) (p : FullPacket) (acts : List Action) :
    List (Deal ι) :=
  if .uploadPool ∈ acts then
    match s.upload w ⟨p.addr.addr,p.port⟩ with
    | some (i,fullfilename) =>
      [.copied i fullfilename j ((p.data.drop 6).take 16) p.fullfile]
    | none => []
  else []

/-- A program that is stopped listens no more. -/
def PeerOp.share (w : Wiring ι) (g : PatternMatch) :
    PeerOp ι → Sharing ι → Sharing ι × List (Deal ι)
  | program j o, s =>
    (⟨((program j o).step w g s.net).1,s.listening⟩,
      match s.net.host j with
      | none => []
      | some h => (o.wants h).map (.asked j))
  | network (.lose i), s => (⟨(NetOp.step w g (.lose i) s.net).1,s.listening⟩,[])
  | network (.deliver i c), s =>
    match (s.net.flights[i]?).bind fun f => (s.net.receiver w f).map (f,·) with
    | none => (⟨(NetOp.step w g (.deliver i c) s.net).1,s.listening⟩,[])
    | some (f,j,h) =>
      let p := f.packet h (s.net.buffer j)
      let c := s.calls w j p c
      let net := (NetOp.step w g (.deliver i c) s.net).1
      match applyPacket g c p h with
      | .error _ => (⟨net,Function.update s.listening j fun _ => none⟩,[])
      | .ok (_,acts) => (⟨net,acts.foldl (afterAction w j c) s.listening⟩,s.copies w j p acts)

/-- The state after a list of such steps, and what is noted of them. -/
def Sharing.run (w : Wiring ι) (g : PatternMatch) (s : Sharing ι) (ops : List (PeerOp ι)) :
    Sharing ι × List (Deal ι) := Runs.run (PeerOp.share w g) s ops

/-- The things that happen: nothing, an act of a program, a loss, a delivery to nobody, a crash, or
the handling of a packet. -/
inductive Shares (w : Wiring ι) (g : PatternMatch) (s : Sharing ι) :
    PeerOp ι → Sharing ι → List (Deal ι) → Prop
  | absent {j : ι} {o : ProgramOp} (hh : s.net.host j = none) : Shares w g s (.program j o) s []
  | acted {j : ι} {o : ProgramOp} {h : Host} (hh : s.net.host j = some h) :
      Shares w g s (.program j o)
        ⟨{ s.net with
            host := Function.update s.net.host j (some (o.step h).1)
            flights := s.net.flights ++ launch w j (follow .other [] (o.step h).2) },s.listening⟩
        ((o.wants h).map (.asked j))
  | lost (i : ℕ) : Shares w g s (.network (.lose i))
      ⟨{ s.net with flights := Bags.exchange s.net.flights i [] },s.listening⟩ []
  | undelivered {i : ℕ} {c : Calls}
      (hf : ∀ f, s.net.flights[i]? = some f → s.net.receiver w f = none) :
      Shares w g s (.network (.deliver i c))
        ⟨{ s.net with flights := Bags.exchange s.net.flights i [] },s.listening⟩ []
  | crashed {i : ℕ} {c : Calls} {f : Flight} {j : ι} {h : Host} {e : Fault}
      (hf : s.net.flights[i]? = some f) (hj : w.route f.dest = some j) (hh : s.net.host j = some h)
      (he : applyPacket g (s.calls w j (f.packet h (s.net.buffer j)) c)
        (f.packet h (s.net.buffer j)) h = .error e) :
      Shares w g s (.network (.deliver i c))
        ⟨{ host := Function.update s.net.host j none
           buffer := Function.update s.net.buffer j (recvfrom f.datagram (s.net.buffer j))
           flights := Bags.exchange s.net.flights i [] },
          Function.update s.listening j fun _ => none⟩ []
  | handled {i : ℕ} {c : Calls} {f : Flight} {j : ι} {h h' : Host} {acts : List Action}
      (hf : s.net.flights[i]? = some f) (hj : w.route f.dest = some j) (hh : s.net.host j = some h)
      (ha : applyPacket g (s.calls w j (f.packet h (s.net.buffer j)) c)
        (f.packet h (s.net.buffer j)) h = .ok (h',acts)) :
      Shares w g s (.network (.deliver i c))
        ⟨{ host := Function.update s.net.host j (some h')
           buffer := Function.update s.net.buffer j (recvfrom f.datagram (s.net.buffer j))
           flights := Bags.exchange s.net.flights i (launch w j
            (follow f.trace (matching g h (f.packet h (s.net.buffer j))) acts)) },
          acts.foldl (afterAction w j (s.calls w j (f.packet h (s.net.buffer j)) c)) s.listening⟩
        (s.copies w j (f.packet h (s.net.buffer j)) acts)

theorem share_shares (w : Wiring ι) (g : PatternMatch) (o : PeerOp ι) (s : Sharing ι) :
    Shares w g s o (o.share w g s).1 (o.share w g s).2 := by
  cases o with
  | program j o =>
    cases hh : s.net.host j with
    | none => simpa [PeerOp.share,PeerOp.step,hh] using Shares.absent (w:=w) (g:=g) (o:=o) hh
    | some h => simpa [PeerOp.share,PeerOp.step,hh] using Shares.acted (w:=w) (g:=g) (o:=o) hh
  | network o =>
    cases o with
    | lose i =>
      simpa [PeerOp.share,NetOp.step,Bags.exchange] using
        Shares.lost (w:=w) (g:=g) (s:=s) i
    | deliver i c =>
      cases hf : s.net.flights[i]? with
      | none =>
        have hlen := List.getElem?_eq_none_iff.mp hf
        have hidle := Shares.undelivered (w:=w) (g:=g) (s:=s) (i:=i) (c:=c) (by simp [hf])
        rw [Bags.exchange,List.append_nil,List.eraseIdx_of_length_le hlen] at hidle
        simpa [PeerOp.share,NetOp.step,hf] using hidle
      | some f =>
        cases hr : s.net.receiver w f with
        | none =>
          simpa [PeerOp.share,NetOp.step,hf,hr,Bags.exchange] using
            Shares.undelivered (w:=w) (g:=g) (s:=s) (i:=i) (c:=c) (by simp [hf,hr])
        | some r =>
          obtain ⟨j,h⟩ := r
          have hto := hr
          simp only [Net.receiver,Option.bind_eq_some_iff,Option.map_eq_some_iff,
            Prod.mk.injEq] at hto
          obtain ⟨j',hj,h₁,hh,rfl,rfl⟩ := hto
          simp only [PeerOp.share,hf,hr,Option.bind_some,Option.map_some]
          cases ha : applyPacket g (s.calls w j' (f.packet h₁ (s.net.buffer j')) c)
              (f.packet h₁ (s.net.buffer j')) h₁ with
          | error e =>
            simpa [NetOp.step,hf,hr,Net.receive,ha,Bags.exchange] using
              Shares.crashed (w:=w) hf hj hh ha
          | ok r =>
            simpa [NetOp.step,hf,hr,Net.receive,ha,Bags.exchange] using
              Shares.handled (w:=w) hf hj hh ha

/-- The network does not see the sockets: it takes such a step itself, with what the calls have
returned. -/
theorem share_net (w : Wiring ι) (g : PatternMatch) (x : PeerOp ι) (s : Sharing ι) :
    ∃ x' : PeerOp ι, (x.share w g s).1.net = (x'.step w g s.net).1 ∧
      ∀ j o, x' = .program j o → x = .program j o := by
  cases x with
  | program j o => exact ⟨.program j o,rfl,fun _ _ h => h⟩
  | network o =>
    have hnet : ∀ o' : NetOp, ∀ j p, (PeerOp.network o' : PeerOp ι) = .program j p →
        PeerOp.network o = .program j p := by
      intro o' j p h
      cases h
    cases o with
    | lose i => exact ⟨.network (.lose i),rfl,hnet _⟩
    | deliver i c =>
      simp only [PeerOp.share]
      split
      · exact ⟨.network (.deliver i c),rfl,hnet _⟩
      · rename_i f j h _
        refine ⟨.network (.deliver i (s.calls w j (f.packet h (s.net.buffer j)) c)),?_,hnet _⟩
        split
        · rfl
        · rfl

theorem share_run_net (w : Wiring ι) (g : PatternMatch) (s : Sharing ι) (ops : List (PeerOp ι)) :
    ∃ ops', (s.run w g ops).1.net = (s.net.peers w g ops').1 ∧
      ∀ j o, .program j o ∈ ops' → .program j o ∈ ops := by
  induction ops using List.reverseRecOn with
  | nil => exact ⟨[],rfl,fun _ _ h => h⟩
  | append_singleton ops x ih =>
    obtain ⟨ops',hnet,hops⟩ := ih
    obtain ⟨x',hx,hprogram⟩ := share_net w g x (s.run w g ops).1
    refine ⟨ops' ++ [x'],?_,fun j o hmem => ?_⟩
    · rw [peers_snoc,← hnet,← hx,Sharing.run,Runs.run_snoc]
      rfl
    · rcases List.mem_append.mp hmem with hold | hnew
      · exact List.mem_append_left _ (hops j o hold)
      · rw [hprogram j o (List.mem_singleton.mp hnew).symm]
        exact List.mem_append_right _ (List.mem_singleton_self _)

end Steps

/-! ### What a packet does to the sockets -/

section Packets
variable {g : PatternMatch} {c : Calls} {p : FullPacket} {h h' : Host} {acts : List Action}

/-- A request with a whole sum is answered at most once, with a port that is listened on. -/
theorem getRequestWantfile_acts {m : List FileData} (hp : 16 ≤ p.data.length)
    (hr : getRequestWantfile c h p m = .ok acts) : acts = [] ∨ acts = [.downloadPool none] ∨
      ∃ f ∈ m, ∃ port, f.md5sum = p.data.take 16 ∧ c.listenport = some port ∧
        acts = [downloadSendFileReply h p port c.junk f.filename f.md5sum,
          .downloadPool (some f.fullfilename)] := by
  rw [getRequestWantfile_eq hp] at hr
  cases hf : m.find? (fun f => f.md5sum = p.data.take 16) with
  | none =>
    simp only [hf] at hr
    cases hr
    exact Or.inl rfl
  | some f =>
    simp only [hf] at hr
    have hsum : f.md5sum = p.data.take 16 := by simpa using List.find?_some hf
    by_cases hopen : c.opened = true ∧ ∃ port, c.listenport = some port
    · obtain ⟨hopen,port,hport⟩ := hopen
      rw [downloadSendFile_eq hopen hport hp,← hsum,Except.ok.injEq] at hr
      exact Or.inr (Or.inr ⟨f,List.mem_of_find?_eq_some hf,port,hsum,hport,hr.symm⟩)
    · unfold downloadSendFile at hr
      split at hr
      · rename_i port hopened hport
        exact absurd ⟨hopened,port,hport⟩ hopen
      · cases hr
        exact Or.inr (Or.inl rfl)

/-- Handlers of the other operations do nothing but send. -/
theorem applyPacket_sends (hwant : p.packet.operation ≠ requestWantfile)
    (hoffer : p.packet.operation ≠ replyTransferwaiting)
    (hr : applyPacket g c p h = .ok (h',acts)) :
    ∀ a ∈ acts, ∃ dest bytes, a = .sendto dest bytes := by
  by_cases hacc : Accepted h.order p
  · have hrun := hr
    simp only [applyPacket,if_pos hacc,applyOperation,if_neg hwant,if_neg hoffer] at hrun
    split_ifs at hrun with h₁ h₂ h₃ h₄ h₅
    · cases hrun
      rw [generateReplyServers_eq]
      intro a ha
      obtain ⟨data,-,rfl⟩ := List.mem_map.mp ha
      exact ⟨_,_,rfl⟩
    · rcases applyPacket_search h₂ hr with ⟨-,rfl | ⟨-,rfl⟩⟩
      · simp
      · rw [forwards_eq]
        intro a ha
        rcases List.mem_append.mp ha with hm | hm
        · obtain ⟨f,-,rfl⟩ := List.mem_map.mp hm
          exact ⟨_,_,rfl⟩
        · obtain ⟨f,-,rfl⟩ := List.mem_map.mp hm
          exact ⟨_,_,rfl⟩
    · rw [(applyPacket_reply h₃ hr).1]
      simp
    · obtain ⟨k,-,heq⟩ := map_eq_ok.mp hrun
      cases heq
      simp
    · cases hrun
      simp
    · cases hrun
      simp
  · simp only [applyPacket,if_neg hacc,Except.ok.injEq,Prod.mk.injEq] at hr
    rw [← hr.2]
    simp

/-- Only for an offer something is copied. -/
theorem applyPacket_uploadPool (hoffer : p.packet.operation ≠ replyTransferwaiting)
    (hr : applyPacket g c p h = .ok (h',acts)) : .uploadPool ∉ acts := by
  by_cases hwant : p.packet.operation = requestWantfile
  · by_cases hacc : Accepted h.order p
    · rw [applyPacket_wantfile hacc hwant] at hr
      obtain ⟨made,hmade,heq⟩ := map_eq_ok.mp hr
      cases heq
      by_cases hp : 16 ≤ p.data.length
      · rcases getRequestWantfile_acts hp hmade with rfl | rfl | ⟨file,-,port,-,-,rfl⟩
        · simp
        · simp
        · simp [downloadSendFileReply]
      · rw [getRequestWantfile_short (not_le.mp hp) hmade]
        simp
    · simp only [applyPacket,if_neg hacc,Except.ok.injEq,Prod.mk.injEq] at hr
      rw [← hr.2]
      simp
  · intro hmem
    obtain ⟨dest,bytes,heq⟩ := applyPacket_sends hwant hoffer hr _ hmem
    cases heq

end Packets

end Pingu
end MiscUniStuff
