import MiscUniStuff.DownloadRuns
import MiscUniStuff.PacketSafety
import MiscUniStuff.PayloadCodecs
import MiscUniStuff.PingGossip
import MiscUniStuff.PingTimeouts

/-! What a program puts on the network and what it becomes: in answer to a packet, when its
user clicks, and when a server has its turn to be pinged. -/
namespace MiscUniStuff
namespace Pingu
open ByteOrder

/-! ### In answer to a packet -/

/-- What a program sends while it handles a packet, and to whom. -/
inductive Answers (g : PatternMatch) (h : Host) (p : FullPacket) : SockAddr → List UInt8 → Prop
  | server {client : SockAddr} {now : ℤ} (hop : p.packet.operation = requestPing)
      (hclient : client ∈ Host.others
        { h with servers := h.servers.checkAddServer h.order p.addr now } p.addr) :
      Answers g h p p.addr (serverReply h.order p.packet.requestHandle client)
  | noServers (hop : p.packet.operation = requestPing) :
      Answers g h p p.addr (noServersReply h p.packet.requestHandle)
  | file {f : FileData} (hop : p.packet.operation = requestFilesearch) (hp : 8 ≤ p.data.length)
      (hf : f ∈ matching g h p) :
      Answers g h p ⟨setDestinationIp p.address p.addr.addr,p.port⟩ (sendPacket h.order
        (fillinPacket h.order replyFilesearch (UInt16.ofNat (20+f.fullfilename.strlen))
          p.packet.requestHandle) (fileDetails h f))
  | copy {dest : SockAddr} (hop : p.packet.operation = requestFilesearch)
      (hp : 8 ≤ p.data.length) (hdest : dest ∈ forwardDests h p) :
      Answers g h p dest (sendPacket h.order p.forwardHeader p.forwardData)
  | offer {f : FileData} {port : InPort} {junk : ℕ → UInt8}
      (hop : p.packet.operation = requestWantfile) (hp : 16 ≤ p.data.length)
      (hf : h.database.find? (fun f => f.md5sum = p.data.take 16) = some f) :
      Answers g h p p.addr (sendPacket h.order
        (fillinPacket h.order replyTransferwaiting
          (UInt16.ofNat (transferPayload port junk f.filename f.md5sum).length)
          p.packet.requestHandle) (transferPayload port junk f.filename f.md5sum))

section Packets
variable {g : PatternMatch} {c : Calls} {p : FullPacket} {h h' : Host} {acts : List Action}
  {m : List FileData} {dest : SockAddr} {bytes : List UInt8}

/-- With a whole sum in the request, the first entry that has it is offered. -/
theorem getRequestWantfile_eq (hp : 16 ≤ p.data.length) : getRequestWantfile c h p m =
    match m.find? (fun f => f.md5sum = p.data.take 16) with
    | none => .ok []
    | some f => downloadSendFile c h p f := by
  induction m with
  | nil => rfl
  | cons f m ih =>
    have hlong : ¬Truncated (p.data.drop 0) f.md5sum := by
      rintro ⟨-,hlt⟩
      rw [f.md5_length,List.drop_zero] at hlt
      omega
    have hsame : f.md5sum <+: p.data ↔ f.md5sum = p.data.take 16 := by
      rw [List.prefix_iff_eq_take,f.md5_length]
    simp only [getRequestWantfile,md5cmp_ok hlong,List.drop_zero,hsame,bind,Except.bind,
      decide_eq_true_eq]
    by_cases heq : f.md5sum = p.data.take 16
    · simp [heq]
    · simp [heq,ih]

theorem getRequestWantfile_short (hp : p.data.length < 16)
    (hr : getRequestWantfile c h p m = .ok acts) : acts = [] := by
  induction m with
  | nil =>
    cases hr
    rfl
  | cons f m ih =>
    by_cases ht : Truncated (p.data.drop 0) f.md5sum
    · simp [getRequestWantfile,md5cmp_truncated ht,bind,Except.bind] at hr
    · have hno : ¬f.md5sum <+: p.data := by
        intro hpre
        have hle := hpre.length_le
        rw [f.md5_length] at hle
        omega
      simp only [getRequestWantfile,md5cmp_ok ht,List.drop_zero,hno,decide_false,bind,Except.bind,
        Bool.false_eq_true,if_false] at hr
      exact ih hr

theorem applyPacket_wantfile (hacc : Accepted h.order p)
    (hop : p.packet.operation = requestWantfile) : applyPacket g c p h =
      (getRequestWantfile c h p h.database).map fun acts => (h,acts) := by
  simp [applyPacket,hacc,applyOperation,hop,requestPing,requestFilesearch,requestWantfile]

/-- Only an offer is sent for a request, with the sum of the request. -/
theorem downloadSendFile_sends {f : FileData} (hp : 16 ≤ p.data.length)
    (hf : f.md5sum = p.data.take 16) (hr : downloadSendFile c h p f = .ok acts)
    (hmem : .sendto dest bytes ∈ acts) : ∃ port junk, dest = p.addr ∧ bytes = sendPacket h.order
      (fillinPacket h.order replyTransferwaiting
        (UInt16.ofNat (transferPayload port junk f.filename f.md5sum).length)
        p.packet.requestHandle) (transferPayload port junk f.filename f.md5sum) := by
  by_cases hopen : c.opened = true ∧ ∃ port, c.listenport = some port
  · obtain ⟨hopen,port,hport⟩ := hopen
    rw [downloadSendFile_eq hopen hport hp,Except.ok.injEq] at hr
    subst acts
    simp only [downloadSendFileReply,← hf,List.mem_cons,Action.sendto.injEq,reduceCtorEq,
      List.not_mem_nil,or_false] at hmem
    exact ⟨port,c.junk,hmem.1,hmem.2⟩
  · unfold downloadSendFile at hr
    split at hr
    · rename_i port hopened hport
      exact absurd ⟨hopened,port,hport⟩ hopen
    · cases hr
      simp at hmem

theorem downloadReplyTransferwaiting_sends (hr : downloadReplyTransferwaiting c p = .ok acts) :
    .sendto dest bytes ∉ acts := by
  by_cases hp : 22 ≤ p.data.length
  · rw [downloadReplyTransferwaiting_eq hp,Except.ok.injEq] at hr
    subst acts
    split_ifs
    · simp
    · simp
    · simp
    · simp
  · rw [downloadReplyTransferwaiting_short (not_le.mp hp)] at hr
    cases hr

/-- Whatever is sent while a packet is handled is one of these answers. -/
theorem answers_of_mem (hr : applyPacket g c p h = .ok (h',acts))
    (hmem : .sendto dest bytes ∈ acts) : Answers g h p dest bytes := by
  by_cases hacc : Accepted h.order p
  · have hrun := hr
    simp only [applyPacket,if_pos hacc,applyOperation] at hrun
    split_ifs at hrun with h₁ h₂ h₃ h₄ h₅ h₆ h₇
    · cases hrun
      rw [generateReplyServers_eq] at hmem
      obtain ⟨data,hdata,heq⟩ := List.mem_map.mp hmem
      cases heq
      unfold pingReplies at hdata
      split_ifs at hdata
      · rw [List.mem_singleton.mp hdata]
        exact .noServers h₁
      · obtain ⟨client,hclient,rfl⟩ := List.mem_map.mp hdata
        exact .server h₁ hclient
    · rcases applyPacket_search h₂ hr with ⟨-,rfl | ⟨hp,rfl⟩⟩
      · cases hmem
      · rcases List.mem_append.mp hmem with hm | hm
        · obtain ⟨f,hf,heq⟩ := List.mem_map.mp hm
          cases heq
          exact .file h₂ hp hf
        · rw [forwards_eq] at hm
          obtain ⟨a,ha,heq⟩ := List.mem_map.mp hm
          cases heq
          exact .copy h₂ hp ha
    · obtain ⟨sent,hsent,heq⟩ := map_eq_ok.mp hrun
      cases heq
      by_cases hp : 16 ≤ p.data.length
      · rw [getRequestWantfile_eq hp] at hsent
        cases hf : h.database.find? (fun f => f.md5sum = p.data.take 16) with
        | none =>
          simp only [hf] at hsent
          cases hsent
          cases hmem
        | some f =>
          simp only [hf] at hsent
          have hsum : f.md5sum = p.data.take 16 := by simpa using List.find?_some hf
          obtain ⟨port,junk,rfl,rfl⟩ := downloadSendFile_sends hp hsum hsent hmem
          exact .offer h₃ hp hf
      · rw [getRequestWantfile_short (not_le.mp hp) hsent] at hmem
        cases hmem
    · obtain ⟨made,hmade,heq⟩ := map_eq_ok.mp hrun
      cases heq
      exact absurd hmem (downloadReplyTransferwaiting_sends hmade)
    · rw [(applyPacket_reply h₅ hr).1] at hmem
      cases hmem
    · obtain ⟨k,-,heq⟩ := map_eq_ok.mp hrun
      cases heq
      cases hmem
    · cases hrun
      cases hmem
    · cases hrun
      cases hmem
  · simp only [applyPacket,if_neg hacc,Except.ok.injEq,Prod.mk.injEq] at hr
    rw [← hr.2] at hmem
    cases hmem

/-- What a packet leaves as it is, and the rows that it adds. -/
structure Becomes (p : FullPacket) (h h' : Host) : Prop where
  order : h'.order = h.order
  database : h'.database = h.database
  requests : h'.requests = h.requests
  rows : ∀ model, ∀ k ∈ h'.models model, k ∈ h.models model ∨
    p.packet.operation = replyFilesearch ∧ 20 ≤ p.data.length ∧ k = p.response h.order

theorem becomes_servers (h : Host) (servers : Servers) :
    Becomes p h { h with servers := servers } :=
  ⟨rfl,rfl,rfl,fun _ _ hk => Or.inl hk⟩

theorem becomes_self (h : Host) : Becomes p h h := becomes_servers h h.servers

theorem becomes_addRow (hop : p.packet.operation = replyFilesearch) (hp : 20 ≤ p.data.length)
    (model : ℕ) : Becomes p h (h.addRow model (p.response h.order)) where
  order := rfl
  database := rfl
  requests := rfl
  rows := by
    intro i k hk
    by_cases hi : i = model
    · subst i
      simp only [Host.addRow,Function.update_self,List.mem_append,List.mem_singleton] at hk
      exact hk.imp_right fun hk => ⟨hop,hp,hk⟩
    · simp only [Host.addRow,Function.update_of_ne hi] at hk
      exact Or.inl hk

theorem getReplySearch_becomes (hop : p.packet.operation = replyFilesearch)
    (hr : getReplySearch h p = .ok h') : Becomes p h h' := by
  rcases hout : h.requests.outstanding p.packet.requestHandle with _ | ⟨b,l⟩
  · rw [getReplySearch_missing hout] at hr
    cases hr
  · cases ha : l.active with
    | false =>
      rw [getReplySearch_inactive hout ha] at hr
      cases hr
      exact becomes_self h
    | true =>
      by_cases hp : 20 ≤ p.data.length
      · rw [getReplySearch_active hout ha hp] at hr
        cases hd : l.data with
        | none => simp [hd] at hr
        | some model =>
          rw [hd] at hr
          cases hr
          exact becomes_addRow hop hp model
      · rw [getReplySearch_short hout ha (not_le.mp hp)] at hr
        cases hr

theorem applyPacket_becomes (hr : applyPacket g c p h = .ok (h',acts)) : Becomes p h h' := by
  by_cases hacc : Accepted h.order p
  · have hrun := hr
    simp only [applyPacket,if_pos hacc,applyOperation] at hrun
    split_ifs at hrun with h₁ h₂ h₃ h₄ h₅ h₆ h₇
    · cases hrun
      exact becomes_servers h _
    · obtain ⟨found,-,heq⟩ := map_eq_ok.mp hrun
      cases heq
      exact becomes_self h
    · obtain ⟨sent,-,heq⟩ := map_eq_ok.mp hrun
      cases heq
      exact becomes_self h
    · obtain ⟨made,-,heq⟩ := map_eq_ok.mp hrun
      cases heq
      exact becomes_self h
    · obtain ⟨h'',hget,heq⟩ := map_eq_ok.mp hrun
      cases heq
      exact getReplySearch_becomes h₅ hget
    · obtain ⟨k,hk,heq⟩ := map_eq_ok.mp hrun
      cases heq
      have hp : 6 ≤ p.data.length := by
        by_contra hlt
        rw [addUpstreamServer_short (not_le.mp hlt)] at hk
        cases hk
      rw [addUpstreamServer_eq hp] at hk
      cases hk
      exact becomes_servers h _
    · cases hrun
      exact becomes_servers h _
    · cases hrun
      exact becomes_self h
  · simp only [applyPacket,if_neg hacc,Except.ok.injEq,Prod.mk.injEq] at hr
    rw [← hr.1]
    exact becomes_self h

end Packets

/-! ### On a click, and when a server has its turn -/

/-- `get_reply_download_file`. -/
def getReplyDownloadFile (calls : Calls) (k : FiledataResponse) (h : Host) : Host × List Action :=
  downloadMakeRequest calls k.md5sum k.addr h

/-- `clicked_filesearch_download` with the given row of a result list selected, if there is
one. -/
def clickedFilesearchDownload (calls : Calls) (model row : ℕ) (h : Host) : Host × List Action :=
  match (h.models model)[row]? with
  | some k => getReplyDownloadFile calls k h
  | none => (h,[])

/-- The pings among what is noted of the pool. -/
def pings (o : Order) : List PingEvent → List Action :=
  List.filterMap fun
    | .pinged client => some (.sendto client (sendPacket o (fillinPacket o requestPing 0 0) []))
    | _ => none

/-- What the user and the other threads of a program do: search, download a row, close the
tab of a search, sweep the requests, scan the directory again, connect to a host, and take the
turn of the active server at some place of the list. -/
inductive ProgramOp
  | searchfile (calls : Calls) (search : CString)
  | download (calls : Calls) (model row : ℕ)
  | close (req : UInt16)
  | timeout (curt : ℤ)
  | rescan (found : List FileData)
  | connect (host : InAddr) (now : ℤ)
  | ping (i : ℕ) (now : ℤ)

def ProgramOp.step : ProgramOp → Host → Host × List Action
  | searchfile calls search, h => Pingu.searchfile calls search h
  | download calls model row, h => clickedFilesearchDownload calls model row h
  | close req, h => ((filesearchUnallocateRequest req h).1,[])
  | timeout curt, h => ({ h with requests := (h.requests.requestDoTimeout curt).1 },[])
  | rescan found, h => ({ h with database := found },[])
  | connect host now, h =>
    ({ h with servers := (Pingers.doConnection host now ⟨h.servers,[]⟩).1.servers },[])
  | ping i now, h =>
    match h.servers.sockets[i]? with
    | none => (h,[])
    | some servlet =>
      let turn := Pingers.idlePinger servlet now ⟨h.servers,[]⟩
      ({ h with servers := turn.1.servers },pings h.order turn.2)

/-- What a program sends on its own, and to whom. -/
inductive Starts (h : Host) : ProgramOp → SockAddr → List UInt8 → Prop
  | ping {i : ℕ} {now : ℤ} {servlet : ℕ} (hi : h.servers.sockets[i]? = some servlet) :
      Starts h (.ping i now) (h.servers.servlet servlet).client
        (sendPacket h.order (fillinPacket h.order requestPing 0 0) [])
  | search {calls : Calls} {search : CString} {dest : SockAddr} (hdest : dest ∈ h.known) :
      Starts h (.searchfile calls search) dest (sendPacket h.order
        (fillinPacket h.order requestFilesearch (UInt16.ofNat (8+search.strlen)) h.requests.found)
        (searchPayload h.order calls.junk search))
  | want {calls : Calls} {model row : ℕ} {k : FiledataResponse}
      (hk : (h.models model)[row]? = some k) :
      Starts h (.download calls model row) k.addr (sendPacket h.order
        (fillinPacket h.order requestWantfile 16 h.requests.found) k.md5sum)

section Programs
variable {o : ProgramOp} {h : Host} {dest : SockAddr} {bytes : List UInt8}

theorem look_pings {l : List ℕ} {p : Prop} [Decidable p] {now : ℤ} (client : SockAddr) :
    PingEvent.pinged client ∉ l.map (fun j => .started j now) ++ if p then [.asked] else [] := by
  split_ifs
  · simp
  · simp

/-- Only the server that has its turn is pinged. -/
theorem pinged_idlePinger {client : SockAddr} {k : ℕ} {now : ℤ} {s : Pingers}
    (h : .pinged client ∈ (s.idlePinger k now).2) : client = (s.servers.servlet k).client := by
  have hping : .pinged client ∈ (Pingers.sendPing k now s.servers).2 := by
    have hremoval : .pinged client ∉ Pingers.removal k now s.servers := by
      rw [Pingers.removal]
      split_ifs
      · simp
      · simp
    by_cases hout : (s.servers.servlet k).lastponged+pongTime < now
    · by_cases hlast : s.servers.sockets.erase k = []
      · rw [Pingers.idlePinger_last k now s hout hlast,List.mem_append,List.mem_append] at h
        exact (h.resolve_right (look_pings client)).resolve_right hremoval
      · rw [Pingers.idlePinger_removes k now s hout hlast,List.mem_append] at h
        exact h.resolve_right hremoval
    · rwa [Pingers.idlePinger_waits k now s hout] at h
  obtain hnone | hone := Pingers.sendPing_events (f:=now) k s.servers
  · rw [hnone] at hping
    cases hping
  · rw [hone,List.mem_singleton,PingEvent.pinged.injEq] at hping
    exact hping

theorem starts_of_mem (hmem : .sendto dest bytes ∈ (o.step h).2) : Starts h o dest bytes := by
  cases o with
  | searchfile calls search =>
    simp only [ProgramOp.step,searchfile_snd] at hmem
    obtain ⟨a,ha,heq⟩ := List.mem_map.mp hmem
    cases heq
    exact .search ha
  | download calls model row =>
    simp only [ProgramOp.step,clickedFilesearchDownload] at hmem
    cases hrow : (h.models model)[row]? with
    | none =>
      rw [hrow] at hmem
      cases hmem
    | some k =>
      simp only [hrow,getReplyDownloadFile,downloadMakeRequest_wants,List.mem_singleton,
        Action.sendto.injEq] at hmem
      obtain ⟨rfl,rfl⟩ := hmem
      exact .want hrow
  | close req => cases hmem
  | timeout curt => cases hmem
  | rescan found => cases hmem
  | connect host now => cases hmem
  | ping i now =>
    simp only [ProgramOp.step] at hmem
    cases hi : h.servers.sockets[i]? with
    | none =>
      rw [hi] at hmem
      cases hmem
    | some servlet =>
      simp only [hi,pings,List.mem_filterMap] at hmem
      obtain ⟨e,hmem,he⟩ := hmem
      cases e with
      | pinged client =>
        cases he
        obtain rfl := pinged_idlePinger hmem
        exact .ping hi
      | _ => cases he

/-- The files that a program serves after such a step. -/
def ProgramOp.database : ProgramOp → List FileData → List FileData
  | rescan found, _ => found
  | _, database => database

/-- Only the scan of its directory changes what a program serves, and nothing that it does on its
own adds a row. -/
structure Keeps (o : ProgramOp) (h h' : Host) : Prop where
  order : h'.order = h.order
  database : h'.database = o.database h.database
  rows : ∀ model, ∀ k ∈ h'.models model, k ∈ h.models model

theorem keeps_step (o : ProgramOp) (h : Host) : Keeps o h (o.step h).1 := by
  cases o with
  | searchfile calls search =>
    refine ⟨rfl,rfl,?_⟩
    intro model k hk
    simp only [ProgramOp.step,searchfile] at hk
    by_cases hm : model = h.nextModel
    · simp [hm] at hk
    · simpa [hm] using hk
  | download calls model row =>
    simp only [ProgramOp.step,clickedFilesearchDownload]
    cases (h.models model)[row]? with
    | none => exact ⟨rfl,rfl,fun _ _ hk => hk⟩
    | some k => exact ⟨rfl,rfl,fun _ _ hk => hk⟩
  | close req => exact ⟨rfl,rfl,fun _ _ hk => hk⟩
  | timeout curt => exact ⟨rfl,rfl,fun _ _ hk => hk⟩
  | rescan found => exact ⟨rfl,rfl,fun _ _ hk => hk⟩
  | connect host now => exact ⟨rfl,rfl,fun _ _ hk => hk⟩
  | ping i now =>
    simp only [ProgramOp.step]
    cases h.servers.sockets[i]? with
    | none => exact ⟨rfl,rfl,fun _ _ hk => hk⟩
    | some servlet => exact ⟨rfl,rfl,fun _ _ hk => hk⟩

end Programs

end Pingu
end MiscUniStuff
