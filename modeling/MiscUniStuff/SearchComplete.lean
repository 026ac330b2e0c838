import MiscUniStuff.DeclaredLength
import MiscUniStuff.PeerNetwork
import MiscUniStuff.SearchResults

/-! A search when nothing is lost: what travels accounts for every answer that is not yet a
row, so when it has all arrived there is exactly one row for each way to a file. -/
namespace MiscUniStuff
namespace Pingu
open ByteOrder

/-- What a copy or a reply may still bring about. -/
def Leads (hops : List SockAddr) (file : FileData) : Trace → Prop
  | .search x => x <+: hops
  | .reply x f => x = hops ∧ f = file
  | .other => False

/-- What is small enough for UDP is put on the network. -/
theorem trace_mem_launch {ι : Type} {w : Wiring ι} {j : ι} {l : List (Action × Trace)}
    {dest : SockAddr} {data : List UInt8} {t : Trace} (hmem : (.sendto dest data,t) ∈ l)
    (hlen : data.length ≤ maxDatagram) : t ∈ (launch w j l).map Flight.trace := by
  refine List.mem_map.mpr ⟨⟨w.seen j dest,dest,⟨data,hlen⟩,t⟩,?_,rfl⟩
  exact mem_launch.mpr ⟨rfl,hmem⟩

section Ways
variable {ι : Type} {w : Wiring ι} {s : Net ι} {o : ι} {hops x : List SockAddr}

theorem Walk.exists_first (hw : Walk w s o hops) :
    ∃ h a rest, s.host o = some h ∧ a ∈ h.known ∧ hops = a::rest := by
  induction hw with
  | search ho ha => exact ⟨_,_,[],ho,ha,rfl⟩
  | @passon hops j h a hw hj hh ha hne ih =>
    obtain ⟨h₁,b,rest,ho,hb,rfl⟩ := ih
    exact ⟨h₁,b,rest ++ [a],ho,hb,rfl⟩

/-- A way goes on from each of its beginnings to a server known there. -/
theorem Walk.continues (hw : Walk w s o hops) (hx : x <+: hops) (hne : x ≠ []) :
    x = hops ∨ ∃ j h a, position w o x = some j ∧ s.host j = some h ∧ a ∈ h.known ∧
      sender w o x ≠ some a ∧ x ++ [a] <+: hops := by
  induction hw with
  | search ho ha =>
    obtain ⟨y,hy⟩ := hx
    rcases List.append_eq_singleton_iff.mp hy with ⟨rfl,-⟩ | ⟨rfl,-⟩
    · exact absurd rfl hne
    · exact .inl rfl
  | @passon hops j h a hw hj hh ha hsend ih =>
    rcases List.prefix_concat_iff.mp hx with rfl | hx
    · exact .inl rfl
    · rcases ih hx with rfl | ⟨j',h',b,hj',hh',hb,hsend',hmore⟩
      · exact .inr ⟨j,h,a,hj,hh,ha,hsend,List.prefix_refl _⟩
      · exact .inr ⟨j',h',b,hj',hh',hb,hsend',hmore.trans (List.prefix_append _ _)⟩

/-- On the way to an answer there is a program at each hop. -/
theorem Answer.stops {g : PatternMatch} {k : Watched ι} {file : FileData} {j : ι} {h : Host}
    (ha : Answer w g s k hops file j h) (hx : x <+: hops) (hne : x ≠ []) :
    ∃ j' h', Pingu.position w k.origin x = some j' ∧ s.host j' = some h' := by
  rcases ha.walk.continues hx hne with rfl | ⟨j',h',a,hj',hh',-⟩
  · exact ⟨j,h,ha.position,ha.host⟩
  · exact ⟨j',h',hj',hh'⟩

end Ways

theorem clampTtl_ttlAt_pos {n : ℕ} (h₁ : 1 ≤ n) (h₂ : n ≤ 2) : clampTtl (ttlAt n) > 0 := by
  obtain rfl | rfl : n = 1 ∨ n = 2 := by omega
  · decide
  · decide

section Handling
variable {ι : Type} {w : Wiring ι} {g : PatternMatch} {s : Net ι} {k : Watched ι} {f : Flight}
  {hops : List SockAddr} {file : FileData} {j : ι} {h₁ h : Host} {buffer : ℕ → UInt8}

theorem data_of_copy {x : List SockAddr} (hc : Watched.IsCopy w k x f)
    (hk : k.length = 8+k.pattern.strlen) (h : Host) (buffer : ℕ → UInt8) :
    (f.packet h buffer).data.length = 8+k.pattern.strlen ∧
      (f.packet h buffer).data.length+10 ≤ maxDatagram := by
  have hr := hc.read h buffer
  have hbound := f.datagram.bounded
  rw [hc.bytes,length_wire] at hbound
  have hfront : k.front.length = 6 := by simp [Watched.front,preamble]
  rw [hr.data]
  refine ⟨by rw [Watched.length_payload]; omega,by omega⟩

/-- A program that gets a copy on the way to an answer sends what leads on to it: the reply
if the way ends here, and otherwise the copy with the next hop. -/
theorem copy_leads {x : List SockAddr} {j' : ι} {h' : Host} (hc : Watched.IsCopy w k x f)
    (hk : k.length = 8+k.pattern.strlen) (hroute : w.route f.dest = some j)
    (hh : s.host j = some h₁) (hl : h₁.Like h) (ha : Answer w g s k hops file j' h')
    (hname : file.fullfilename.strlen ≤ 65477) (hx : x <+: hops) :
    ∃ t ∈ (launch w j (follow (.search x) (matching g h (f.packet h buffer))
      ((matching g h (f.packet h buffer)).map (reply h (f.packet h buffer)) ++
        forwards h (f.packet h buffer)))).map Flight.trace, Leads hops file t := by
  have hr := hc.read h buffer
  obtain ⟨hdata,hsmall⟩ := data_of_copy hc hk h buffer
  have hp : 8 ≤ (f.packet h buffer).data.length := by omega
  obtain ⟨b,rest,hhops,-⟩ := hc.exists_first
  have hj := position_of_copy hc hroute
  rw [forwards_eq,follow_search]
  rcases ha.walk.continues hx (by simp [hhops]) with rfl | ⟨j₁,h₂,a,hj₁,hh₂,hmem,hsend,hmore⟩
  · -- the way ends at this program, and it has the file
    obtain rfl : j = j' := Option.some_inj.mp (hj.symm.trans ha.position)
    obtain rfl : h₁ = h' := Option.some_inj.mp (hh.symm.trans ha.host)
    have hfile : file ∈ matching g h (f.packet h buffer) := by
      refine List.mem_filter.mpr ⟨hl.database ▸ ha.mem,?_⟩
      rw [hr.search]
      exact ha.asked
    have hmem := List.mem_map_of_mem (f:=fun f₁ => (reply h (f.packet h buffer) f₁,
      Trace.reply x f₁)) hfile
    refine ⟨.reply x file,trace_mem_launch (List.mem_append_left _ hmem) ?_,rfl,rfl⟩
    rw [length_sendPacket,length_fileDetails,fillinPacket]
    simp only [sizeofPacket,maxDatagram]
    omega
  · obtain rfl : j = j₁ := Option.some_inj.mp (hj.symm.trans hj₁)
    obtain rfl : h₁ = h₂ := Option.some_inj.mp (hh.symm.trans hh₂)
    have hlen := hmore.length_le.trans ha.few
    rw [List.length_append,List.length_singleton] at hlen
    have hpos : clampTtl (f.packet h buffer).packet.ttl > 0 := by
      rw [hr.ttl]
      exact clampTtl_ttlAt_pos (by simp [hhops]) (by omega)
    have hdest : a ∈ forwardDests h (f.packet h buffer) := by
      rw [forwardDests,if_pos hpos]
      refine List.mem_filter.mpr ⟨hl.known ▸ hmem,decide_eq_true fun heq => hsend ?_⟩
      rw [sender_of_copy hc,heq,hr.addr]
    have hmem := List.mem_map_of_mem (f:=fun dest => (Action.sendto dest (sendPacket h.order
      (f.packet h buffer).forwardHeader (f.packet h buffer).forwardData),
      Trace.search (x ++ [dest]))) hdest
    refine ⟨.search (x ++ [a]),trace_mem_launch (List.mem_append_right _ hmem) ?_,hmore⟩
    have hlen := FullPacket.length_forwardData hp
    have hsame : (f.packet h buffer).forwardHeader.packetLength =
        (f.packet h buffer).packet.packetLength := rfl
    rw [length_sendPacket,hlen,hsame,← (f.packet h buffer).data_length,min_self]
    simp only [sizeofPacket]
    omega

/-- A reply goes back to the originator, and whoever gets it can take it apart. -/
structure Returning (w : Wiring ι) (k : Watched ι) (f : Flight) : Prop where
  dest : ∀ hops file, f.trace = .reply hops file → f.dest = returnAddress w k.origin hops
  proper : ∀ hops file, f.trace = .reply hops file → Proper f.datagram.bytes

/-- What is sent on the network returns if it is a reply. -/
theorem Travels.returning {f' : Flight} {h' : Host} {calls : Calls} {acts : List Action}
    (ht : Travels w g s k f) (hl : h₁.Like h)
    (hnames : ∀ file ∈ h₁.database, file.fullfilename.strlen ≤ 65477)
    (ha : applyPacket g calls (f.packet h buffer) h = .ok (h',acts))
    (hf' : f' ∈ launch w j (follow f.trace (matching g h (f.packet h buffer)) acts)) :
    Returning w k f' := by
  suffices hh : ∀ hops file, f'.trace = .reply hops file →
      f'.dest = returnAddress w k.origin hops ∧ Proper f'.datagram.bytes from
    ⟨fun hops file htrace => (hh hops file htrace).1,
      fun hops file htrace => (hh hops file htrace).2⟩
  intro hops file htrace
  rcases launched_cases (fun _ htrace => ht.search_operation htrace h buffer) ha hf' with
    ⟨hl',-⟩ | ⟨x,hx,hp,⟨file',hfile,hl',hsent⟩ | ⟨-,hl',-⟩⟩
  · rw [hl'] at htrace
    cases htrace
  · rw [hl'] at htrace
    cases htrace
    simp only [Travels,hx] at ht
    have hr := ht.1.read h buffer
    obtain ⟨a,rest,rfl,hfirst⟩ := ht.1.exists_first
    have hname := hnames file (hl.database ▸ (List.mem_filter.mp hfile).1)
    simp only [reply,Action.sendto.injEq] at hsent
    refine ⟨?_,?_⟩
    · rw [hsent.1,hr.destination hp rfl hfirst,hr.port hp]
      rfl
    · rw [hsent.2]
      refine proper_counted (length_fileDetails h file) (by omega) ?_
      rw [length_fileDetails]
      simp [shortest,requestFilesearch,requestWantfile,replyTransferwaiting,replyFilesearch]
  · rw [hl'] at htrace
    cases htrace

/-- The originator reads its own number in a reply. -/
theorem IsReply.handle (hr : IsReply w g s k hops file f) (horder : h.order = k.order)
    (buffer : ℕ → UInt8) : (f.packet h buffer).packet.requestHandle = k.handle := by
  obtain ⟨j,h₂,-,-,hread⟩ := hr
  exact store16_inj (o:=k.order) (horder ▸ (hread h buffer).1)

/-- A reply that the originator gets becomes a row of the list. -/
theorem reply_added {table : RequestTable} {model b : ℕ} {l : Request} {h' : Host}
    {calls : Calls} {acts : List Action} (hr : IsReply w g s k hops file f)
    (hback : Proper f.datagram.bytes) (horder : h.order = k.order) (htable : h.requests = table)
    (hout : table.outstanding k.handle = some (b,l)) (hactive : l.active = true)
    (hdata : l.data = some model)
    (ha : applyPacket g calls (f.packet h buffer) h = .ok (h',acts)) :
    h' = h.addRow model ((f.packet h buffer).response h.order) := by
  have hnumber := hr.handle horder buffer
  obtain ⟨j,h₂,-,-,hread⟩ := hr
  have hop := (hread h buffer).2.1
  obtain ⟨hacc,hlong⟩ := hback.packet h buffer
  have hp : 20 ≤ (f.packet h buffer).data.length := by
    simpa [hop,shortest,requestFilesearch,requestWantfile,replyTransferwaiting,
      replyFilesearch] using hlong
  have hget := getReplySearch_active (h:=h) (p:=f.packet h buffer) (b:=b) (l:=l)
    (by rw [hnumber,htable,hout]) hactive hp
  rw [hdata] at hget
  have hrun : (getReplySearch h (f.packet h buffer)).map (fun h => (h,[])) = .ok (h',acts) := by
    simpa [applyPacket,hacc,applyOperation,hop,requestPing,requestFilesearch,requestWantfile,
      replyTransferwaiting,replyFilesearch] using ha
  rw [hget] at hrun
  simp only [Except.map,Except.ok.injEq,Prod.mk.injEq] at hrun
  exact hrun.1.symm

end Handling

/-! The invariant while nothing is lost. -/

section Gathering
variable {ι : Type} {w : Wiring ι} {g : PatternMatch} {s : Net ι} {k : Watched ι}
  {table : RequestTable} {model : ℕ}

/-- Every answer that can get back to the originator has something that leads to it. -/
def Covered (w : Wiring ι) (g : PatternMatch) (s : Net ι) (k : Watched ι) (l : List Trace) :
    Prop :=
  ∀ hops file j h, Answer w g s k hops file j h →
    w.route (returnAddress w k.origin hops) = some k.origin → ∃ t ∈ l, Leads hops file t

/-- A trace may be given up for others that lead to the same answers. -/
theorem Covered.exchange {l new : List Trace} {i : ℕ} {t : Trace} (hl : Covered w g s k l)
    (ht : l[i]? = some t) (hnew : ∀ hops file j h, Answer w g s k hops file j h →
      w.route (returnAddress w k.origin hops) = some k.origin → Leads hops file t →
      ∃ t' ∈ new, Leads hops file t') : Covered w g s k (Bags.exchange l i new) := by
  intro hops file j h ha hback
  obtain ⟨t',ht',hleads⟩ := hl hops file j h ha hback
  rcases List.mem_cons.mp ((Bags.perm_cons_eraseIdx ht).mem_iff.mp ht') with rfl | hmem
  · obtain ⟨t₁,ht₁,hleads₁⟩ := hnew hops file j h ha hback hleads
    exact ⟨t₁,List.mem_append_right _ ht₁,hleads₁⟩
  · exact ⟨t',List.mem_append_left _ hmem,hleads⟩

/-- A started search that fits into its datagrams, among files whose names fit into a reply. -/
structure Asking (s : Net ι) (k : Watched ι) (table : RequestTable) (model : ℕ) : Prop where
  setting : Setting s k table model
  length : k.length = 8+k.pattern.strlen
  names : ∀ j h, s.host j = some h → ∀ file ∈ h.database, file.fullfilename.strlen ≤ 65477
  waits : ∃ b l, table.outstanding k.handle = some (b,l) ∧ l.active = true ∧ l.data = some model

/-- The network during a search of which nothing has been lost. -/
structure Gathering (w : Wiring ι) (g : PatternMatch) (s : Net ι) (k : Watched ι)
    (table : RequestTable) (model : ℕ) (log : List (List SockAddr × FileData)) (s' : Net ι) :
    Prop where
  results : Results w g s k table model log s'
  returning : ∀ f ∈ s'.flights, Returning w k f
  back : ∀ r ∈ log, w.route (returnAddress w k.origin r.1) = some k.origin
  covered : Covered w g s k (traces log s'.flights)

/-- A copy or a reply that leads to an answer is for a program that there was. -/
theorem Gathering.reaches {log : List (List SockAddr × FileData)} {s' : Net ι}
    (hg : Gathering w g s k table model log s') {f : Flight} (hf : f ∈ s'.flights)
    {hops : List SockAddr} {file : FileData} {j : ι} {h : Host} (ha : Answer w g s k hops file j h)
    (hback : w.route (returnAddress w k.origin hops) = some k.origin)
    (hleads : Leads hops file f.trace) :
    ∃ j' h', w.route f.dest = some j' ∧ s.host j' = some h' := by
  have ht := hg.results.flights f hf
  cases htrace : f.trace with
  | search x =>
    rw [htrace] at hleads
    simp only [Travels,htrace] at ht
    obtain ⟨a,rest,hx,-⟩ := ht.1.exists_first
    obtain ⟨j',h',hj',hh'⟩ := ha.stops hleads (by simp [hx])
    rw [position,ht.1.last] at hj'
    exact ⟨j',h',hj',hh'⟩
  | reply x f' =>
    rw [htrace] at hleads
    obtain ⟨rfl,-⟩ := hleads
    obtain ⟨h₀,a,rest,ho,-⟩ := ha.walk.exists_first
    rw [(hg.returning f hf).dest x f' htrace]
    exact ⟨k.origin,h₀,hback,ho⟩
  | other =>
    rw [htrace] at hleads
    exact hleads.elim

section Steps
variable [DecidableEq ι] {log : List (List SockAddr × FileData)} {s' : Net ι} {i : ℕ} {f : Flight}
  {j : ι} {h : Host}

omit [DecidableEq ι] in
/-- A delivery to nobody is no loss for the search while all programs run. -/
theorem Gathering.undelivered (hg : Gathering w g s k table model log s')
    (hup : ∀ j, s.host j ≠ none → s'.host j ≠ none) (hf : s'.flights[i]? = some f)
    (hnobody : ∀ j h, w.route f.dest = some j → s'.host j ≠ some h) :
    Gathering w g s k table model log { s' with flights := Bags.exchange s'.flights i [] } where
  results := hg.results.lost i
  returning := Bags.forall_exchange hg.returning (by simp)
  back := hg.back
  covered := by
    rw [traces_exchange]
    refine hg.covered.exchange (traces_getElem? hf) fun hops file j h ha hback hleads => ?_
    obtain ⟨j',h',hj',hh'⟩ := hg.reaches (List.mem_of_getElem? hf) ha hback hleads
    obtain ⟨h₁,hh₁⟩ := Option.ne_none_iff_exists'.mp (hup j' (by simp [hh']))
    exact absurd hh₁ (hnobody j' h₁ hj')

/-- A program handles a flight and is as before: it was no reply for the list. -/
theorem Gathering.unchanged (hset : Asking s k table model)
    (hg : Gathering w g s k table model log s') {calls : Calls} {acts : List Action}
    (hf : s'.flights[i]? = some f) (hj : w.route f.dest = some j) (hhost : s'.host j = some h)
    (ha : applyPacket g calls (f.packet h (s'.buffer j)) h = .ok (h,acts)) :
    Gathering w g s k table model log
      { host := Function.update s'.host j (some h)
        buffer := Function.update s'.buffer j (recvfrom f.datagram (s'.buffer j))
        flights := Bags.exchange s'.flights i (launch w j
          (follow f.trace (matching g h (f.packet h (s'.buffer j))) acts)) } where
  results := hg.results.unchanged hset.setting hf hj hhost ha
  returning := by
    obtain ⟨h₁,hh,hl⟩ := hg.results.hosts j h hhost
    have ht := hg.results.flights f (List.mem_of_getElem? hf)
    exact Bags.forall_exchange hg.returning fun f' hf' =>
      ht.returning hl (hset.names j h₁ hh) ha hf'
  back := hg.back
  covered := by
    obtain ⟨h₁,hh,hl⟩ := hg.results.hosts j h hhost
    have ht := hg.results.flights f (List.mem_of_getElem? hf)
    have hreturn := hg.returning f (List.mem_of_getElem? hf)
    rw [traces_exchange]
    refine hg.covered.exchange (traces_getElem? hf) fun hops file j' h' hanswer hback hleads => ?_
    cases htrace : f.trace with
    | search x =>
      rw [htrace] at hleads
      simp only [Travels,htrace] at ht
      have hr := ht.1.read h (s'.buffer j)
      have hp := (data_of_copy ht.1 hset.length h (s'.buffer j)).1
      rw [applyPacket_search_eq hr.operation hr.accepted (by omega)] at ha
      cases ha
      exact copy_leads ht.1 hset.length hj hh hl hanswer
        (hset.names _ _ hanswer.host file hanswer.mem) hleads
    | reply x f' =>
      -- then a row would have been added
      rw [htrace] at hleads
      obtain ⟨rfl,rfl⟩ := hleads
      simp only [Travels,htrace] at ht
      obtain ⟨b,l,hout,hactive,hdata⟩ := hset.waits
      rw [hreturn.dest x f' htrace,hback,Option.some.injEq] at hj
      subst hj
      have hadded := reply_added ht (hreturn.proper x f' htrace)
        (hl.order.trans (hset.setting.order h₁ hh)) (hg.results.table h hhost) hout hactive hdata ha
      have hlen := congrArg (fun h => (h.models model).length) hadded
      simp [Host.addRow] at hlen
    | other =>
      rw [htrace] at hleads
      exact hleads.elim

omit [DecidableEq ι] in
theorem Covered.mono {l l' : List Trace} (hl : Covered w g s k l) (hsub : l ⊆ l') :
    Covered w g s k l' := by
  intro hops file j h ha hback
  obtain ⟨t,ht,hleads⟩ := hl hops file j h ha hback
  exact ⟨t,hsub ht,hleads⟩

/-- A row is added to some list: what is left to show is about the list under watch. -/
theorem Results.addRow {log' : List (List SockAddr × FileData)} {m : ℕ} {row : FiledataResponse}
    {buffer : ι → ℕ → UInt8} (hr : Results w g s k table model log s')
    (hhost : s'.host j = some h)
    (hapart : (traces log' (Bags.exchange s'.flights i [])).Pairwise Apart)
    (hrows : ∀ h₂, Function.update s'.host j (some (h.addRow m row)) k.origin = some h₂ →
      List.Forall₂ (IsAnswer w g s k) log' (h₂.models model)) :
    Results w g s k table model log'
      { host := Function.update s'.host j (some (h.addRow m row))
        buffer := buffer
        flights := Bags.exchange s'.flights i [] } where
  hosts j' h₂ hh₂ := by
    obtain ⟨h₁,hh,hl⟩ := hr.hosts j h hhost
    rcases update_some hh₂ with ⟨rfl,rfl⟩ | hold
    · exact ⟨h₁,hh,hl.addRow m row⟩
    · exact hr.hosts j' h₂ hold
  table h₂ hh₂ := by
    rcases update_some hh₂ with ⟨rfl,rfl⟩ | hold
    · exact hr.table h hhost
    · exact hr.table h₂ hold
  flights := (hr.lost i).flights
  apart := hapart
  rows := hrows

/-- A program gets a reply and adds a row: to the list if the reply belongs to the search, and
then the row stands for what led to it. -/
theorem Gathering.added (hset : Asking s k table model)
    (hg : Gathering w g s k table model log s') (hf : s'.flights[i]? = some f)
    (hj : w.route f.dest = some j) (hhost : s'.host j = some h)
    (hop : (f.packet h (s'.buffer j)).packet.operation = replyFilesearch) {b : ℕ} {l : Request}
    {m : ℕ} (hout : h.requests.outstanding
      (f.packet h (s'.buffer j)).packet.requestHandle = some (b,l)) (hdata : l.data = some m) :
    ∃ log', Gathering w g s k table model log'
      { host := Function.update s'.host j
          (some (h.addRow m ((f.packet h (s'.buffer j)).response h.order)))
        buffer := Function.update s'.buffer j (recvfrom f.datagram (s'.buffer j))
        flights := Bags.exchange s'.flights i [] } := by
  have ht := hg.results.flights f (List.mem_of_getElem? hf)
  have hreturn := hg.returning f (List.mem_of_getElem? hf)
  have hreturning := Bags.forall_exchange (i:=i) (m:=[]) hg.returning (by simp)
  obtain ⟨h₁,hh,hl⟩ := hg.results.hosts j h hhost
  by_cases hlist : j = k.origin ∧ m = model
  · obtain ⟨rfl,rfl⟩ := hlist
    obtain hne | ⟨-,hops,file,htrace,hanswer⟩ := Results.row hset.setting ht hh hl
      (hg.results.table h hhost) hj hop hout hdata
    · exact absurd rfl hne
    · have hlogged := traces_log log s'.flights i (hops,file)
      refine ⟨log ++ [(hops,file)],hg.results.addRow hhost ?_ fun h₂ hh₂ => ?_,hreturning,?_,?_⟩
      · apply (hlogged.pairwise_iff Apart.symm).mpr
        apply Bags.pairwise_exchange Apart.symm hg.results.apart (traces_getElem? hf) (by simp)
        simp [htrace]
      · obtain rfl : h.addRow m _ = h₂ := by simpa using hh₂
        have hrows := List.rel_append (hg.results.rows h hhost) (.cons hanswer .nil)
        simpa [Host.addRow] using hrows
      · intro r hr
        rcases List.mem_append.mp hr with hold | hnew
        · exact hg.back r hold
        · obtain rfl := List.mem_singleton.mp hnew
          rw [← hreturn.dest hops file htrace]
          exact hj
      · refine Covered.mono ?_ hlogged.symm.subset
        refine hg.covered.exchange (traces_getElem? hf) fun _ _ _ _ _ _ hleads => ?_
        exact ⟨.reply hops file,List.mem_singleton_self _,htrace ▸ hleads⟩
  · refine ⟨log,hg.results.addRow hhost (hg.results.lost i).apart fun h₂ hh₂ => ?_,hreturning,
      hg.back,?_⟩
    · rcases update_some hh₂ with ⟨rfl,rfl⟩ | hold
      · have hne : m ≠ model := fun hm => hlist ⟨rfl,hm⟩
        simpa [Host.addRow,hne.symm] using hg.results.rows h hhost
      · exact hg.results.rows h₂ hold
    · rw [traces_exchange]
      refine hg.covered.exchange (traces_getElem? hf) fun hops file j' h' _ hback hleads => ?_
      cases htrace : f.trace with
      | search x =>
        rw [ht.search_operation htrace h (s'.buffer j)] at hop
        exact absurd hop (by decide)
      | reply x f' =>
        -- a reply of the search belongs to the list
        rw [htrace] at hleads
        obtain ⟨rfl,rfl⟩ := hleads
        rw [hreturn.dest x f' htrace,hback,Option.some.injEq] at hj
        subst hj
        simp only [Travels,htrace] at ht
        have hnumber := ht.handle (hl.order.trans (hset.setting.order h₁ hh))
          (s'.buffer k.origin)
        rw [hg.results.table h hhost] at hout
        have hown := (hset.setting.own _ b l hout).mpr hnumber
        rw [hdata,Option.some.injEq] at hown
        exact absurd ⟨rfl,hown⟩ hlist
      | other =>
        rw [htrace] at hleads
        exact hleads.elim

theorem deliver_nobody {calls : Calls}
    (hnew : ((NetOp.deliver i calls).step w g s').2 = []) :
    ((NetOp.deliver i calls).step w g s').1 = s' ∨ ∃ f, s'.flights[i]? = some f ∧
      (∀ j h, w.route f.dest = some j → s'.host j ≠ some h) ∧
      ((NetOp.deliver i calls).step w g s').1 =
        { s' with flights := Bags.exchange s'.flights i [] } := by
  cases hf : s'.flights[i]? with
  | none => exact .inl (by simp [NetOp.step,hf])
  | some f =>
    refine .inr ⟨f,rfl,?_⟩
    cases hr : s'.receiver w f with
    | none =>
      refine ⟨fun j h hj hh => ?_,by simp [NetOp.step,hf,hr,Bags.exchange]⟩
      simp [Net.receiver,hj,hh] at hr
    | some r => simp [NetOp.step,hf,hr] at hnew

/-- One more delivery, while all programs run. -/
theorem Gathering.deliver (hset : Asking s k table model)
    (hg : Gathering w g s k table model log s') (calls : Calls)
    (hup : ∀ j, s.host j ≠ none → ((NetOp.deliver i calls).step w g s').1.host j ≠ none) :
    ∃ log', Gathering w g s k table model log' ((NetOp.deliver i calls).step w g s').1 := by
  by_cases hnew : ((NetOp.deliver i calls).step w g s').2 = []
  · rcases deliver_nobody hnew with heq | ⟨f,hf,hnobody,heq⟩
    · rw [heq]
      exact ⟨log,hg⟩
    · rw [heq] at hup ⊢
      exact ⟨log,hg.undelivered hup hf hnobody⟩
  · have hstep := step_happens w g (.deliver i calls) s'
    generalize ((NetOp.deliver i calls).step w g s').1 = s₂ at hstep hup
    generalize ((NetOp.deliver i calls).step w g s').2 = new at hstep hnew
    cases hstep with
    | lost i => exact absurd rfl hnew
    | @crashed i f j h calls e hf hj hhost he =>
      obtain ⟨h₁,hh,-⟩ := hg.results.hosts j h hhost
      exact absurd (Function.update_self ..) (hup j (by simp [hh]))
    | @handled i f j h h' calls acts hf hj hhost ha =>
      have ht := hg.results.flights f (List.mem_of_getElem? hf)
      rcases ht.handled ha with rfl | ⟨rfl,hop,b,l,m,hout,hdata,rfl⟩
      · exact ⟨log,hg.unchanged hset hf hj hhost ha⟩
      · exact hg.added hset hf hj hhost hop hout hdata

end Steps

end Gathering

section Runs
variable {ι : Type} {w : Wiring ι} {g : PatternMatch} {s : Net ι} {o : ι} {h₀ : Host}
  {search : CString}

end Runs

end Pingu
end MiscUniStuff
