import MiscUniStuff.SearchAnswers

/-! The result list of a search. Nothing keeps a program that is reached twice from
answering twice, so there is a row for each way to a file and not for each file. -/
namespace MiscUniStuff
namespace Pingu
open ByteOrder

/-! Traces that cannot lead to the same answer. -/

/-- No copy is passed on to where the other one came from, and no reply answers a copy
that was passed on to where the other one came from. -/
def Apart : Trace → Trace → Prop
  | .search a,.search b => ¬a <+: b ∧ ¬b <+: a
  | .search a,.reply b _ => ¬a <+: b
  | .reply b _,.search a => ¬a <+: b
  | .reply a f,.reply b f' => (a,f) ≠ (b,f')
  | _,_ => True

theorem Apart.symm {a b : Trace} (h : Apart a b) : Apart b a := by
  cases a <;> cases b <;> simp_all [Apart,eq_comm]

/-- The traces of the answers to a copy. -/
def answers (hops : List SockAddr) (found : List FileData) (dests : List SockAddr) : List Trace :=
  found.map (.reply hops) ++ dests.map fun dest => .search (hops ++ [dest])

section Answers
variable {hops : List SockAddr} {found : List FileData} {dests : List SockAddr}

theorem answers_pairwise (hfound : found.Nodup) (hdests : dests.Nodup) :
    (answers hops found dests).Pairwise Apart := by
  refine List.pairwise_append.mpr ⟨?_,?_,?_⟩
  · refine List.pairwise_map.mpr (hfound.imp fun hne => ?_)
    simpa [Apart] using hne
  · refine List.pairwise_map.mpr (hdests.imp fun hne => ?_)
    simpa [Apart,eq_comm] using hne
  · intro a ha b hb
    obtain ⟨f,-,rfl⟩ := List.mem_map.mp ha
    obtain ⟨dest,-,rfl⟩ := List.mem_map.mp hb
    intro hprefix
    have hlen := hprefix.length_le
    simp at hlen

/-- What is apart from a copy is apart from its answers. -/
theorem Apart.answer {c b : Trace} (hc : Apart c (.search hops))
    (hb : b ∈ answers hops found dests) : Apart c b := by
  rcases List.mem_append.mp hb with hm | hm
  · obtain ⟨f,-,rfl⟩ := List.mem_map.mp hm
    cases c with
    | search x => exact hc.1
    | reply x f' =>
      rintro ⟨⟩
      exact hc (List.prefix_refl _)
    | other => trivial
  · obtain ⟨dest,-,rfl⟩ := List.mem_map.mp hm
    have hpre : hops <+: hops ++ [dest] := List.prefix_append _ _
    cases c with
    | search x =>
      refine ⟨fun hx => ?_,fun hx => hc.2 (hpre.trans hx)⟩
      rcases List.prefix_concat_iff.mp hx with rfl | hx
      · exact hc.2 hpre
      · exact hc.1 hx
    | reply x f' => exact fun hx => hc (hpre.trans hx)
    | other => trivial

end Answers

theorem launch_traces {ι : Type} (w : Wiring ι) (j : ι) (l : List (Action × Trace)) :
    ((launch w j l).map Flight.trace).Sublist (l.map Prod.snd) := by
  induction l with
  | nil => simp [launch]
  | cons a l ih =>
    rcases a with ⟨a,t⟩
    simp only [launch,List.map_cons] at ih ⊢
    cases a with
    | sendto dest data =>
      by_cases hlen : data.length ≤ maxDatagram
      · simpa only [List.filterMap_cons,hlen,dif_pos,List.map_cons] using ih.cons_cons t
      · simpa only [List.filterMap_cons,hlen,dif_neg,not_false_eq_true] using ih.cons t
    | _ => simpa only [List.filterMap_cons] using ih.cons t

/-- What a program sends stands apart from each other, and from all that stood apart from
what it handles. -/
theorem launch_apart {ι : Type} {w : Wiring ι} {j : ι} {g : PatternMatch} {calls : Calls}
    {t : Trace} {h h' : Host} {p : FullPacket} {acts : List Action} (hknown : h.known.Nodup)
    (hdatabase : h.database.Nodup)
    (hop : ∀ hops, t = .search hops → p.packet.operation = requestFilesearch)
    (ha : applyPacket g calls p h = .ok (h',acts)) :
    ((launch w j (follow t (matching g h p) acts)).map Flight.trace).Pairwise Apart ∧
      ∀ b ∈ (launch w j (follow t (matching g h p) acts)).map Flight.trace,
        ∀ c, Apart c t → Apart c b := by
  have hsub := launch_traces w j (follow t (matching g h p) acts)
  suffices hh : ((follow t (matching g h p) acts).map Prod.snd).Pairwise Apart ∧
      ∀ b ∈ (follow t (matching g h p) acts).map Prod.snd, ∀ c, Apart c t → Apart c b from
    ⟨hh.1.sublist hsub,fun b hb => hh.2 b (hsub.subset hb)⟩
  by_cases ht : ∃ hops, t = .search hops
  · rcases ht with ⟨hops,rfl⟩
    rcases applyPacket_search (hop hops rfl) ha with ⟨-,rfl | ⟨-,rfl⟩⟩
    · simp [follow]
    · have htraces : (follow (.search hops) (matching g h p)
          ((matching g h p).map (reply h p) ++ forwards h p)).map Prod.snd =
          answers hops (matching g h p) (forwardDests h p) := by
        rw [forwards_eq,follow_search]
        simp [answers,Function.comp_def]
      have hdests : (forwardDests h p).Nodup := by
        unfold forwardDests
        split_ifs
        · exact hknown.filter _
        · exact List.nodup_nil
      rw [htraces]
      exact ⟨answers_pairwise (hdatabase.filter _) hdests,fun b hb c hc => hc.answer hb⟩
  · push Not at ht
    rw [follow_unwatched ht]
    have hother : ∀ b ∈ (acts.map (·,Trace.other)).map Prod.snd, ∀ c, Apart c b := by
      intro b hb c
      obtain rfl : .other = b := by
        simp only [List.map_map,List.mem_map] at hb
        rcases hb with ⟨a,-,rfl⟩
        rfl
      cases c <;> trivial
    exact ⟨List.pairwise_iff_forall_sublist.mpr fun hs => hother _ (hs.subset (by simp)) _,
      fun b hb c _ => hother b hb c⟩

/-! Ways and answers. -/

section Walks
variable {ι : Type} {w : Wiring ι} {s : Net ι} {o : ι} {hops : List SockAddr}

/-- The source address that the last hop sees. -/
def sender (w : Wiring ι) (o : ι) (hops : List SockAddr) : Option SockAddr := do
  let dest ← hops.getLast?
  let j ← position w o hops.dropLast
  return w.seen j dest

/-- A way a search can take: first to a server that its originator knows, and from each
program to one that it knows, but not straight back. -/
inductive Walk (w : Wiring ι) (s : Net ι) (o : ι) : List SockAddr → Prop
  | search {h : Host} {a : SockAddr} (ho : s.host o = some h) (ha : a ∈ h.known) :
      Walk w s o [a]
  | passon {hops : List SockAddr} {j : ι} {h : Host} {a : SockAddr} (hw : Walk w s o hops)
      (hj : position w o hops = some j) (hh : s.host j = some h) (ha : a ∈ h.known)
      (hne : sender w o hops ≠ some a) : Walk w s o (hops ++ [a])

/-- Where the replies go. -/
def returnAddress (w : Wiring ι) (o : ι) : List SockAddr → SockAddr
  | [] => ⟨.zero,⟨0x0E,0xBD⟩⟩
  | a::_ => ⟨(w.seen o a).addr,⟨0x0E,0xBD⟩⟩

/-- A program at the end of a way of three hops at most has a file that the search asks
for. -/
structure Answer (w : Wiring ι) (g : PatternMatch) (s : Net ι) (k : Watched ι)
    (hops : List SockAddr) (file : FileData) (j : ι) (h : Host) : Prop where
  walk : Walk w s k.origin hops
  few : hops.length ≤ 3
  position : position w k.origin hops = some j
  host : s.host j = some h
  mem : file ∈ h.database
  asked : g k.asked file.filename

/-- The row that tells of such a file. -/
def IsAnswer (w : Wiring ι) (g : PatternMatch) (s : Net ι) (k : Watched ι)
    (r : List SockAddr × FileData) (row : FiledataResponse) : Prop :=
  ∃ j h, Answer w g s k r.1 r.2 j h ∧
    row = responseOf k.order (sentDetails h r.2) (w.seen j (returnAddress w k.origin r.1))

/-- The reply that tells of it. -/
def IsReply (w : Wiring ι) (g : PatternMatch) (s : Net ι) (k : Watched ι)
    (hops : List SockAddr) (file : FileData) (f : Flight) : Prop :=
  ∃ j h, Answer w g s k hops file j h ∧ f.source = w.seen j (returnAddress w k.origin hops) ∧
    ∀ (h₁ : Host) (buffer : ℕ → UInt8),
      store16 h₁.order (f.packet h₁ buffer).packet.requestHandle = store16 k.order k.handle ∧
      (f.packet h₁ buffer).packet.operation = replyFilesearch ∧
      (f.packet h₁ buffer).data = sentDetails h file

/-- What is in flight during a search. -/
def Travels (w : Wiring ι) (g : PatternMatch) (s : Net ι) (k : Watched ι) (f : Flight) : Prop :=
  match f.trace with
  | .search hops => Watched.IsCopy w k hops f ∧ Walk w s k.origin hops
  | .reply hops file => IsReply w g s k hops file f
  | .other => Elsewhere w k f

end Walks

/-- The parts of a program that searches and replies leave as they are. -/
structure Host.Like (h₁ h : Host) : Prop where
  order : h.order = h₁.order
  sizeofSizeT : h.sizeofSizeT = h₁.sizeofSizeT
  known : h.known = h₁.known
  database : h.database = h₁.database

theorem Host.Like.sentDetails {h₁ h : Host} (hl : h₁.Like h) (file : FileData) :
    sentDetails h file = sentDetails h₁ file := by
  rw [Pingu.sentDetails,Pingu.sentDetails,fileDetails,fileDetails,hl.order,hl.sizeofSizeT]

theorem Host.Like.addRow {h₁ h : Host} (hl : h₁.Like h) (model : ℕ) (row : FiledataResponse) :
    h₁.Like (h.addRow model row) := ⟨hl.order,hl.sizeofSizeT,hl.known,hl.database⟩

section Travelling
variable {ι : Type} {w : Wiring ι} {g : PatternMatch} {s : Net ι} {k : Watched ι} {f : Flight}
  {hops : List SockAddr}

theorem sender_of_copy (hc : Watched.IsCopy w k hops f) :
    sender w k.origin hops = some f.source := by
  obtain ⟨j,hj,hs⟩ := hc.source
  simp [sender,hc.last,hj,hs]

theorem Travels.operation (ht : Travels w g s k f) (h : Host) (buffer : ℕ → UInt8) :
    (f.packet h buffer).packet.operation = requestFilesearch ∨
      (f.packet h buffer).packet.operation = replyFilesearch := by
  unfold Travels at ht
  cases htrace : f.trace with
  | search hops =>
    simp only [htrace] at ht
    exact .inl (ht.1.read h buffer).operation
  | reply hops file =>
    simp only [htrace] at ht
    rcases ht with ⟨j,h₁,-,-,hread⟩
    exact .inr (hread h buffer).2.1
  | other =>
    simp only [htrace] at ht
    exact (ht.others h buffer).imp And.left And.left

theorem position_of_copy {j : ι} (hc : Watched.IsCopy w k hops f) (hj : w.route f.dest = some j) :
    position w k.origin hops = some j := by
  rw [position,hc.last]
  exact hj

/-- A reply to a copy is what it should be. -/
theorem isReply_of_copy {f' : Flight} {j : ι} {h₁ h : Host} {buffer : ℕ → UInt8}
    {file : FileData} (hc : Watched.IsCopy w k hops f) (hw : Walk w s k.origin hops)
    (hj : w.route f.dest = some j) (hh : s.host j = some h₁) (hl : h₁.Like h)
    (hp : 8 ≤ (f.packet h buffer).data.length) (hfile : file ∈ matching g h (f.packet h buffer))
    (hsource : f'.source = w.seen j f'.dest)
    (hsent : .sendto f'.dest f'.datagram.bytes = reply h (f.packet h buffer) file) :
    IsReply w g s k hops file f' := by
  have hr := hc.read h buffer
  obtain ⟨a,rest,rfl,hfirst⟩ := hc.exists_first
  simp only [reply,Action.sendto.injEq] at hsent
  have hmem := List.mem_filter.mp hfile
  have hreturn : f'.dest = returnAddress w k.origin (a::rest) := by
    rw [hsent.1,hr.destination hp rfl hfirst,hr.port hp]
    rfl
  refine ⟨j,h₁,⟨hw,hc.few,position_of_copy hc hj,hh,hl.database ▸ hmem.1,?_⟩,hreturn ▸ hsource,
    fun h₂ buffer₂ => ?_⟩
  · rw [← hr.search]
    exact hmem.2
  · have hread := packet_reply hsent.2 h₂ buffer₂
    rw [← hl.sentDetails]
    exact ⟨hread.1.trans hr.handle,hread.2⟩

/-- The hop of a copy that is passed on goes on with the way. -/
theorem Walk.forward {j : ι} {h₁ h : Host} {buffer : ℕ → UInt8} {dest : SockAddr}
    (hw : Walk w s k.origin hops) (hc : Watched.IsCopy w k hops f) (hj : w.route f.dest = some j)
    (hh : s.host j = some h₁) (hl : h₁.Like h)
    (hdest : dest ∈ forwardDests h (f.packet h buffer)) : Walk w s k.origin (hops ++ [dest]) := by
  unfold forwardDests at hdest
  split_ifs at hdest
  · have hmem := List.mem_filter.mp hdest
    refine .passon hw (position_of_copy hc hj) hh (hl.known ▸ hmem.1) ?_
    have hne : dest ≠ (f.packet h buffer).addr := of_decide_eq_true hmem.2
    rw [(hc.read h buffer).addr] at hne
    rw [sender_of_copy hc]
    exact fun heq => hne (Option.some_inj.mp heq).symm
  · simp at hdest

theorem Travels.search_operation (ht : Travels w g s k f) (htrace : f.trace = .search hops)
    (h : Host) (buffer : ℕ → UInt8) :
    (f.packet h buffer).packet.operation = requestFilesearch := by
  simp only [Travels,htrace] at ht
  exact (ht.1.read h buffer).operation

/-- What is sent in answer to what travels travels. -/
theorem Travels.sent {f' : Flight} (ht : Travels w g s k f) {j : ι} {h₁ h h' : Host}
    {buffer : ℕ → UInt8} {calls : Calls} {acts : List Action} (hj : w.route f.dest = some j)
    (hh : s.host j = some h₁) (hl : h₁.Like h)
    (ha : applyPacket g calls (f.packet h buffer) h = .ok (h',acts))
    (hf' : f' ∈ launch w j (follow f.trace (matching g h (f.packet h buffer)) acts)) :
    Travels w g s k f' := by
  have hmem := mem_launch.mp hf'
  have hacts := List.mem_map_of_mem (f:=Prod.fst) hmem.2
  rw [follow_map_fst] at hacts
  cases htrace : f.trace with
  | reply hops file =>
    have hop : (f.packet h buffer).packet.operation = replyFilesearch := by
      simp only [Travels,htrace] at ht
      rcases ht with ⟨_,_,-,-,hread⟩
      exact (hread h buffer).2.1
    simp [(applyPacket_reply hop ha).1] at hacts
  | other =>
    simp only [Travels,htrace] at ht
    have hother : f'.trace = .other := by
      have hm := hmem.2
      rw [htrace,follow_unwatched (by simp)] at hm
      obtain ⟨a,-,heq⟩ := List.mem_map.mp hm
      exact (congrArg Prod.snd heq).symm
    simp only [Travels,hother]
    exact ht.sent ha hmem.1 hacts
  | search hops =>
    simp only [Travels,htrace] at ht
    have hr := ht.1.read h buffer
    have hcases := launched_cases (fun _ _ => hr.operation) ha hf'
    rcases hcases with ⟨-,hno⟩ | ⟨hops',htrace',hp,⟨file,hfile,hl',hsent⟩ | ⟨hdest,hl',hdata⟩⟩
    · exact absurd htrace (hno hops)
    · obtain rfl : hops = hops' := by simpa [htrace] using htrace'
      simp only [Travels,hl']
      exact isReply_of_copy ht.1 ht.2 hj hh hl hp hfile hmem.1 hsent
    · obtain rfl : hops = hops' := by simpa [htrace] using htrace'
      simp only [Travels,hl']
      exact ⟨ht.1.forward hp hj hdest hmem.1 hdata,ht.2.forward ht.1 hj hh hl hdest⟩

/-- What handling a flight does to the program: nothing, or it adds a row for a reply,
and then nothing is sent. -/
theorem Travels.handled (ht : Travels w g s k f) {h h' : Host} {buffer : ℕ → UInt8}
    {calls : Calls} {acts : List Action}
    (ha : applyPacket g calls (f.packet h buffer) h = .ok (h',acts)) : h' = h ∨
      acts = [] ∧ (f.packet h buffer).packet.operation = replyFilesearch ∧
      ∃ b l model, h.requests.outstanding (f.packet h buffer).packet.requestHandle = some (b,l) ∧
        l.data = some model ∧ h' = h.addRow model ((f.packet h buffer).response h.order) := by
  rcases ht.operation h buffer with hop | hop
  · exact .inl (applyPacket_search hop ha).1
  · rcases applyPacket_reply hop ha with ⟨hacts,heq | hrow⟩
    · exact .inl heq
    · exact .inr ⟨hacts,hop,hrow⟩

end Travelling

/-! The invariant of a search. -/

/-- The traces of the rows so far and of what is in flight. -/
def traces (log : List (List SockAddr × FileData)) (flights : List Flight) : List Trace :=
  log.map (fun r => .reply r.1 r.2) ++ flights.map Flight.trace

theorem traces_exchange (log : List (List SockAddr × FileData)) (flights : List Flight) (i : ℕ)
    (new : List Flight) : traces log (Bags.exchange flights i new) =
      Bags.exchange (traces log flights) (log.length+i) (new.map Flight.trace) := by
  simp [traces,Bags.exchange,List.eraseIdx_append_of_length_le,List.eraseIdx_map]

theorem traces_getElem? {log : List (List SockAddr × FileData)} {flights : List Flight} {i : ℕ}
    {f : Flight} (hf : flights[i]? = some f) :
    (traces log flights)[log.length+i]? = some f.trace := by
  simp [traces,List.getElem?_append_right,hf]

/-- A reply that has become a row is no longer in flight. -/
theorem traces_log (log : List (List SockAddr × FileData)) (flights : List Flight) (i : ℕ)
    (r : List SockAddr × FileData) :
    (traces (log ++ [r]) (Bags.exchange flights i [])).Perm
      (Bags.exchange (traces log flights) (log.length+i) [.reply r.1 r.2]) := by
  have hh := traces_exchange log flights i []
  simp only [List.map_nil,Bags.exchange,List.append_nil] at hh
  simp only [Bags.exchange,List.append_nil]
  rw [← hh]
  simp only [traces,List.map_append,List.map_singleton,List.append_assoc]
  exact List.perm_append_comm.append_left _

theorem exists_of_forall₂ {α β : Type} {R : α → β → Prop} {l : List α} {m : List β}
    (hl : List.Forall₂ R l m) {a : α} (ha : a ∈ l) : ∃ b, R a b := by
  obtain ⟨i,rfl⟩ := List.mem_iff_get.mp ha
  exact ⟨_,hl.get i.isLt (hl.length_eq ▸ i.isLt)⟩

section Results
variable {ι : Type} [DecidableEq ι] {w : Wiring ι} {g : PatternMatch} {s : Net ι} {k : Watched ι}
  {table : RequestTable} {model : ℕ}

/-- What holds when the search has been started: no program knows a server or has a file
twice, and of the originator's requests only the search under watch fills its list. -/
structure Setting (s : Net ι) (k : Watched ι) (table : RequestTable) (model : ℕ) : Prop where
  nodup : ∀ j h, s.host j = some h → h.known.Nodup ∧ h.database.Nodup
  order : ∀ h, s.host k.origin = some h → h.order = k.order
  own : ∀ n b l, table.outstanding n = some (b,l) → (l.data = some model ↔ n = k.handle)

/-- The network during a search, when the rows of `log` have been made. -/
structure Results (w : Wiring ι) (g : PatternMatch) (s : Net ι) (k : Watched ι)
    (table : RequestTable) (model : ℕ) (log : List (List SockAddr × FileData)) (s' : Net ι) :
    Prop where
  hosts : ∀ j h, s'.host j = some h → ∃ h₁, s.host j = some h₁ ∧ h₁.Like h
  table : ∀ h, s'.host k.origin = some h → h.requests = table
  flights : ∀ f ∈ s'.flights, Travels w g s k f
  apart : (traces log s'.flights).Pairwise Apart
  rows : ∀ h, s'.host k.origin = some h →
    List.Forall₂ (IsAnswer w g s k) log (h.models model)

omit [DecidableEq ι] in
/-- The row a reply adds to the list under watch is an answer that was not there before. -/
theorem Results.row (hset : Setting s k table model) {f : Flight} (ht : Travels w g s k f)
    {h₁ h : Host} (hh : s.host k.origin = some h₁) (hl : h₁.Like h) (htable : h.requests = table)
    (hroute : w.route f.dest = some k.origin) {buffer : ℕ → UInt8}
    (hop : (f.packet h buffer).packet.operation = replyFilesearch) {b : ℕ} {l : Request} {m : ℕ}
    (hout : h.requests.outstanding (f.packet h buffer).packet.requestHandle = some (b,l))
    (hdata : l.data = some m) : m ≠ model ∨ m = model ∧ ∃ hops file,
      f.trace = .reply hops file ∧
        IsAnswer w g s k (hops,file) ((f.packet h buffer).response h.order) := by
  have horder : h.order = k.order := hl.order.trans (hset.order h₁ hh)
  rw [htable] at hout
  have hown := hset.own _ b l hout
  rw [hdata,Option.some.injEq] at hown
  cases htrace : f.trace with
  | search hops =>
    rw [ht.search_operation htrace h buffer] at hop
    exact absurd hop (by decide)
  | reply hops file =>
    simp only [Travels,htrace] at ht
    rcases ht with ⟨j,h₂,hanswer,hsource,hread⟩
    have hr := hread h buffer
    refine .inr ⟨hown.mpr (store16_inj (o:=k.order) (horder ▸ hr.1)),hops,file,rfl,j,h₂,hanswer,?_⟩
    rw [response_eq,hr.2.2,horder,← hsource]
    rfl
  | other =>
    simp only [Travels,htrace] at ht
    refine .inl fun hm => ?_
    rcases ht.others h buffer with ⟨hsearch,-⟩ | ⟨-,hother⟩
    · rw [hsearch] at hop
      exact absurd hop (by decide)
    · refine hother ?_ hroute
      rw [hown.mp hm,horder]

omit [DecidableEq ι] in
theorem Results.lost {log : List (List SockAddr × FileData)} {s' : Net ι}
    (hr : Results w g s k table model log s') (i : ℕ) :
    Results w g s k table model log { s' with flights := Bags.exchange s'.flights i [] } where
  hosts := hr.hosts
  table := hr.table
  flights := Bags.forall_exchange hr.flights (by simp)
  apart := by
    rw [traces_exchange]
    exact Bags.pairwise_exchange_nil hr.apart
  rows := hr.rows

section Handled
variable {log : List (List SockAddr × FileData)} {s' : Net ι} {i : ℕ} {f : Flight} {j : ι}
  {h : Host}

/-- A program handles a flight and is as before. -/
theorem Results.unchanged (hset : Setting s k table model) (hr : Results w g s k table model log s')
    {calls : Calls} {acts : List Action} (hf : s'.flights[i]? = some f)
    (hj : w.route f.dest = some j) (hhost : s'.host j = some h)
    (ha : applyPacket g calls (f.packet h (s'.buffer j)) h = .ok (h,acts)) :
    Results w g s k table model log
      { host := Function.update s'.host j (some h)
        buffer := Function.update s'.buffer j (recvfrom f.datagram (s'.buffer j))
        flights := Bags.exchange s'.flights i (launch w j
          (follow f.trace (matching g h (f.packet h (s'.buffer j))) acts)) } := by
  have ht := hr.flights f (List.mem_of_getElem? hf)
  obtain ⟨h₁,hh,hl⟩ := hr.hosts j h hhost
  have hsame : Function.update s'.host j (some h) = s'.host := by
    rw [← hhost,Function.update_eq_self]
  have hnodup := hset.nodup j h₁ hh
  have hapart := launch_apart (w:=w) (j:=j) (hl.known ▸ hnodup.1) (hl.database ▸ hnodup.2)
    (fun _ htrace => ht.search_operation htrace h _) ha
  refine ⟨?_,?_,?_,?_,?_⟩
  · simpa only [hsame] using hr.hosts
  · simpa only [hsame] using hr.table
  · exact Bags.forall_exchange hr.flights fun f' hf' => ht.sent hj hh hl ha hf'
  · rw [traces_exchange]
    exact Bags.pairwise_exchange Apart.symm hr.apart (traces_getElem? hf) hapart.1 hapart.2
  · simpa only [hsame] using hr.rows

/-- A program gets a reply and adds a row to one of its lists. -/
theorem Results.added (hset : Setting s k table model) (hr : Results w g s k table model log s')
    (hf : s'.flights[i]? = some f) (hj : w.route f.dest = some j) (hhost : s'.host j = some h)
    (hop : (f.packet h (s'.buffer j)).packet.operation = replyFilesearch) {b : ℕ} {l : Request}
    {m : ℕ} (hout : h.requests.outstanding
      (f.packet h (s'.buffer j)).packet.requestHandle = some (b,l)) (hdata : l.data = some m) :
    ∃ log', Results w g s k table model log'
      { host := Function.update s'.host j
          (some (h.addRow m ((f.packet h (s'.buffer j)).response h.order)))
        buffer := Function.update s'.buffer j (recvfrom f.datagram (s'.buffer j))
        flights := Bags.exchange s'.flights i [] } := by
  have ht := hr.flights f (List.mem_of_getElem? hf)
  obtain ⟨h₁,hh,hl⟩ := hr.hosts j h hhost
  have hlost := hr.lost i
  suffices hrows : ∃ log', (traces log' (Bags.exchange s'.flights i [])).Pairwise Apart ∧
      ∀ h₂, Function.update s'.host j (some (h.addRow m
        ((f.packet h (s'.buffer j)).response h.order))) k.origin = some h₂ →
        List.Forall₂ (IsAnswer w g s k) log' (h₂.models model) by
    rcases hrows with ⟨log',hapart,hrows⟩
    refine ⟨log',fun j' h₂ hh₂ => ?_,fun h₂ hh₂ => ?_,hlost.flights,hapart,hrows⟩
    · rcases update_some hh₂ with ⟨rfl,rfl⟩ | hold
      · exact ⟨h₁,hh,hl.addRow _ _⟩
      · exact hr.hosts j' h₂ hold
    · rcases update_some hh₂ with ⟨rfl,rfl⟩ | hold
      · exact hr.table h hhost
      · exact hr.table h₂ hold
  by_cases hjo : j = k.origin
  · subst hjo
    have hold := hr.rows h hhost
    rcases Results.row hset ht hh hl (hr.table h hhost) hj hop hout hdata with
      hne | ⟨rfl,hops,file,htrace,hanswer⟩
    · refine ⟨log,hlost.apart,fun h₂ hh₂ => ?_⟩
      obtain rfl : h.addRow m _ = h₂ := by simpa using hh₂
      simpa [Host.addRow,hne.symm] using hold
    · refine ⟨log ++ [(hops,file)],?_,fun h₂ hh₂ => ?_⟩
      · apply ((traces_log log s'.flights i (hops,file)).pairwise_iff Apart.symm).mpr
        apply Bags.pairwise_exchange Apart.symm hr.apart (traces_getElem? hf) (by simp)
        simp [htrace]
      · obtain rfl : h.addRow m _ = h₂ := by simpa using hh₂
        have hrows := List.rel_append hold (.cons hanswer .nil)
        simpa [Host.addRow] using hrows
  · refine ⟨log,hlost.apart,fun h₂ hh₂ => hr.rows h₂ ?_⟩
    simpa [Function.update_of_ne (Ne.symm hjo)] using hh₂

end Handled

/-- Whatever happens, at most one row more has been made. -/
theorem Results.happens (hset : Setting s k table model)
    {log : List (List SockAddr × FileData)} {s' s'' : Net ι} {new : List Flight}
    (hr : Results w g s k table model log s') (hh : Happens w g s' s'' new) :
    ∃ log', Results w g s k table model log' s'' := by
  cases hh with
  | lost i => exact ⟨log,hr.lost i⟩
  | @crashed i f j h calls e hf hj hhost he =>
    have hl := hr.lost i
    exact ⟨log,fun j' h₁ hh => hr.hosts j' h₁ (update_none hh),
      fun h₁ hh => hr.table h₁ (update_none hh),hl.flights,hl.apart,
      fun h₁ hh => hr.rows h₁ (update_none hh)⟩
  | @handled i f j h h' calls acts hf hj hhost ha =>
    have ht := hr.flights f (List.mem_of_getElem? hf)
    rcases ht.handled ha with rfl | ⟨rfl,hop,b,l,m,hout,hdata,rfl⟩
    · exact ⟨log,hr.unchanged hset hf hj hhost ha⟩
    · exact hr.added hset hf hj hhost hop hout hdata

/-- Right after the start no row has been made. -/
theorem results_start {o : ι} {h₀ : Host} (ho : s.host o = some h₀) (calls : Calls)
    (search : CString) (hknown : h₀.known.Nodup)
    (hs : ∀ f ∈ s.flights, f.trace = .other ∧ Elsewhere w (Watched.started o h₀ calls search) f) :
    Results w g s (Watched.started o h₀ calls search) (searchfile calls search h₀).1.requests
      h₀.nextModel [] (s.search w calls search o) := by
  have hsearch : s.search w calls search o =
      { s with
        host := Function.update s.host o (some (searchfile calls search h₀).1)
        flights := s.flights ++
          launch w o (follow (.search []) [] (searchfile calls search h₀).2) } := by
    simp only [Net.search,ho]
  have horigin : ∀ h, (s.search w calls search o).host o = some h →
      h = (searchfile calls search h₀).1 := by
    intro h hh
    simpa [hsearch,eq_comm] using hh
  refine ⟨fun j h hh => ?_,fun h hh => ?_,fun f hf => ?_,?_,fun h hh => ?_⟩
  · rw [hsearch] at hh
    rcases update_some hh with ⟨rfl,rfl⟩ | hold
    · exact ⟨h₀,ho,rfl,rfl,rfl,rfl⟩
    · exact ⟨h,hold,rfl,rfl,rfl,rfl⟩
  · rw [horigin h hh]
  · rcases search_flights hf with hold | ⟨h₁,hh₁,hsource,hdest,htrace,hbytes⟩
    · simp only [Travels,(hs f hold).1]
      exact (hs f hold).2
    · obtain rfl : h₀ = h₁ := by simpa [ho] using hh₁
      simp only [Travels,htrace]
      exact ⟨Watched.isCopy_started hsource hbytes,.search ho hdest⟩
  · have hold : ∀ t ∈ s.flights.map Flight.trace, t = .other := by
      intro t ht
      obtain ⟨f,hf,rfl⟩ := List.mem_map.mp ht
      exact (hs f hf).1
    have hnew : (follow (.search []) [] (searchfile calls search h₀).2).map Prod.snd =
        answers [] [] h₀.known := by
      simp [searchfile_snd,follow_copies,answers,Function.comp_def]
    rw [hsearch]
    simp only [traces,List.map_nil,List.nil_append,List.map_append]
    refine List.pairwise_append.mpr ⟨?_,?_,fun t ht t' _ => ?_⟩
    · refine List.pairwise_of_forall_mem_list fun t ht t' _ => ?_
      rw [hold t ht]
      trivial
    · refine .sublist (launch_traces w o _) ?_
      rw [hnew]
      exact answers_pairwise List.nodup_nil hknown
    · rw [hold t ht]
      trivial
  · rw [horigin h hh]
    simp [searchfile]

/-- A row for each way of a search to a file at most: however the datagrams are delivered or
lost, and whatever other searches are going on, the rows of a search are answers that came
from different ways or are about different files. So there is one row at most for a program
and a file when the search can reach every program on one way only. -/
theorem search_results (w : Wiring ι) (g : PatternMatch) (s : Net ι)
    (hnodup : ∀ j h, s.host j = some h → h.known.Nodup ∧ h.database.Nodup) (o : ι) (h₀ : Host)
    (ho : s.host o = some h₀) (hmade : ModelsMade h₀) (calls : Calls) (search : CString)
    (hs : ∀ f ∈ s.flights, f.trace = .other ∧ Elsewhere w (Watched.started o h₀ calls search) f)
    (ops : List NetOp) (h : Host)
    (hh : ((s.search w calls search o).run w g ops).1.host o = some h) :
    ∃ log : List (List SockAddr × FileData), log.Nodup ∧
      List.Forall₂ (IsAnswer w g s (Watched.started o h₀ calls search)) log
        (h.models h₀.nextModel) ∧
      ((∀ j a b, Walk w s o a → Walk w s o b → a.length ≤ 3 → b.length ≤ 3 →
        position w o a = some j → position w o b = some j → a = b) →
        (log.map fun r => (position w o r.1,r.2)).Nodup) := by
  have hset : Setting s (Watched.started o h₀ calls search)
      (searchfile calls search h₀).1.requests h₀.nextModel := {
    nodup := hnodup
    order := fun h₁ hh₁ => by
      obtain rfl : h₀ = h₁ := by simpa [Watched.started,ho] using hh₁
      rfl
    own := fun n b l hout => searchfile_data hmade calls search hout }
  have hrun := Net.run_invariant (w:=w) (g:=g) (s:=s.search w calls search o)
    (P:=fun s' _ => ∃ log, Results w g s (Watched.started o h₀ calls search)
      (searchfile calls search h₀).1.requests h₀.nextModel log s')
    ⟨[],results_start ho calls search (hnodup o h₀ ho).1 hs⟩
    (fun s₁ _ s₂ new hr hnext => by
      rcases hr with ⟨log,hr⟩
      exact hr.happens hset hnext) ops
  rcases hrun with ⟨log,hr⟩
  have hrows := hr.rows h hh
  have hlog : log.Nodup := by
    have hsub := (List.pairwise_append.mp hr.apart).1
    exact (List.pairwise_map.mp hsub).imp id
  refine ⟨log,hlog,hrows,fun hways => ?_⟩
  refine hlog.map_on fun r hr₁ r' hr₂ heq => ?_
  obtain ⟨row,j,h₁,hr₁,-⟩ := exists_of_forall₂ hrows hr₁
  obtain ⟨row',j',h₂,hr₂,-⟩ := exists_of_forall₂ hrows hr₂
  simp only [Prod.mk.injEq] at heq
  have hpos : position w o r'.1 = some j := heq.1.symm.trans hr₁.position
  exact Prod.ext (hways j _ _ hr₁.walk hr₂.walk hr₁.few hr₂.few hr₁.position hpos) heq.2

end Results

/-- The five deliveries in the triangle by which the third program gets the search from the
first and from the second one, and the first gets both replies. -/
def doubled : List NetOp := List.replicate 5 (.deliver 0 noCalls)

theorem triangle_nodup : ∀ j h, triangle.host j = some h → h.known.Nodup ∧ h.database.Nodup := by
  intro j h hh
  fin_cases j <;> (obtain rfl := Option.some_inj.mp hh; decide)

theorem modelsMade_initial (o : Order) (database : List FileData) (l : List SockAddr) :
    ModelsMade ((Host.initial o database).connected l) := by
  intro n b r hr
  simp [Host.connected,Host.initial] at hr

theorem search_results_triangle : ∃ log : List (List SockAddr × FileData), log.Nodup ∧
    List.Forall₂ (IsAnswer triangleWiring sameName triangle (Watched.started 0
      ((Host.initial .little []).connected [addressOf 1,addressOf 2]) noCalls someFile.filename))
      log ((((triangleSearched.run triangleWiring sameName doubled).1.host 0).get
        (by decide +kernel)).models 0) ∧
    ((∀ j a b, Walk triangleWiring triangle 0 a → Walk triangleWiring triangle 0 b →
      a.length ≤ 3 → b.length ≤ 3 → position triangleWiring 0 a = some j →
      position triangleWiring 0 b = some j → a = b) →
      (log.map fun r => (position triangleWiring 0 r.1,r.2)).Nodup) :=
  search_results triangleWiring sameName triangle triangle_nodup 0 _ rfl (modelsMade_initial _ _ _)
    noCalls _ (by simp [triangle]) doubled _ (Option.some_get _).symm

/-- A search with no other traffic can have two rows for one file of one program. -/
theorem rows_doubled : ¬∀ (s : Net (Fin 3)) (o : Fin 3) (h₀ : Host) (calls : Calls)
    (search : CString) (ops : List NetOp) (h : Host), s.flights = [] →
    (∀ j h, s.host j = some h → h.known.Nodup ∧ h.database.Nodup) → s.host o = some h₀ →
    ModelsMade h₀ →
    ((s.search triangleWiring calls search o).run triangleWiring sameName ops).1.host o = some h →
    ((h.models h₀.nextModel).map fun row => (row.addr,row.filename)).Nodup := by
  intro hall
  have hnodup := hall triangle 0 _ noCalls someFile.filename doubled _ rfl triangle_nodup rfl
    (modelsMade_initial _ _ _) (Option.some_get (by decide +kernel)).symm
  revert hnodup
  decide +kernel

end Pingu
end MiscUniStuff
