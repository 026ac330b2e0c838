import MiscUniStuff.DeclaredLength
import MiscUniStuff.PeerMessages

/-! A network in which only these programs send: in whatever order they act and the
datagrams arrive, no datagram makes the one that gets it leave its payload. -/
namespace MiscUniStuff
namespace Pingu
open ByteOrder

/-! ### Runs -/

/-- A program does something on its own, or something becomes of a datagram. -/
inductive PeerOp (ι : Type)
  | program (j : ι) (o : ProgramOp)
  | network (o : NetOp)

variable {ι : Type} [DecidableEq ι]

def PeerOp.step (w : Wiring ι) (g : PatternMatch) : PeerOp ι → Net ι → Net ι × List Flight
  | program j o, s =>
    match s.host j with
    | none => (s,[])
    | some h =>
      ({ s with
        host := Function.update s.host j (some (o.step h).1)
        flights := s.flights ++ launch w j (follow .other [] (o.step h).2) },[])
  | network o, s => o.step w g s

/-- The network after a list of such steps, and the flights received on the way. -/
def Net.peers (w : Wiring ι) (g : PatternMatch) (s : Net ι) (ops : List (PeerOp ι)) :
    Net ι × List Flight := Runs.run (PeerOp.step w g) s ops

section Rules
variable {w : Wiring ι} {g : PatternMatch} {s : Net ι}

theorem peers_snoc (ops : List (PeerOp ι)) (x : PeerOp ι) :
    (s.peers w g (ops ++ [x])).1 = (x.step w g (s.peers w g ops).1).1 := by
  rw [Net.peers,Runs.run_snoc]
  rfl

omit [DecidableEq ι] in
/-- What a program launches on its own are datagrams of its own actions. -/
theorem mem_launch_other {j : ι} {acts : List Action} {f : Flight}
    (hf : f ∈ launch w j (follow .other [] acts)) :
    f.source = w.seen j f.dest ∧ .sendto f.dest f.datagram.bytes ∈ acts := by
  obtain ⟨hsource,hmem⟩ := mem_launch.mp hf
  rw [follow_unwatched (fun _ => Trace.noConfusion)] at hmem
  obtain ⟨a,ha,heq⟩ := List.mem_map.mp hmem
  rw [Prod.mk.injEq] at heq
  exact ⟨hsource,heq.1 ▸ ha⟩

omit [DecidableEq ι] in
theorem mem_launch_follow {j : ι} {t : Trace} {found : List FileData} {acts : List Action}
    {f : Flight} (hf : f ∈ launch w j (follow t found acts)) :
    f.source = w.seen j f.dest ∧ .sendto f.dest f.datagram.bytes ∈ acts := by
  obtain ⟨hsource,hmem⟩ := mem_launch.mp hf
  refine ⟨hsource,?_⟩
  rw [← follow_map_fst t found acts]
  exact List.mem_map.mpr ⟨_,hmem,rfl⟩

/-- The rule for what holds of each program and of each datagram, whatever the order of the
steps: the acts of a program keep it, and handling a datagram keeps it. -/
theorem Net.peers_invariant {P : ι → Host → Prop} {Q : Flight → Prop} (ops : List (PeerOp ι))
    (hosts : ∀ j h, s.host j = some h → P j h) (flights : ∀ f ∈ s.flights, Q f)
    (acts : ∀ j o h, .program j o ∈ ops → P j h → P j (o.step h).1 ∧
      ∀ f, f.source = w.seen j f.dest → .sendto f.dest f.datagram.bytes ∈ (o.step h).2 → Q f)
    (handles : ∀ j f h h' buffer c acts, w.route f.dest = some j → P j h → Q f →
      applyPacket g c (f.packet h buffer) h = .ok (h',acts) → P j h' ∧
        ∀ f', f'.source = w.seen j f'.dest → .sendto f'.dest f'.datagram.bytes ∈ acts → Q f') :
    (∀ j h, (s.peers w g ops).1.host j = some h → P j h) ∧
      ∀ f ∈ (s.peers w g ops).1.flights, Q f := by
  induction ops using List.reverseRecOn with
  | nil => exact ⟨hosts,flights⟩
  | append_singleton ops x ih =>
    obtain ⟨hhosts,hflights⟩ := ih fun j o h hmem => acts j o h (List.mem_append_left _ hmem)
    rw [peers_snoc]
    generalize (s.peers w g ops).1 = s₁ at hhosts hflights
    cases x with
    | program j o =>
      cases hh : s₁.host j with
      | none => simpa only [PeerOp.step,hh] using ⟨hhosts,hflights⟩
      | some h =>
        have hact := acts j o h (by simp) (hhosts j h hh)
        simp only [PeerOp.step,hh]
        constructor
        · intro i hi hrun
          rcases update_some hrun with ⟨rfl,rfl⟩ | hold
          · exact hact.1
          · exact hhosts i hi hold
        · intro f hf
          rcases List.mem_append.mp hf with hold | hnew
          · exact hflights f hold
          · obtain ⟨hsource,hmem⟩ := mem_launch_other hnew
            exact hact.2 f hsource hmem
    | network o =>
      have hstep := step_happens w g o s₁
      simp only [PeerOp.step]
      generalize (o.step w g s₁).1 = s₂ at hstep
      generalize (o.step w g s₁).2 = new at hstep
      cases hstep with
      | lost i => exact ⟨hhosts,Bags.forall_exchange hflights (by simp)⟩
      | crashed hf hj hh he =>
        exact ⟨fun i h hi => hhosts i h (update_none hi),Bags.forall_exchange hflights (by simp)⟩
      | handled hf hj hh ha =>
        have hdone := handles _ _ _ _ _ _ _ hj (hhosts _ _ hh)
          (hflights _ (List.mem_of_getElem? hf)) ha
        constructor
        · intro i h hi
          rcases update_some hi with ⟨rfl,rfl⟩ | hold
          · exact hdone.1
          · exact hhosts i h hold
        · refine Bags.forall_exchange hflights fun f' hf' => ?_
          obtain ⟨hsource,hmem⟩ := mem_launch_follow hf'
          exact hdone.2 f' hsource hmem

end Rules

/-! ### Datagrams that can be taken apart -/

/-- The bytes of payload that the handler of an operation takes for granted. -/
def shortest (operation : UInt8) : ℕ :=
  if operation = requestFilesearch then 8
  else if operation = requestWantfile then 16
  else if operation = replyTransferwaiting then 22
  else if operation = replyFilesearch then 20
  else if operation = replyServers then 6
  else 0

/-- A header of the protocol, with a payload of the length that it announces and the handler
takes for granted. -/
def Proper (bytes : List UInt8) : Prop :=
  ∃ o p d hs, bytes = sendPacket o p d ∧ d.length = p.packetLength.toNat ∧
    p.front o = preamble ++ hs ∧ shortest p.operation ≤ d.length

section Proper
variable {o : Order} {operation : UInt8} {datalen request : UInt16} {d : List UInt8}

theorem proper_fillinPacket (hd : d.length = datalen.toNat)
    (hlong : shortest operation ≤ d.length) :
    Proper (sendPacket o (fillinPacket o operation datalen request) d) :=
  ⟨o,_,d,_,rfl,hd,front_fillinPacket o operation datalen request,hlong⟩

/-- With a length that is counted in 16 bits. -/
theorem proper_counted {n : ℕ} (hd : d.length = n) (hn : n < 65536)
    (hlong : shortest operation ≤ d.length) :
    Proper (sendPacket o (fillinPacket o operation (UInt16.ofNat n) request) d) := by
  apply proper_fillinPacket
  · rw [hd,UInt16.toNat_ofNat_of_lt' hn]
  · exact hlong

/-- Whoever reads it. -/
theorem Proper.read {bytes : List UInt8} (h : Proper bytes) {m : ℕ → UInt8}
    (hm : StartsWith m bytes) (o : Order) (ad : SockAddr) : Accepted o (readPacket o m ad) ∧
      shortest (readPacket o m ad).packet.operation ≤ (readPacket o m ad).data.length := by
  obtain ⟨o',p,d,hs,rfl,hd,hfront,hlong⟩ := h
  have hread := readPacket_sendPacket o hd hm ad
  refine ⟨accepted_iff_front.mpr ⟨hs,hread.front.trans hfront⟩,?_⟩
  rw [hread.operation,hread.data]
  exact hlong

theorem Proper.packet {f : Flight} (hf : Proper f.datagram.bytes) (h : Host) (buffer : ℕ → UInt8) :
    Accepted h.order (f.packet h buffer) ∧
      shortest (f.packet h buffer).packet.operation ≤ (f.packet h buffer).data.length :=
  hf.read (recvfrom_startsWith f.datagram buffer) h.order f.source

theorem Proper.complete {d : Datagram} (h : Proper d.bytes) : d.Complete := by
  obtain ⟨o,p,payload,hs,hbytes,hd,-,-⟩ := h
  have hlen : d.bytes.length = 10+payload.length := by
    rw [hbytes,sendPacket,List.length_append,Packet.length_image,List.length_take,hd,min_self]
  have hannounced : d.announced = payload.length := by
    have hdrop : (d.bytes.drop 8).take 2 = store16 .big p.packetLength := by
      obtain ⟨a,b,hmagic⟩ := exists_store16 o p.magic
      obtain ⟨c,e,hversion⟩ := exists_store16 o p.version
      obtain ⟨x,y,hhandle⟩ := exists_store16 o p.requestHandle
      obtain ⟨u,v,hlength⟩ := exists_store16 .big p.packetLength
      simp [hbytes,sendPacket,Packet.image,store16_htons,hmagic,hversion,hhandle,hlength]
    rw [Datagram.announced,hdrop,store16,load_store p.packetLength.toNat_lt,hd]
  simp only [Datagram.Complete,sizeofPacket,hannounced,hlen]
  omega

/-- A payload of such a length leaves nothing to be desired at any program. -/
theorem longEnough_of_shortest {p : FullPacket} (h : shortest p.packet.operation ≤ p.data.length)
    (host : Host) : LongEnough p host := by
  constructor
  · intro hop
    simpa [hop,shortest] using h
  · rintro hop f - ⟨-,hlt⟩
    rw [f.md5_length] at hlt
    have hlong : 16 ≤ p.data.length := by
      simpa [hop,shortest,requestWantfile,requestFilesearch] using h
    omega
  · intro hop
    simpa [hop,shortest,requestWantfile,requestFilesearch,replyTransferwaiting] using h
  · intro hop
    left
    simpa [hop,shortest,requestWantfile,requestFilesearch,replyTransferwaiting,replyFilesearch]
      using h
  · intro hop
    simpa [hop,shortest,requestWantfile,requestFilesearch,replyTransferwaiting,replyFilesearch,
      replyServers] using h

end Proper

/-- A program whose file names fit into its replies, and whose rows have a whole sum. -/
structure Tidy (h : Host) : Prop where
  names : ∀ f ∈ h.database, f.fullfilename.strlen ≤ 65515 ∧ f.filename.strlen ≤ 65513
  rows : ∀ model, ∀ k ∈ h.models model, k.md5sum.length = 16

section Programs
variable {g : PatternMatch} {c : Calls} {p : FullPacket} {h h' : Host} {acts : List Action}
  {dest : SockAddr} {bytes : List UInt8}

theorem Tidy.becomes (ht : Tidy h) (hb : Becomes p h h') : Tidy h' where
  names := hb.database ▸ ht.names
  rows := by
    intro model k hk
    rcases hb.rows model k hk with hold | ⟨-,hp,rfl⟩
    · exact ht.rows model k hold
    · simp only [FullPacket.response,List.length_take,List.length_drop]
      omega

/-- A search whose pattern leaves room for the other eight bytes, and a scan that finds names
that fit. -/
def ProgramOp.Fits : ProgramOp → Prop
  | .searchfile _ search => search.strlen ≤ 65527
  | .rescan found => ∀ f ∈ found, f.fullfilename.strlen ≤ 65515 ∧ f.filename.strlen ≤ 65513
  | _ => True

theorem Tidy.keeps {o : ProgramOp} (ht : Tidy h) (ho : o.Fits) (hk : Keeps o h h') : Tidy h' where
  names := by
    rw [hk.database]
    cases o with
    | rescan found => exact ho
    | _ => exact ht.names
  rows model k hmem := ht.rows model k (hk.rows model k hmem)

/-- The answers of such a program to a proper packet are proper. -/
theorem Tidy.answers (ht : Tidy h) (hacc : Accepted h.order p) (ha : Answers g h p dest bytes) :
    Proper bytes := by
  cases ha with
  | server => exact proper_fillinPacket rfl (by simp [shortest,replyServers,
      requestFilesearch,requestWantfile,replyTransferwaiting,replyFilesearch])
  | noServers => exact proper_fillinPacket (by simp) (by simp [shortest,replyNoservers,
      requestFilesearch,requestWantfile,replyTransferwaiting,replyFilesearch,replyServers])
  | @file f hop hp hf =>
    have hname := (ht.names f (List.mem_of_mem_filter hf)).1
    have hlen := length_fileDetails h f
    apply proper_counted hlen (by omega)
    rw [hlen]
    exact Nat.le_add_right 20 _
  | copy hop hp hdest =>
    obtain ⟨hs,hfront⟩ := accepted_iff_front.mp hacc
    have hlen := FullPacket.length_forwardData hp
    refine ⟨h.order,_,_,hs,rfl,hlen,hfront,?_⟩
    have hdata : p.forwardData.length = p.data.length := hlen.trans p.data_length.symm
    rw [hdata,FullPacket.forwardHeader,hop]
    exact hp
  | @offer f port junk hop hp hf =>
    have hname := (ht.names f (List.mem_of_find?_eq_some hf)).2
    have hlen := length_transferPayload port junk f.filename f.md5_length
    apply proper_counted rfl (by omega)
    rw [hlen]
    exact Nat.le_add_right 22 _

theorem Tidy.starts (ht : Tidy h) {o : ProgramOp} (ho : o.Fits) (hs : Starts h o dest bytes) :
    Proper bytes := by
  cases hs with
  | ping => exact proper_fillinPacket rfl (Nat.zero_le _)
  | @search calls search dest hdest =>
    have hlen := length_searchPayload h.order calls.junk search
    simp only [ProgramOp.Fits] at ho
    apply proper_counted hlen (by omega)
    rw [hlen]
    exact Nat.le_add_right 8 _
  | @want calls model row k hk =>
    have hlen := ht.rows model k (List.mem_of_getElem? hk)
    exact proper_fillinPacket hlen (by rw [hlen]; exact le_rfl)

end Programs

/-- In a network of these programs alone, whatever its wiring and in whatever order the
programs act and the datagrams arrive or get lost: every datagram in flight is complete, is
taken for a packet of the protocol by any program that may get it, and never makes it leave
the payload or compute a negative length, whatever its buffer holds and its calls return. -/
theorem closed_network_safe (w : Wiring ι) (g : PatternMatch) (s : Net ι)
    (hflights : s.flights = []) (hhosts : ∀ j h, s.host j = some h → Tidy h) (ops : List (PeerOp ι))
    (hops : ∀ j o, .program j o ∈ ops → o.Fits) :
    ∀ f ∈ (s.peers w g ops).1.flights, f.datagram.Complete ∧ ∀ h buffer c,
      Accepted h.order (f.packet h buffer) ∧
        PayloadSafe (applyPacket g c (f.packet h buffer) h) := by
  have hrun := Net.peers_invariant (w:=w) (g:=g) (s:=s) (P:=fun _ h => Tidy h)
    (Q:=fun f => Proper f.datagram.bytes) ops hhosts (by simp [hflights]) ?_ ?_
  · intro f hf
    have hproper := hrun.2 f hf
    refine ⟨hproper.complete,fun h buffer c => ?_⟩
    have hread := hproper.packet h buffer
    exact ⟨hread.1,(applyPacket_safe_iff g c _ h hread.1).mpr (longEnough_of_shortest hread.2 h)⟩
  · intro j o h ho ht
    exact ⟨ht.keeps (hops j o ho) (keeps_step o h),fun f _ hmem =>
      ht.starts (hops j o ho) (starts_of_mem hmem)⟩
  · intro j f h h' buffer c acts _ ht hproper ha
    have hread := hproper.packet h buffer
    refine ⟨ht.becomes (applyPacket_becomes ha),fun f' _ hmem => ?_⟩
    exact ht.answers hread.1 (answers_of_mem ha hmem)

theorem models_triangle (j : Fin 3) (h : Host) (hh : triangle.host j = some h) (model : ℕ) :
    h.models model = [] := by
  fin_cases j
  all_goals
    obtain rfl := Option.some_inj.mp hh
    rfl

theorem tidy_triangle : ∀ j h, triangle.host j = some h → Tidy h := by
  intro j h hh
  refine ⟨?_,fun model k hk => by simp [models_triangle j h hh] at hk⟩
  fin_cases j
  all_goals
    obtain rfl := Option.some_inj.mp hh
    decide

/-- A program searches for the file of the third, gets to know of it and asks for it. -/
def errand (c : Calls) (j : Fin 3) : List (PeerOp (Fin 3)) :=
  .program j (.searchfile c someFile.filename) ::
    (List.replicate 5 (.network (.deliver 0 c)) ++ [.program j (.download c 0 0)])

theorem mem_errand {c : Calls} {i j : Fin 3} {o : ProgramOp} (h : .program j o ∈ errand c i) :
    o = .searchfile c someFile.filename ∨ o = .download c 0 0 := by
  simp only [errand,List.mem_cons,List.mem_append,List.mem_replicate,
    PeerOp.program.injEq,reduceCtorEq,and_false,false_or,List.not_mem_nil,or_false] at h
  exact h.imp And.right And.right

theorem errand_fits (c : Calls) (i j : Fin 3) (o : ProgramOp) (h : .program j o ∈ errand c i) :
    o.Fits := by
  rcases mem_errand h with rfl | rfl
  · exact show someFile.filename.strlen ≤ 65527 by decide
  · trivial

theorem closed_network_safe_triangle :
    (triangle.peers triangleWiring sameName (errand noCalls 0)).1.flights.length = 1 ∧
      ∀ f ∈ (triangle.peers triangleWiring sameName (errand noCalls 0)).1.flights,
        f.datagram.Complete ∧ ∀ h buffer c, Accepted h.order (f.packet h buffer) ∧
          PayloadSafe (applyPacket sameName c (f.packet h buffer) h) :=
  ⟨by decide +kernel,closed_network_safe triangleWiring sameName triangle rfl tidy_triangle
    (errand noCalls 0) (errand_fits noCalls 0)⟩

end Pingu
end MiscUniStuff
