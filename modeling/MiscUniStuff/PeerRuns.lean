import MiscUniStuff.PeerNetwork
import MiscUniStuff.RequestRuns

/-! The same network while no user closes a tab: every reply that arrives is waited for, so
no program is stopped by an invalid access. -/
namespace MiscUniStuff
namespace Pingu
open ByteOrder

/-! ### Requests that stay -/

namespace RequestTable
variable {t : RequestTable} {k n : ℕ} {m : UInt16}

/-- The numbers from 1 to `k` are in use, all of them by active requests. -/
structure Live (k : ℕ) (t : RequestTable) : Prop where
  used : ∀ m, t.outstanding m ≠ none ↔ 1 ≤ m.toNat ∧ m.toNat ≤ k
  active : ∀ m b l, t.outstanding m = some (b,l) → l.active = true

theorem live_requestInit : Live 0 requestInit where
  used := by
    intro m
    rw [outstanding_requestInit]
    simp only [ne_eq,not_true_eq_false,false_iff]
    omega
  active m b l hl := by simp at hl

theorem Live.found (h : Live k t) (hk : k < 65535) : t.found.toNat = k+1 := by
  have hsegment := found_of_segment (t:=t) (k:=k) (by omega) fun m => by
    rw [← h.used m,Ne,Ne,outstanding_eq_none]
  rw [hsegment,UInt16.toNat_ofNat_of_lt' (by simp only [UInt16.size]; omega)]

/-- One more request under the next number. -/
theorem Live.start {t' : RequestTable} (h : Live k t) (hk : k < 65535) {b : ℕ} {r : Request}
    (hr : r.active = true)
    (ht' : ∀ m, t'.outstanding m = if m = t.found then some (b,r) else t.outstanding m) :
    Live (k+1) t' where
  used := by
    intro m
    have hfound := h.found hk
    rw [ht']
    by_cases hm : m = t.found
    · rw [if_pos hm,hm,hfound]
      simp
    · have hne : m.toNat ≠ k+1 := fun heq => hm (UInt16.toNat_inj.mp (heq.trans hfound.symm))
      rw [if_neg hm,h.used m]
      omega
  active := by
    intro m b' l hl
    rw [ht'] at hl
    split_ifs at hl with hm
    · cases hl
      exact hr
    · exact h.active m b' l hl

/-- The number belongs to a request with a result list. -/
def Waits (t : RequestTable) (m : UInt16) : Prop :=
  ∃ b l model, t.outstanding m = some (b,l) ∧ l.data = some model

theorem Waits.start {t' : RequestTable} (hw : Waits t m) (h : Live k t) (hk : k < 65535)
    {b : ℕ} {r : Request}
    (ht' : ∀ m, t'.outstanding m = if m = t.found then some (b,r) else t.outstanding m) :
    Waits t' m := by
  obtain ⟨b',l,model,hl,hdata⟩ := hw
  have hne : m ≠ t.found := by
    rintro rfl
    have hused := (h.used t.found).mp (by simp [hl])
    have hfound := h.found hk
    omega
  exact ⟨b',l,model,by rw [ht',if_neg hne,hl],hdata⟩

/-- A sweep leaves active requests where they are. -/
theorem Live.outstanding_timeout (h : Live k t) (curt : ℤ) {b : ℕ} {l : Request}
    (hl : t.outstanding m = some (b,l)) : ∃ l', (t.requestDoTimeout curt).1.outstanding m =
      some (b,l') ∧ l'.active = true ∧ l'.data = l.data := by
  have ha := h.active m b l hl
  rw [outstanding_requestDoTimeout,hl,Option.bind_some]
  split_ifs
  · refine ⟨{ l with timedout := true },?_,ha,rfl⟩
    rw [swept,if_pos ha]
    rfl
  · exact ⟨l,rfl,ha,rfl⟩

theorem Live.timeout (h : Live k t) (curt : ℤ) : Live k (t.requestDoTimeout curt).1 := by
  have hnone : ∀ m, t.outstanding m = none → (t.requestDoTimeout curt).1.outstanding m = none := by
    intro m hm
    rw [outstanding_requestDoTimeout,hm]
    rfl
  constructor
  · intro m
    rw [← h.used m]
    cases hm : t.outstanding m with
    | none => simp [hnone m hm]
    | some p =>
      obtain ⟨l',hl',-,-⟩ := h.outstanding_timeout curt hm
      simp [hl']
  · intro m b l hl
    cases hm : t.outstanding m with
    | none =>
      rw [hnone m hm] at hl
      cases hl
    | some p =>
      obtain ⟨l',hl',ha,-⟩ := h.outstanding_timeout curt hm
      rw [hl'] at hl
      cases hl
      exact ha

theorem Waits.timeout (hw : Waits t m) (h : Live k t) (curt : ℤ) :
    Waits (t.requestDoTimeout curt).1 m := by
  obtain ⟨b,l,model,hl,hdata⟩ := hw
  obtain ⟨l',hl',-,hsame⟩ := h.outstanding_timeout curt hl
  exact ⟨b,l',model,hl',hsame.trans hdata⟩

end RequestTable

open RequestTable (Live Waits)

/-! ### One program -/

/-- The operation takes a request number. -/
def ProgramOp.Asks : ProgramOp → Prop
  | .searchfile _ _ | .download _ _ _ => True
  | _ => False

instance (o : ProgramOp) : Decidable o.Asks := by
  cases o <;> unfold ProgramOp.Asks <;> infer_instance

/-- The operation closes the tab of a search. -/
def ProgramOp.Closes : ProgramOp → Prop
  | .close _ => True
  | _ => False

instance (o : ProgramOp) : Decidable o.Closes := by
  cases o <;> unfold ProgramOp.Closes <;> infer_instance

section Programs
variable {o : ProgramOp} {h : Host} {k : ℕ}

/-- What a program does on its own leaves the requests that wait where they are, unless a tab
is closed. -/
theorem requests_step (hl : Live k h.requests) (hk : o.Asks → k < 65535) (ho : ¬o.Closes) :
    (∃ k' ≤ k+(if o.Asks then 1 else 0), Live k' (o.step h).1.requests) ∧
      ∀ m, Waits h.requests m → Waits (o.step h).1.requests m := by
  cases o with
  | searchfile calls search =>
    have ht' := fun m => outstanding_searchfile (h:=h) (n:=m) calls search
    exact ⟨⟨k+1,le_rfl,hl.start (hk trivial) rfl ht'⟩,fun m hw => hw.start hl (hk trivial) ht'⟩
  | download calls model row =>
    simp only [ProgramOp.step,clickedFilesearchDownload]
    cases (h.models model)[row]? with
    | none => exact ⟨⟨k,Nat.le_add_right k _,hl⟩,fun m hw => hw⟩
    | some row =>
      have ht' := fun m => outstanding_downloadMakeRequest (h:=h) (n:=m) calls row.md5sum row.addr
      exact ⟨⟨k+1,le_rfl,hl.start (hk trivial) rfl ht'⟩,fun m hw => hw.start hl (hk trivial) ht'⟩
  | close req => exact absurd trivial ho
  | timeout curt =>
    exact ⟨⟨k,Nat.le_add_right k _,hl.timeout curt⟩,fun m hw => hw.timeout hl curt⟩
  | rescan found => exact ⟨⟨k,Nat.le_add_right k _,hl⟩,fun m hw => hw⟩
  | connect host now => exact ⟨⟨k,Nat.le_add_right k _,hl⟩,fun m hw => hw⟩
  | ping i now =>
    simp only [ProgramOp.step]
    cases h.servers.sockets[i]? with
    | none => exact ⟨⟨k,Nat.le_add_right k _,hl⟩,fun m hw => hw⟩
    | some servlet => exact ⟨⟨k,Nat.le_add_right k _,hl⟩,fun m hw => hw⟩

/-- A handler goes through if its payload is long enough and a reply is waited for. -/
theorem applyPacket_isOk {g : PatternMatch} {c : Calls} {p : FullPacket}
    (hlong : shortest p.packet.operation ≤ p.data.length)
    (hreply : p.packet.operation = replyFilesearch → Waits h.requests p.packet.requestHandle) :
    ∃ h' acts, applyPacket g c p h = .ok (h',acts) := by
  have hall := longEnough_of_shortest hlong h
  have hmap {α β : Type} {f : α → β} {r : Except Fault α} (hr : r.isOk) : ∃ b, r.map f = .ok b := by
    cases r with
    | error e => cases hr
    | ok a => exact ⟨f a,rfl⟩
  have hok : ∃ r, applyPacket g c p h = .ok r := by
    unfold applyPacket
    split_ifs
    · unfold applyOperation
      simp only
      split_ifs with h₁ h₂ h₃ h₄ h₅ h₆
      · exact ⟨_,rfl⟩
      · rw [getRequestSearch_eq (hall.search h₂)]
        exact ⟨_,rfl⟩
      · exact hmap ((getRequestWantfile_isOk h.database).mpr (hall.wantfile h₃))
      · exact hmap (downloadReplyTransferwaiting_isOk (hall.transfer h₄))
      · obtain ⟨b,l,model,hl,hdata⟩ := hreply h₅
        cases ha : l.active with
        | false =>
          rw [getReplySearch_inactive hl ha]
          exact ⟨_,rfl⟩
        | true =>
          have hp : 20 ≤ p.data.length := by
            simpa [h₅,shortest,requestWantfile,requestFilesearch,replyTransferwaiting,
              replyFilesearch] using hlong
          rw [getReplySearch_active hl ha hp,hdata]
          exact ⟨_,rfl⟩
      · exact hmap (addUpstreamServer_isOk (hall.servers h₆))
      · exact ⟨_,rfl⟩
      · exact ⟨_,rfl⟩
    · exact ⟨_,rfl⟩
  obtain ⟨⟨h',acts⟩,hr⟩ := hok
  exact ⟨h',acts,hr⟩

end Programs

/-! ### The network -/

/-- There is no translation of addresses: what a program is seen under leads back to it, and
the port is the one that all of them listen on. -/
structure Wiring.Direct {ι : Type} (w : Wiring ι) : Prop where
  back : ∀ i a, w.route (w.seen i a) = some i
  port : ∀ i a, (w.seen i a).port = connectionPort

/-- The program that a search has replies sent to, or that a reply is for. -/
def returnsTo {ι : Type} (w : Wiring ι) (dest : SockAddr) (p : FullPacket) : Option ι :=
  if p.packet.operation = replyFilesearch then w.route dest
  else if p.packet.operation = requestFilesearch then
    w.route ⟨setDestinationIp p.address p.addr.addr,p.port⟩
  else none

/-- The number in a search or a reply is waited for by the program it goes back to. -/
def Awaited {ι : Type} (w : Wiring ι) (host : ι → Option Host) (f : Flight) : Prop :=
  ∀ h₁ buffer i h, returnsTo w f.dest (f.packet h₁ buffer) = some i → host i = some h →
    ∃ m, store16 h.order m = store16 h₁.order (f.packet h₁ buffer).packet.requestHandle ∧
      Waits h.requests m

/-- What holds between the steps, with `n` requests made at most. -/
structure Serving {ι : Type} (w : Wiring ι) (n : ℕ) (s : Net ι) : Prop where
  tidy : ∀ j h, s.host j = some h → Tidy h
  live : ∀ j h, s.host j = some h → ∃ k ≤ n, Live k h.requests
  proper : ∀ f ∈ s.flights, Proper f.datagram.bytes
  source : ∀ f ∈ s.flights, f.source.addr ≠ .zero
  awaited : ∀ f ∈ s.flights, Awaited w s.host f

section Datagrams
variable {ι : Type} {w : Wiring ι} {g : PatternMatch} {f f' : Flight} {j : ι} {h h' : Host}

/-- Datagrams of the other operations go back to nobody. -/
theorem awaited_other {host : ι → Option Host} {o : Order} {operation : UInt8}
    {datalen request : UInt16} {d : List UInt8} (hd : d.length = datalen.toNat)
    (hf : f.datagram.bytes = sendPacket o (fillinPacket o operation datalen request) d)
    (hreply : operation ≠ replyFilesearch) (hsearch : operation ≠ requestFilesearch) :
    Awaited w host f := by
  intro h₁ buffer i h hto
  have hread := Flight.packet_sent (q:=fillinPacket o operation datalen request) hd hf h₁ buffer
  have hop : (f.packet h₁ buffer).packet.operation = operation := hread.2.1
  rw [returnsTo,hop,if_neg hreply,if_neg hsearch] at hto
  cases hto

/-- A program that keeps its order and what waits in its table may change otherwise. -/
theorem Awaited.update [DecidableEq ι] {host : ι → Option Host} (ha : Awaited w host f)
    (hh : host j = some h)
    (horder : h'.order = h.order) (hwaits : ∀ m, Waits h.requests m → Waits h'.requests m) :
    Awaited w (Function.update host j (some h')) f := by
  intro h₁ buffer i h₂ hto hi
  rcases update_some hi with ⟨rfl,rfl⟩ | hold
  · obtain ⟨m,hm,hw⟩ := ha h₁ buffer i h hto hh
    exact ⟨m,horder ▸ hm,hwaits m hw⟩
  · exact ha h₁ buffer i h₂ hto hold

/-- The answers to a datagram are awaited where it was. -/
theorem Awaited.answers {host : ι → Option Host} {buffer : ℕ → UInt8} (ht : Tidy h)
    (hsource : f.source.addr ≠ .zero) (ha : Awaited w host f)
    (hans : Answers g h (f.packet h buffer) f'.dest f'.datagram.bytes) : Awaited w host f' := by
  generalize hbytes : f'.datagram.bytes = bytes at hans
  generalize hdest : f'.dest = dest at hans
  cases hans with
  | server => exact awaited_other rfl hbytes (by decide) (by decide)
  | noServers => exact awaited_other (by simp) hbytes (by decide) (by decide)
  | @file file hop hp hfile =>
    intro h₁ buffer₁ i h₂ hto hi
    obtain ⟨hhandle,hread,-⟩ := packet_reply hbytes h₁ buffer₁
    rw [returnsTo,if_pos hread,hdest] at hto
    have hback : returnsTo w f.dest (f.packet h buffer) = some i := by
      rw [returnsTo,hop,if_neg (by decide),if_pos rfl]
      exact hto
    obtain ⟨m,hm,hw⟩ := ha h buffer i h₂ hback hi
    exact ⟨m,hm.trans hhandle.symm,hw⟩
  | copy hop hp hforward =>
    intro h₁ buffer₁ i h₂ hto hi
    obtain ⟨hhandle,hread,hdata⟩ :=
      Flight.packet_sent (FullPacket.length_forwardData hp) hbytes h₁ buffer₁
    have hsearch : (f'.packet h₁ buffer₁).packet.operation = requestFilesearch := hread.trans hop
    have hto' := hto
    rw [returnsTo,hsearch,if_neg (by decide),if_pos rfl,
      FullPacket.forwardData_destination hdata hsource,FullPacket.forwardData_port hdata] at hto'
    have hback : returnsTo w f.dest (f.packet h buffer) = some i := by
      rw [returnsTo,hop,if_neg (by decide),if_pos rfl]
      exact hto'
    obtain ⟨m,hm,hw⟩ := ha h buffer i h₂ hback hi
    exact ⟨m,hm.trans hhandle.symm,hw⟩
  | @offer file port junk hop hp hfile =>
    have hname := (ht.names file (List.mem_of_find?_eq_some hfile)).2
    have hlen := length_transferPayload port junk file.filename file.md5_length
    refine awaited_other ?_ hbytes (by decide) (by decide)
    rw [UInt16.toNat_ofNat_of_lt' (by simp only [UInt16.size]; omega)]

/-- What a program sends on its own is awaited by it. -/
theorem Awaited.starts {host : ι → Option Host} {o : ProgramOp} (hw : w.Direct) (ht : Tidy h)
    (ho : o.Fits) (hsource : f.source = w.seen j f.dest)
    (hh : host j = some (o.step h).1) (hs : Starts h o f.dest f.datagram.bytes) :
    Awaited w host f := by
  generalize hbytes : f.datagram.bytes = bytes at hs
  generalize hdest : f.dest = dest at hs hsource
  cases hs with
  | ping => exact awaited_other rfl hbytes (by decide) (by decide)
  | @search calls search dest hknown =>
    intro h₁ buffer i h₂ hto hi
    have hlen := length_searchPayload h.order calls.junk search
    simp only [ProgramOp.Fits] at ho
    have hcount : (searchPayload h.order calls.junk search).length =
        (UInt16.ofNat (8+search.strlen)).toNat := by
      rw [hlen,UInt16.toNat_ofNat_of_lt' (by simp only [UInt16.size]; omega)]
    obtain ⟨hhandle,hop,hdata⟩ := Flight.packet_sent
      (q:=fillinPacket h.order requestFilesearch _ h.requests.found) hcount hbytes h₁ buffer
    have haddress : (f.packet h₁ buffer).address = .zero := by
      rw [FullPacket.address,hdata]
      rfl
    have hport : (f.packet h₁ buffer).port = connectionPort := by
      rw [FullPacket.port,hdata,searchPayload,Watched.store16_port]
      rfl
    have hplace : (⟨f.source.addr,connectionPort⟩ : SockAddr) = w.seen j dest := by
      rw [hsource,← hw.port j dest]
    have hsearch : (f.packet h₁ buffer).packet.operation = requestFilesearch := hop
    have haddr : (f.packet h₁ buffer).addr = f.source := rfl
    rw [returnsTo,hsearch,if_neg (by decide),if_pos rfl,haddress,hport,setDestinationIp,
      if_pos rfl,haddr,hplace,hw.back,Option.some.injEq] at hto
    subst i
    rw [hh,Option.some.injEq] at hi
    subst h₂
    refine ⟨h.requests.found,hhandle.symm,?_⟩
    have hout := outstanding_searchfile (h:=h) (n:=h.requests.found) calls search
    rw [if_pos rfl] at hout
    exact ⟨_,_,_,hout,rfl⟩
  | @want calls model row k hk =>
    exact awaited_other (ht.rows model k (List.mem_of_getElem? hk)) hbytes (by decide) (by decide)

end Datagrams

section Network
variable {ι : Type} [DecidableEq ι] {w : Wiring ι} {g : PatternMatch} {s s' : Net ι} {n : ℕ}

omit [DecidableEq ι] in
theorem Serving.mono {n' : ℕ} (hs : Serving w n s) (hn : n ≤ n') : Serving w n' s where
  tidy := hs.tidy
  live := by
    intro j h hh
    obtain ⟨k,hk,hlive⟩ := hs.live j h hh
    exact ⟨k,hk.trans hn,hlive⟩
  proper := hs.proper
  source := hs.source
  awaited := hs.awaited

theorem Serving.acts (hs : Serving w n s) (hw : w.Direct) {j : ι} {h : Host} {o : ProgramOp}
    (hh : s.host j = some h) (ho : o.Fits) (hclose : ¬o.Closes) (hn : o.Asks → n < 65535) :
    Serving w (n+(if o.Asks then 1 else 0)) (PeerOp.step w g (.program j o) s).1 := by
  obtain ⟨k,hk,hlive⟩ := hs.live j h hh
  obtain ⟨⟨k',hk',hlive'⟩,hwaits⟩ :=
    requests_step hlive (fun hasks => (hn hasks).trans_le' hk) hclose
  have ht := hs.tidy j h hh
  have hkeeps := keeps_step o h
  simp only [PeerOp.step,hh]
  constructor
  · intro i hi hrun
    rcases update_some hrun with ⟨rfl,rfl⟩ | hold
    · exact ht.keeps ho hkeeps
    · exact hs.tidy i hi hold
  · intro i hi hrun
    rcases update_some hrun with ⟨rfl,rfl⟩ | hold
    · exact ⟨k',by omega,hlive'⟩
    · obtain ⟨m,hm,hmlive⟩ := hs.live i hi hold
      exact ⟨m,by omega,hmlive⟩
  · intro f hf
    rcases List.mem_append.mp hf with hold | hnew
    · exact hs.proper f hold
    · exact ht.starts ho (starts_of_mem (mem_launch_other hnew).2)
  · intro f hf
    rcases List.mem_append.mp hf with hold | hnew
    · exact hs.source f hold
    · rw [(mem_launch_other hnew).1]
      exact w.seen_ne_zero j f.dest
  · intro f hf
    rcases List.mem_append.mp hf with hold | hnew
    · exact (hs.awaited f hold).update hh hkeeps.order hwaits
    · obtain ⟨hsource,hmem⟩ := mem_launch_other hnew
      exact Awaited.starts hw ht ho hsource (Function.update_self _ _ _) (starts_of_mem hmem)

omit [DecidableEq ι] in
/-- The program that gets a datagram goes on. -/
theorem Serving.applies (hs : Serving w n s) {f : Flight} (hf : f ∈ s.flights) {j : ι} {h : Host}
    (hj : w.route f.dest = some j) (hh : s.host j = some h) (c : Calls) :
    ∃ h' acts, applyPacket g c (f.packet h (s.buffer j)) h = .ok (h',acts) := by
  have hread := (hs.proper f hf).packet h (s.buffer j)
  refine applyPacket_isOk hread.2 fun hop => ?_
  have hto : returnsTo w f.dest (f.packet h (s.buffer j)) = some j := by
    rw [returnsTo,if_pos hop,hj]
  obtain ⟨m,hm,hwaits⟩ := hs.awaited f hf h (s.buffer j) j h hto hh
  rwa [store16_inj hm] at hwaits

theorem Serving.network (hs : Serving w n s) {new : List Flight} (hstep : Happens w g s s' new) :
    Serving w n s' ∧ ∀ j, s'.host j = none ↔ s.host j = none := by
  cases hstep with
  | lost i =>
    exact ⟨⟨hs.tidy,hs.live,Bags.forall_exchange hs.proper (by simp),
      Bags.forall_exchange hs.source (by simp),Bags.forall_exchange hs.awaited (by simp)⟩,
      fun _ => Iff.rfl⟩
  | @crashed i f j h calls e hf hj hh he =>
    obtain ⟨h',acts,hok⟩ := hs.applies (g:=g) (List.mem_of_getElem? hf) hj hh calls
    rw [hok] at he
    cases he
  | @handled i f j h h' calls acts hf hj hh ha =>
    have hmem := List.mem_of_getElem? hf
    have ht := hs.tidy j h hh
    have hbecomes := applyPacket_becomes ha
    have hread := (hs.proper f hmem).packet h (s.buffer j)
    have hwaits : ∀ m, Waits h.requests m → Waits h'.requests m := by
      rw [hbecomes.requests]
      exact fun m hm => hm
    refine ⟨⟨?_,?_,?_,?_,?_⟩,?_⟩
    · intro i h₁ hrun
      rcases update_some hrun with ⟨rfl,rfl⟩ | hold
      · exact ht.becomes hbecomes
      · exact hs.tidy i h₁ hold
    · intro i h₁ hrun
      rcases update_some hrun with ⟨rfl,rfl⟩ | hold
      · rw [hbecomes.requests]
        exact hs.live i h hh
      · exact hs.live i h₁ hold
    · refine Bags.forall_exchange hs.proper fun f' hf' => ?_
      exact ht.answers hread.1 (answers_of_mem ha (mem_launch_follow hf').2)
    · refine Bags.forall_exchange hs.source fun f' hf' => ?_
      rw [(mem_launch_follow hf').1]
      exact w.seen_ne_zero j f'.dest
    · have hold : ∀ f ∈ s.flights, Awaited w (Function.update s.host j (some h')) f :=
        fun f hf => (hs.awaited f hf).update hh hbecomes.order hwaits
      refine Bags.forall_exchange hold fun f' hf' => ?_
      -- the answer goes back to where the datagram does
      have hsent := answers_of_mem ha (mem_launch_follow hf').2
      exact Awaited.answers ht (hs.source f hmem) (hold f hmem) hsent
    · intro i
      by_cases hi : i = j
      · subst i
        simp [hh]
      · simp [Function.update_of_ne hi]

/-- The step asks for a request number. -/
def PeerOp.asks {ι : Type} : PeerOp ι → Bool
  | .program _ o => decide o.Asks
  | .network _ => false

omit [DecidableEq ι] in
theorem length_asks (j : ι) (o : ProgramOp) :
    ([PeerOp.program j o].filter PeerOp.asks).length = if o.Asks then 1 else 0 := by
  by_cases ho : o.Asks
  · simp [PeerOp.asks,ho]
  · simp [PeerOp.asks,ho]

theorem serving_run (hw : w.Direct) (hs : Serving w 0 s) {ops : List (PeerOp ι)}
    (hfits : ∀ j o, .program j o ∈ ops → o.Fits ∧ ¬o.Closes)
    (hfew : (ops.filter PeerOp.asks).length ≤ 65535) :
    Serving w (ops.filter PeerOp.asks).length (s.peers w g ops).1 ∧
      ∀ j, (s.peers w g ops).1.host j = none ↔ s.host j = none := by
  induction ops using List.reverseRecOn with
  | nil => exact ⟨hs,fun _ => Iff.rfl⟩
  | append_singleton ops x ih =>
    rw [List.filter_append,List.length_append] at hfew
    obtain ⟨hserving,hsame⟩ := ih (fun j o hmem => hfits j o (List.mem_append_left _ hmem))
      (by omega)
    rw [peers_snoc,List.filter_append,List.length_append]
    cases x with
    | program j o =>
      rw [length_asks] at hfew ⊢
      cases hh : (s.peers w g ops).1.host j with
      | none =>
        simp only [PeerOp.step,hh]
        exact ⟨hserving.mono (Nat.le_add_right _ _),hsame⟩
      | some h =>
        obtain ⟨ho,hclose⟩ := hfits j o (by simp)
        have hroom : o.Asks → (ops.filter PeerOp.asks).length < 65535 := by
          intro hasks
          rw [if_pos hasks] at hfew
          omega
        refine ⟨hserving.acts hw hh ho hclose hroom,fun i => ?_⟩
        rw [← hsame i]
        simp only [PeerOp.step,hh]
        by_cases hi : i = j
        · subst i
          simp [hh]
        · simp [Function.update_of_ne hi]
    | network o =>
      have hstep := hserving.network (step_happens w g o (s.peers w g ops).1)
      exact ⟨hstep.1,fun j => (hstep.2 j).trans (hsame j)⟩

/-- A network in which only these programs send, without translation of addresses, while no
user closes a tab and request numbers are not used up: whatever the programs do and in
whatever order datagrams arrive or get lost, no program is ever stopped by an invalid access,
and the number in every search and every reply in flight is waited for by the program that the
answers, or the reply, go back to. -/
theorem closed_network_runs (w : Wiring ι) (hw : w.Direct) (g : PatternMatch) (s : Net ι)
    (hflights : s.flights = [])
    (hhosts : ∀ j h, s.host j = some h → Tidy h ∧ h.requests = requestInit)
    (ops : List (PeerOp ι)) (hfits : ∀ j o, .program j o ∈ ops → o.Fits ∧ ¬o.Closes)
    (hfew : (ops.filter PeerOp.asks).length ≤ 65535) :
    (∀ j, (s.peers w g ops).1.host j = none ↔ s.host j = none) ∧
      ∀ f ∈ (s.peers w g ops).1.flights, Awaited w (s.peers w g ops).1.host f := by
  have hstart : Serving w 0 s := {
    tidy := fun j h hh => (hhosts j h hh).1
    live := fun j h hh => ⟨0,le_rfl,(hhosts j h hh).2 ▸ RequestTable.live_requestInit⟩
    proper := by simp [hflights]
    source := by simp [hflights]
    awaited := by simp [hflights] }
  obtain ⟨hserving,hsame⟩ := serving_run hw hstart hfits hfew
  exact ⟨hsame,hserving.awaited⟩

end Network

theorem direct_triangle : triangleWiring.Direct where
  back i _ := show triangleWiring.route (addressOf i) = some i by decide +revert
  port i _ := show (addressOf i).port = connectionPort by decide +revert

/-- The second program has passed the search on, and the third has replied to the first. -/
theorem closed_network_runs_triangle :
    ((triangle.peers triangleWiring sameName ((errand noCalls 0).take 3)).1.flights.map
      fun f => f.datagram.bytes[7]?) = [some requestFilesearch,some replyFilesearch] ∧
    (¬∃ j, (triangle.peers triangleWiring sameName ((errand noCalls 0).take 3)).1.host j = none) ∧
    ∀ f ∈ (triangle.peers triangleWiring sameName ((errand noCalls 0).take 3)).1.flights,
      Awaited triangleWiring
        (triangle.peers triangleWiring sameName ((errand noCalls 0).take 3)).1.host f := by
  obtain ⟨hruns,hawaited⟩ := closed_network_runs triangleWiring direct_triangle sameName triangle
    rfl (fun j h hh => ⟨tidy_triangle j h hh,by
      fin_cases j <;> (obtain rfl := Option.some_inj.mp hh; rfl)⟩)
    ((errand noCalls 0).take 3) (fun j o h => ⟨errand_fits noCalls 0 j o (List.mem_of_mem_take h),by
      obtain rfl | rfl := mem_errand (List.mem_of_mem_take h) <;> exact id⟩)
    (by decide)
  refine ⟨by decide +kernel,?_,hawaited⟩
  rintro ⟨j,hj⟩
  have hstopped := (hruns j).mp hj
  fin_cases j <;> simp [triangle] at hstopped

end Pingu
end MiscUniStuff
