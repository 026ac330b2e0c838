import MiscUniStuff.ApplyPacket
import MiscUniStuff.DownloadDirectory
import MiscUniStuff.SearchReplies

/-! A client over a whole run: which downloads it asks for, which offers reach it,
and which of them it follows. -/
namespace MiscUniStuff
namespace Pingu

/-- What happens at a client: its user and its timer act, other threads work on the lists
of servers and files, a packet is handled. -/
inductive ClientOp
  | act (o : HostOp)
  | threads (servers : Servers) (database : List FileData)
  | handle (g : PatternMatch) (calls : Calls) (p : FullPacket)

/-- What is noted of a run. -/
inductive Transfer
  | wanted (n : UInt16) (addr : SockAddr)
  | offered (n : UInt16) (addr : SockAddr)
  | fetched (n : UInt16) (addr : SockAddr)
  deriving DecidableEq

/-- A `REQUEST_WANTFILE` goes out, under the number of the new request. -/
def HostOp.wants (h : Host) : HostOp → List Transfer
  | .downloadMakeRequest _ _ host => [.wanted h.requests.found host]
  | _ => []

/-- A reply that gets as far as `creat`: it is one for this protocol, has all its fields,
and its sender takes the connection. -/
def Offer (h : Host) (calls : Calls) (p : FullPacket) : Prop :=
  Accepted h.order p ∧ p.packet.operation = replyTransferwaiting ∧ 22 ≤ p.data.length ∧
    calls.socketed ∧ calls.connected

instance (h : Host) (calls : Calls) (p : FullPacket) : Decidable (Offer h calls p) :=
  inferInstanceAs (Decidable (_ ∧ _ ∧ _ ∧ _ ∧ _))

def Action.isCreat : Action → Bool
  | .creat _ => true
  | _ => false

/-- The program stops at its first invalid access; until then an offer that comes in and
a file that is created are noted with the number and the sender of the packet. -/
def ClientOp.step : ClientOp → Option Host → Option Host × List Transfer
  | _, none => (none,[])
  | .act o, some h => (some (o.step h).1,o.wants h)
  | .threads servers database, some h =>
    (some { h with servers := servers, database := database },[])
  | .handle g calls p, some h =>
    let offers : List Transfer :=
      if Offer h calls p then [.offered p.packet.requestHandle p.addr] else []
    match applyPacket g calls p h with
    | .error _ => (none,offers)
    | .ok (h',acts) =>
      (some h',offers ++
        if acts.any Action.isCreat then [.fetched p.packet.requestHandle p.addr] else [])

/-- The notes of a run that starts at `h`. -/
def transfers (h : Host) (ops : List ClientOp) : List Transfer :=
  (Runs.run ClientOp.step (some h) ops).2

/-- The packet that `wanted` stands for. -/
theorem downloadMakeRequest_wants (calls : Calls) (md5sum : List UInt8) (host : SockAddr)
    (h : Host) : (downloadMakeRequest calls md5sum host h).2 =
      [.sendto host (sendPacket h.order
        (fillinPacket h.order requestWantfile 16 h.requests.found) md5sum)] := rfl

/-! ### What a handler creates -/

section Creat
variable {g : PatternMatch} {c : Calls} {p : FullPacket} {h h' : Host} {acts : List Action}

theorem getRequestSearch_creat (hr : getRequestSearch g h p = .ok acts) :
    acts.any Action.isCreat = false := by
  by_cases hp : 8 ≤ p.data.length
  · rw [getRequestSearch_eq hp,forwards_eq] at hr
    cases hr
    simp [Function.comp_def,reply,Action.isCreat]
  · simp [getRequestSearch_short (not_le.mp hp)] at hr

theorem downloadSendFile_creat {f : FileData} (hr : downloadSendFile c h p f = .ok acts) :
    acts.any Action.isCreat = false := by
  unfold downloadSendFile at hr
  split at hr
  · cases hread : p.read 0 16 with
    | error e => simp [hread,bind,Except.bind] at hr
    | ok md5sum =>
      simp only [hread,bind,Except.bind,pure,Except.pure,Except.ok.injEq] at hr
      subst acts
      rfl
  · cases hr
    rfl

theorem getRequestWantfile_creat {m : List FileData}
    (hr : getRequestWantfile c h p m = .ok acts) : acts.any Action.isCreat = false := by
  induction m with
  | nil =>
    cases hr
    rfl
  | cons f m ih =>
    rw [getRequestWantfile] at hr
    cases hcmp : md5cmp p f.md5sum 0 with
    | error e => simp [hcmp,bind,Except.bind] at hr
    | ok same =>
      simp only [hcmp,bind,Except.bind] at hr
      split_ifs at hr
      · exact downloadSendFile_creat hr
      · exact ih hr

theorem downloadReply_creat (hr : downloadReplyTransferwaiting c p = .ok acts) :
    acts.any Action.isCreat = true ↔ 22 ≤ p.data.length ∧ c.socketed ∧ c.connected := by
  by_cases hp : 22 ≤ p.data.length
  · rw [downloadReplyTransferwaiting_eq hp] at hr
    cases hr
    split_ifs <;> simp_all [Action.isCreat]
  · simp [downloadReplyTransferwaiting_short (not_le.mp hp)] at hr

theorem generateReplyServers_creat : (generateReplyServers h p).any Action.isCreat = false := by
  unfold generateReplyServers
  simp only
  split_ifs
  · rfl
  · simp [Function.comp_def,Action.isCreat]

/-- What the handlers of all other operations do to the outside world. -/
theorem applyOperation_creat (hop : p.packet.operation ≠ replyTransferwaiting)
    (hr : applyOperation g c p h = .ok (h',acts)) : acts.any Action.isCreat = false := by
  unfold applyOperation at hr
  simp only [if_neg hop] at hr
  split_ifs at hr
  · cases hr
    exact generateReplyServers_creat
  · obtain ⟨found,hs,heq⟩ := map_eq_ok.mp hr
    cases heq
    exact getRequestSearch_creat hs
  · obtain ⟨sent,hs,heq⟩ := map_eq_ok.mp hr
    cases heq
    exact getRequestWantfile_creat hs
  · obtain ⟨k,-,heq⟩ := map_eq_ok.mp hr
    cases heq
    rfl
  · obtain ⟨k,-,heq⟩ := map_eq_ok.mp hr
    cases heq
    rfl
  · cases hr
    rfl
  · cases hr
    rfl

/-- A reply that waits for a transfer, as far as `apply_packet` is concerned. -/
theorem applyPacket_transfer (hacc : Accepted h.order p)
    (hop : p.packet.operation = replyTransferwaiting) :
    applyPacket g c p h = (downloadReplyTransferwaiting c p).map fun acts => (h,acts) := by
  simp [applyPacket,hacc,applyOperation,hop,replyTransferwaiting,requestPing,requestFilesearch,
    requestWantfile]

/-- Only an offer makes the program create a file. -/
theorem applyPacket_creat (hr : applyPacket g c p h = .ok (h',acts)) :
    acts.any Action.isCreat = true ↔ Offer h c p := by
  by_cases hacc : Accepted h.order p
  · by_cases hop : p.packet.operation = replyTransferwaiting
    · rw [applyPacket_transfer hacc hop] at hr
      obtain ⟨made,hs,heq⟩ := map_eq_ok.mp hr
      cases heq
      rw [downloadReply_creat hs]
      simp [Offer,hacc,hop]
    · simp only [applyPacket,if_pos hacc] at hr
      simp [applyOperation_creat hop hr,Offer,hop]
  · simp only [applyPacket,if_neg hacc,Except.ok.injEq,Prod.mk.injEq] at hr
    simp [← hr.2,Offer,hacc]

/-- An offer is never an invalid access. -/
theorem applyPacket_offer (hoff : Offer h c p) : (applyPacket g c p h).isOk := by
  obtain ⟨hacc,hop,hp,-⟩ := hoff
  rw [applyPacket_transfer hacc hop,downloadReplyTransferwaiting_eq hp]
  rfl

end Creat

/-- An offer to request 0 as it comes over the network, to a host of this byte order. -/
def strayOffer : FullPacket where
  packet := ⟨htons .little protocolMagic,htons .little protocolVersion,0,standardTtl,
    replyTransferwaiting,23⟩
  data := List.replicate 22 0 ++ [97]
  addr := ⟨.zero,⟨0,0⟩⟩
  data_length := rfl

/-! ### Counting -/

theorem step_transfers (o : ClientOp) (s : Option Host) (n : UInt16) (addr : SockAddr) :
    (o.step s).2.count (.fetched n addr) = (o.step s).2.count (.offered n addr) := by
  cases s with
  | none => simp [ClientOp.step]
  | some h =>
    cases o with
    | act o => cases o <;> simp [ClientOp.step,HostOp.wants]
    | threads servers database => simp [ClientOp.step]
    | handle g c p =>
      simp only [ClientOp.step]
      cases hr : applyPacket g c p h with
      | error e =>
        have hno : ¬Offer h c p := by
          intro hoff
          have hok := applyPacket_offer (g:=g) hoff
          simp [hr,Except.isOk,Except.toBool] at hok
        simp [hno]
      | ok r =>
        have hcreat := applyPacket_creat hr
        by_cases hoff : Offer h c p
        · simp [hoff,hcreat.mpr hoff,List.count_cons]
        · have hnot : r.2.any Action.isCreat = false := by simpa [hoff] using hcreat
          simp [hoff,hnot]

/-- Every offer that comes in is followed, and nothing else is. -/
theorem transfers_count (h : Host) (ops : List ClientOp) (n : UInt16) (addr : SockAddr) :
    (transfers h ops).count (.fetched n addr) = (transfers h ops).count (.offered n addr) := by
  induction ops using List.reverseRecOn with
  | nil => rfl
  | append_singleton ops o ih =>
    simp only [transfers] at ih ⊢
    rw [Runs.run_snoc,List.count_append,List.count_append,ih,step_transfers]

/-- At every moment of the run, for every number and address, no more files have been
fetched than were asked for. -/
def Solicited (h : Host) (ops : List ClientOp) : Prop :=
  ∀ before, before <+: ops → ∀ n addr,
    (transfers h before).count (.fetched n addr) ≤ (transfers h before).count (.wanted n addr)

/-- The network brings no offer that was not asked for, and none twice. -/
def OffersAnswer (h : Host) (ops : List ClientOp) : Prop :=
  ∀ before, before <+: ops → ∀ n addr,
    (transfers h before).count (.offered n addr) ≤ (transfers h before).count (.wanted n addr)

/-- The client does not look at its requests when an offer comes in: it fetches only what
it asked for exactly when the others only offer that. -/
theorem solicited_iff (h : Host) (ops : List ClientOp) :
    Solicited h ops ↔ OffersAnswer h ops := by
  simp only [Solicited,OffersAnswer,transfers_count]

/-- One offer to a client that has asked for nothing. -/
theorem unsolicited : ¬∀ h ops, Solicited h ops := by
  intro hall
  have hh := hall (.initial .little []) [.handle (fun _ _ => false) connecting strayOffer] _
    (List.prefix_refl _) 0 strayOffer.addr
  revert hh
  decide +kernel

end Pingu
end MiscUniStuff
