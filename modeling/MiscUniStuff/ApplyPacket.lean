import MiscUniStuff.Download
import MiscUniStuff.FileSearch

/-! The receiving end: `apply_packet` and the loop that feeds it. -/
namespace MiscUniStuff
namespace Pingu
open ByteOrder

/-- The switch of `apply_packet` on the operation. -/
def applyOperation (g : PatternMatch) (calls : Calls) (p : FullPacket) (h : Host) :
    Except Fault (Host × List Action) :=
  let seen : Host :=
    { h with servers := h.servers.checkAddServer h.order p.addr calls.time }
  if p.packet.operation = requestPing then
    .ok (seen,generateReplyServers seen p)
  else if p.packet.operation = requestFilesearch then
    (getRequestSearch g h p).map fun acts => (h,acts)
  else if p.packet.operation = requestWantfile then
    (getRequestWantfile calls h p h.database).map fun acts => (h,acts)
  else if p.packet.operation = replyTransferwaiting then
    (downloadReplyTransferwaiting calls p).map fun acts => (h,acts)
  else if p.packet.operation = replyFilesearch then
    (getReplySearch h p).map fun h => (h,[])
  else if p.packet.operation = replyServers then
    (addUpstreamServer calls.time p seen).map fun h => (h,[])
  else if p.packet.operation = replyNoservers then
    .ok (seen,[])
  else
    .ok (h,[])

/-- The checks of `apply_packet` on the magic and the version. -/
def Accepted (o : Order) (p : FullPacket) : Prop :=
  p.packet.magic = htons o protocolMagic ∧ p.packet.version = htons o protocolVersion

instance (o : Order) (p : FullPacket) : Decidable (Accepted o p) :=
  inferInstanceAs (Decidable (_ ∧ _))

/-- `apply_packet`. -/
def applyPacket (g : PatternMatch) (calls : Calls) (p : FullPacket) (h : Host) :
    Except Fault (Host × List Action) :=
  if Accepted h.order p then applyOperation g calls p h else .ok (h,[])

theorem map_eq_ok {ε α β : Type} {f : α → β} {r : Except ε α} {b : β} :
    r.map f = .ok b ↔ ∃ a, r = .ok a ∧ f a = b := by
  cases r <;> simp [Except.map]

section Traffic
variable {g : PatternMatch} {c : Calls} {p : FullPacket} {h h' : Host} {acts : List Action}

/-- Handling a search changes nothing at the host. -/
theorem applyPacket_search (hop : p.packet.operation = requestFilesearch)
    (hr : applyPacket g c p h = .ok (h',acts)) : h' = h ∧ (acts = [] ∨
      8 ≤ p.data.length ∧ acts = (matching g h p).map (reply h p) ++ forwards h p) := by
  unfold applyPacket at hr
  split_ifs at hr with hacc
  · by_cases hp : 8 ≤ p.data.length
    · simp [applyOperation,hop,requestPing,requestFilesearch,getRequestSearch_eq hp,Except.map] at hr
      exact ⟨hr.1.symm,.inr ⟨hp,hr.2.symm⟩⟩
    · simp [applyOperation,hop,requestPing,requestFilesearch,
        getRequestSearch_short (not_le.mp hp),Except.map] at hr
  · simp only [Except.ok.injEq,Prod.mk.injEq] at hr
    exact ⟨hr.1.symm,.inl hr.2.symm⟩

theorem applyPacket_search_eq (hop : p.packet.operation = requestFilesearch)
    (hacc : Accepted h.order p) (hp : 8 ≤ p.data.length) : applyPacket g c p h =
      .ok (h,(matching g h p).map (reply h p) ++ forwards h p) := by
  simp [applyPacket,hacc,applyOperation,hop,requestPing,requestFilesearch,getRequestSearch_eq hp,
    Except.map]

/-- Handling a reply adds a row at most, and sends nothing. -/
theorem applyPacket_reply (hop : p.packet.operation = replyFilesearch)
    (hr : applyPacket g c p h = .ok (h',acts)) : acts = [] ∧ (h' = h ∨
      ∃ b l model, h.requests.outstanding p.packet.requestHandle = some (b,l) ∧
        l.data = some model ∧ h' = h.addRow model (p.response h.order)) := by
  unfold applyPacket at hr
  split_ifs at hr with hacc
  · have hrun : (getReplySearch h p).map (fun h => (h,[])) = .ok (h',acts) := by
      simpa [applyOperation,hop,requestPing,requestFilesearch,requestWantfile,
        replyTransferwaiting,replyFilesearch] using hr
    obtain ⟨h'',hget,heq⟩ := map_eq_ok.mp hrun
    cases heq
    refine ⟨rfl,?_⟩
    rcases hout : h.requests.outstanding p.packet.requestHandle with _ | ⟨b,l⟩
    · simp [getReplySearch_missing hout] at hget
    · cases ha : l.active with
      | false =>
        simp only [getReplySearch_inactive hout ha,Except.ok.injEq] at hget
        exact .inl hget.symm
      | true =>
        by_cases hp : 20 ≤ p.data.length
        · rw [getReplySearch_active hout ha hp] at hget
          cases hd : l.data with
          | none => simp [hd] at hget
          | some model =>
            simp only [hd,Except.ok.injEq] at hget
            exact .inr ⟨b,l,model,rfl,hd,hget.symm⟩
        · simp [getReplySearch_short hout ha (not_le.mp hp)] at hget
  · simp only [Except.ok.injEq,Prod.mk.injEq] at hr
    exact ⟨hr.2.symm,.inl hr.1.symm⟩

end Traffic

/-! Receiving. -/

/-- The most that one datagram of UDP over IPv4 can carry. -/
def maxDatagram : ℕ := 65507

/-- A datagram that can be on the network. -/
structure Datagram where
  bytes : List UInt8
  bounded : bytes.length ≤ maxDatagram
  deriving DecidableEq

/-- `MAX_PACKET`. -/
def maxPacket : ℕ := 65536

/-- `recvfrom`: the datagram replaces the start of the buffer, the rest stays as it was. -/
def recvfrom (d : Datagram) (buffer : ℕ → UInt8) : ℕ → UInt8 :=
  fun i => ((d.bytes.take maxPacket)[i]?).getD (buffer i)

/-- One round of the loop in `incoming`: the buffer afterwards and the packet that is
handed on. -/
def incomingStep (o : Order) (received : Datagram × SockAddr) (buffer : ℕ → UInt8) :
    (ℕ → UInt8) × List FullPacket :=
  let buffer := recvfrom received.1 buffer
  (buffer,[readPacket o buffer received.2])

theorem recvfrom_eq (d : Datagram) (buffer : ℕ → UInt8) (i : ℕ) :
    recvfrom d buffer i = (d.bytes[i]?).getD (buffer i) := by
  have hlen := d.bounded
  have htake : d.bytes.take maxPacket = d.bytes :=
    List.take_of_length_le (hlen.trans (by decide))
  simp [recvfrom,htake]

theorem recvfrom_startsWith (d : Datagram) (buffer : ℕ → UInt8) :
    StartsWith (recvfrom d buffer) d.bytes := by
  intro i hi
  simp [recvfrom_eq,hi]

end Pingu
end MiscUniStuff
