import MiscUniStuff.RequestSpec
import MiscUniStuff.Servlets

/-! `filesearch.c`: searches, the replies to them, and the flooding of a search. The
matching of file names against a pattern is GLib's and stays a parameter. -/
namespace MiscUniStuff
namespace Pingu
open ByteOrder

/-- `g_pattern_match_string`. -/
abbrev PatternMatch := CString → CString → Bool

/-- `inet_ntop` for an IPv4 address. -/
def inetNtop (i : InAddr) : String :=
  ".".intercalate [toString i.a.toNat,toString i.b.toNat,toString i.c.toNat,toString i.d.toNat]

/-- The payload of `send_file_details`. -/
def fileDetails (h : Host) (f : FileData) : List UInt8 :=
  (store h.order h.sizeofSizeT f.filesize).take 4 ++ f.md5sum ++ f.fullfilename.bytes

/-- `send_file_details`. -/
def sendFileDetails (h : Host) (p : FullPacket) (f : FileData) : Except Fault Action := do
  let m := 20+f.fullfilename.strlen
  let local' ← p.readAddr 0
  let j ← p.readPort 4
  let pa := fillinPacket h.order replyFilesearch (UInt16.ofNat m) p.packet.requestHandle
  return .sendto ⟨setDestinationIp local' p.addr.addr,j⟩ (sendPacket h.order pa (fileDetails h f))

/-- The ttl `get_request_search_passon` starts from. -/
def clampTtl (ttl : UInt8) : UInt8 := if ttl > 2 then 2 else ttl

/-- `get_request_search_passon`. -/
def getRequestSearchPasson (h : Host) (p : FullPacket) : Except Fault (List Action) := do
  let ttl := clampTtl p.packet.ttl
  if ttl > 0 then
    let p₁ : FullPacket := { p with
      packet := { p.packet with ttl := ttl-1 }
      data_length := p.data_length }
    let bar ← p₁.readAddr 0
    let p₂ ← if bar = .zero then p₁.writeAddr p₁.addr.addr else pure p₁
    return h.sendToAllExcept p₂.addr p₂.packet p₂.data
  else
    return []

/-- The pattern a search asks for. -/
def FullPacket.search (p : FullPacket) : CString := cstring (p.data.drop 8)

/-- `get_request_search`. -/
def getRequestSearch (g : PatternMatch) (h : Host) (p : FullPacket) :
    Except Fault (List Action) := do
  malloc (p.length-7)
  let search ← p.copy 8 (p.length-8)
  let patt := cstring search
  let found ← (h.database.filter fun f => g patt f.filename).mapM (sendFileDetails h p)
  let passed ← getRequestSearchPasson h p
  return found ++ passed

/-- Append a row to a result list. -/
def Host.addRow (h : Host) (model : ℕ) (k : FiledataResponse) : Host :=
  { h with models := Function.update h.models model (h.models model ++ [k]) }

/-- The row that a reply to a search becomes. -/
def FullPacket.response (o : Order) (p : FullPacket) : FiledataResponse where
  filename := p.data.drop 20
  md5sum := (p.data.drop 4).take 16
  size := (UInt32.ofNat (load o (p.data.take 4))).toInt32
  addr := p.addr
  hostname := inetNtop p.addr.addr

/-- `get_reply_search`. The request is looked up and used without a check; the sum in
front of the filename is read once to be printed and once to be copied. -/
def getReplySearch (h : Host) (p : FullPacket) : Except Fault Host :=
  match h.requests.outstanding p.packet.requestHandle with
  | none => .error .missingRequest
  | some (_,l) =>
    if l.active then do
      let f ← p.read 0 4
      let _ ← p.read 4 16
      let filen := p.length-20
      malloc (filen+1)
      let filename ← p.copy 20 filen
      let md5sum ← p.read 4 16
      match l.data with
      | none => .error .unsetModel
      | some model => .ok (h.addRow model
          { filename := filename
            md5sum := md5sum
            size := (UInt32.ofNat (load h.order f)).toInt32
            addr := p.addr
            hostname := inetNtop p.addr.addr })
    else
      .ok h

/-- The request structure of `searchfile` before `request_start`. -/
def searchRequest (now : ℤ) : Request := ⟨now+300,.requestOntimeout,none,none,false,false,0⟩

/-- The payload of `searchfile`: no address, port 3773, two bytes nobody sets, the pattern. -/
def searchPayload (o : Order) (junk : ℕ → UInt8) (search : CString) : List UInt8 :=
  [0,0,0,0] ++ store16 o (htons o 3773) ++ [junk 6,junk 7] ++ search.bytes

/-- `searchfile`. -/
def searchfile (calls : Calls) (search : CString) (h : Host) : Host × List Action :=
  let (requests,mo) := h.requests.requestStart calls.time (searchRequest calls.time)
  let model := h.nextModel
  let requests := requests.modify h.requests.next
    (fun r => { r with data := some model, widget := some model }) fun _ => rfl
  let size := 8+search.strlen
  let p := fillinPacket h.order requestFilesearch (UInt16.ofNat size) mo
  ({ h with
      requests := requests
      models := Function.update h.models model []
      nextModel := model+1 },
    h.sendToAll p (searchPayload h.order calls.junk search))

theorem searchfile_snd (calls : Calls) (search : CString) (h : Host) :
    (searchfile calls search h).2 = h.known.map fun dest => .sendto dest (sendPacket h.order
      (fillinPacket h.order requestFilesearch (UInt16.ofNat (8+search.strlen)) h.requests.found)
      (searchPayload h.order calls.junk search)) := by
  simp only [searchfile,Host.sendToAll,RequestTable.requestStart_snd]

/-- `filesearch_unallocate_request`, the closing of a tab: end the request and, if it is
still there, remove the page of its widget. -/
def filesearchUnallocateRequest (req : UInt16) (h : Host) : Host × Option (Option ℕ) :=
  let requests := h.requests.requestEnd req
  ({ h with requests := requests },(requests.outstanding req).map fun r => r.2.widget)

/-! What the handlers do with a payload that is long enough, and with a shorter one. -/
section Handlers
variable {g : PatternMatch} {h : Host} {p : FullPacket}

/-- The reply for one file. -/
def reply (h : Host) (p : FullPacket) (f : FileData) : Action :=
  .sendto ⟨setDestinationIp p.address p.addr.addr,p.port⟩ (sendPacket h.order
    (fillinPacket h.order replyFilesearch (UInt16.ofNat (20+f.fullfilename.strlen))
      p.packet.requestHandle) (fileDetails h f))

/-- The files of the database that a search asks for. -/
def matching (g : PatternMatch) (h : Host) (p : FullPacket) : List FileData :=
  h.database.filter fun f => g p.search f.filename

/-- The header and the payload that are passed on. -/
def FullPacket.forwardHeader (p : FullPacket) : Packet :=
  { p.packet with ttl := clampTtl p.packet.ttl-1 }

def FullPacket.forwardData (p : FullPacket) : List UInt8 :=
  if p.address = .zero then p.addr.addr.bytes ++ p.data.drop 4 else p.data

theorem FullPacket.length_forwardData (hp : 8 ≤ p.data.length) :
    p.forwardData.length = p.forwardHeader.packetLength.toNat := by
  change _ = p.packet.packetLength.toNat
  rw [← p.data_length,FullPacket.forwardData]
  split_ifs
  · simp
    omega
  · rfl

/-- The copies that are passed on. -/
def forwards (h : Host) (p : FullPacket) : List Action :=
  if clampTtl p.packet.ttl > 0 then h.sendToAllExcept p.addr p.forwardHeader p.forwardData else []

/-- The servers a copy is passed on to. -/
def forwardDests (h : Host) (p : FullPacket) : List SockAddr :=
  if clampTtl p.packet.ttl > 0 then h.known.filter fun client => client ≠ p.addr else []

theorem forwards_eq : forwards h p = (forwardDests h p).map fun dest =>
    .sendto dest (sendPacket h.order p.forwardHeader p.forwardData) := by
  unfold forwards forwardDests
  split_ifs
  · simp only [Host.sendToAllExcept,ne_eq,cmpSockaddr_eq_zero]
  · rfl

theorem sendFileDetails_eq (f : FileData) (hp : 8 ≤ p.data.length) :
    sendFileDetails h p f = .ok (reply h p f) := by
  simp [sendFileDetails,FullPacket.readAddr_zero (p:=p) (by omega),
    FullPacket.readPort_four (p:=p) (by omega),bind,Except.bind,pure,Except.pure,reply]

theorem mapM_ok {α β : Type} {f : α → Except Fault β} {k : α → β} {l : List α}
    (hf : ∀ a ∈ l, f a = .ok (k a)) : l.mapM f = .ok (l.map k) := by
  induction l with
  | nil => rfl
  | cons a l ih =>
    have h₁ := hf a (by simp)
    have h₂ := ih fun b hb => hf b (by simp [hb])
    simp [List.mapM_cons,h₁,h₂,bind,Except.bind,pure,Except.pure]

theorem getRequestSearchPasson_eq (hp : 8 ≤ p.data.length) :
    getRequestSearchPasson h p = .ok (forwards h p) := by
  unfold getRequestSearchPasson forwards
  by_cases httl : clampTtl p.packet.ttl > 0
  · simp only [httl,if_true]
    rw [FullPacket.readAddr_zero (by simp only; omega)]
    by_cases hz : p.address = .zero
    · have h₄ : 4 ≤ p.data.length := by omega
      simp [FullPacket.address] at hz
      simp [bind,Except.bind,pure,Except.pure,FullPacket.address,hz,FullPacket.writeAddr,h₄,
        writeAt,FullPacket.forwardData,FullPacket.forwardHeader]
    · simp [FullPacket.address] at hz
      simp [bind,Except.bind,pure,Except.pure,FullPacket.address,hz,
        FullPacket.forwardData,FullPacket.forwardHeader]
  · simp only [httl,if_false]
    rfl

theorem getRequestSearch_eq (hp : 8 ≤ p.data.length) :
    getRequestSearch g h p = .ok ((matching g h p).map (reply h p) ++ forwards h p) := by
  have hlen := p.data_length
  have hneg : ¬p.length-7 < 0 := by
    simp only [FullPacket.length]
    omega
  have hcopy := FullPacket.copy_rest (p:=p) hp
  simp only [Nat.cast_ofNat] at hcopy
  have hmap := mapM_ok (l:=matching g h p) (fun f _ => sendFileDetails_eq (h:=h) f hp)
  simp only [matching,FullPacket.search] at hmap
  simp [getRequestSearch,malloc,hneg,hcopy,hmap,getRequestSearchPasson_eq hp,bind,Except.bind,
    pure,Except.pure,matching,FullPacket.search]

theorem getRequestSearch_short (hp : p.data.length < 8) :
    getRequestSearch g h p = .error .negativeLength := by
  have hlen := p.data_length
  have hcopy : p.copy 8 (p.length-8) = .error .negativeLength := by
    have hneg : p.length-8 < 0 := by
      simp only [FullPacket.length]
      omega
    simp [FullPacket.copy,hneg]
  by_cases hneg : p.length-7 < 0
  · simp [getRequestSearch,malloc,hneg,bind,Except.bind]
  · simp [getRequestSearch,malloc,hneg,hcopy,bind,Except.bind]

theorem getReplySearch_missing (hr : h.requests.outstanding p.packet.requestHandle = none) :
    getReplySearch h p = .error .missingRequest := by
  simp [getReplySearch,hr]

theorem getReplySearch_inactive {b : ℕ} {l : Request}
    (hr : h.requests.outstanding p.packet.requestHandle = some (b,l)) (ha : l.active = false) :
    getReplySearch h p = .ok h := by
  simp [getReplySearch,hr,ha]

theorem getReplySearch_active {b : ℕ} {l : Request}
    (hr : h.requests.outstanding p.packet.requestHandle = some (b,l)) (ha : l.active = true)
    (hp : 20 ≤ p.data.length) :
    getReplySearch h p = match l.data with
      | none => .error .unsetModel
      | some model => .ok (h.addRow model (p.response h.order)) := by
  have hlen := p.data_length
  have hneg : ¬p.length-20+1 < 0 := by
    simp only [FullPacket.length]
    omega
  have hcopy := FullPacket.copy_rest (p:=p) hp
  simp only [Nat.cast_ofNat] at hcopy
  have h₁ := FullPacket.read_ok (p:=p) (i:=0) (n:=4) (by omega)
  have h₂ := FullPacket.read_ok (p:=p) (i:=4) (n:=16) (by omega)
  simp only [List.drop_zero] at h₁
  cases hd : l.data <;>
    simp [getReplySearch,hr,ha,h₁,h₂,malloc,hneg,hcopy,hd,bind,Except.bind,FullPacket.response]

/-- With fewer than twenty bytes the answer to an active request is a fault. -/
theorem getReplySearch_short {b : ℕ} {l : Request}
    (hr : h.requests.outstanding p.packet.requestHandle = some (b,l)) (ha : l.active = true)
    (hp : p.data.length < 20) : getReplySearch h p = .error .payloadIndex := by
  have h₂ := FullPacket.read_error (p:=p) (i:=4) (n:=16) (by omega) (by omega)
  by_cases h₄ : p.data.length < 4
  · have h₁ := FullPacket.read_error (p:=p) (i:=0) (n:=4) (by omega) (by omega)
    simp [getReplySearch,hr,ha,h₁,bind,Except.bind]
  · have h₁ := FullPacket.read_ok (p:=p) (i:=0) (n:=4) (by omega)
    simp [getReplySearch,hr,ha,h₁,h₂,bind,Except.bind]

end Handlers

end Pingu
end MiscUniStuff
