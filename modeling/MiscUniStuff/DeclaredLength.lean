import MiscUniStuff.PayloadCodecs

/-! The length in the header against the length of the payload. The callers compute it in
`int` or `size_t` and `fillin_packet` takes the lower 16 bits. -/
namespace MiscUniStuff
namespace Pingu
open ByteOrder

/-- The number in the length field of a datagram. -/
def declaredLength (bs : List UInt8) : ℕ := load .big ((bs.drop 8).take 2)

theorem declaredLength_sendPacket (o : Order) (p : Packet) (d : List UInt8) :
    declaredLength (sendPacket o p d) = p.packetLength.toNat := by
  have hfield : ((sendPacket o p d).drop 8).take 2 = store16 .big p.packetLength := by
    have hhead : (store16 o p.magic ++ store16 o p.version ++ store16 o p.requestHandle ++
        [p.ttl,p.operation]).length = 8 := by simp
    have hlast : (store16 .big p.packetLength).length = 2 := by simp
    simp only [sendPacket,Packet.image,store16_htons]
    rw [List.append_assoc,List.drop_left' hhead,List.take_left' hlast]
  rw [declaredLength,hfield,store16,load_store p.packetLength.toNat_lt]

theorem length_sendPacket (o : Order) (p : Packet) (d : List UInt8) :
    (sendPacket o p d).length = sizeofPacket+min p.packetLength.toNat d.length := by
  simp [sendPacket,sizeofPacket]

/-- Every datagram that gets out announces `n` bytes; `sendto` refuses one that is too big. -/
def DeclaresLength (acts : List Action) (n : ℕ) : Prop :=
  ∀ dest bs, .sendto dest bs ∈ acts → bs.length ≤ maxDatagram → declaredLength bs = n

/-- The length is the same in 16 bits, or what 16 bits leave of it is still too much for
a datagram. -/
def LengthKept (n : ℕ) : Prop := n < 65536 ∨ maxDatagram < sizeofPacket+n%65536

instance (n : ℕ) : Decidable (LengthKept n) := inferInstanceAs (Decidable (_ ∨ _))

theorem sendPacket_declares_iff (o : Order) (operation : UInt8) (request : UInt16)
    (d : List UInt8) :
    let bs := sendPacket o (fillinPacket o operation (UInt16.ofNat d.length) request) d
    (bs.length ≤ maxDatagram → declaredLength bs = d.length) ↔ LengthKept d.length := by
  have hmod : (UInt16.ofNat d.length).toNat = d.length%65536 := UInt16.toNat_ofNat'
  have hle := Nat.mod_le d.length 65536
  simp only [length_sendPacket,declaredLength_sendPacket,fillinPacket,hmod,LengthKept]
  rw [min_eq_left hle]
  constructor
  · intro h
    by_cases hbig : maxDatagram < sizeofPacket+d.length%65536
    · exact .inr hbig
    · have hh := h (not_lt.mp hbig)
      omega
  · rintro (hsmall | hbig) hlen
    · exact Nat.mod_eq_of_lt hsmall
    · omega

/-- The same for several copies of one datagram. -/
theorem declaresLength_iff {acts : List Action} {dests : List SockAddr} (o : Order)
    (operation : UInt8) (request : UInt16) {d : List UInt8}
    (hacts : ∀ dest bs, .sendto dest bs ∈ acts ↔ dest ∈ dests ∧
      bs = sendPacket o (fillinPacket o operation (UInt16.ofNat d.length) request) d) :
    DeclaresLength acts d.length ↔ dests = [] ∨ LengthKept d.length := by
  have hone := sendPacket_declares_iff o operation request d
  constructor
  · intro h
    cases dests with
    | nil => exact .inl rfl
    | cons dest dests =>
      exact .inr (hone.mp (h dest _ ((hacts dest _).mpr ⟨by simp,rfl⟩)))
  · rintro (rfl | hkept) dest bs hmem
    · simp [hacts] at hmem
    · obtain ⟨-,rfl⟩ := (hacts dest bs).mp hmem
      exact hone.mpr hkept

/-! ### The three encoders -/

theorem length_searchPayload (o : Order) (junk : ℕ → UInt8) (search : CString) :
    (searchPayload o junk search).length = 8+search.strlen := by
  simp [searchPayload,CString.strlen]
  omega

theorem searchfile_declares_iff (calls : Calls) (search : CString) (h : Host) :
    DeclaresLength (searchfile calls search h).2 (searchPayload h.order calls.junk search).length ↔
      h.known = [] ∨ LengthKept (8+search.strlen) := by
  have hlen := length_searchPayload h.order calls.junk search
  rw [← hlen]
  refine declaresLength_iff h.order requestFilesearch h.requests.found fun dest bs => ?_
  rw [searchfile_snd,hlen,List.mem_map]
  constructor
  · rintro ⟨dest',hmem,heq⟩
    cases heq
    exact ⟨hmem,rfl⟩
  · rintro ⟨hmem,rfl⟩
    exact ⟨dest,hmem,rfl⟩

theorem sendto_declares_iff (o : Order) (operation : UInt8) (request : UInt16) (dest : SockAddr)
    (d : List UInt8) : DeclaresLength [.sendto dest (sendPacket o
      (fillinPacket o operation (UInt16.ofNat d.length) request) d)] d.length ↔
        LengthKept d.length := by
  have hacts : ∀ dest' bs, Action.sendto dest' bs ∈ [Action.sendto dest (sendPacket o
      (fillinPacket o operation (UInt16.ofNat d.length) request) d)] ↔ dest' ∈ [dest] ∧
        bs = sendPacket o (fillinPacket o operation (UInt16.ofNat d.length) request) d := by
    simp
  simpa using declaresLength_iff o operation request hacts

/-- A search, a reply to one and an offer announce the payload they carry in exactly these
cases; a search also when there is nobody to send it to. -/
theorem declared_length_iff (h : Host) :
    (∀ calls search, DeclaresLength (searchfile calls search h).2
        (searchPayload h.order calls.junk search).length ↔
      h.known = [] ∨ LengthKept (8+search.strlen)) ∧
    (∀ p f act, sendFileDetails h p f = .ok act →
      (DeclaresLength [act] (fileDetails h f).length ↔
        LengthKept (20+f.fullfilename.strlen))) ∧
    ∀ p port junk filename md5sum, List.length md5sum = 16 →
      (DeclaresLength [downloadSendFileReply h p port junk filename md5sum]
        (transferPayload port junk filename md5sum).length ↔ LengthKept (22+filename.strlen)) := by
  refine ⟨fun calls search => searchfile_declares_iff calls search h,?_,?_⟩
  · intro p f act hr
    obtain ⟨dest,rfl⟩ := sendFileDetails_ok hr
    rw [← length_fileDetails h f]
    exact sendto_declares_iff _ _ _ _ _
  · intro p port junk filename md5sum hsum
    rw [← length_transferPayload port junk filename hsum]
    exact sendto_declares_iff _ _ _ _ _

/-- A search string of `n` letters. -/
def letters (n : ℕ) : CString := ⟨List.replicate n 0x61,by simp [List.mem_replicate]⟩

/-- A search for 65528 letters goes to the one known server with a length of 0. -/
theorem declared_length_wraps : ¬DeclaresLength
    (searchfile noCalls (letters 65528) ((Host.initial .little []).connected [addressOf 0])).2
    (searchPayload .little noCalls.junk (letters 65528)).length := by
  intro hdec
  have hiff := searchfile_declares_iff noCalls (letters 65528)
    ((Host.initial .little []).connected [addressOf 0])
  have hlen : (letters 65528).strlen = 65528 := List.length_replicate
  rw [hlen] at hiff
  exact absurd (hiff.mp hdec) (by decide)

end Pingu
end MiscUniStuff
