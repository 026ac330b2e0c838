import MiscUniStuff.FileSearch
import MiscUniStuff.Download
import MiscUniStuff.Runs

/-! Replies to searches in every state of the request table that searches, downloads,
closed tabs and sweeps lead to. -/
namespace MiscUniStuff
namespace Pingu
open RequestTable

/-- What the user and the timer do to a program. -/
inductive HostOp
  | searchfile (calls : Calls) (search : CString)
  | downloadMakeRequest (calls : Calls) (md5sum : List UInt8) (host : SockAddr)
  | filesearchUnallocateRequest (req : UInt16)
  | requestDoTimeout (curt : ℤ)

namespace HostOp

def step : HostOp → Host → Host × List Action
  | searchfile calls search, h => Pingu.searchfile calls search h
  | downloadMakeRequest calls md5sum host, h => Pingu.downloadMakeRequest calls md5sum host h
  | filesearchUnallocateRequest req, h => ((Pingu.filesearchUnallocateRequest req h).1,[])
  | requestDoTimeout curt, h =>
    ({ h with requests := (h.requests.requestDoTimeout curt).1 },[])

/-- The program after a list of such steps, from an empty request table. -/
def after (h : Host) (ops : List HostOp) : Host :=
  (Runs.run step { h with requests := requestInit } ops).1

end HostOp

variable {h : Host} {n : UInt16}

theorem outstanding_searchfile (calls : Calls) (search : CString) :
    (searchfile calls search h).1.requests.outstanding n =
      if n = h.requests.found then
        some (h.requests.next,{ started calls.time h.requests.found (searchRequest calls.time) with
          data := some h.nextModel, widget := some h.nextModel })
      else h.requests.outstanding n := by
  simp only [searchfile,outstanding_modify,outstanding_requestStart]
  split_ifs with hn
  · simp
  · rcases hr : h.requests.outstanding n with _ | ⟨b,r⟩
    · rfl
    · have hne : b ≠ h.requests.next := (lt_next_of_outstanding hr).ne
      simp [hne]

theorem outstanding_downloadMakeRequest (calls : Calls) (md5sum : List UInt8) (host : SockAddr) :
    (downloadMakeRequest calls md5sum host h).1.requests.outstanding n =
      if n = h.requests.found then
        some (h.requests.next,started calls.time h.requests.found downloadRequest)
      else h.requests.outstanding n :=
  outstanding_requestStart _ _

/-- Where a request in the table comes from: it was there before, or a search or a
download has just been started. -/
theorem HostOp.step_request {o : HostOp} {b : ℕ} {r : Request}
    (hr : (o.step h).1.requests.outstanding n = some (b,r)) :
    (∃ r₀, h.requests.outstanding n = some (b,r₀) ∧ r.data = r₀.data ∧ r.timeout = r₀.timeout) ∨
    (r.timeout = .requestOntimeout ∧ r.data = some h.nextModel ∧
      (o.step h).1.nextModel = h.nextModel+1) ∨
    (r.timeout = .downloadRequestTimeout ∧ r.data = none) := by
  cases o with
  | searchfile calls search =>
    simp only [HostOp.step,outstanding_searchfile] at hr
    split_ifs at hr with hn
    · simp only [Option.some.injEq,Prod.mk.injEq] at hr
      exact .inr (.inl (by simp [← hr.2,started,searchRequest,HostOp.step,
        Pingu.searchfile]))
    · exact .inl ⟨r,hr,rfl,rfl⟩
  | downloadMakeRequest calls md5sum host =>
    simp only [HostOp.step,outstanding_downloadMakeRequest] at hr
    split_ifs at hr with hn
    · simp only [Option.some.injEq,Prod.mk.injEq] at hr
      exact .inr (.inr (by simp [← hr.2,started,downloadRequest]))
    · exact .inl ⟨r,hr,rfl,rfl⟩
  | filesearchUnallocateRequest req =>
    simp only [HostOp.step,Pingu.filesearchUnallocateRequest,outstanding_requestEnd,
      Option.map_eq_some_iff,Prod.mk.injEq] at hr
    rcases hr with ⟨⟨b',r'⟩,hr',rfl,rfl⟩
    refine .inl ⟨r',hr',?_⟩
    by_cases hn : n = req <;> simp [hn]
  | requestDoTimeout curt =>
    simp only [HostOp.step,outstanding_requestDoTimeout,Option.bind_eq_some_iff] at hr
    rcases hr with ⟨⟨b',r'⟩,hr',hh⟩
    split_ifs at hh with hlt
    · unfold swept at hh
      split_ifs at hh with ha
      · simp only [Option.map_some,Option.some.injEq,Prod.mk.injEq] at hh
        exact .inl ⟨r',by rw [hr',hh.1],by simp [← hh.2]⟩
      · simp at hh
    · simp only [Option.some.injEq,Prod.mk.injEq] at hh
      exact .inl ⟨r',by rw [hr',hh.1],by simp [← hh.2]⟩

theorem HostOp.nextModel_step_le (o : HostOp) : h.nextModel ≤ (o.step h).1.nextModel := by
  cases o with
  | searchfile calls search => exact Nat.le_succ _
  | _ => exact le_rfl

/-- A search has a result list and a download has none. -/
def DataSet (h : Host) : Prop := ∀ n b r, h.requests.outstanding n = some (b,r) →
  (r.timeout = .requestOntimeout ↔ r.data ≠ none)

theorem DataSet.step (hd : DataSet h) (o : HostOp) : DataSet (o.step h).1 := by
  intro n b r hr
  rcases HostOp.step_request hr with ⟨r₀,hold,hdata,hout⟩ | ⟨hout,hdata,-⟩ | ⟨hout,hdata⟩
  · rw [hdata,hout]
    exact hd n b r₀ hold
  · simp [hdata,hout]
  · simp [hdata,hout]

theorem dataSet_after (h : Host) (ops : List HostOp) : DataSet (HostOp.after h ops) :=
  Runs.state_invariant (fun n b r hr => by simp at hr) (fun o _ hd => hd.step o) ops

/-- The result lists of the requests are among those made so far. -/
def ModelsMade (h : Host) : Prop := ∀ n b r, h.requests.outstanding n = some (b,r) →
  ∀ model, r.data = some model → model < h.nextModel

theorem ModelsMade.step (hm : ModelsMade h) (o : HostOp) : ModelsMade (o.step h).1 := by
  intro n b r hr model hmodel
  rcases HostOp.step_request hr with ⟨r₀,hold,hdata,-⟩ | ⟨-,hdata,hnext⟩ | ⟨-,hdata⟩
  · exact (hm n b r₀ hold model (hdata ▸ hmodel)).trans_le o.nextModel_step_le
  · obtain rfl : h.nextModel = model := by simpa [hdata] using hmodel
    omega
  · simp [hdata] at hmodel

theorem modelsMade_after (h : Host) (ops : List HostOp) : ModelsMade (HostOp.after h ops) :=
  Runs.state_invariant (fun n b r hr => by simp at hr) (fun o _ hm => hm.step o) ops

/-- The list of a new search is its own. -/
theorem searchfile_data (hm : ModelsMade h) (calls : Calls) (search : CString) {b : ℕ}
    {r : Request} (hr : (searchfile calls search h).1.requests.outstanding n = some (b,r)) :
    r.data = some h.nextModel ↔ n = h.requests.found := by
  rw [outstanding_searchfile] at hr
  split_ifs at hr with hn
  · simp only [Option.some.injEq,Prod.mk.injEq] at hr
    simp [← hr.2,hn]
  · have hlt := hm n b r hr h.nextModel
    simp only [hn,iff_false]
    intro hdata
    exact absurd (hlt hdata) (lt_irrefl _)

/-- The number belongs to an active search, with that result list. -/
def ActiveSearch (h : Host) (n : UInt16) (model : ℕ) : Prop :=
  ∃ b r, h.requests.outstanding n = some (b,r) ∧ r.active = true ∧
    r.timeout = .requestOntimeout ∧ r.data = some model

/-- A reply adds its row to the list of the active search it answers, and when there is
no such search it changes nothing. -/
def Harmless (h : Host) (p : FullPacket) : Prop :=
  (∀ model, ActiveSearch h p.packet.requestHandle model →
    getReplySearch h p = .ok (h.addRow model (p.response h.order))) ∧
  ((∀ model, ¬ActiveSearch h p.packet.requestHandle model) → getReplySearch h p = .ok h)

/-- There is a request with that number, and it is not an active download. -/
def Answerable (h : Host) (n : UInt16) : Prop :=
  ∃ b r, h.requests.outstanding n = some (b,r) ∧
    ¬(r.active = true ∧ r.timeout = .downloadRequestTimeout)

theorem harmless_iff {p : FullPacket} (hd : DataSet h) (hp : 20 ≤ p.data.length) :
    Harmless h p ↔ Answerable h p.packet.requestHandle := by
  rcases hr : h.requests.outstanding p.packet.requestHandle with _ | ⟨b,r⟩
  · have hno : ∀ model, ¬ActiveSearch h p.packet.requestHandle model := by
      rintro model ⟨b,r,hr',-⟩
      simp [hr] at hr'
    simp [Harmless,Answerable,hr,hno,getReplySearch_missing hr]
  · have hset := hd _ _ _ hr
    cases ha : r.active with
    | false =>
      have hno : ∀ model, ¬ActiveSearch h p.packet.requestHandle model := by
        rintro model ⟨b',r',hr',ha',-⟩
        rw [hr,Option.some.injEq,Prod.mk.injEq] at hr'
        simp [← hr'.2,ha] at ha'
      simp [Harmless,Answerable,hr,hno,getReplySearch_inactive hr ha,ha]
    | true =>
      have hreply := getReplySearch_active hr ha hp
      cases hdata : r.data with
      | none =>
        have hno : ∀ model, ¬ActiveSearch h p.packet.requestHandle model := by
          rintro model ⟨b',r',hr',-,-,hm⟩
          rw [hr,Option.some.injEq,Prod.mk.injEq] at hr'
          simp [← hr'.2,hdata] at hm
        have hout : r.timeout = .downloadRequestTimeout := by
          cases ht : r.timeout with
          | requestOntimeout => simp [ht,hdata] at hset
          | downloadRequestTimeout => rfl
        rw [hdata] at hreply
        simp [Harmless,Answerable,hr,hno,hreply,ha,hout]
      | some model =>
        have hout : r.timeout = .requestOntimeout := hset.mpr (by simp [hdata])
        have hthis : ∀ m, ActiveSearch h p.packet.requestHandle m ↔ m = model := by
          intro m
          simp only [ActiveSearch,hr,Option.some.injEq,Prod.mk.injEq]
          constructor
          · rintro ⟨_,_,⟨rfl,rfl⟩,-,-,hm⟩
            simpa [hdata,eq_comm] using hm
          · rintro rfl
            exact ⟨b,r,⟨rfl,rfl⟩,ha,hout,hdata⟩
        rw [hdata] at hreply
        simp [Harmless,Answerable,hr,hthis,hreply,ha,hout]

/-- In every state of the table that can be reached, a reply of proper length is harmless
exactly when its number is in the table and is not that of an active download. -/
theorem reply_harmless_iff (h : Host) (ops : List HostOp) (p : FullPacket)
    (hp : 20 ≤ p.data.length) : Harmless (HostOp.after h ops) p ↔
      Answerable (HostOp.after h ops) p.packet.requestHandle :=
  harmless_iff (dataSet_after h ops) hp

/-- A reply to request 1 with an empty name. -/
def strayReply (o : ByteOrder.Order) : FullPacket where
  packet := fillinPacket o replyFilesearch 20 1
  data := List.replicate 20 0
  addr := ⟨⟨10,0,0,2⟩,⟨0x0E,0xBD⟩⟩
  data_length := rfl

/-- A reply to the request of that number. -/
def replyNumbered (n : UInt16) : FullPacket where
  packet := fillinPacket .little replyFilesearch 20 n
  data := List.replicate 20 0
  addr := ⟨⟨10,0,0,2⟩,⟨0x0E,0xBD⟩⟩
  data_length := rfl

/-- A search for `ab` gets number 1, and a download number 2. -/
def searchedAndAsked : List HostOp :=
  [.searchfile noCalls ⟨[0x61,0x62],by decide⟩,
    .downloadMakeRequest noCalls (List.replicate 16 7) ⟨⟨10,0,0,2⟩,⟨0x0E,0xBD⟩⟩]

/-- A reply is harmless if its number is that of the search, and not if it is that of the
download or of nothing. -/
theorem reply_harmless_iff_asked :
    Harmless (HostOp.after (.initial .little []) searchedAndAsked) (replyNumbered 1) ∧
    ¬Harmless (HostOp.after (.initial .little []) searchedAndAsked) (replyNumbered 2) ∧
    ¬Harmless (HostOp.after (.initial .little []) searchedAndAsked) (replyNumbered 3) := by
  have hh (n : UInt16) := reply_harmless_iff (.initial .little []) searchedAndAsked
    (replyNumbered n) (le_refl 20)
  rw [hh 1,hh 2,hh 3]
  refine ⟨?_,?_,?_⟩
  · exact ⟨_,_,rfl,by decide⟩
  · rintro ⟨b,r,hr,hno⟩
    cases hr
    exact hno ⟨rfl,rfl⟩
  · rintro ⟨b,r,hr,-⟩
    cases hr

/-- A reply that nobody waits for is looked up and used all the same. -/
theorem reply_harmful : ¬∀ h ops p, 20 ≤ p.data.length → Harmless (HostOp.after h ops) p := by
  intro hall
  have hharm := hall (.initial .little []) [] (strayReply .little) (by decide)
  obtain ⟨b,r,hr,-⟩ := (harmless_iff (dataSet_after _ _) (by decide)).mp hharm
  simp [HostOp.after] at hr

end Pingu
end MiscUniStuff
