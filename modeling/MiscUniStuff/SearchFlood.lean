import Mathlib.Data.Fintype.Order
import MiscUniStuff.SearchNetwork

/-! A flood of searches dies out: every copy that is passed on has a smaller clamped ttl. -/
namespace MiscUniStuff
namespace Pingu
open ByteOrder

/-- The receipts that a copy can still cause when it may be passed on `t` times, every
host knowing at most `D` servers and having at most `M` files. -/
def receipts (D M : ℕ) : ℕ → ℕ
  | 0 => 1+M
  | t+1 => 1+M+D*receipts D M t

/-- The same for the bytes of a datagram; a reply causes only its own. -/
def byteWeight (D M : ℕ) (bs : List UInt8) : ℕ :=
  if bs[7]? = some requestFilesearch then receipts D M (clampTtl ((bs[6]?).getD 0)).toNat else 1

def weight (D M : ℕ) (f : Flight) : ℕ := byteWeight D M f.datagram.bytes

def actionWeight (D M : ℕ) : Action → ℕ
  | .sendto _ data => byteWeight D M data
  | _ => 0

theorem toNat_clampTtl (t : UInt8) : (clampTtl t).toNat = min t.toNat 2 := by
  unfold clampTtl
  split_ifs with h
  · simp only [gt_iff_lt,UInt8.lt_iff_toNat_lt,UInt8.reduceToNat] at h
    simp only [UInt8.reduceToNat]
    omega
  · simp only [gt_iff_lt,UInt8.lt_iff_toNat_lt,UInt8.reduceToNat] at h
    omega

/-- The ttl that is passed on can be passed on one time less. -/
theorem clampTtl_pred (t : UInt8) (ht : clampTtl t > 0) :
    (clampTtl t).toNat = (clampTtl (clampTtl t-1)).toNat+1 := by
  simp only [gt_iff_lt,UInt8.lt_iff_toNat_lt,UInt8.reduceToNat] at ht
  have hone : 1 ≤ clampTtl t := by
    simp only [UInt8.le_iff_toNat_le,UInt8.reduceToNat]
    omega
  have hsub := UInt8.toNat_sub_of_le _ _ hone
  have hle := toNat_clampTtl t
  rw [toNat_clampTtl (clampTtl t-1),hsub]
  simp only [UInt8.reduceToNat]
  omega

theorem lt_receipts (D M t : ℕ) : M < receipts D M t := by
  cases t <;> simp only [receipts] <;> omega

/-- What a host does with a search weighs less than the search. -/
theorem search_weight {g : PatternMatch} {h : Host} {p : FullPacket} {D M : ℕ}
    (hop : p.packet.operation = requestFilesearch) (hD : h.known.length ≤ D)
    (hM : h.database.length ≤ M) :
    (((matching g h p).map (reply h p) ++ forwards h p).map (actionWeight D M)).sum+1 ≤
      receipts D M (clampTtl p.packet.ttl).toNat := by
  have hreplies : (((matching g h p).map (reply h p)).map (actionWeight D M)).sum ≤ M := by
    have hone : (actionWeight D M ∘ reply h p) = fun _ => 1 := by
      funext f
      simp [reply,actionWeight,byteWeight,sendPacket_operation,fillinPacket,replyFilesearch,
        requestFilesearch]
    have hlen : (matching g h p).length ≤ h.database.length := List.length_filter_le _ _
    simp only [List.map_map,hone,List.map_const',List.sum_replicate,smul_eq_mul,mul_one]
    omega
  rw [List.map_append,List.sum_append,forwards_eq]
  by_cases ht : clampTtl p.packet.ttl > 0
  · have hcopies : (((forwardDests h p).map fun dest => Action.sendto dest
        (sendPacket h.order p.forwardHeader p.forwardData)).map (actionWeight D M)).sum ≤
        D*receipts D M (clampTtl (clampTtl p.packet.ttl-1)).toNat := by
      have hcopy : (actionWeight D M ∘ fun dest => Action.sendto dest
          (sendPacket h.order p.forwardHeader p.forwardData)) =
          fun _ => receipts D M (clampTtl (clampTtl p.packet.ttl-1)).toNat := by
        funext dest
        simp [actionWeight,byteWeight,sendPacket_operation,sendPacket_ttl,
          FullPacket.forwardHeader,hop]
      have hlen : (forwardDests h p).length ≤ D := by
        simp only [forwardDests,if_pos ht]
        exact (List.length_filter_le _ _).trans hD
      simp only [List.map_map,hcopy,List.map_const',List.sum_replicate,smul_eq_mul]
      exact Nat.mul_le_mul_right _ hlen
    rw [clampTtl_pred _ ht,receipts]
    omega
  · have hnone : forwardDests h p = [] := by simp [forwardDests,ht]
    have hlt := lt_receipts D M (clampTtl p.packet.ttl).toNat
    simp only [hnone,List.map_nil,List.sum_nil]
    omega

theorem launch_weight {ι : Type} (w : Wiring ι) (j : ι) (D M : ℕ) (l : List (Action × Trace)) :
    ((launch w j l).map (weight D M)).sum ≤ ((l.map Prod.fst).map (actionWeight D M)).sum := by
  induction l with
  | nil => simp [launch]
  | cons a l ih =>
    rcases a with ⟨a,t⟩
    simp only [launch,List.map_cons,List.sum_cons] at ih ⊢
    cases a with
    | sendto dest data =>
      by_cases hlen : data.length ≤ maxDatagram
      · simp only [List.filterMap_cons,hlen,dif_pos,List.map_cons,List.sum_cons,weight,actionWeight]
        exact Nat.add_le_add_left ih _
      · simp only [List.filterMap_cons,hlen,dif_neg,not_false_eq_true]
        exact ih.trans (Nat.le_add_left _ _)
    | _ =>
      simp only [List.filterMap_cons]
      exact ih.trans (Nat.le_add_left _ _)

/-- What a program sends in answer to such traffic, and what it costs. -/
theorem handled_cost {g : PatternMatch} {D M : ℕ} {f : Flight} {h h' : Host} {calls : Calls}
    {acts : List Action} {buffer : ℕ → UInt8}
    (hf : f.datagram.bytes[7]? = some requestFilesearch ∨
      f.datagram.bytes[7]? = some replyFilesearch)
    (hD : h.known.length ≤ D) (hM : h.database.length ≤ M)
    (ha : applyPacket g calls (f.packet h buffer) h = .ok (h',acts)) :
    h'.known = h.known ∧ h'.database = h.database ∧
      (acts.map (actionWeight D M)).sum+1 ≤ weight D M f ∧
      ∀ dest data, .sendto dest data ∈ acts → data[7]? = some requestFilesearch ∨
        data[7]? = some replyFilesearch := by
  rcases hf with hf | hf
  · have hop := Flight.packet_operation hf h buffer
    have hpos := lt_receipts D M (clampTtl ((f.datagram.bytes[6]?).getD 0)).toNat
    have hweight : weight D M f =
        receipts D M (clampTtl ((f.datagram.bytes[6]?).getD 0)).toNat := by
      simp [weight,byteWeight,hf]
    rcases applyPacket_search hop ha with ⟨rfl,rfl | ⟨hlen,rfl⟩⟩
    · refine ⟨rfl,rfl,?_,by simp⟩
      simp only [List.map_nil,List.sum_nil,hweight]
      omega
    · obtain ⟨b,hb⟩ : ∃ b, f.datagram.bytes[6]? = some b := by
        have h₇ := (List.getElem?_eq_some_iff.mp hf).1
        exact ⟨_,List.getElem?_eq_getElem (by omega)⟩
      have hcost := search_weight (g:=g) hop hD hM
      rw [Flight.packet_ttl hb] at hcost
      refine ⟨rfl,rfl,by simpa [hweight,hb] using hcost,fun dest data hmem => ?_⟩
      rw [forwards_eq] at hmem
      rcases List.mem_append.mp hmem with hm | hm
      · obtain ⟨file,-,heq⟩ := List.mem_map.mp hm
        simp only [reply,Action.sendto.injEq] at heq
        exact .inr (by rw [← heq.2,sendPacket_operation]; rfl)
      · obtain ⟨dest',-,heq⟩ := List.mem_map.mp hm
        simp only [Action.sendto.injEq] at heq
        exact .inl (by rw [← heq.2,sendPacket_operation,FullPacket.forwardHeader,hop])
  · have hop := Flight.packet_operation hf h buffer
    have hweight : weight D M f = 1 := by
      simp [weight,byteWeight,hf,replyFilesearch,requestFilesearch]
    rcases applyPacket_reply hop ha with ⟨rfl,rfl | ⟨_,_,_,-,-,rfl⟩⟩ <;>
      exact ⟨rfl,rfl,by simp [hweight],by simp⟩

variable {ι : Type} [DecidableEq ι] {w : Wiring ι} {g : PatternMatch}

/-- Nothing but searches and replies to searches is in flight, and every host knows at
most `D` servers and has at most `M` files. -/
structure Flooded (D M : ℕ) (s : Net ι) : Prop where
  traffic : ∀ f ∈ s.flights, f.datagram.bytes[7]? = some requestFilesearch ∨
    f.datagram.bytes[7]? = some replyFilesearch
  known : ∀ j h, s.host j = some h → h.known.length ≤ D
  database : ∀ j h, s.host j = some h → h.database.length ≤ M

def total (D M : ℕ) (s : Net ι) : ℕ := (s.flights.map (weight D M)).sum

/-- Every receipt uses up some of the weight in flight. -/
theorem Flooded.happens {D M : ℕ} {s s' : Net ι} {new : List Flight} (hs : Flooded D M s)
    (hh : Happens w g s s' new) : Flooded D M s' ∧ total D M s'+new.length ≤ total D M s := by
  have hlost : ∀ i, ∀ f ∈ Bags.exchange s.flights i [], f.datagram.bytes[7]? =
      some requestFilesearch ∨ f.datagram.bytes[7]? = some replyFilesearch :=
    fun i => Bags.forall_exchange hs.traffic (by simp)
  cases hh with
  | lost i => exact ⟨⟨hlost i,hs.known,hs.database⟩,Bags.sum_exchange_nil_le _⟩
  | @crashed i f j h calls e hf hj hhost he =>
    have hsum := Bags.sum_exchange (m:=[]) (weight D M) hf
    have hpos : 1 ≤ weight D M f := by
      have hlt := lt_receipts D M (clampTtl ((f.datagram.bytes[6]?).getD 0)).toNat
      simp only [weight,byteWeight]
      split_ifs <;> omega
    refine ⟨⟨hlost i,fun k h₁ hk => hs.known k h₁ (update_none hk),
      fun k h₁ hk => hs.database k h₁ (update_none hk)⟩,?_⟩
    simp only [List.map_nil,List.sum_nil] at hsum
    simp only [total,List.length_singleton]
    omega
  | @handled i f j h h' calls acts hf hj hhost ha =>
    have hcost := handled_cost (hs.traffic f (List.mem_of_getElem? hf)) (hs.known j h hhost)
      (hs.database j h hhost) ha
    have hsum := Bags.sum_exchange (m:=launch w j
      (follow f.trace (matching g h (f.packet h (s.buffer j))) acts)) (weight D M) hf
    have hlaunch := launch_weight w j D M
      (follow f.trace (matching g h (f.packet h (s.buffer j))) acts)
    rw [follow_map_fst] at hlaunch
    refine ⟨⟨?_,?_,?_⟩,?_⟩
    · refine Bags.forall_exchange hs.traffic fun f' hf' => ?_
      have hmem := List.mem_map_of_mem (f:=Prod.fst) (mem_launch.mp hf').2
      rw [follow_map_fst] at hmem
      exact hcost.2.2.2 _ _ hmem
    · intro k h₁ hk
      rcases update_some hk with ⟨rfl,rfl⟩ | hold
      · rw [hcost.1]
        exact hs.known k h hhost
      · exact hs.known k h₁ hold
    · intro k h₁ hk
      rcases update_some hk with ⟨rfl,rfl⟩ | hold
      · rw [hcost.2.1]
        exact hs.database k h hhost
      · exact hs.database k h₁ hold
    · simp only [total,List.length_singleton]
      omega

/-- However the datagrams are delivered, there are no more receipts than the weight that
was in flight at the start. -/
theorem Flooded.receipts_le {D M : ℕ} {s : Net ι} (hs : Flooded D M s) (ops : List NetOp) :
    (s.run w g ops).2.length ≤ total D M s := by
  have hh := Net.run_invariant (w:=w) (g:=g) (s:=s)
    (P:=fun s' log => Flooded D M s' ∧ total D M s'+log.length ≤ total D M s) ⟨hs,by simp⟩
    (fun s₁ log s₂ new h hnext => by
      have hstep := h.1.happens hnext
      rw [List.length_append]
      exact ⟨hstep.1,by omega⟩) ops
  omega

/-! Hops. -/

/-- The ttl of a copy that has been sent that many times. -/
def ttlAt : ℕ → UInt8
  | 1 => 3
  | 2 => 1
  | _ => 0

/-- A copy of the search has been sent three times at most, as its ttl tells. -/
def HopsTold (f : Flight) : Prop := ∀ hops, f.trace = .search hops →
  f.datagram.bytes[7]? = some requestFilesearch ∧
    f.datagram.bytes[6]? = some (ttlAt hops.length) ∧ 1 ≤ hops.length ∧ hops.length ≤ 3

theorem ttlAt_succ {n : ℕ} (h₁ : 1 ≤ n) (h₃ : n ≤ 3) (ht : clampTtl (ttlAt n) > 0) :
    n+1 ≤ 3 ∧ clampTtl (ttlAt n)-1 = ttlAt (n+1) := by
  obtain rfl | rfl | rfl : n = 1 ∨ n = 2 ∨ n = 3 := by omega
  · exact ⟨by omega,rfl⟩
  · exact ⟨by omega,rfl⟩
  · exact absurd ht (by decide)

theorem HopsTold.happens {s s' : Net ι} {new : List Flight} (hs : ∀ f ∈ s.flights, HopsTold f)
    (hh : Happens w g s s' new) : (∀ f ∈ s'.flights, HopsTold f) ∧ ∀ f ∈ new, HopsTold f := by
  cases hh with
  | lost i => exact ⟨Bags.forall_exchange hs (by simp),by simp⟩
  | crashed hf => exact ⟨Bags.forall_exchange hs (by simp),by
      simpa using hs _ (List.mem_of_getElem? hf)⟩
  | @handled i f j h h' calls acts hf hj hhost ha =>
    have hold := hs f (List.mem_of_getElem? hf)
    refine ⟨Bags.forall_exchange hs fun f' hf' hops' ht' => ?_,by simpa using hold⟩
    have hop : ∀ hops, f.trace = .search hops →
        (f.packet h (s.buffer j)).packet.operation = requestFilesearch :=
      fun hops ht => Flight.packet_operation (hold hops ht).1 h _
    rcases launched_cases hop ha hf' with ⟨hl,-⟩ | ⟨hops,ht,-,⟨file,-,hl,-⟩ | ⟨hdest,hl,hdata⟩⟩
    · simp [hl] at ht'
    · simp [hl] at ht'
    · obtain ⟨-,httl,h₁,h₃⟩ := hold hops ht
      have hpttl := Flight.packet_ttl httl h (s.buffer j)
      have hpos : clampTtl (ttlAt hops.length) > 0 := by
        by_contra hneg
        simp [forwardDests,hpttl,hneg] at hdest
      have hsucc := ttlAt_succ h₁ h₃ hpos
      obtain rfl : hops ++ [f'.dest] = hops' := by simpa [hl] using ht'
      rw [hdata,sendPacket_operation,sendPacket_ttl,List.length_append,List.length_singleton]
      refine ⟨congrArg some (hop hops ht),?_,by omega,hsucc.1⟩
      simp only [FullPacket.forwardHeader,hpttl,hsucc.2]

/-- A started search is received by nobody on a path of more than three hops. -/
theorem hops_le_three {calls : Calls} {search : CString} {o : ι} {s : Net ι}
    (hs : ∀ f ∈ s.flights, f.trace = .other) (ops : List NetOp) {f : Flight}
    (hf : f ∈ ((s.search w calls search o).run w g ops).2) {hops : List SockAddr}
    (ht : f.trace = .search hops) : hops.length ≤ 3 := by
  have hstart : ∀ f ∈ (s.search w calls search o).flights, HopsTold f := by
    intro f hf hops ht
    rcases search_flights hf with hold | ⟨h,-,-,-,htrace,hdata⟩
    · simp [hs f hold] at ht
    · obtain rfl : [f.dest] = hops := by simpa [htrace] using ht
      rw [hdata,sendPacket_operation,sendPacket_ttl]
      exact ⟨rfl,rfl,by simp,by simp⟩
  have hh := Net.run_invariant (w:=w) (g:=g) (s:=s.search w calls search o)
    (P:=fun s' log => (∀ f ∈ s'.flights, HopsTold f) ∧ ∀ f ∈ log, HopsTold f)
    ⟨hstart,by simp⟩ (fun s₁ log s₂ new h hnext => by
      have hstep := HopsTold.happens h.1 hnext
      refine ⟨hstep.1,fun f hf => ?_⟩
      rcases List.mem_append.mp hf with hm | hm
      · exact h.2 f hm
      · exact hstep.2 f hm) ops
  exact (hh.2 f hf hops ht).2.2.2

/-- A search as it may come from anywhere: any ttl, any payload, complete or not. -/
def IsSearch (f : Flight) : Prop := f.datagram.bytes[7]? = some requestFilesearch

/-- Searches stop: in a finite network with searches in flight only so many receipts are
possible, in any order; and a started search is received within three hops. -/
theorem flood_stops [Finite ι] (w : Wiring ι) (g : PatternMatch) :
    (∀ s : Net ι, (∀ f ∈ s.flights, IsSearch f) → ∃ n, ∀ ops, (s.run w g ops).2.length ≤ n) ∧
    ∀ (s : Net ι) (calls : Calls) (search : CString) (o : ι) (ops : List NetOp),
      (∀ f ∈ s.flights, f.trace = .other) →
      ∀ f ∈ ((s.search w calls search o).run w g ops).2, ∀ hops, f.trace = .search hops →
        hops.length ≤ 3 := by
  refine ⟨fun s hs => ?_,fun s calls search o ops hs f hf hops ht => hops_le_three hs ops hf ht⟩
  obtain ⟨D,hD⟩ := Finite.exists_le fun j => ((s.host j).map fun h => h.known.length).getD 0
  obtain ⟨M,hM⟩ := Finite.exists_le fun j => ((s.host j).map fun h => h.database.length).getD 0
  have hflood : Flooded D M s := {
    traffic := fun f hf => .inl (hs f hf)
    known := fun j h hj => by simpa [hj] using hD j
    database := fun j h hj => by simpa [hj] using hM j }
  exact ⟨total D M s,hflood.receipts_le⟩

/-- A search with the largest ttl and a payload that is too short. -/
def strayFlight : Flight where
  source := ⟨⟨10,0,0,3⟩,⟨0x0E,0xBD⟩⟩
  dest := ⟨⟨10,0,0,1⟩,⟨0x0E,0xBD⟩⟩
  datagram := ⟨wire (preamble ++ [0,9]) 255 requestFilesearch [1,2,3],by decide⟩
  trace := .other

theorem flood_stops_triangle :
    (∃ n, ∀ ops, (({ triangle with flights := [strayFlight,strayFlight] } : Net (Fin 3)).run
      triangleWiring sameName ops).2.length ≤ n) ∧
    ∀ ops, ∀ f ∈ ((({ triangle with flights := [strayFlight] } : Net (Fin 3)).search triangleWiring
      noCalls someFile.filename 0).run triangleWiring sameName ops).2, ∀ hops,
        f.trace = .search hops → hops.length ≤ 3 :=
  ⟨(flood_stops triangleWiring sameName).1 _ (by simp [IsSearch]; decide),
    fun ops => (flood_stops triangleWiring sameName).2 _ noCalls _ 0 ops (by
      simp [strayFlight])⟩

end Pingu
end MiscUniStuff
