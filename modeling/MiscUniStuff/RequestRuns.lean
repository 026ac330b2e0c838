import MiscUniStuff.RequestSpec
import MiscUniStuff.Runs

/-! Runs of `request_start`, `request_end` and `request_do_timeout` from
`request_init`, with the timeout functions they call. -/
namespace MiscUniStuff
namespace Pingu
open RequestTable

/-- One call from outside; the times are what the clock reads. -/
inductive RequestOp
  | requestStart (now : ℤ) (k : Request)
  | requestEnd (req : UInt16)
  | requestDoTimeout (curt : ℤ)

namespace RequestOp

def step : RequestOp → RequestTable → RequestTable × List TimeoutCall
  | requestStart now k, t => ((t.requestStart now k).1,[])
  | requestEnd req, t => (t.requestEnd req,[])
  | requestDoTimeout curt, t => t.requestDoTimeout curt

def after (ops : List RequestOp) : RequestTable := (Runs.run step requestInit ops).1

def calls (ops : List RequestOp) : List TimeoutCall := (Runs.run step requestInit ops).2

@[simp] theorem after_nil : after [] = requestInit := rfl

@[simp] theorem after_snoc (ops : List RequestOp) (o : RequestOp) :
    after (ops ++ [o]) = (o.step (after ops)).1 := by
  simp [after,Runs.run_snoc]

@[simp] theorem calls_snoc (ops : List RequestOp) (o : RequestOp) :
    calls (ops ++ [o]) = calls ops ++ (o.step (after ops)).2 := by
  simp [calls,after,Runs.run_snoc]

/-! Numbers. -/

/-- At every step of the run, a new request gets a number that is not in use, and an
entry stays where it is unless a sweep removes it as inactive and past its deadline. -/
def NumbersDistinct (ops : List RequestOp) : Prop :=
  ∀ front o back, ops = front ++ o :: back →
    (∀ now k, o = requestStart now k →
      (after front).requestGet ((after front).requestStart now k).2 = none) ∧
    ∀ n b r, (after front).outstanding n = some (b,r) →
      (after (front ++ [o])).requestGet n = some b ∨
        ∃ curt, o = requestDoTimeout curt ∧ r.active = false ∧ r.starttime < curt

/-- Every new request of the run finds the number 0 or the number 1 free. -/
def ZeroOrOneFree (ops : List RequestOp) : Prop :=
  ∀ front now k back, ops = front ++ requestStart now k :: back →
    (after front).requestGet 0 = none ∨ (after front).requestGet 1 = none

theorem found_free_iff (t : RequestTable) :
    t.requestGet t.found = none ↔ t.requestGet 0 = none ∨ t.requestGet 1 = none := by
  have hh := found_taken_iff (t:=t)
  tauto

/-- An operation keeps an entry, unless it is a sweep that removes it or a new
request that gets its number. -/
theorem step_keeps (o : RequestOp) {t : RequestTable} {n : UInt16} {b : ℕ} {r : Request}
    (h : t.outstanding n = some (b,r))
    (hfree : ∀ now k, o = requestStart now k → t.requestGet t.found = none) :
    (o.step t).1.requestGet n = some b ∨
      ∃ curt, o = requestDoTimeout curt ∧ r.active = false ∧ r.starttime < curt := by
  cases o with
  | requestStart now k =>
    have hne : n ≠ t.found := by
      rintro rfl
      simp [outstanding_eq_none.mpr (hfree now k rfl)] at h
    have hh : (t.requestStart now k).1.outstanding n = some (b,r) := by
      rw [outstanding_requestStart,if_neg hne,h]
    exact .inl (outstanding_eq_some.mp hh).1
  | requestEnd req =>
    have hh := outstanding_requestEnd (t:=t) (n:=n) req
    rw [h,Option.map_some] at hh
    exact .inl (outstanding_eq_some.mp hh).1
  | requestDoTimeout curt =>
    have hh := outstanding_requestDoTimeout (t:=t) (n:=n) curt
    rw [h,Option.bind_some] at hh
    by_cases hlt : r.starttime < curt
    · cases ha : r.active with
      | false => exact .inr ⟨curt,rfl,rfl,hlt⟩
      | true =>
        simp only [hlt,swept,ha,if_true,Option.map_some] at hh
        exact .inl (outstanding_eq_some.mp hh).1
    · simp only [hlt,if_false] at hh
      exact .inl (outstanding_eq_some.mp hh).1

theorem zeroOrOneFree_of_distinct {ops : List RequestOp} (h : NumbersDistinct ops) :
    ZeroOrOneFree ops := by
  intro front now k back hops
  have hh := (h front _ back hops).1 now k rfl
  exact (found_free_iff _).mp hh

theorem distinct_of_zeroOrOneFree {ops : List RequestOp} (h : ZeroOrOneFree ops) :
    NumbersDistinct ops := by
  intro front o back hops
  have hfree : ∀ now k, o = requestStart now k →
      (after front).requestGet (after front).found = none := by
    rintro now k rfl
    exact (found_free_iff _).mpr (h front now k back hops)
  refine ⟨hfree,fun n b r hr => ?_⟩
  simpa using step_keeps o hr hfree

/-- Numbers are never shared in exactly the runs in which no new request meets both 0
and 1 in the tree. -/
theorem numbers_distinct_iff (ops : List RequestOp) :
    NumbersDistinct ops ↔ ZeroOrOneFree ops :=
  ⟨zeroOrOneFree_of_distinct,distinct_of_zeroOrOneFree⟩

/-- What `request_start` does while a number from 1 on is free and 0 is not in use: the
number is the smallest such, the request is under it and knows it, and nothing else has
moved. -/
structure TakesLeast (now : ℤ) (k : Request) (t : RequestTable) (n : UInt16) : Prop where
  pos : 1 ≤ n
  unused : t.requestGet n = none
  least : ∀ m, 1 ≤ m → t.requestGet m = none → n ≤ m
  inserted : (t.requestStart now k).1.outstanding n = some (t.next,started now n k)
  numbered : (started now n k).reqno = n
  others : ∀ m, m ≠ n → (t.requestStart now k).1.outstanding m = t.outstanding m

theorem takesLeast_found {t : RequestTable} (now : ℤ) (k : Request)
    (hzero : t.requestGet 0 = none) (hfree : ∃ m, 1 ≤ m ∧ t.requestGet m = none) :
    TakesLeast now k t t.found := by
  have hleast : 1 ≤ t.found ∧ t.requestGet t.found = none ∧
      ∀ m, 1 ≤ m → m < t.found → t.requestGet m ≠ none := by
    rcases found_least hzero with h | ⟨-,hall⟩
    · exact h
    · obtain ⟨m,hm,hnone⟩ := hfree
      exact absurd hnone (hall m hm)
  exact {
    pos := hleast.1
    unused := hleast.2.1
    least := by
      intro m hm hnone
      by_contra hlt
      exact hleast.2.2 m hm (UInt16.not_le.mp hlt) hnone
    inserted := by rw [outstanding_requestStart,if_pos rfl]
    numbered := rfl
    others := by
      intro m hm
      rw [outstanding_requestStart,if_neg hm] }

/-- With fewer than 65535 entries a number other than 0 is free. -/
theorem exists_free {t : RequestTable} (h : t.tree.size < 65535) :
    ∃ m, 1 ≤ m ∧ t.requestGet m = none := by
  by_contra hall
  push Not at hall
  have hsub : (List.range' 1 65535) ⊆ (t.tree.toList.map Prod.fst).map UInt16.toNat := by
    intro i hi
    rw [List.mem_range'_1] at hi
    have hnat : (UInt16.ofNat i).toNat = i := UInt16.toNat_ofNat_of_lt' (by
      rw [UInt16.size]
      omega)
    have hle : 1 ≤ UInt16.ofNat i := by
      rw [UInt16.le_iff_toNat_le,hnat]
      exact hi.1
    exact List.mem_map.mpr ⟨_,mem_keys.mpr (hall _ hle),hnat⟩
  have hlen := (List.subperm_of_subset List.nodup_range' hsub).length_le
  simp only [List.length_range',List.length_map,Std.TreeMap.length_toList] at hlen
  omega

/-- While fewer than 65535 requests are outstanding at every start, 0 is never used. -/
theorem zero_unused {ops : List RequestOp}
    (h : ∀ front now k back, ops = front ++ requestStart now k :: back →
      (after front).tree.size < 65535) : (after ops).requestGet 0 = none := by
  induction ops using List.reverseRecOn with
  | nil => simp [requestGet,requestInit]
  | append_singleton ops o ih =>
    have hprev := ih fun front now k back hops =>
      h front now k (back ++ [o]) (by simp [hops])
    rw [← outstanding_eq_none] at hprev ⊢
    rw [after_snoc]
    cases o with
    | requestStart now k =>
      have hleast := takesLeast_found now k (outstanding_eq_none.mp hprev)
        (exists_free (h ops now k [] rfl))
      have hne : 0 ≠ (after ops).found := by
        intro h₀
        have hpos := hleast.pos
        simp [← h₀] at hpos
      simp [step,outstanding_requestStart,hne,hprev]
    | requestEnd req => simp [step,outstanding_requestEnd,hprev]
    | requestDoTimeout curt => simp [step,outstanding_requestDoTimeout,hprev]

/-- So numbers are never shared while fewer than 65535 requests are outstanding. -/
theorem distinct_of_few {ops : List RequestOp}
    (h : ∀ front now k back, ops = front ++ requestStart now k :: back →
      (after front).tree.size < 65535) : NumbersDistinct ops :=
  distinct_of_zeroOrOneFree fun front now k back hops =>
    .inl (zero_unused fun f now' k' b hf =>
      h f now' k' (b ++ requestStart now k :: back) (by simp [hops,hf]))

/-- A new request gets the smallest free number from 1 on; so entries carry their own
numbers, and 0 is not among them while fewer than 65535 requests are outstanding. -/
theorem smallest_free_number (now : ℤ) (k : Request) (t : RequestTable) (ops : List RequestOp) :
    (t.requestGet 0 = none → (∃ m, 1 ≤ m ∧ t.requestGet m = none) →
      TakesLeast now k t (t.requestStart now k).2) ∧
    ((∀ front now k back, ops = front ++ requestStart now k :: back →
        (after front).tree.size < 65535) →
      (after ops).requestGet 0 = none ∧
        ∀ n b r, (after ops).outstanding n = some (b,r) → n ≠ 0 ∧ r.reqno = n) := by
  refine ⟨takesLeast_found now k,fun hfew => ?_⟩
  have hzero := zero_unused hfew
  refine ⟨hzero,fun n b r hr => ⟨?_,reqno_of_outstanding hr⟩⟩
  rintro rfl
  rw [outstanding_eq_none.mpr hzero] at hr
  contradiction

/-- A download's request as `download_make_request` allocates it. -/
def blank : Request := ⟨0,.downloadRequestTimeout,none,none,false,false,0⟩

theorem smallest_free_number_two :
    TakesLeast 3 blank (after [requestStart 0 blank])
        ((after [requestStart 0 blank]).requestStart 3 blank).2 ∧
      (after [requestStart 0 blank]).requestGet 0 = none := by
  have hempty : requestInit.requestGet 0 = none ∧ ∃ m, 1 ≤ m ∧ requestInit.requestGet m = none :=
    ⟨by simp [requestGet,requestInit],1,by decide,by simp [requestGet,requestInit]⟩
  have hfew : ∀ front now k back, [requestStart 0 blank] = front ++ requestStart now k :: back →
      (after front).tree.size < 65535 := by
    intro front now k back h
    have hfront : front = [] := by
      have hlen := congrArg List.length h
      simp only [List.length_cons,List.length_nil,List.length_append] at hlen
      exact List.length_eq_zero_iff.mp (by omega)
    simp [hfront,requestInit]
  have hzero := ((smallest_free_number 0 blank requestInit [requestStart 0 blank]).2 hfew).1
  refine ⟨(smallest_free_number 3 blank _ []).1 hzero ?_,hzero⟩
  refine ⟨2,by decide,?_⟩
  have hone : requestInit.found = 1 := by decide
  have hne : (2 : UInt16) ≠ requestInit.found := by simp [hone]
  have hstart := outstanding_requestStart (t:=requestInit) (n:=2) 0 blank
  rw [if_neg hne] at hstart
  rw [← outstanding_eq_none]
  exact hstart

/-- `n` new requests one after the other. -/
def starts (n : ℕ) : List RequestOp := List.replicate n (requestStart 0 blank)

theorem after_starts {n : ℕ} (hn : n ≤ 65535) (m : UInt16) :
    (after (starts n)).requestGet m ≠ none ↔ 1 ≤ m.toNat ∧ m.toNat ≤ n := by
  induction n generalizing m with
  | zero => simp [starts,requestGet,requestInit]; omega
  | succ n ih =>
    have ih' := fun m => ih (by omega) m
    have hsnoc : starts (n+1) = starts n ++ [requestStart 0 blank] := List.replicate_succ'
    have hfound := found_of_segment (by omega) ih'
    have hnat : (UInt16.ofNat (n+1)).toNat = n+1 := UInt16.toNat_ofNat_of_lt' (by
      rw [UInt16.size]
      omega)
    rw [hsnoc,after_snoc,ne_eq,← outstanding_eq_none]
    simp only [step,outstanding_requestStart,hfound]
    by_cases hm : m = UInt16.ofNat (n+1)
    · rw [if_pos hm,hm,hnat]
      simp
    · have hne : m.toNat ≠ n+1 := fun h => hm (UInt16.toNat_inj.mp (by omega))
      rw [if_neg hm,outstanding_eq_none,← ne_eq,ih' m]
      omega

/-- After 65536 requests that are never ended, the next one gets the number 1 again. -/
theorem numbers_shared : ¬∀ ops, NumbersDistinct ops := by
  intro h
  have hfull := after_starts le_rfl
  have hfound : (after (starts 65535)).found = 0 := found_of_segment le_rfl hfull
  have hsplit : starts 65537 = (starts 65535 ++ [requestStart 0 blank]) ++
      requestStart 0 blank :: [] := by
    simp only [starts,← List.replicate_succ']
  have hfree := zeroOrOneFree_of_distinct (h (starts 65537)) _ _ _ _ hsplit
  have hone : (after (starts 65535)).outstanding 1 ≠ none := fun h₁ =>
    (hfull 1).mpr (by simp) (outstanding_eq_none.mp h₁)
  rw [after_snoc] at hfree
  simp only [step,← outstanding_eq_none,outstanding_requestStart,hfound] at hfree
  simp [hone] at hfree

/-! Timeouts. -/

/-- What one operation may have done to a request that was outstanding before it. -/
structure Kept (o : RequestOp) (n : UInt16) (r r' : Request) : Prop where
  starttime : r'.starttime = r.starttime
  timeout : r'.timeout = r.timeout
  active : r'.active = true → r.active = true ∧ o ≠ requestEnd n
  timedout : r.timedout = true → r'.timedout = true
  swept : ∀ curt, o = requestDoTimeout curt → r.starttime < curt → r'.timedout = true

/-- A request outstanding after an operation is the one the operation started, or one
that was outstanding before. -/
theorem step_cases {o : RequestOp} {t : RequestTable} {n : UInt16} {b : ℕ} {r' : Request}
    (h : (o.step t).1.outstanding n = some (b,r')) :
    (∃ now k, o = requestStart now k ∧ n = t.found ∧ b = t.next ∧ r' = started now n k) ∨
      ∃ r, t.outstanding n = some (b,r) ∧ Kept o n r r' := by
  cases o with
  | requestStart now k =>
    simp only [step,outstanding_requestStart] at h
    split_ifs at h with hn
    · simp only [Option.some.injEq,Prod.mk.injEq] at h
      exact .inl ⟨now,k,rfl,hn,h.1.symm,by rw [hn,h.2]⟩
    · exact .inr ⟨r',h,rfl,rfl,fun ha => ⟨ha,by simp⟩,id,by simp⟩
  | requestEnd req =>
    simp only [step,outstanding_requestEnd,Option.map_eq_some_iff,Prod.mk.injEq] at h
    rcases h with ⟨⟨b',r⟩,hr,rfl,rfl⟩
    refine .inr ⟨r,hr,?_⟩
    by_cases hn : n = req
    · exact ⟨by simp [hn],by simp [hn],by simp [hn],by simp [hn],by simp⟩
    · exact ⟨by simp [hn],by simp [hn],fun ha => ⟨by simpa [hn] using ha,by simpa using Ne.symm hn⟩,
        by simp [hn],by simp⟩
  | requestDoTimeout curt =>
    simp only [step,outstanding_requestDoTimeout,Option.bind_eq_some_iff] at h
    rcases h with ⟨⟨b',r⟩,hr,hh⟩
    split_ifs at hh with hlt
    · cases ha : r.active with
      | false => simp [RequestTable.swept,ha] at hh
      | true =>
        simp only [RequestTable.swept,ha,if_true,Option.map_some,Option.some.injEq,
          Prod.mk.injEq] at hh
        rcases hh with ⟨rfl,rfl⟩
        exact .inr ⟨r,hr,rfl,rfl,fun _ => ⟨ha,by simp⟩,by simp,by simp⟩
    · simp only [Option.some.injEq,Prod.mk.injEq] at hh
      rcases hh with ⟨rfl,rfl⟩
      refine .inr ⟨r,hr,rfl,rfl,fun ha => ⟨ha,by simp⟩,id,fun curt' hc hlt' => ?_⟩
      simp only [requestDoTimeout.injEq] at hc
      exact absurd (hc ▸ hlt') hlt

theorem next_step_le (o : RequestOp) (t : RequestTable) : t.next ≤ (o.step t).1.next := by
  cases o <;> simp [step]

/-- Where an outstanding request comes from: the start that allocated its block, gave it
its number and set its deadline. If it is active, its number has not been ended since. -/
def Started (ops : List RequestOp) (n : UInt16) (b : ℕ) (r : Request) : Prop :=
  ∃ front now k since, ops = front ++ requestStart now k :: since ∧
    b = (after front).next ∧ n = ((after front).requestStart now k).2 ∧
    r.starttime = now+5 ∧ r.timeout = k.timeout ∧ (r.active = true → requestEnd n ∉ since)

theorem started_of_outstanding {ops : List RequestOp} {n : UInt16} {b : ℕ} {r : Request}
    (h : (after ops).outstanding n = some (b,r)) : Started ops n b r := by
  induction ops using List.reverseRecOn generalizing n b r with
  | nil => simp at h
  | append_singleton ops o ih =>
    rw [after_snoc] at h
    rcases step_cases h with ⟨now,k,rfl,hn,hb,rfl⟩ | ⟨r₀,hr₀,hkept⟩
    · exact ⟨ops,now,k,[],rfl,hb,hn,rfl,rfl,by simp⟩
    · obtain ⟨front,now,k,since,hops,hb,hn,hs,ht,hend⟩ := ih hr₀
      refine ⟨front,now,k,since ++ [o],by simp [hops],hb,hn,hkept.starttime.trans hs,
        hkept.timeout.trans ht,fun ha => ?_⟩
      have hh := hkept.active ha
      simpa using ⟨hend hh.1,hh.2.symm⟩

/-- A request whose function has been called: its block has been handed out, and it is
marked for as long as it is outstanding. -/
def Marked (t : RequestTable) (b : ℕ) : Prop :=
  b < t.next ∧ ∀ n r, t.outstanding n = some (b,r) → r.timedout = true

theorem Marked.step {t : RequestTable} {b : ℕ} (h : Marked t b) (o : RequestOp) :
    Marked (o.step t).1 b := by
  refine ⟨h.1.trans_le (next_step_le o t),fun n r hr => ?_⟩
  rcases step_cases hr with ⟨now,k,-,-,hb,-⟩ | ⟨r₀,hr₀,hkept⟩
  · exact absurd h.1 (by omega)
  · exact hkept.timedout (h.2 n r₀ hr₀)

theorem marked_of_called {o : RequestOp} {t : RequestTable} {c : TimeoutCall}
    (hc : c ∈ (o.step t).2) : Marked (o.step t).1 c.request := by
  cases o with
  | requestStart now k => simp [RequestOp.step] at hc
  | requestEnd req => simp [RequestOp.step] at hc
  | requestDoTimeout curt =>
    obtain ⟨r₁,hr₁,hlt,-⟩ := mem_requestDoTimeout_calls.mp hc
    refine ⟨(lt_next_of_outstanding hr₁).trans_le (next_step_le _ t),fun n r hr => ?_⟩
    rcases step_cases hr with ⟨now,k,hno,-⟩ | ⟨r₀,hr₀,hkept⟩
    · simp at hno
    · obtain rfl := number_unique hr₀ hr₁
      obtain rfl : r₀ = r₁ := by simpa [hr₀] using hr₁
      exact hkept.swept curt rfl hlt

theorem calls_marked (ops : List RequestOp) :
    ((calls ops).map TimeoutCall.request).Nodup ∧
      ∀ c ∈ calls ops, Marked (after ops) c.request := by
  induction ops using List.reverseRecOn with
  | nil => simp [calls]
  | append_singleton ops o ih =>
    rw [calls_snoc,after_snoc]
    constructor
    · rw [List.map_append,List.nodup_append]
      refine ⟨ih.1,?_,?_⟩
      · cases o with
        | requestStart now k => simp [step]
        | requestEnd req => simp [step]
        | requestDoTimeout curt => exact requestDoTimeout_calls_nodup curt _
      · -- a request called before is marked, the sweep passes over it
        intro b hb b' hb' heq
        obtain ⟨c,hc,rfl⟩ := List.mem_map.mp hb
        obtain ⟨c',hc',rfl⟩ := List.mem_map.mp hb'
        cases o with
        | requestStart now k => simp [step] at hc'
        | requestEnd req => simp [step] at hc'
        | requestDoTimeout curt =>
          obtain ⟨r,hr,-,-,hnot,-⟩ := mem_requestDoTimeout_calls.mp hc'
          have hh := (ih.2 c hc).2 c'.reqno r (heq ▸ hr)
          simp [hnot] at hh
    · intro c hc
      rcases List.mem_append.mp hc with h | h
      · exact (ih.2 c h).step o
      · exact marked_of_called h

/-- The life of the timeouts in a run: a request's function is called once at most; it
is called with the request's own number, by a sweep after the deadline, and not once the
request has been ended; a sweep removes exactly the inactive requests past their
deadline and leaves those not yet past theirs alone. -/
structure TimeoutLifeCycle (ops : List RequestOp) : Prop where
  once : ((calls ops).map TimeoutCall.request).Nodup
  due : ∀ front o back c, ops = front ++ o :: back → c ∈ (o.step (after front)).2 →
    ∃ curt first now k since, o = requestDoTimeout curt ∧
      front = first ++ requestStart now k :: since ∧ c.request = (after first).next ∧
      c.reqno = ((after first).requestStart now k).2 ∧ c.timeout = k.timeout ∧
      now+5 < curt ∧ requestEnd c.reqno ∉ since
  removed : ∀ front curt back n, ops = front ++ requestDoTimeout curt :: back →
    ((after (front ++ [requestDoTimeout curt])).requestGet n = none ↔
      (after front).requestGet n = none ∨ ∃ b r, (after front).outstanding n = some (b,r) ∧
        r.active = false ∧ r.starttime < curt)
  unexpired : ∀ front curt back n b r, ops = front ++ requestDoTimeout curt :: back →
    (after front).outstanding n = some (b,r) → curt ≤ r.starttime →
    (after (front ++ [requestDoTimeout curt])).outstanding n = some (b,r)

theorem timeout_life_cycle (ops : List RequestOp) : TimeoutLifeCycle ops where
  once := (calls_marked ops).1
  due := by
    intro front o back c _ hc
    cases o with
    | requestStart now k => simp [step] at hc
    | requestEnd req => simp [step] at hc
    | requestDoTimeout curt =>
      obtain ⟨r,hr,hlt,hact,-,hout⟩ := mem_requestDoTimeout_calls.mp hc
      obtain ⟨first,now,k,since,hf,hb,hn,hs,ht,hend⟩ := started_of_outstanding hr
      exact ⟨curt,first,now,k,since,rfl,hf,hb,hn,hout.trans ht,hs ▸ hlt,hend hact⟩
  removed := by
    intro front curt back n _
    simp only [← outstanding_eq_none,after_snoc,step,outstanding_requestDoTimeout]
    rcases (after front).outstanding n with _ | ⟨b,r⟩
    · simp
    · by_cases hlt : r.starttime < curt <;> cases ha : r.active <;>
        simp [hlt,swept,ha]
  unexpired := by
    intro front curt back n b r _ hr hle
    simp [step,outstanding_requestDoTimeout,hr,not_lt.mpr hle]

end RequestOp
end Pingu
end MiscUniStuff
