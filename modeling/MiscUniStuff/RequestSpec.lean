import MiscUniStuff.RequestHandler

/-! The request table seen from outside: what each operation of `request_handler.c`
does to the requests under the numbers, and which number a new request gets. -/
namespace MiscUniStuff
namespace Pingu
namespace RequestTable
variable {t : RequestTable} {n : UInt16} {b : ℕ} {r : Request}

theorem outstanding_eq_some :
    t.outstanding n = some (b,r) ↔ t.requestGet n = some b ∧ t.heap b = some r := by
  simp only [outstanding,Option.bind_eq_some_iff,Option.map_eq_some_iff,Prod.mk.injEq]
  grind

theorem outstanding_of_get (h : t.requestGet n = some b) :
    ∃ r, t.outstanding n = some (b,r) ∧ r.reqno = n := by
  obtain ⟨r,hr,hn⟩ := t.owned n b h
  exact ⟨r,outstanding_eq_some.mpr ⟨h,hr⟩,hn⟩

theorem reqno_of_outstanding (h : t.outstanding n = some (b,r)) : r.reqno = n := by
  have hh := outstanding_eq_some.mp h
  obtain ⟨r',hr',hn⟩ := t.owned n b hh.1
  rw [hh.2,Option.some.injEq] at hr'
  rwa [hr']

theorem lt_next_of_outstanding (h : t.outstanding n = some (b,r)) : b < t.next := by
  by_contra hb
  have hh := t.fresh b (by omega)
  simp [(outstanding_eq_some.mp h).2] at hh

theorem outstanding_eq_none : t.outstanding n = none ↔ t.requestGet n = none := by
  constructor
  · intro h
    by_contra hget
    obtain ⟨b,hb⟩ := Option.ne_none_iff_exists'.mp hget
    obtain ⟨r,hr,-⟩ := outstanding_of_get hb
    simp [h] at hr
  · intro h
    simp [outstanding,h]

/-- Two numbers never share a block. -/
theorem number_unique {m : UInt16} {r' : Request} (hn : t.outstanding n = some (b,r))
    (hm : t.outstanding m = some (b,r')) : n = m := by
  have h₁ := (outstanding_eq_some.mp hn).2
  have h₂ := (outstanding_eq_some.mp hm).2
  rw [h₁,Option.some.injEq] at h₂
  rw [← reqno_of_outstanding hn,← reqno_of_outstanding hm,h₂]

@[simp] theorem outstanding_requestInit : requestInit.outstanding n = none := by
  simp [outstanding,requestGet,requestInit]

theorem outstanding_modify (f : Request → Request) (hf : ∀ r, (f r).reqno = r.reqno) :
    (t.modify b f hf).outstanding n =
      (t.outstanding n).map fun p => (p.1,if p.1 = b then f p.2 else p.2) := by
  simp only [outstanding,requestGet,modify]
  cases t.tree[n]? with
  | none => rfl
  | some c =>
    by_cases hc : c = b
    · subst hc
      cases hh : t.heap c <;> simp [hh]
    · cases hh : t.heap c <;> simp [hc,hh]

theorem outstanding_requestStart (now : ℤ) (k : Request) :
    (requestStart now k t).1.outstanding n =
      if n = t.found then some (t.next,started now t.found k) else t.outstanding n := by
  simp only [outstanding,requestGet,requestStart,Std.TreeMap.getElem?_insert,compareFunc_eq_iff]
  split_ifs with h₁ h₂ h₂
  · simp
  · exact absurd h₁.symm h₂
  · exact absurd h₂.symm h₁
  · cases hn : t.tree[n]? with
    | none => rfl
    | some c =>
      obtain ⟨r,hr,-⟩ := t.owned n c hn
      have hne : c ≠ t.next := fun h => by simp [t.fresh c h.ge] at hr
      simp [hne]

theorem outstanding_requestEnd (req : UInt16) :
    (requestEnd req t).outstanding n =
      (t.outstanding n).map fun p => (p.1,if n = req then { p.2 with active := false } else p.2) := by
  unfold requestEnd
  cases hreq : t.requestGet req with
  | none =>
    cases hn : t.outstanding n with
    | none => rfl
    | some p =>
      have hne : n ≠ req := by
        rintro rfl
        simp [outstanding_eq_none.mpr hreq] at hn
      simp [hne]
  | some b =>
    simp only [outstanding_modify]
    cases hn : t.outstanding n with
    | none => rfl
    | some p =>
      obtain ⟨r,hr,-⟩ := outstanding_of_get hreq
      by_cases hb : p.1 = b
      · have hne : n = req := number_unique (t:=t) (b:=b) (r:=p.2) (by rw [hn,← hb]) hr
        simp [hb,hne]
      · have hne : n ≠ req := by
          rintro rfl
          rw [hn,Option.some.injEq] at hr
          exact hb (by rw [hr])
        simp [hb,hne]

@[simp] theorem next_requestEnd (req : UInt16) : (requestEnd req t).next = t.next := by
  unfold requestEnd
  split <;> rfl

@[simp] theorem next_requestStart (now : ℤ) (k : Request) :
    (requestStart now k t).1.next = t.next+1 := rfl

/-! The sweep. -/

/-- What the sweep leaves of a request that is past its deadline. -/
def swept (r : Request) : Option Request :=
  if r.active then some { r with timedout := true } else none

/-- The calls the sweep makes for such a request. -/
def callsFor (n : UInt16) (b : ℕ) (r : Request) : List TimeoutCall :=
  if r.active ∧ ¬r.timedout then [⟨r.timeout,n,b⟩] else []

theorem outstanding_release {k : ℕ} (h : t.outstanding n = some (k,r)) (hk : t.heap k = some r)
    (m : UInt16) : (t.release k r hk).outstanding m = if m = n then none else t.outstanding m := by
  have hreq := reqno_of_outstanding h
  simp only [outstanding,requestGet,release,Std.TreeMap.getElem?_erase,compareFunc_eq_iff,hreq]
  by_cases hm : m = n
  · simp [hm]
  · cases hc : t.tree[m]? with
    | none => simp
    | some c =>
      obtain ⟨r',hr',-⟩ := outstanding_of_get (n:=m) hc
      have hne : c ≠ k := by
        rintro rfl
        exact hm (number_unique hr' h)
      simp [hne,hm,Ne.symm hm]

theorem requestDoTimeoutSingle2_spec {k : ℕ} (h : t.outstanding n = some (k,r)) :
    (∀ m, (requestDoTimeoutSingle2 k t).1.outstanding m =
      if m = n then (swept r).map (k,·) else t.outstanding m) ∧
    (requestDoTimeoutSingle2 k t).2 = callsFor n k r := by
  have hk := (outstanding_eq_some.mp h).2
  have hreq := reqno_of_outstanding h
  unfold requestDoTimeoutSingle2
  split
  case h_1 hnone => simp [hk] at hnone
  case h_2 r' hr' =>
    obtain rfl : r = r' := by simpa [hk] using hr'
    refine ⟨fun m => ?_,by simp [callsFor,hreq]⟩
    rw [outstanding_modify]
    by_cases ha : r.active
    · by_cases hm : m = n
      · simp [ha,hm,h,swept]
      · rcases hcase : t.outstanding m with _ | ⟨c,r'⟩
        · simp [ha,hm,hcase]
        · have hne : c ≠ k := by
            rintro rfl
            exact hm (number_unique hcase h)
          simp [ha,hm,hcase,hne]
    · simp only [ha,Bool.false_eq_true,if_false,outstanding_release h]
      by_cases hm : m = n
      · simp [hm,swept,ha]
      · rcases hcase : t.outstanding m with _ | ⟨c,r'⟩
        · simp [hm]
        · have hne : c ≠ k := by
            rintro rfl
            exact hm (number_unique hcase h)
          simp [hm,hne]

@[simp] theorem next_requestDoTimeoutSingle2 (k : ℕ) :
    (requestDoTimeoutSingle2 k t).1.next = t.next := by
  unfold requestDoTimeoutSingle2
  split
  · rfl
  · simp only [modify]
    split <;> rfl

/-- The calls for the request under a number, if there is one. -/
def callsAt (t : RequestTable) (n : UInt16) : List TimeoutCall :=
  match t.outstanding n with
  | some (b,r) => callsFor n b r
  | none => []

theorem timeoutAll_spec {l : List (UInt16 × ℕ)} (hl : ∀ p ∈ l, t.requestGet p.1 = some p.2)
    (hnd : (l.map Prod.fst).Nodup) :
    (∀ m, (timeoutAll (l.map Prod.snd) t).1.outstanding m =
      if m ∈ l.map Prod.fst then (t.outstanding m).bind fun p => (swept p.2).map (p.1,·)
      else t.outstanding m) ∧
    (timeoutAll (l.map Prod.snd) t).2 = l.flatMap fun p => callsAt t p.1 := by
  induction l generalizing t with
  | nil => simp [timeoutAll]
  | cons p l ih =>
    obtain ⟨r,hr,-⟩ := outstanding_of_get (hl p (by simp))
    have hone := requestDoTimeoutSingle2_spec hr
    have hnd' := List.nodup_cons.mp hnd
    -- the numbers still to come are untouched by the first step
    have hkeep : ∀ q ∈ l, (requestDoTimeoutSingle2 p.2 t).1.outstanding q.1 =
        t.outstanding q.1 := by
      intro q hq
      have hne : q.1 ≠ p.1 := fun h => hnd'.1 (h ▸ List.mem_map_of_mem hq)
      simp [hone.1,hne]
    have hrest := ih (t:=(requestDoTimeoutSingle2 p.2 t).1) (by
      intro q hq
      obtain ⟨r',hr',-⟩ := outstanding_of_get (hl q (by simp [hq]))
      exact (outstanding_eq_some.mp ((hkeep q hq).trans hr')).1) hnd'.2
    constructor
    · intro m
      simp only [List.map_cons,timeoutAll,hrest.1,List.mem_cons]
      by_cases hm : m = p.1
      · subst hm
        simp [hnd'.1,hone.1,hr]
      · simp only [hone.1,hm,if_false,false_or]
    · have hcalls : ∀ q ∈ l, callsAt (requestDoTimeoutSingle2 p.2 t).1 q.1 = callsAt t q.1 := by
        intro q hq
        simp only [callsAt,hkeep q hq]
      have hhead : callsAt t p.1 = callsFor p.1 p.2 r := by simp [callsAt,hr]
      simp only [List.map_cons,timeoutAll,hrest.2,hone.2,List.flatMap_cons,hhead]
      rw [List.flatMap_congr hcalls]

/-- Past its deadline, as the first pass sees the request in block `b`. -/
def expired (curt : ℤ) (heap : ℕ → Option Request) (b : ℕ) : Bool :=
  (heap b).any fun r => decide (r.starttime < curt)

theorem visit_requestDoTimeoutSingle (curt : ℤ) (heap : ℕ → Option Request)
    (l : List (UInt16 × ℕ)) (list : List ℕ) :
    visit (requestDoTimeoutSingle curt heap) l list =
      list ++ (l.filter fun p => expired curt heap p.2).map Prod.snd := by
  induction l generalizing list with
  | nil => simp [visit]
  | cons p l ih =>
    cases hp : heap p.2 with
    | none => simp [visit,requestDoTimeoutSingle,hp,ih,expired]
    | some r =>
      by_cases hr : r.starttime < curt <;>
        simp [visit,requestDoTimeoutSingle,hp,ih,expired,hr]

/-- The entries the sweep collects. -/
def expiredEntries (curt : ℤ) (t : RequestTable) : List (UInt16 × ℕ) :=
  t.tree.toList.filter fun p => expired curt t.heap p.2

theorem mem_expiredEntries {curt : ℤ} :
    (n,b) ∈ expiredEntries curt t ↔ ∃ r, t.outstanding n = some (b,r) ∧ r.starttime < curt := by
  simp only [expiredEntries,List.mem_filter,Std.TreeMap.mem_toList_iff_getElem?_eq_some,expired,
    outstanding_eq_some,requestGet]
  constructor
  · rintro ⟨hget,hexp⟩
    obtain ⟨r,hr,-⟩ := t.owned n b hget
    exact ⟨r,⟨hget,hr⟩,by simpa [hr] using hexp⟩
  · rintro ⟨r,⟨hget,hr⟩,hlt⟩
    exact ⟨hget,by simpa [hr] using hlt⟩

theorem expiredEntries_nodup (curt : ℤ) : ((expiredEntries curt t).map Prod.fst).Nodup := by
  have hh := (Std.TreeMap.distinct_keys_toList (t:=t.tree)).filter
    fun p => expired curt t.heap p.2
  rw [List.Nodup,List.pairwise_map]
  refine hh.imp fun hne heq => hne (compareFunc_eq_iff.mpr heq)

theorem requestDoTimeout_eq (curt : ℤ) : requestDoTimeout curt t =
    timeoutAll ((expiredEntries curt t).map Prod.snd) t := by
  simp [requestDoTimeout,gTreeForeach,visit_requestDoTimeoutSingle,expiredEntries]

/-- A sweep removes the inactive requests past their deadline, marks the active ones
past it, and leaves the others as they are. -/
theorem outstanding_requestDoTimeout (curt : ℤ) :
    (requestDoTimeout curt t).1.outstanding n = (t.outstanding n).bind fun p =>
      if p.2.starttime < curt then (swept p.2).map (p.1,·) else some p := by
  have hspec := (timeoutAll_spec (t:=t) (l:=expiredEntries curt t)
    (fun p hp => (outstanding_eq_some.mp (mem_expiredEntries.mp hp).choose_spec.1).1)
    (expiredEntries_nodup curt)).1 n
  rw [requestDoTimeout_eq,hspec]
  rcases hn : t.outstanding n with _ | ⟨b,r⟩
  · simp
  · have hmem : n ∈ (expiredEntries curt t).map Prod.fst ↔ r.starttime < curt := by
      simp only [List.mem_map,Prod.exists,exists_and_right,exists_eq_right]
      simp only [mem_expiredEntries,hn,Option.some.injEq,Prod.mk.injEq]
      grind
    simp only [hmem,Option.bind_some]

theorem mem_requestDoTimeout_calls {curt : ℤ} {c : TimeoutCall} :
    c ∈ (requestDoTimeout curt t).2 ↔ ∃ r, t.outstanding c.reqno = some (c.request,r) ∧
      r.starttime < curt ∧ r.active = true ∧ r.timedout = false ∧ c.timeout = r.timeout := by
  have hspec := (timeoutAll_spec (t:=t) (l:=expiredEntries curt t)
    (fun p hp => (outstanding_eq_some.mp (mem_expiredEntries.mp hp).choose_spec.1).1)
    (expiredEntries_nodup curt)).2
  simp only [requestDoTimeout_eq,hspec,List.mem_flatMap,Prod.exists,mem_expiredEntries]
  constructor
  · rintro ⟨n,b,⟨r,hr,hlt⟩,hc⟩
    simp only [callsAt,hr,callsFor] at hc
    split_ifs at hc with ha
    · obtain rfl := List.mem_singleton.mp hc
      exact ⟨r,hr,hlt,ha.1,by simpa using ha.2,rfl⟩
    · simp at hc
  · rintro ⟨r,hr,hlt,ha,hd,ht⟩
    refine ⟨c.reqno,c.request,⟨r,hr,hlt⟩,?_⟩
    simp only [callsAt,hr,callsFor,ha,hd]
    simp [← ht]

theorem callsAt_sublist (l : List (UInt16 × ℕ)) :
    ((l.flatMap fun p => callsAt t p.1).map TimeoutCall.reqno).Sublist (l.map Prod.fst) := by
  induction l with
  | nil => simp
  | cons p l ih =>
    have hp : ((callsAt t p.1).map TimeoutCall.reqno).Sublist [p.1] := by
      unfold callsAt
      split
      · unfold callsFor
        split_ifs <;> simp
      · simp
    simpa using hp.append ih

/-- One sweep calls for no request twice. -/
theorem requestDoTimeout_calls_nodup (curt : ℤ) (t : RequestTable) :
    ((requestDoTimeout curt t).2.map TimeoutCall.request).Nodup := by
  have hspec := (timeoutAll_spec (t:=t) (l:=expiredEntries curt t)
    (fun p hp => (outstanding_eq_some.mp (mem_expiredEntries.mp hp).choose_spec.1).1)
    (expiredEntries_nodup curt)).2
  rw [← requestDoTimeout_eq] at hspec
  have hreqno : ((requestDoTimeout curt t).2.map TimeoutCall.reqno).Nodup := by
    rw [hspec]
    exact (expiredEntries_nodup curt).sublist (callsAt_sublist _)
  refine hreqno.of_map.map_on fun c hc c' hc' hsame => ?_
  obtain ⟨r,hr,-⟩ := mem_requestDoTimeout_calls.mp hc
  obtain ⟨r',hr',-⟩ := mem_requestDoTimeout_calls.mp hc'
  have hno : c.reqno = c'.reqno := number_unique hr (hsame ▸ hr')
  exact List.inj_on_of_nodup_map hreqno hc hc' hno

theorem next_timeoutAll (l : List ℕ) (t : RequestTable) : (timeoutAll l t).1.next = t.next := by
  induction l generalizing t with
  | nil => rfl
  | cons k l ih => simp [timeoutAll,ih]

@[simp] theorem next_requestDoTimeout (curt : ℤ) : (requestDoTimeout curt t).1.next = t.next :=
  next_timeoutAll _ _

/-! The number a new request gets. -/

theorem toNat_succ {c : UInt16} (hc : c.toNat ≠ 65535) : (c+1).toNat = c.toNat+1 := by
  have := c.toNat_lt
  simp only [UInt16.toNat_add,UInt16.reduceToNat]
  omega

theorem eq_or_succ_le {c m : UInt16} (hc : c.toNat ≠ 65535) (hm : c ≤ m) :
    m = c ∨ c+1 ≤ m := by
  simp only [UInt16.le_iff_toNat_le,toNat_succ hc,← UInt16.toNat_inj] at *
  omega

/-- `r` is the first number from `c` on that is not in the list, or 0 when there is none. -/
def FirstGap (l : List UInt16) (c r : UInt16) : Prop :=
  (c ≤ r ∧ r ∉ l ∧ ∀ m, c ≤ m → m < r → m ∈ l) ∨ (r = 0 ∧ ∀ m, c ≤ m → m ∈ l)

theorem firstGap_here {l : List UInt16} {c : UInt16} (hc : c ∉ l) : FirstGap l c c :=
  .inl ⟨UInt16.le_refl c,hc,fun _ hm h => absurd h (UInt16.not_lt.mpr hm)⟩

/-- There is no number behind 65535. -/
theorem firstGap_last {l : List UInt16} {c : UInt16} (hc : c.toNat = 65535) :
    FirstGap (c::l) c 0 := by
  refine .inr ⟨rfl,fun m hm => ?_⟩
  have hle := UInt16.le_iff_toNat_le.mp hm
  have hlt := m.toNat_lt
  have heq : m = c := UInt16.toNat_inj.mp (by omega)
  simp [heq]

theorem FirstGap.cons {l : List UInt16} {c r : UInt16} (hc : c.toNat ≠ 65535)
    (h : FirstGap l (c+1) r) : FirstGap (c::l) c r := by
  rcases h with ⟨hle,hnot,hbelow⟩ | ⟨hzero,hall⟩
  · have hge := UInt16.le_iff_toNat_le.mp hle
    rw [toNat_succ hc] at hge
    refine .inl ⟨UInt16.le_iff_toNat_le.mpr (by omega),?_,fun m hm hlt => ?_⟩
    · have hne : r ≠ c := by
        rintro rfl
        omega
      simpa [hne] using hnot
    · rcases eq_or_succ_le hc hm with h | h
      · simp [h]
      · simp [hbelow m h hlt]
  · refine .inr ⟨hzero,fun m hm => ?_⟩
    rcases eq_or_succ_le hc hm with h | h
    · simp [h]
    · simp [hall m h]

/-- Going through an increasing list of numbers from one that none of them is below,
the traversal ends at the first gap, or at 0 when there is none. -/
theorem visit_findNextNumber {l : List (UInt16 × ℕ)} (hl : (l.map Prod.fst).Pairwise (·<·))
    {c : UInt16} (hc : ∀ p ∈ l, c ≤ p.1) :
    FirstGap (l.map Prod.fst) c (visit findNextNumber l c) := by
  induction l generalizing c with
  | nil => exact firstGap_here (by simp)
  | cons p l ih =>
    have hl' := List.pairwise_cons.mp hl
    have hlater : ∀ q ∈ l, p.1.toNat < q.1.toNat := fun q hq =>
      UInt16.lt_iff_toNat_lt.mp (hl'.1 q.1 (List.mem_map_of_mem hq))
    have hcp : c.toNat ≤ p.1.toNat := UInt16.le_iff_toNat_le.mp (hc p (by simp))
    by_cases hp : c = p.1
    · subst c
      have hstep : visit findNextNumber (p::l) p.1 = visit findNextNumber l (p.1+1) := by
        simp [visit,findNextNumber]
      rw [hstep,List.map_cons]
      by_cases hmax : p.1.toNat = 65535
      · -- the counter wraps; nothing can follow the entry 65535
        have hnil : l = [] := by
          refine List.eq_nil_iff_forall_not_mem.mpr fun q hq => ?_
          have h₁ := hlater q hq
          have h₂ := q.1.toNat_lt
          omega
        have hzero : p.1+1 = 0 := UInt16.toNat_inj.mp (by simp [hmax])
        rw [hnil,visit,hzero]
        exact firstGap_last hmax
      · have hle : ∀ q ∈ l, p.1+1 ≤ q.1 := by
          intro q hq
          have hh := hlater q hq
          rw [UInt16.le_iff_toNat_le,toNat_succ hmax]
          omega
        exact (ih hl'.2 hle).cons hmax
    · have hstep : visit findNextNumber (p::l) c = c := by simp [visit,findNextNumber,hp]
      have hne : c.toNat ≠ p.1.toNat := fun h => hp (UInt16.toNat_inj.mp h)
      rw [hstep]
      refine firstGap_here ?_
      simp only [List.map_cons,List.mem_cons,not_or]
      refine ⟨hp,fun hmem => ?_⟩
      obtain ⟨q,hq,rfl⟩ := List.mem_map.mp hmem
      have hh := hlater q hq
      omega

theorem mem_keys {t : RequestTable} {n : UInt16} :
    n ∈ t.tree.toList.map Prod.fst ↔ t.requestGet n ≠ none := by
  simp only [List.mem_map,Prod.exists,exists_and_right,exists_eq_right,requestGet,
    Std.TreeMap.mem_toList_iff_getElem?_eq_some,Option.ne_none_iff_exists']

theorem keys_pairwise (t : RequestTable) : (t.tree.toList.map Prod.fst).Pairwise (·<·) := by
  rw [List.pairwise_map]
  exact Std.TreeMap.ordered_keys_toList.imp fun h => compareFunc_lt.mp h

/-- While 0 is not in use, the number looked up is the smallest free one from 1 on,
or 0 when all of those are taken. -/
theorem found_least (h : t.requestGet 0 = none) :
    (1 ≤ t.found ∧ t.requestGet t.found = none ∧
      ∀ m, 1 ≤ m → m < t.found → t.requestGet m ≠ none) ∨
    (t.found = 0 ∧ ∀ m, 1 ≤ m → t.requestGet m ≠ none) := by
  have hone : ∀ p ∈ t.tree.toList, 1 ≤ p.1 := by
    intro p hp
    have hne : p.1 ≠ 0 := fun h₀ => mem_keys.mp (List.mem_map_of_mem hp) (h₀ ▸ h)
    have hnat : p.1.toNat ≠ 0 := fun h₀ => hne (UInt16.toNat_inj.mp h₀)
    rw [UInt16.le_iff_toNat_le]
    simp only [UInt16.toNat_one]
    omega
  have hh := visit_findNextNumber (keys_pairwise t) hone
  simpa only [FirstGap,mem_keys,not_not,ne_eq,found,gTreeForeach] using hh

/-- Once 0 is in use, the traversal stops at once. -/
theorem found_eq_one (h : t.requestGet 0 ≠ none) : t.found = 1 := by
  have hmem := mem_keys.mpr h
  have hpw := keys_pairwise t
  simp only [found,gTreeForeach]
  generalize t.tree.toList = l at hmem hpw
  cases l with
  | nil => simp at hmem
  | cons p l =>
    have hp : p.1 = 0 := by
      rcases List.mem_cons.mp hmem with h₀ | h₀
      · exact h₀.symm
      · exact absurd ((List.pairwise_cons.mp hpw).1 0 h₀) (by simp)
    simp [visit,findNextNumber,hp]

/-- The number of a new request is taken exactly when 0 and 1 are both in use. -/
theorem found_taken_iff :
    t.requestGet t.found ≠ none ↔ t.requestGet 0 ≠ none ∧ t.requestGet 1 ≠ none := by
  by_cases h : t.requestGet 0 = none
  · have hfree : t.requestGet t.found = none := by
      rcases found_least h with ⟨-,h₁,-⟩ | ⟨h₁,-⟩
      · exact h₁
      · rw [h₁,h]
    simp [h,hfree]
  · simp [found_eq_one h,h]

/-- With the numbers from 1 to `k` in use the next one is `k+1`, in 16 bits. -/
theorem found_of_segment {k : ℕ} (hk : k ≤ 65535)
    (h : ∀ m : UInt16, t.requestGet m ≠ none ↔ 1 ≤ m.toNat ∧ m.toNat ≤ k) :
    t.found = UInt16.ofNat (k+1) := by
  have hzero : t.requestGet 0 = none := by
    by_contra h₀
    simpa using ((h 0).mp h₀).1
  rcases found_least hzero with ⟨h₁,h₂,h₃⟩ | ⟨h₁,h₂⟩
  · have hge := UInt16.le_iff_toNat_le.mp h₁
    have hgt : k < t.found.toNat := by
      by_contra hle
      exact (h _).mpr ⟨hge,by omega⟩ h₂
    have hlt := t.found.toNat_lt
    have hnat : (UInt16.ofNat (k+1)).toNat = k+1 := UInt16.toNat_ofNat_of_lt' (by
      rw [UInt16.size]
      omega)
    refine UInt16.toNat_inj.mp (by_contra fun hne => ?_)
    have hone : 1 ≤ UInt16.ofNat (k+1) := by
      rw [UInt16.le_iff_toNat_le,hnat,UInt16.toNat_one]
      omega
    have hlow : UInt16.ofNat (k+1) < t.found := by
      rw [UInt16.lt_iff_toNat_lt,hnat]
      omega
    have hh := (h _).mp (h₃ _ hone hlow)
    omega
  · have hfull : k = 65535 := by
      have hh := (h 65535).mp (h₂ 65535 (by decide))
      simp at hh
      omega
    simp [h₁,hfull]

end RequestTable
end Pingu
end MiscUniStuff
