import Mathlib.Data.List.Nodup
import Mathlib.Tactic
import Std.Data.TreeMap.Lemmas

/-! `request_handler.c`: outstanding requests in a tree under 16-bit numbers. The
requests are blocks of memory and the tree holds their addresses, so that a request
whose entry is overwritten is still there but no longer found. -/
namespace MiscUniStuff
namespace Pingu

/-- The functions the program stores in the `timeout` field of a request. -/
inductive OnTimeout
  | requestOntimeout | downloadRequestTimeout
  deriving DecidableEq

/-- `struct _request`. `data` and `widget` are pointers, `none` while the caller has
not set them; `reqno` only ever holds a number that `request_start` returned. -/
structure Request where
  starttime : ℤ
  timeout : OnTimeout
  data : Option ℕ
  widget : Option ℕ
  active : Bool
  timedout : Bool
  reqno : UInt16
  deriving DecidableEq

def compareFunc (left right : UInt16) : Ordering :=
  if left < right then .lt else if left > right then .gt else .eq

theorem compareFunc_eq : compareFunc = compare := by
  funext a b
  have hh : a < b ∨ a = b ∨ b < a := by
    rcases Nat.lt_trichotomy a.toNat b.toNat with h | h | h
    · exact .inl h
    · exact .inr (.inl (UInt16.toNat_inj.mp h))
    · exact .inr (.inr h)
  rcases hh with h | rfl | h
  · simp [compareFunc,compare,compareOfLessAndEq,h]
  · simp [compareFunc,compare,compareOfLessAndEq]
  · have h₁ : ¬a < b := UInt16.not_lt.mpr (UInt16.le_of_lt h)
    have h₂ : a ≠ b := (UInt16.ne_of_lt h).symm
    simp [compareFunc,compare,compareOfLessAndEq,h,h₁,h₂]

instance : Std.TransCmp compareFunc := compareFunc_eq ▸ inferInstance

instance : Std.LawfulEqCmp compareFunc := compareFunc_eq ▸ inferInstance

theorem compareFunc_lt {a b : UInt16} : compareFunc a b = .lt ↔ a < b := by
  unfold compareFunc
  split_ifs <;> simp_all

theorem compareFunc_eq_iff {a b : UInt16} : compareFunc a b = .eq ↔ a = b :=
  Std.LawfulEqCmp.compare_eq_iff_eq

abbrev Tree := Std.TreeMap UInt16 ℕ compareFunc

/-- The tree and the memory of the requests: every entry points at a request that
carries the entry's number, and blocks from `next` on have not been handed out. -/
structure RequestTable where
  tree : Tree
  heap : ℕ → Option Request
  next : ℕ
  owned : ∀ n b, tree[n]? = some b → ∃ r, heap b = some r ∧ r.reqno = n
  fresh : ∀ b, next ≤ b → heap b = none

/-- `request_init`. -/
def requestInit : RequestTable where
  tree := ∅
  heap := fun _ => none
  next := 0
  owned := by simp
  fresh := fun _ _ => rfl

/-- Visit entries in order, until a call returns `TRUE`. -/
def visit {σ : Type} (func : UInt16 → ℕ → σ → Bool × σ) : List (UInt16 × ℕ) → σ → σ
  | [], s => s
  | (n,k)::l, s => if (func n k s).1 then (func n k s).2 else visit func l (func n k s).2

def gTreeForeach {σ : Type} (tree : Tree) (func : UInt16 → ℕ → σ → Bool × σ) (s : σ) : σ :=
  visit func tree.toList s

def findNextNumber (requestno : UInt16) (_ : ℕ) (curmax : UInt16) : Bool × UInt16 :=
  if curmax ≠ requestno then (true,curmax) else (false,requestno+1)

namespace RequestTable

/-- `request_get` (and `request_get_local`): the block under a number. -/
def requestGet (t : RequestTable) (reqno : UInt16) : Option ℕ := t.tree[reqno]?

/-- The block under a number together with what it holds. -/
def outstanding (t : RequestTable) (n : UInt16) : Option (ℕ × Request) :=
  (t.requestGet n).bind fun b => (t.heap b).map (b,·)

/-- Write to the request in block `b`; nothing happens when the block has been freed. -/
def modify (t : RequestTable) (b : ℕ) (f : Request → Request)
    (hf : ∀ r, (f r).reqno = r.reqno) : RequestTable where
  tree := t.tree
  heap := Function.update t.heap b ((t.heap b).map f)
  next := t.next
  owned := by
    intro n c hc
    obtain ⟨r,hr,hn⟩ := t.owned n c hc
    by_cases hb : c = b
    · subst hb
      exact ⟨f r,by simp [hr],(hf r).trans hn⟩
    · exact ⟨r,by simp [hb,hr],hn⟩
  fresh := by
    intro c hc
    by_cases hb : c = b
    · simp [hb,t.fresh b (hb ▸ hc)]
    · simp [hb,t.fresh c hc]

/-- The number `request_start` looks up: the first one from 1 on that the traversal
does not meet, counted in 16 bits. -/
def found (t : RequestTable) : UInt16 := gTreeForeach t.tree findNextNumber 1

/-- The fields `request_start` sets. -/
def started (now : ℤ) (found : UInt16) (k : Request) : Request :=
  { k with active := true, starttime := now+5, reqno := found, timedout := false }

/-- `request_start` on a structure `k` the caller has just allocated, as both callers
do; the clock reads `now`. -/
def requestStart (now : ℤ) (k : Request) (t : RequestTable) : RequestTable × UInt16 :=
  ({ tree := t.tree.insert t.found t.next
     heap := Function.update t.heap t.next (some (started now t.found k))
     next := t.next+1
     owned := by
      intro n b hb
      rw [Std.TreeMap.getElem?_insert] at hb
      split_ifs at hb with hn
      · simp only [Option.some.injEq] at hb
        exact ⟨started now t.found k,by simp [hb],compareFunc_eq_iff.mp hn⟩
      · obtain ⟨r,hr,hrn⟩ := t.owned n b hb
        have hne : b ≠ t.next := fun h => by simp [t.fresh b h.ge] at hr
        exact ⟨r,by simp [hne,hr],hrn⟩
     fresh := by
      intro b hb
      have hne : b ≠ t.next := by omega
      simp [hne,t.fresh b (by omega)] },t.found)

@[simp] theorem requestStart_snd (now : ℤ) (k : Request) (t : RequestTable) :
    (t.requestStart now k).2 = t.found := rfl

/-- `request_end`. -/
def requestEnd (req : UInt16) (t : RequestTable) : RequestTable :=
  match t.requestGet req with
  | some b => t.modify b (fun r => { r with active := false }) fun _ => rfl
  | none => t

end RequestTable

/-- A call of the function in `timeout`: `k->timeout(k->reqno, k)`. -/
structure TimeoutCall where
  timeout : OnTimeout
  reqno : UInt16
  request : ℕ
  deriving DecidableEq

namespace RequestTable

/-- First pass of the sweep: collect the requests that are past their deadline. -/
def requestDoTimeoutSingle (curt : ℤ) (heap : ℕ → Option Request) (_ : UInt16) (k : ℕ)
    (list : List ℕ) : Bool × List ℕ :=
  match heap k with
  | some r => (false,if curt > r.starttime then list ++ [k] else list)
  | none => (false,list)

/-- Take an inactive request out of the tree and free it. -/
def release (t : RequestTable) (k : ℕ) (r : Request) (hk : t.heap k = some r) : RequestTable where
  tree := t.tree.erase r.reqno
  heap := Function.update t.heap k none
  next := t.next
  owned := by
    intro n b hb
    rw [Std.TreeMap.getElem?_erase] at hb
    split_ifs at hb with hn
    obtain ⟨r',hr',hrn⟩ := t.owned n b hb
    have hne : b ≠ k := by
      rintro rfl
      rw [hk,Option.some.injEq] at hr'
      exact hn (compareFunc_eq_iff.mpr (hr' ▸ hrn))
    exact ⟨r',by simp [hne,hr'],hrn⟩
  fresh := by
    intro b hb
    by_cases hne : b = k
    · simp [hne]
    · simp [hne,t.fresh b hb]

/-- Second pass for one collected request. The last write goes to freed memory when
the request has been released; under the lock no later read sees it. -/
def requestDoTimeoutSingle2 (k : ℕ) (t : RequestTable) : RequestTable × List TimeoutCall :=
  match hk : t.heap k with
  | none => (t,[])
  | some r =>
    let calls := if r.active ∧ ¬r.timedout then [⟨r.timeout,r.reqno,k⟩] else []
    let t' := if r.active then t else t.release k r hk
    (t'.modify k (fun r => { r with timedout := true }) fun _ => rfl,calls)

/-- Go through the collected list. -/
def timeoutAll : List ℕ → RequestTable → RequestTable × List TimeoutCall
  | [], t => (t,[])
  | k::list, t =>
    let (t₁,calls) := requestDoTimeoutSingle2 k t
    let (t₂,rest) := timeoutAll list t₁
    (t₂,calls ++ rest)

/-- `request_do_timeout` at time `curt`. -/
def requestDoTimeout (curt : ℤ) (t : RequestTable) : RequestTable × List TimeoutCall :=
  timeoutAll (gTreeForeach t.tree (requestDoTimeoutSingle curt t.heap) []) t

end RequestTable

end Pingu
end MiscUniStuff
