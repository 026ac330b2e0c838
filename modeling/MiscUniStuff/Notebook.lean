import MiscUniStuff.FileSearch
import MiscUniStuff.Runs

/-! The tabs of `gui.c`. A search puts a box into the notebook and keeps a widget in its
request, by which the box is to be found again when the tab is closed. -/
namespace MiscUniStuff
namespace Pingu
open ByteOrder

/-- The widgets that are about the notebook: the page of the search entry, the view of
the servers, and for every search the box that is its page and the text of its tab. -/
inductive Widget
  | main
  | servers
  | box (tab : ℕ)
  | label (tab : ℕ)
  deriving DecidableEq

/-- `gtk_notebook_page_num`; `none` is -1. -/
def gtkNotebookPageNum (notebook : List Widget) (widget : Widget) : Option ℕ :=
  notebook.idxOf? widget

/-- `gtk_notebook_remove_page`, which takes -1 for the last page. -/
def gtkNotebookRemovePage (notebook : List Widget) : Option ℕ → List Widget
  | none => notebook.dropLast
  | some k => notebook.eraseIdx k

/-- `filename_search_begin`: the notebook with the new page, and the widget it returns,
`label_ret`. -/
def filenameSearchBegin (tab : ℕ) (notebook : List Widget) : List Widget × Widget :=
  (notebook ++ [.box tab],.label tab)

/-- `filename_search_close_freewidgets`. -/
def filenameSearchCloseFreewidgets (widget : Widget) (notebook : List Widget) : List Widget :=
  gtkNotebookRemovePage notebook (gtkNotebookPageNum notebook widget)

/-- The widget whose address a request holds: `searchfile` stores what
`filename_search_begin` has returned for its tab. -/
def Request.tabWidget (r : Request) : Option Widget :=
  r.widget.map fun tab => (filenameSearchBegin tab []).2

/-- How far `filesearch_unallocate_request` has got for a tab: it has not been called, it
has ended the request, or it has got the request's address. -/
inductive Closing
  | idle
  | ended
  | found (r : ℕ)

/-- The program with its notebook, and the number each close button hands on. -/
structure Gui where
  host : Host
  notebook : List Widget
  req : ℕ → UInt16
  closing : ℕ → Closing

def Gui.initial (o : Order) (database : List FileData) : Gui :=
  ⟨.initial o database,[.main,.servers],fun _ => 0,fun _ => .idle⟩

/-- What is noted at the end of a closing: the pages before and after its last step, or
that it reads a request that has been freed. -/
inductive TabEvent
  | closed (tab : ℕ) (before after : List Widget)
  | freed (tab : ℕ)
  deriving DecidableEq

/-- The user searches, a sweep comes, the close button of a tab is pressed, or a closing
goes on with its next step. -/
inductive TabOp
  | searchfile (calls : Calls) (search : CString)
  | requestDoTimeout (curt : ℤ)
  | requestEnd (tab : ℕ)
  | requestGet (tab : ℕ)
  | removePage (tab : ℕ)

namespace Gui

/-- `searchfile`; the number of the tab is that of its result list. -/
def searchfile (calls : Calls) (search : CString) (g : Gui) : Gui :=
  { g with
    host := (Pingu.searchfile calls search g.host).1
    notebook := (filenameSearchBegin g.host.nextModel g.notebook).1
    req := Function.update g.req g.host.nextModel g.host.requests.found }

def requestDoTimeout (curt : ℤ) (g : Gui) : Gui :=
  { g with host := { g.host with requests := (g.host.requests.requestDoTimeout curt).1 } }

/-- The first step of a closing, on a tab that is there. -/
def requestEnd (tab : ℕ) (g : Gui) : Gui :=
  match g.closing tab with
  | .idle =>
    if .box tab ∈ g.notebook then
      { g with
        host := { g.host with requests := g.host.requests.requestEnd (g.req tab) }
        closing := Function.update g.closing tab .ended }
    else g
  | _ => g

/-- The second step; without a request the function returns. -/
def requestGet (tab : ℕ) (g : Gui) : Gui × List TabEvent :=
  match g.closing tab with
  | .ended =>
    match g.host.requests.requestGet (g.req tab) with
    | some r => ({ g with closing := Function.update g.closing tab (.found r) },[])
    | none => ({ g with closing := Function.update g.closing tab .idle },
        [.closed tab g.notebook g.notebook])
  | _ => (g,[])

/-- The last step. The program stops if it reads freed memory. -/
def removePage (tab : ℕ) (g : Gui) : Option Gui × List TabEvent :=
  match g.closing tab with
  | .found r =>
    match (g.host.requests.heap r).bind Request.tabWidget with
    | some widget =>
      let notebook := filenameSearchCloseFreewidgets widget g.notebook
      (some { g with notebook := notebook, closing := Function.update g.closing tab .idle },
        [.closed tab g.notebook notebook])
    | none => (none,[.freed tab])
  | _ => (some g,[])

end Gui

def TabOp.step : TabOp → Option Gui → Option Gui × List TabEvent
  | _, none => (none,[])
  | .searchfile calls search, some g => (some (g.searchfile calls search),[])
  | .requestDoTimeout curt, some g => (some (g.requestDoTimeout curt),[])
  | .requestEnd tab, some g => (some (g.requestEnd tab),[])
  | .requestGet tab, some g => ((g.requestGet tab).1,(g.requestGet tab).2)
  | .removePage tab, some g => g.removePage tab

/-- The program and the notes after a list of operations. -/
def tabRun (o : Order) (database : List FileData) (ops : List TabOp) :
    Option Gui × List TabEvent :=
  Runs.run TabOp.step (some (.initial o database)) ops

/-- The closing of a tab removes the page of its search, and no other. -/
def TabEvent.Own : TabEvent → Prop
  | .closed tab before after => .box tab ∈ before ∧ after = before.erase (.box tab)
  | .freed _ => False

/-- The step does not spoil a closing: when the request is asked for, it is still in the
table; when the page is removed, the request has not been freed and the page is the last
one. -/
def TabOp.Tidy (g : Gui) : TabOp → Prop
  | .requestGet tab => g.closing tab = .ended →
      g.host.requests.requestGet (g.req tab) ≠ none
  | .removePage tab => ∀ r, g.closing tab = .found r →
      g.host.requests.heap r ≠ none ∧ g.notebook.getLast? = some (.box tab)
  | _ => True

/-! ### Requests that are still in memory -/

namespace RequestTable
variable {t : RequestTable} {P : Request → Prop}

/-- Every request that has not been freed has the property, in the tree or not. -/
def All (P : Request → Prop) (t : RequestTable) : Prop := ∀ b r, t.heap b = some r → P r

theorem All.modify {k : ℕ} {f : Request → Request} (h : t.All P)
    (hf : ∀ r, (f r).reqno = r.reqno) (hP : ∀ r, P r → P (f r)) : (t.modify k f hf).All P := by
  intro b r hr
  by_cases hb : b = k
  · subst b
    simp only [RequestTable.modify,Function.update_self,Option.map_eq_some_iff] at hr
    obtain ⟨r₀,hr₀,rfl⟩ := hr
    exact hP r₀ (h k r₀ hr₀)
  · simp only [RequestTable.modify,Function.update_of_ne hb] at hr
    exact h b r hr

theorem All.requestEnd (h : t.All P) (hP : ∀ r, P r → P { r with active := false })
    (req : UInt16) : (t.requestEnd req).All P := by
  unfold RequestTable.requestEnd
  cases t.requestGet req with
  | none => exact h
  | some b => exact h.modify _ hP

theorem All.release {k : ℕ} {r : Request} {hk : t.heap k = some r} (h : t.All P) :
    (t.release k r hk).All P := by
  intro b r' hr
  by_cases hb : b = k
  · simp [RequestTable.release,hb] at hr
  · simp only [RequestTable.release,Function.update_of_ne hb] at hr
    exact h b r' hr

section Sweep
variable (hP : ∀ r, P r → P { r with timedout := true })
include hP

theorem All.requestDoTimeoutSingle2 (h : t.All P) (k : ℕ) :
    (t.requestDoTimeoutSingle2 k).1.All P := by
  unfold RequestTable.requestDoTimeoutSingle2
  split
  · exact h
  · rename_i r hk
    have hkept : (if r.active then t else t.release k r hk).All P := by
      split_ifs
      · exact h
      · exact h.release
    apply hkept.modify
    · exact fun _ => rfl
    · exact hP

theorem All.timeoutAll (h : t.All P) (list : List ℕ) : (timeoutAll list t).1.All P := by
  induction list generalizing t with
  | nil => exact h
  | cons k list ih => exact ih (h.requestDoTimeoutSingle2 hP k)

theorem All.requestDoTimeout (h : t.All P) (curt : ℤ) : (t.requestDoTimeout curt).1.All P :=
  h.timeoutAll hP _

end Sweep

end RequestTable

/-! ### What every run keeps -/

/-- The widgets that can be pages when so many tabs have been made. -/
def Widget.Page (next : ℕ) : Widget → Prop
  | .main | .servers => True
  | .box tab => tab < next
  | .label _ => False

namespace Gui

/-- The pages are distinct and none is the text of a tab, and every request has got the
widget of its tab. -/
structure Kept (g : Gui) : Prop where
  pages : ∀ w ∈ g.notebook, w.Page g.host.nextModel
  nodup : g.notebook.Nodup
  widgets : g.host.requests.All fun r => r.widget.isSome

variable {g : Gui}

theorem kept_initial (o : Order) (database : List FileData) : (Gui.initial o database).Kept where
  pages := by simp [Gui.initial,Widget.Page]
  nodup := by simp [Gui.initial]
  widgets := by
    intro b r hr
    simp [Gui.initial,Host.initial,requestInit] at hr

theorem kept_searchfile (h : g.Kept) (calls : Calls) (search : CString) :
    (g.searchfile calls search).Kept where
  pages := by
    intro w hw
    simp only [Gui.searchfile,filenameSearchBegin,List.mem_append,List.mem_singleton] at hw
    obtain hw | rfl := hw
    · have hpage := h.pages w hw
      cases w with
      | box tab => exact hpage.trans (Nat.lt_succ_self _)
      | _ => exact hpage
    · exact Nat.lt_succ_self _
  nodup := by
    refine List.nodup_append.mpr ⟨h.nodup,List.nodup_singleton _,?_⟩
    intro w hw w' hw' heq
    have hpage := h.pages w hw
    rw [heq,List.mem_singleton.mp hw'] at hpage
    exact lt_irrefl _ hpage
  widgets := by
    intro b r hr
    simp only [Gui.searchfile,Pingu.searchfile,RequestTable.modify,RequestTable.requestStart,
      Function.update_self] at hr
    by_cases hb : b = g.host.requests.next
    · simp only [hb,Function.update_self,Option.map_some,Option.some.injEq] at hr
      simp [← hr]
    · simp only [Function.update_of_ne hb] at hr
      exact h.widgets b r hr

theorem kept_requestDoTimeout (h : g.Kept) (curt : ℤ) : (g.requestDoTimeout curt).Kept :=
  ⟨h.pages,h.nodup,h.widgets.requestDoTimeout (fun _ => id) curt⟩

theorem kept_requestEnd (h : g.Kept) (tab : ℕ) : (g.requestEnd tab).Kept := by
  unfold Gui.requestEnd
  split
  · split_ifs
    · exact ⟨h.pages,h.nodup,h.widgets.requestEnd (fun _ => id) (g.req tab)⟩
    · exact h
  · exact h

theorem kept_requestGet (h : g.Kept) (tab : ℕ) : (g.requestGet tab).1.Kept := by
  unfold Gui.requestGet
  split
  · split <;> exact ⟨h.pages,h.nodup,h.widgets⟩
  · exact h

/-- No request holds a page, so the last one is removed. -/
theorem close_label (h : g.Kept) (tab : ℕ) :
    filenameSearchCloseFreewidgets (.label tab) g.notebook = g.notebook.dropLast := by
  have hnone : g.notebook.idxOf? (.label tab) = none := by
    rw [List.idxOf?_eq_none_iff]
    intro hmem
    exact h.pages _ hmem
  rw [filenameSearchCloseFreewidgets,gtkNotebookPageNum,hnone]
  rfl

theorem kept_removePage (h : g.Kept) (tab : ℕ) {g' : Gui} (hg : (g.removePage tab).1 = some g') :
    g'.Kept := by
  unfold Gui.removePage at hg
  split at hg
  · rename_i r hr
    cases hheap : g.host.requests.heap r with
    | none => simp [hheap] at hg
    | some rq =>
      obtain ⟨tab',hw⟩ := Option.isSome_iff_exists.mp (h.widgets r rq hheap)
      simp only [hheap,Option.bind_some,Request.tabWidget,hw,Option.map_some,filenameSearchBegin,
        close_label h,Option.some.injEq] at hg
      subst hg
      exact ⟨fun w hw => h.pages w (List.mem_of_mem_dropLast hw),
        h.nodup.sublist (List.dropLast_sublist _),h.widgets⟩
  · cases hg
    exact h

end Gui

theorem TabOp.kept_step {op : TabOp} {g g' : Gui} (h : g.Kept) (hg : (op.step (some g)).1 = some g') :
    g'.Kept := by
  cases op with
  | searchfile calls search =>
    cases hg
    exact Gui.kept_searchfile h calls search
  | requestDoTimeout curt =>
    cases hg
    exact Gui.kept_requestDoTimeout h curt
  | requestEnd tab =>
    cases hg
    exact Gui.kept_requestEnd h tab
  | requestGet tab =>
    cases hg
    exact Gui.kept_requestGet h tab
  | removePage tab => exact Gui.kept_removePage h tab hg

section Run
variable {o : Order} {database : List FileData}

theorem tabRun_snoc (ops : List TabOp) (op : TabOp) : tabRun o database (ops ++ [op]) =
    ((op.step (tabRun o database ops).1).1,
      (tabRun o database ops).2 ++ (op.step (tabRun o database ops).1).2) :=
  Runs.run_snoc _ _ _ _

theorem kept_run (ops : List TabOp) {g : Gui} (hg : (tabRun o database ops).1 = some g) :
    g.Kept := by
  induction ops using List.reverseRecOn generalizing g with
  | nil =>
    cases hg
    exact Gui.kept_initial o database
  | append_singleton ops op ih =>
    rw [tabRun_snoc] at hg
    cases hbefore : (tabRun o database ops).1 with
    | none => simp [hbefore,TabOp.step] at hg
    | some g₀ =>
      rw [hbefore] at hg
      exact TabOp.kept_step (ih hbefore) hg

end Run

/-! ### The page that is removed -/

/-- The last page is the one that is meant exactly when it is the last. -/
theorem dropLast_eq_erase_iff {α : Type} [DecidableEq α] {l : List α} {a : α} (h : l.Nodup) :
    a ∈ l ∧ l.dropLast = l.erase a ↔ l.getLast? = some a := by
  cases l using List.reverseRecOn with
  | nil => simp
  | append_singleton l x =>
    have hx : x ∉ l := by simpa using List.disjoint_of_nodup_append h
    rw [List.dropLast_concat,List.getLast?_concat,Option.some.injEq]
    constructor
    · intro ⟨hmem,heq⟩
      by_cases ha : a ∈ l
      · rw [List.erase_append_left _ ha] at heq
        have hmem : x ∈ l := by
          rw [heq]
          simp
        exact absurd hmem hx
      · simpa [ha,eq_comm] using hmem
    · intro ha
      subst ha
      simp [List.erase_append_right _ hx]

theorem Gui.own_requestGet {g : Gui} (tab : ℕ) :
    (∀ e ∈ (g.requestGet tab).2, e.Own) ↔ (TabOp.requestGet tab).Tidy g := by
  simp only [Gui.requestGet,TabOp.Tidy]
  cases g.closing tab with
  | ended =>
    cases g.host.requests.requestGet (g.req tab) with
    | none =>
      -- the function returns, and the page stays
      simp only [TabEvent.Own,List.mem_singleton,forall_eq,forall_const,ne_eq,
        not_true_eq_false,iff_false,not_and]
      intro hmem heq
      have hlen := List.length_erase_of_mem hmem
      have hpos := List.length_pos_of_mem hmem
      rw [← heq] at hlen
      omega
    | some r => simp
  | _ => simp

theorem Gui.own_removePage {g : Gui} (h : g.Kept) (tab : ℕ) :
    (∀ e ∈ (g.removePage tab).2, e.Own) ↔ (TabOp.removePage tab).Tidy g := by
  simp only [Gui.removePage,TabOp.Tidy]
  cases g.closing tab with
  | found r =>
    cases hheap : g.host.requests.heap r with
    | none => simp [TabEvent.Own,hheap]
    | some rq =>
      obtain ⟨tab',hw⟩ := Option.isSome_iff_exists.mp (h.widgets r rq hheap)
      simp [TabEvent.Own,Request.tabWidget,hw,filenameSearchBegin,hheap,Gui.close_label h,
        dropLast_eq_erase_iff h.nodup]
  | _ => simp

theorem TabOp.own_step_iff {g : Gui} (h : g.Kept) (op : TabOp) :
    (∀ e ∈ (op.step (some g)).2, e.Own) ↔ op.Tidy g := by
  cases op with
  | requestGet tab => exact Gui.own_requestGet tab
  | removePage tab => exact Gui.own_removePage h tab
  | _ => simp [TabOp.step,TabOp.Tidy]

/-- In every run each closing removes the page of its own search and no other, if and only
if every step is tidy. -/
theorem close_own_iff (o : Order) (database : List FileData) (ops : List TabOp) :
    (∀ e ∈ (tabRun o database ops).2, e.Own) ↔
      ∀ before op g, before ++ [op] <+: ops → (tabRun o database before).1 = some g →
        op.Tidy g := by
  rw [tabRun,Runs.forall_events_iff]
  have hstep (before : List TabOp) (op : TabOp) :
      (∀ e ∈ (op.step (tabRun o database before).1).2, e.Own) ↔
        ∀ g, (tabRun o database before).1 = some g → op.Tidy g := by
    cases hg : (tabRun o database before).1 with
    | none => simp [TabOp.step]
    | some g => simpa using TabOp.own_step_iff (kept_run before hg) op
  constructor
  · intro hall before op g hpre
    exact (hstep before op).mp (hall before op hpre) g
  · intro hall before op hpre
    exact (hstep before op).mpr fun g => hall before op g hpre

/-- Two searches, and the tab of the first is closed. -/
theorem close_other : ¬∀ o database ops, ∀ e ∈ (tabRun o database ops).2, e.Own := by
  intro h
  have hown := h .little [] [.searchfile noCalls (cstring [97]),.searchfile noCalls (cstring [98]),
    .requestEnd 0,.requestGet 0,.removePage 0]
    (.closed 0 [.main,.servers,.box 0,.box 1] [.main,.servers,.box 0]) (by decide +kernel)
  have herase := hown.2
  revert herase
  decide

end Pingu
end MiscUniStuff
