import MiscUniStuff.Locks
import MiscUniStuff.Download
import MiscUniStuff.FileSearch
import MiscUniStuff.RequestRuns

/-! The two locks of the program: that of `request_handler.c` and that of GDK. The callbacks
of the user interface take the first while they hold the second; a sweep that has to tell
the user of a timeout takes them the other way round. -/
namespace MiscUniStuff
namespace Pingu
open Locks

/-- The lock of GDK, and `request_start`. -/
inductive Lock
  | gdk
  | requestStart
  deriving DecidableEq

/-- The thread of `gtk_main`, and the one that scans the directory and then calls
`request_do_timeout`. -/
inductive Thread
  | gui
  | directory
  deriving DecidableEq

/-- A stretch of code under the lock `request_start`. -/
inductive Section
  | requestStart (now : ℤ) (k : Request)
  | requestEnd (req : UInt16)
  | requestGet (req : UInt16)

def Section.perform : Section → RequestTable → RequestTable
  | .requestStart now k, t => (t.requestStart now k).1
  | .requestEnd req, t => t.requestEnd req
  | .requestGet _, t => t

/-- The signal callbacks: `clicked_on_search`, `clicked_filesearch_download`, which does
nothing when no file is selected, and `filename_search_close`. -/
inductive Callback
  | search (now : ℤ)
  | download (now : ℤ) (selected : Bool)
  | close (req : UInt16)

/-- What a callback does under the lock, one after the other. -/
def Callback.sections : Callback → List Section
  | .search now => [.requestStart now (searchRequest now)]
  | .download now selected => if selected then [.requestStart now downloadRequest] else []
  | .close req => [.requestEnd req,.requestGet req]

/-- Outside of callbacks, in one with so many sections to come, or within a section. -/
inductive GuiThread
  | idle
  | callback (todo : List Section)
  | locked (s : Section) (todo : List Section)

/-- Not in `request_do_timeout`, in its second pass with the requests that are left, at
`gdk_threads_enter` for one of them, or past it. -/
inductive DirectoryThread
  | idle
  | sweeping (list : List ℕ)
  | entering (k : ℕ) (list : List ℕ)
  | entered (k : ℕ) (list : List ℕ)

structure System where
  owner : Owners Lock Thread
  requests : RequestTable
  gui : GuiThread
  directory : DirectoryThread

/-- A callback is due, or one of the threads goes on, if it can; the sweep reads the clock
when it starts. -/
inductive SystemOp
  | click (c : Callback)
  | gui
  | directory (curt : ℤ)

namespace System

def initial : System := ⟨fun _ => none,requestInit,.idle,.idle⟩

/-- The request's timeout function is called, and it is the one of a search. -/
def CallsGui (t : RequestTable) (k : ℕ) : Prop :=
  (t.requestDoTimeoutSingle2 k).2.any fun c => c.timeout = .requestOntimeout

instance (t : RequestTable) (k : ℕ) : Decidable (CallsGui t k) :=
  inferInstanceAs (Decidable (_ = true))

/-- GTK calls a callback with the lock of GDK held. -/
def click (c : Callback) (s : System) : System :=
  match s.gui with
  | .idle =>
    if s.owner .gdk = none then
      { s with owner := acquire .gdk .gui s.owner, gui := .callback c.sections }
    else s
  | _ => s

def guiStep (s : System) : System :=
  match s.gui with
  | .idle => s
  | .callback [] => { s with owner := release .gdk s.owner, gui := .idle }
  | .callback (x::todo) =>
    if s.owner .requestStart = none then
      { s with owner := acquire .requestStart .gui s.owner, gui := .locked x todo }
    else s
  | .locked x todo =>
    { s with
      owner := release .requestStart s.owner
      requests := x.perform s.requests
      gui := .callback todo }

/-- `request_do_timeout`, with the calls of `gui_set_searchtimeout` on the way. -/
def directoryStep (curt : ℤ) (s : System) : System :=
  match s.directory with
  | .idle =>
    if s.owner .requestStart = none then
      { s with
        owner := acquire .requestStart .directory s.owner
        directory := .sweeping (gTreeForeach s.requests.tree
          (RequestTable.requestDoTimeoutSingle curt s.requests.heap) []) }
    else s
  | .sweeping [] => { s with owner := release .requestStart s.owner, directory := .idle }
  | .sweeping (k::list) =>
    if CallsGui s.requests k then { s with directory := .entering k list }
    else
      { s with
        requests := (s.requests.requestDoTimeoutSingle2 k).1
        directory := .sweeping list }
  | .entering k list =>
    if s.owner .gdk = none then
      { s with owner := acquire .gdk .directory s.owner, directory := .entered k list }
    else s
  | .entered k list =>
    { s with
      owner := release .gdk s.owner
      requests := (s.requests.requestDoTimeoutSingle2 k).1
      directory := .sweeping list }

/-- The locks a thread holds where it is. -/
def Holds (s : System) : Thread → Lock → Prop
  | .gui, .gdk => s.gui ≠ .idle
  | .gui, .requestStart => ∃ x todo, s.gui = .locked x todo
  | .directory, .gdk => ∃ k list, s.directory = .entered k list
  | .directory, .requestStart => s.directory ≠ .idle

/-- The lock that a thread which holds one is about to take. -/
def wants (s : System) : Thread → Option Lock
  | .gui =>
    match s.gui with
    | .callback (_::_) => some .requestStart
    | _ => none
  | .directory =>
    match s.directory with
    | .entering _ _ => some .gdk
    | _ => none

/-- One thread holds `request_start` and waits for GDK, the other way round the other. -/
def Deadlocked (s : System) : Prop := Crossed s.owner s.wants .requestStart .gdk

end System

def SystemOp.step : SystemOp → System → System
  | .click c, s => s.click c
  | .gui, s => s.guiStep
  | .directory curt, s => s.directoryStep curt

/-- The system after a list of operations. -/
def systemRun (ops : List SystemOp) : System := ops.foldl (fun s o => o.step s) .initial

@[simp] theorem systemRun_snoc (ops : List SystemOp) (o : SystemOp) :
    systemRun (ops ++ [o]) = o.step (systemRun ops) := by
  simp [systemRun]

/-- The operation makes the threads cross: a callback that needs `request_start` starts while
the sweep waits for GDK, or the sweep comes to a search that has timed out while a callback
still needs `request_start`. -/
def SystemOp.Crosses (s : System) : SystemOp → Prop
  | .click c => s.gui = .idle ∧ s.owner .gdk = none ∧ c.sections ≠ [] ∧
      ∃ k list, s.directory = .entering k list
  | .gui => False
  | .directory _ => (∃ x todo, s.gui = .callback (x::todo)) ∧
      ∃ k list, s.directory = .sweeping (k::list) ∧ System.CallsGui s.requests k

namespace System
variable {s : System}

/-! ### The locks -/

theorem agree_initial : Agree initial.owner initial.Holds := by
  intro t l
  cases t <;> cases l <;> simp [initial,Holds]

theorem agree_click (h : Agree s.owner s.Holds) (c : Callback) :
    Agree (s.click c).owner (s.click c).Holds := by
  unfold click
  split
  · rename_i hidle
    split_ifs with hfree
    · apply h.acquire hfree
      intro u m
      cases u <;> cases m <;> simp [Holds,hidle]
    · exact h
  · exact h

theorem agree_guiStep (h : Agree s.owner s.Holds) : Agree s.guiStep.owner s.guiStep.Holds := by
  unfold guiStep
  split
  · exact h
  · rename_i hgui
    apply h.release (t:=.gui) (by simp [Holds,hgui])
    intro u m
    cases u <;> cases m <;> simp [Holds,hgui]
  · rename_i hgui
    split_ifs with hfree
    · apply h.acquire hfree
      intro u m
      cases u <;> cases m <;> simp [Holds,hgui]
    · exact h
  · rename_i hgui
    apply h.release (t:=.gui) (by simp [Holds,hgui])
    intro u m
    cases u <;> cases m <;> simp [Holds,hgui]

theorem agree_directoryStep (h : Agree s.owner s.Holds) (curt : ℤ) :
    Agree (s.directoryStep curt).owner (s.directoryStep curt).Holds := by
  unfold directoryStep
  split
  · rename_i hdir
    split_ifs with hfree
    · apply h.acquire hfree
      intro u m
      cases u <;> cases m <;> simp [Holds,hdir]
    · exact h
  · rename_i hdir
    apply h.release (t:=.directory) (by simp [Holds,hdir])
    intro u m
    cases u <;> cases m <;> simp [Holds,hdir]
  · rename_i hdir
    split_ifs
    all_goals
      apply h.congr
      intro u m
      cases u <;> cases m <;> simp [Holds,hdir]
  · rename_i hdir
    split_ifs with hfree
    · apply h.acquire hfree
      intro u m
      cases u <;> cases m <;> simp [Holds,hdir]
    · exact h
  · rename_i hdir
    apply h.release (t:=.directory) (by simp [Holds,hdir])
    intro u m
    cases u <;> cases m <;> simp [Holds,hdir]

theorem agree_step (h : Agree s.owner s.Holds) (o : SystemOp) :
    Agree (o.step s).owner (o.step s).Holds := by
  cases o with
  | click c => exact agree_click h c
  | gui => exact agree_guiStep h
  | directory curt => exact agree_directoryStep h curt

theorem agree_run (ops : List SystemOp) : Agree (systemRun ops).owner (systemRun ops).Holds := by
  induction ops using List.reverseRecOn with
  | nil => exact agree_initial
  | append_singleton ops o ih =>
    rw [systemRun_snoc]
    exact agree_step ih o

/-- While a callback is in a section no sweep is under way. -/
theorem idle_of_locked {x : Section} {todo : List Section} (h : Agree s.owner s.Holds)
    (hgui : s.gui = .locked x todo) : s.directory = .idle := by
  have hcallback : s.Holds .gui .requestStart := ⟨x,todo,hgui⟩
  by_contra hdir
  have hsweep : s.Holds .directory .requestStart := hdir
  cases h.unique hcallback hsweep

/-! ### The table -/

/-- The table as it will be when the sweep that is under way has ended. -/
def pending (s : System) : RequestTable :=
  match s.directory with
  | .idle => s.requests
  | .sweeping list => (RequestTable.timeoutAll list s.requests).1
  | .entering k list => (RequestTable.timeoutAll (k::list) s.requests).1
  | .entered k list => (RequestTable.timeoutAll (k::list) s.requests).1

theorem pending_click (c : Callback) : (s.click c).pending = s.pending := by
  unfold click
  split
  · split_ifs <;> rfl
  · rfl

theorem pending_guiStep (h : Agree s.owner s.Holds) : s.guiStep.pending = s.pending ∨
    ∃ o : RequestOp, s.guiStep.pending = (o.step s.pending).1 := by
  unfold guiStep
  split
  · exact .inl rfl
  · exact .inl rfl
  · split_ifs <;> exact .inl rfl
  · rename_i x todo hgui
    have hdir := idle_of_locked h hgui
    cases x with
    | requestStart now k =>
      right
      exact ⟨.requestStart now k,by simp [pending,hdir,Section.perform,RequestOp.step]⟩
    | requestEnd req =>
      right
      exact ⟨.requestEnd req,by simp [pending,hdir,Section.perform,RequestOp.step]⟩
    | requestGet req => exact .inl rfl

theorem pending_directoryStep (curt : ℤ) : (s.directoryStep curt).pending = s.pending ∨
    (s.directoryStep curt).pending = ((RequestOp.requestDoTimeout curt).step s.pending).1 := by
  cases hdir : s.directory with
  | idle =>
    by_cases hfree : s.owner .requestStart = none
    · right
      simp [directoryStep,hdir,hfree,pending,RequestOp.step,RequestTable.requestDoTimeout]
    · left
      simp [directoryStep,hdir,hfree]
  | sweeping list =>
    left
    cases list with
    | nil => simp [directoryStep,hdir,pending,RequestTable.timeoutAll]
    | cons k list =>
      by_cases hcalls : CallsGui s.requests k <;>
        simp [directoryStep,hdir,hcalls,pending,RequestTable.timeoutAll]
  | entering k list =>
    left
    by_cases hfree : s.owner .gdk = none <;> simp [directoryStep,hdir,hfree,pending]
  | entered k list =>
    left
    simp [directoryStep,hdir,pending,RequestTable.timeoutAll]

/-- Whatever the threads do, the table goes through the states of a run in which every call
and every sweep happens at one moment. -/
theorem pending_serial (ops : List SystemOp) :
    ∃ calls : List RequestOp, (systemRun ops).pending = RequestOp.after calls := by
  induction ops using List.reverseRecOn with
  | nil => exact ⟨[],rfl⟩
  | append_singleton ops o ih =>
    obtain ⟨calls,hcalls⟩ := ih
    have hstep : (o.step (systemRun ops)).pending = (systemRun ops).pending ∨
        ∃ call : RequestOp, (o.step (systemRun ops)).pending =
          (call.step (systemRun ops).pending).1 := by
      cases o with
      | click c => exact .inl (pending_click c)
      | gui => exact pending_guiStep (agree_run ops)
      | directory curt => exact (pending_directoryStep curt).imp id fun hh => ⟨_,hh⟩
    rw [systemRun_snoc]
    obtain hsame | ⟨call,hcall⟩ := hstep
    · exact ⟨calls,hsame.trans hcalls⟩
    · refine ⟨calls ++ [call],?_⟩
      rw [RequestOp.after_snoc,hcall,hcalls]

/-! ### Where the threads cross -/

theorem wants_requestStart {t : Thread} : s.wants t = some .requestStart ↔
    t = .gui ∧ ∃ x todo, s.gui = .callback (x::todo) := by
  cases t <;> simp only [wants] <;> split <;> simp_all

theorem wants_gdk {t : Thread} : s.wants t = some .gdk ↔
    t = .directory ∧ ∃ k list, s.directory = .entering k list := by
  cases t <;> simp only [wants] <;> split <;> simp_all

/-- A callback still needs `request_start` while the sweep waits for GDK. -/
theorem deadlocked_iff (h : Agree s.owner s.Holds) : s.Deadlocked ↔
    (∃ x todo, s.gui = .callback (x::todo)) ∧ ∃ k list, s.directory = .entering k list := by
  constructor
  · intro ⟨a,b,_,ha,_,hb⟩
    exact ⟨(wants_requestStart.mp hb).2,(wants_gdk.mp ha).2⟩
  · intro ⟨hgui,hdir⟩
    refine ⟨.directory,.gui,?_,wants_gdk.mpr ⟨rfl,hdir⟩,?_,wants_requestStart.mpr ⟨rfl,hgui⟩⟩
    · obtain ⟨k,list,hdir⟩ := hdir
      rw [h]
      simp [Holds,hdir]
    · obtain ⟨x,todo,hgui⟩ := hgui
      rw [h]
      simp [Holds,hgui]

/-- Threads that have crossed stay where they are for ever. -/
theorem deadlocked_step (hs : s.Deadlocked) (o : SystemOp) : o.step s = s := by
  obtain ⟨a,b,hstart,ha,hgdk,hb⟩ := hs
  obtain ⟨-,k,list,hdir⟩ := wants_gdk.mp ha
  obtain ⟨-,x,todo,hgui⟩ := wants_requestStart.mp hb
  cases o with
  | click c => simp [SystemOp.step,click,hgui]
  | gui => simp [SystemOp.step,guiStep,hgui,hstart]
  | directory curt => simp [SystemOp.step,directoryStep,hdir,hgdk]

theorem deadlocked_click (h : Agree s.owner s.Holds) (hs : ¬s.Deadlocked) (c : Callback) :
    (s.click c).Deadlocked ↔ (SystemOp.click c).Crosses s := by
  rw [deadlocked_iff (agree_click h c)]
  rw [deadlocked_iff h] at hs
  by_cases hidle : s.gui = .idle
  · by_cases hfree : s.owner .gdk = none
    · simp only [click,hidle,hfree,if_true,SystemOp.Crosses,GuiThread.callback.injEq,true_and,
        List.ne_nil_iff_exists_cons]
    · simp [click,hidle,hfree,SystemOp.Crosses]
  · have hsame : s.click c = s := by
      unfold click
      split
      · exact absurd ‹_› hidle
      · rfl
    simp [hsame,hs,SystemOp.Crosses,hidle]

theorem deadlocked_guiStep (h : Agree s.owner s.Holds) (hs : ¬s.Deadlocked) :
    ¬s.guiStep.Deadlocked := by
  rw [deadlocked_iff (agree_guiStep h)]
  rw [deadlocked_iff h] at hs
  unfold guiStep
  split
  · exact hs
  · simp
  · split_ifs
    · simp
    · exact hs
  · -- the sweep is not inside, the callback holds the lock
    rename_i x todo hgui
    have hdir := idle_of_locked h hgui
    simp [hdir]

theorem deadlocked_directoryStep (h : Agree s.owner s.Holds) (hs : ¬s.Deadlocked) (curt : ℤ) :
    (s.directoryStep curt).Deadlocked ↔ (SystemOp.directory curt).Crosses s := by
  rw [deadlocked_iff (agree_directoryStep h curt)]
  rw [deadlocked_iff h] at hs
  cases hdir : s.directory with
  | idle =>
    by_cases hfree : s.owner .requestStart = none <;>
      simp [directoryStep,hdir,hfree,SystemOp.Crosses]
  | sweeping list =>
    cases list with
    | nil => simp [directoryStep,hdir,SystemOp.Crosses]
    | cons k list =>
      by_cases hcalls : CallsGui s.requests k
      · simp [directoryStep,hdir,hcalls,SystemOp.Crosses]
      · simp [directoryStep,hdir,hcalls,SystemOp.Crosses]
  | entering k list =>
    by_cases hfree : s.owner .gdk = none
    · simp [directoryStep,hdir,hfree,SystemOp.Crosses]
    · simp [directoryStep,hdir,hfree,SystemOp.Crosses] at hs ⊢
      exact hs
  | entered k list => simp [directoryStep,hdir,SystemOp.Crosses]

theorem deadlocked_step_iff (h : Agree s.owner s.Holds) (hs : ¬s.Deadlocked) (o : SystemOp) :
    (o.step s).Deadlocked ↔ o.Crosses s := by
  cases o with
  | click c => exact deadlocked_click h hs c
  | gui =>
    simp only [SystemOp.Crosses,iff_false]
    exact deadlocked_guiStep h hs
  | directory curt => exact deadlocked_directoryStep h hs curt

end System

/-- In every run the threads never cross, if and only if no operation makes them. -/
theorem no_deadlock_iff (ops : List SystemOp) :
    (∀ before, before <+: ops → ¬(systemRun before).Deadlocked) ↔
      ∀ before o, before ++ [o] <+: ops → ¬o.Crosses (systemRun before) := by
  apply Runs.prefixes_iff (P:=fun ops => ¬(systemRun ops).Deadlocked)
    (C:=fun before o => ¬o.Crosses (systemRun before))
  · rw [System.deadlocked_iff (System.agree_run [])]
    simp [systemRun,System.initial]
  · intro before o hbefore
    rw [systemRun_snoc,System.deadlocked_step_iff (System.agree_run before) hbefore o]

/-- A search times out while the user starts the next one. -/
theorem deadlock_reached : ¬∀ ops, ¬(systemRun ops).Deadlocked := by
  intro h
  apply h [.click (.search 0),.gui,.gui,.gui,.directory 6,.click (.search 6),.directory 6]
  exact ⟨.directory,.gui,by decide +kernel,by decide +kernel,by decide +kernel,by decide +kernel⟩

end Pingu
end MiscUniStuff
