import MiscUniStuff.FileSearch
import MiscUniStuff.Pingers
import MiscUniStuff.Runs

/-! `model_gslist.c`: the list behind a view, and the signals that are to keep the view in
step with it. -/
namespace MiscUniStuff
namespace Pingu

section Model
variable {α : Type} [DecidableEq α]

/-- A signal of `GtkTreeModel`: the path is one index, the iter stands for the record of the
node it points to. -/
inductive RowSignal (α : Type)
  | inserted (path : ℤ) (iter : Option α)
  | deleted (path : ℤ)
  deriving DecidableEq

/-- `struct _ModelGslist`, as far as its rows go. -/
structure ModelGslist (α : Type) where
  list : List α
  deriving DecidableEq

/-- `model_gslist_new`. -/
def modelGslistNew : ModelGslist α := ⟨[]⟩

/-- `g_slist_index`. -/
def gSlistIndex (list : List α) (item : α) : ℤ := if item ∈ list then list.idxOf item else -1

/-- `model_gslist_get_iter`. -/
def modelGslistGetIter (model : ModelGslist α) (n : ℤ) : Option α :=
  if n ≥ model.list.length ∨ n < 0 then none else model.list[n.toNat]?

/-- `model_gslist_delete_record`. -/
def modelGslistDeleteRecord (model : ModelGslist α) (item : α) :
    ModelGslist α × List (RowSignal α) :=
  let pos := gSlistIndex model.list item
  ({ list := model.list.erase item },[.deleted pos])

/-- `model_gslist_new_record`: the model takes the new list, and the signal is always about
its first row. -/
def modelGslistNewRecord (_model : ModelGslist α) (list : List α) :
    ModelGslist α × List (RowSignal α) :=
  let model : ModelGslist α := { list := list }
  (model,[.inserted 0 (modelGslistGetIter model 0)])

/-- The two ways the program changes a list. -/
inductive ListOp (α : Type)
  | append (record : α)
  | delete (record : α)

def ListOp.step : ListOp α → ModelGslist α → ModelGslist α × List (RowSignal α)
  | append record, model => modelGslistNewRecord model (model.list ++ [record])
  | delete record, model => modelGslistDeleteRecord model record

/-- The model after some operations on an empty one. -/
def listAfter (ops : List (ListOp α)) : List α := (Runs.run ListOp.step modelGslistNew ops).1.list

/-- What a view makes of a signal. -/
def replay (view : List α) : RowSignal α → List α
  | .inserted path (some record) => view.insertIdx path.toNat record
  | .inserted _ none => view
  | .deleted path => if path < 0 then view else view.eraseIdx path.toNat

/-- A view that was empty at the start and has followed all signals. -/
def viewAfter (ops : List (ListOp α)) : List α :=
  (Runs.run ListOp.step modelGslistNew ops).2.foldl replay []

/-- A deletion moves the view and the list alike. -/
theorem replay_delete (list : List α) (record : α) :
    ((modelGslistDeleteRecord ⟨list⟩ record).2.foldl replay list) = list.erase record := by
  by_cases hmem : record ∈ list
  · have hpos : ¬(list.idxOf record : ℤ) < 0 := by omega
    simp only [modelGslistDeleteRecord,gSlistIndex,if_pos hmem,List.foldl_cons,List.foldl_nil,
      replay,if_neg hpos,Int.toNat_natCast]
    exact (List.erase_eq_eraseIdx_of_idxOf rfl).symm
  · simp [modelGslistDeleteRecord,gSlistIndex,hmem,replay,List.erase_of_not_mem]

omit [DecidableEq α] in
theorem modelGslistGetIter_zero (a : α) (list : List α) :
    modelGslistGetIter ⟨a::list⟩ 0 = some a := by
  have hin : ¬((0 : ℤ) ≥ (a::list).length ∨ (0 : ℤ) < 0) := by
    simp only [List.length_cons]
    omega
  rw [modelGslistGetIter,if_neg hin]
  rfl

omit [DecidableEq α] in
/-- An insertion puts another copy of the first record in front. -/
theorem replay_append (a : α) (list : List α) (record : α) :
    (modelGslistNewRecord ⟨a::list⟩ ((a::list) ++ [record])).2.foldl replay (a::list) =
      a::a::list := by
  simp only [modelGslistNewRecord,List.cons_append,modelGslistGetIter_zero,List.foldl_cons,
    List.foldl_nil,replay]
  rfl

omit [DecidableEq α] in
theorem cons_eq_append_singleton_iff {a r : α} {l : List α} :
    a::l = l ++ [r] ↔ ∀ x ∈ a::l, x = r := by
  induction l generalizing a with
  | nil => simp
  | cons b l ih =>
    have hh := ih (a:=b)
    simp only [List.cons_append,List.cons.injEq,hh,List.forall_mem_cons]
    constructor
    · rintro ⟨rfl,hb,hl⟩
      exact ⟨hb,hb,hl⟩
    · rintro ⟨rfl,hb,hl⟩
      exact ⟨hb.symm,hb,hl⟩

omit [DecidableEq α] in
theorem replay_append_iff (list : List α) (record : α) :
    (modelGslistNewRecord ⟨list⟩ (list ++ [record])).2.foldl replay list = list ++ [record] ↔
      ∀ r ∈ list, r = record := by
  cases list with
  | nil =>
    have hrow : (modelGslistNewRecord ⟨[]⟩ [record]).2.foldl replay [] = [record] := rfl
    simpa using hrow
  | cons a list =>
    have hh := cons_eq_append_singleton_iff (a:=a) (r:=record) (l:=list)
    rw [replay_append,← hh]
    simp

@[simp] theorem listAfter_nil : listAfter ([] : List (ListOp α)) = [] := rfl

@[simp] theorem viewAfter_nil : viewAfter ([] : List (ListOp α)) = [] := rfl

theorem listAfter_snoc (ops : List (ListOp α)) (o : ListOp α) :
    listAfter (ops ++ [o]) = (o.step ⟨listAfter ops⟩).1.list := by
  rw [listAfter,Runs.run_snoc]
  rfl

theorem viewAfter_snoc (ops : List (ListOp α)) (o : ListOp α) :
    viewAfter (ops ++ [o]) = (o.step ⟨listAfter ops⟩).2.foldl replay (viewAfter ops) := by
  rw [viewAfter,Runs.run_snoc,List.foldl_append]
  rfl

/-- The records that are in the list when a new one is appended are all the same as that. -/
def ListOp.Uniform (before : List (ListOp α)) : ListOp α → Prop
  | append record => ∀ r ∈ listAfter before, r = record
  | delete _ => True

/-- A record that is new has to be the first one. -/
theorem ListOp.uniform_append_iff {before : List (ListOp α)} {record : α}
    (hnew : record ∉ listAfter before) :
    (ListOp.append record).Uniform before ↔ listAfter before = [] := by
  constructor
  · intro h
    refine List.eq_nil_iff_forall_not_mem.mpr fun r hr => ?_
    have heq := h r hr
    exact hnew (heq ▸ hr)
  · intro hnil
    simp [ListOp.Uniform,hnil]

/-- View and list agree after every operation if and only if no record is appended to a
list with a different one in it. -/
theorem view_agrees_iff (ops : List (ListOp α)) :
    (∀ before, before <+: ops → viewAfter before = listAfter before) ↔
      ∀ before o, before ++ [o] <+: ops → o.Uniform before := by
  refine Runs.prefixes_iff (by simp) (fun before o hbefore => ?_) ops
  rw [viewAfter_snoc,listAfter_snoc,hbefore]
  cases o with
  | append record => exact replay_append_iff _ _
  | delete record =>
    have hdelete := replay_delete (listAfter before) record
    simp only [ListOp.step,ListOp.Uniform,iff_true]
    exact hdelete

/-- The second of two records shows as a copy of the first. -/
theorem view_differs : ¬∀ before, before <+: [ListOp.append 1,ListOp.append 2] →
    viewAfter before = listAfter before := by
  intro hall
  have hlast := hall _ (List.prefix_refl _)
  exact absurd hlast (by decide)

end Model

/-! ### Where the lists of the program go through the model -/

theorem addRow_newRecord (h : Host) (model : ℕ) (k : FiledataResponse) :
    (h.addRow model k).models model =
      ((ListOp.append k).step ⟨h.models model⟩).1.list := by
  simp [Host.addRow,ListOp.step,modelGslistNewRecord]

theorem newServletStartup_newRecord (s : Servers) (serv : ℕ) :
    (s.newServletStartup serv).sockets = ((ListOp.append serv).step ⟨s.sockets⟩).1.list := rfl

theorem idlePinger_deleteRecord (k : ℕ) (f : ℤ) (s : Pingers)
    (h : (s.servers.servlet k).lastponged+pongTime < f) (hne : s.servers.sockets.erase k ≠ []) :
    (s.idlePinger k f).1.servers.sockets =
      ((ListOp.delete k).step ⟨s.servers.sockets⟩).1.list := by
  rw [Pingers.idlePinger_removes k f s h hne]
  rfl

end Pingu
end MiscUniStuff
