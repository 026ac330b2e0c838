import MiscUniStuff.Gslist
import MiscUniStuff.ModelGslist

/-! The iters of `model_gslist.c`: an iter holds a cell of the list, and the view goes from
row to row by paths, by positions or by following the cells. -/
namespace MiscUniStuff
namespace Pingu
namespace GtkTreeModel
open Gslist (Cell pointer gSlistLength gSlistNth)

/-- `struct _ModelGslist`, with the cells of the list. -/
structure Model (α : Type) where
  list : List (Cell α)
  stamp : Int32

/-- `GtkTreeIter`. The model puts a cell into `user_data`, which is given with the cells
after it. -/
structure GtkTreeIter (α : Type) where
  stamp : Int32
  userData : List (Cell α)

section Functions
variable {α : Type} (model : Model α) (iter : GtkTreeIter α)

/-- `model_gslist_get_iter`, for a path of one index. In the first comparison C makes the
`gint` a `guint`. -/
def modelGslistGetIter (n : Int32) : Bool × GtkTreeIter α :=
  if n.toUInt32 ≥ gSlistLength model.list ∨ n < 0 then (false,iter)
  else (true,⟨model.stamp,gSlistNth model.list n.toUInt32⟩)

/-- `model_gslist_get_path`, with what `gtk_tree_path_append_index` does to a path. -/
def modelGslistGetPath [DecidableEq α] (appendIndex : List Int32 → Int32 → List Int32) :
    Option (List Int32) :=
  if iter.userData = [] then none
  else some (appendIndex [] (Gslist.gSlistIndex model.list (pointer iter.userData)))

/-- `model_gslist_iter_next`. -/
def modelGslistIterNext : Bool × GtkTreeIter α :=
  match iter.userData with
  | [] => (false,iter)
  | _::[] => (false,iter)
  | _::nextrecord => (true,⟨model.stamp,nextrecord⟩)

/-- `model_gslist_iter_children`. -/
def modelGslistIterChildren (parent : Option (GtkTreeIter α)) : Bool × GtkTreeIter α :=
  if parent.isSome ∨ model.list = [] then (false,iter)
  else (true,⟨model.stamp,model.list⟩)

/-- `model_gslist_iter_n_children`. -/
def modelGslistIterNChildren (iter : Option (GtkTreeIter α)) : Int32 :=
  if iter.isSome then 0 else (gSlistLength model.list).toInt32

/-- `model_gslist_iter_nth_child`. -/
def modelGslistIterNthChild (parent : Option (GtkTreeIter α)) (n : Int32) :
    Bool × GtkTreeIter α :=
  if parent.isSome ∨ n.toUInt32 ≥ gSlistLength model.list then (false,iter)
  else (true,⟨model.stamp,gSlistNth model.list n.toUInt32⟩)

/-- Take an iter some rows on; every step must succeed. -/
def stepsOn : ℕ → GtkTreeIter α → Option (GtkTreeIter α)
  | 0, iter => some iter
  | k+1, iter =>
    match modelGslistIterNext model iter with
    | (true,next) => stepsOn k next
    | (false,_) => none

/-- The iters on the way from the result of a call to the first call that fails. -/
inductive Visits : Bool × GtkTreeIter α → List (GtkTreeIter α) → Prop
  | stop (iter : GtkTreeIter α) : Visits (false,iter) []
  | row (iter : GtkTreeIter α) (rows : List (GtkTreeIter α))
      (h : Visits (modelGslistIterNext model iter) rows) : Visits (true,iter) (iter::rows)

end Functions

section Rows
variable {α : Type} {model : Model α} {iter : GtkTreeIter α} {n : Int32}

/-! ### Signed and unsigned -/

theorem toNat_toUInt32 (n : Int32) : n.toUInt32.toNat = (n.toInt % 2^32).toNat := by
  have hint : n.toInt = n.toBitVec.toInt := rfl
  have hnat : n.toUInt32.toNat = n.toBitVec.toNat := rfl
  have hlt := n.toBitVec.isLt
  rw [hint,hnat,BitVec.toInt_eq_toNat_cond]
  split_ifs <;> omega

theorem toInt_toInt32 {m : UInt32} (h : m.toNat < 2^31) : m.toInt32.toInt = m.toNat := by
  have hint : m.toInt32.toInt = m.toBitVec.toInt := rfl
  have hnat : m.toNat = m.toBitVec.toNat := rfl
  rw [hint,hnat,BitVec.toInt_eq_toNat_cond,if_pos (by omega)]

theorem toNat_gSlistLength {list : List (Cell α)} (h : list.length < 2^31) :
    (gSlistLength list).toNat = list.length := by
  rw [gSlistLength,UInt32.toNat_ofNat']
  omega

/-- While the length fits a `gint`, both comparisons say that there is no such row. -/
theorem gSlistLength_le_iff {list : List (Cell α)} (h : list.length < 2^31) (n : Int32) :
    n.toUInt32 ≥ gSlistLength list ↔ ¬(0 ≤ n.toInt ∧ n.toInt < list.length) := by
  have hlt := n.toInt_lt
  have hle := n.le_toInt
  rw [ge_iff_le,UInt32.le_iff_toNat_le,toNat_gSlistLength h,toNat_toUInt32]
  omega

theorem toUInt32_of_nonneg (h : 0 ≤ n.toInt) : n.toUInt32.toNat = n.toInt.toNat := by
  have hlt := n.toInt_lt
  rw [toNat_toUInt32]
  omega

/-! ### The rows -/

/-- The iters of all rows of a list, from the first one on. -/
def rowIters (stamp : Int32) : List (Cell α) → List (GtkTreeIter α)
  | [] => []
  | c::list => ⟨stamp,c::list⟩ :: rowIters stamp list

theorem length_rowIters (stamp : Int32) (list : List (Cell α)) :
    (rowIters stamp list).length = list.length := by
  induction list with
  | nil => rfl
  | cons c list ih => simp [rowIters,ih]

theorem getElem?_rowIters (stamp : Int32) {list : List (Cell α)} {k : ℕ} (hk : k < list.length) :
    (rowIters stamp list)[k]? = some ⟨stamp,list.drop k⟩ := by
  induction list generalizing k with
  | nil => simp at hk
  | cons c list ih =>
    cases k with
    | zero => rfl
    | succ k =>
      rw [rowIters,List.getElem?_cons_succ,List.drop_succ_cons]
      exact ih (by simpa using hk)

theorem visits_next (c : Cell α) (list : List (Cell α)) :
    Visits model (modelGslistIterNext model ⟨model.stamp,c::list⟩) (rowIters model.stamp list) := by
  induction list generalizing c with
  | nil => exact .stop _
  | cons d list ih => exact .row _ _ (ih d)

theorem visits_children (iter : GtkTreeIter α) :
    Visits model (modelGslistIterChildren model iter none) (rowIters model.stamp model.list) := by
  cases h : model.list with
  | nil =>
    simp only [modelGslistIterChildren,h,or_true,if_true]
    exact .stop _
  | cons c list =>
    simp only [modelGslistIterChildren,h,Option.isSome_none,Bool.false_eq_true,reduceCtorEq,or_self,
      if_false]
    exact .row _ _ (visits_next c list)

/-- The way is determined by the call it starts from. -/
theorem Visits.unique {p : Bool × GtkTreeIter α} {rows rows' : List (GtkTreeIter α)}
    (h : Visits model p rows) (h' : Visits model p rows') : rows = rows' := by
  induction h generalizing rows' with
  | stop iter =>
    cases h' with
    | stop => rfl
  | row iter rows hnext ih =>
    cases h' with
    | row _ rows₁ h₁ => rw [ih h₁]

theorem getIter_row (hn : 0 ≤ n.toInt) (hlt : n.toInt < model.list.length)
    (h : model.list.length < 2^31) : modelGslistGetIter model iter n =
      (true,⟨model.stamp,model.list.drop n.toInt.toNat⟩) := by
  have hin : ¬(n.toUInt32 ≥ gSlistLength model.list ∨ n < 0) := by
    rw [gSlistLength_le_iff h,Int32.lt_iff_toInt_lt,Int32.toInt_zero]
    omega
  rw [modelGslistGetIter,if_neg hin,gSlistNth,toUInt32_of_nonneg hn]

/-- The record of the cell is the one that the model of the rows alone gives. -/
theorem getIter_record (h : model.list.length < 2^31) :
    (if (modelGslistGetIter model iter n).1 then
        (modelGslistGetIter model iter n).2.userData.head?.map Cell.data
      else none) = Pingu.modelGslistGetIter ⟨model.list.map Cell.data⟩ n.toInt := by
  have hlen : (model.list.map Cell.data).length = model.list.length := List.length_map _
  by_cases hrow : 0 ≤ n.toInt ∧ n.toInt < model.list.length
  · have hin : ¬(n.toInt ≥ (model.list.map Cell.data).length ∨ n.toInt < 0) := by
      rw [hlen]
      omega
    rw [getIter_row hrow.1 hrow.2 h,Pingu.modelGslistGetIter,if_neg hin,if_pos rfl]
    simp only [List.head?_drop,List.getElem?_map]
  · have hout := (gSlistLength_le_iff h n).mpr hrow
    have hno : modelGslistGetIter model iter n = (false,iter) := if_pos (.inl hout)
    have hin : n.toInt ≥ (model.list.map Cell.data).length ∨ n.toInt < 0 := by
      rw [hlen]
      omega
    rw [hno,Pingu.modelGslistGetIter,if_pos hin,if_neg Bool.false_ne_true]

theorem getIter_nonneg {first : GtkTreeIter α} (h : modelGslistGetIter model iter n = (true,first)) :
    0 ≤ n.toInt := by
  rw [modelGslistGetIter] at h
  split_ifs at h with hout
  · simp at h
  · rw [Int32.lt_iff_toInt_lt,Int32.toInt_zero] at hout
    omega

theorem nthChild_row (hn : 0 ≤ n.toInt) (hlt : n.toInt < model.list.length)
    (h : model.list.length < 2^31) : modelGslistIterNthChild model iter none n =
      (true,⟨model.stamp,model.list.drop n.toInt.toNat⟩) := by
  have hin : ¬((none : Option (GtkTreeIter α)).isSome ∨ n.toUInt32 ≥ gSlistLength model.list) := by
    rw [gSlistLength_le_iff h,Option.isSome_none]
    simp only [Bool.false_eq_true,false_or]
    omega
  rw [modelGslistIterNthChild,if_neg hin,gSlistNth,toUInt32_of_nonneg hn]

/-- All ways to the rows of a list lead to the same iters, while a `gint` can count them.
Where there is no row, nothing is written. -/
theorem traversals_agree (model : Model α) (iter : GtkTreeIter α)
    (h : model.list.length ≤ 2^31-1) : ∃ rows,
      (∀ l, Visits model (modelGslistIterChildren model iter none) l ↔ l = rows) ∧
      rows.length = model.list.length ∧
      (modelGslistIterNChildren model none).toInt = rows.length ∧
      (∀ (n : Int32) (k : ℕ) (row : GtkTreeIter α), n.toInt = k → rows[k]? = some row →
        modelGslistIterNthChild model iter none n = (true,row) ∧
        modelGslistGetIter model iter n = (true,row)) ∧
      ∀ n : Int32, ¬(0 ≤ n.toInt ∧ n.toInt < model.list.length) →
        modelGslistIterNthChild model iter none n = (false,iter) ∧
        modelGslistGetIter model iter n = (false,iter) := by
  have hlen : model.list.length < 2^31 := by omega
  have hvisits : Visits model (modelGslistIterChildren model iter none)
      (rowIters model.stamp model.list) := visits_children iter
  refine ⟨rowIters model.stamp model.list,fun l => ⟨fun hl => hl.unique hvisits,?_⟩,
    length_rowIters _ _,?_,?_,?_⟩
  · rintro rfl
    exact hvisits
  · simp only [modelGslistIterNChildren,Option.isSome_none,Bool.false_eq_true,if_false]
    rw [toInt_toInt32,toNat_gSlistLength hlen,length_rowIters]
    rwa [toNat_gSlistLength hlen]
  · intro n k row hn hrow
    have hk : k < model.list.length := by
      rw [← length_rowIters model.stamp]
      exact (List.getElem?_eq_some_iff.mp hrow).1
    rw [getElem?_rowIters model.stamp hk,Option.some.injEq] at hrow
    subst row
    have hnat : k = n.toInt.toNat := by omega
    rw [hnat]
    exact ⟨nthChild_row (by omega) (by omega) hlen,getIter_row (by omega) (by omega) hlen⟩
  · intro n hn
    have hout := (gSlistLength_le_iff hlen n).mpr hn
    simp [modelGslistIterNthChild,modelGslistGetIter,hout]

/-- A list of two rows. -/
def twoRows : Model ℕ := ⟨[⟨10,1⟩,⟨11,2⟩],7⟩

theorem traversals_agree_two : ∃ rows,
    Visits twoRows (modelGslistIterChildren twoRows ⟨0,[]⟩ none) rows ∧
    (modelGslistIterNChildren twoRows none).toInt = rows.length := by
  obtain ⟨rows,hvisits,-,hcount,-⟩ := traversals_agree twoRows ⟨0,[]⟩ (by decide)
  exact ⟨rows,(hvisits rows).mpr rfl,hcount⟩

/-- The rows of a list that is too long for a `gint` are counted as a negative number. -/
theorem rows_miscounted : ¬∀ (model : Model ℕ) (iter : GtkTreeIter ℕ), ∃ rows,
    Visits model (modelGslistIterChildren model iter none) rows ∧
    (modelGslistIterNChildren model none).toInt = rows.length := by
  intro h
  obtain ⟨rows,-,hcount⟩ := h ⟨List.replicate (2^31) ⟨0,0⟩,0⟩ ⟨0,[]⟩
  have hneg : (modelGslistIterNChildren (⟨List.replicate (2^31) ⟨0,0⟩,0⟩ : Model ℕ) none).toInt =
      -2^31 := by
    simp only [modelGslistIterNChildren,gSlistLength,List.length_replicate]
    decide
  rw [hneg] at hcount
  omega

/-! ### From an iter back to its path -/

/-- Steps of `model_gslist_iter_next` lead from cell to cell. -/
theorem stepsOn_drop {k : ℕ} {list : List (Cell α)} (hk : k < list.length) :
    stepsOn model k ⟨model.stamp,list⟩ = some ⟨model.stamp,list.drop k⟩ := by
  induction k generalizing list with
  | zero => rfl
  | succ k ih =>
    cases list with
    | nil => simp at hk
    | cons c list =>
      cases list with
      | nil => simp at hk
      | cons d list =>
        simp only [stepsOn,modelGslistIterNext]
        exact ih (by simpa using hk)

/-- From the row of an index, the iter goes on to all rows after it. -/
theorem stepsOn_getIter (hn : 0 ≤ n.toInt) (h : model.list.length < 2^31) {k : ℕ}
    (hk : n.toInt+k < model.list.length) : ∃ first, modelGslistGetIter model iter n = (true,first) ∧
      stepsOn model k first = some ⟨model.stamp,model.list.drop (n.toInt.toNat+k)⟩ := by
  refine ⟨_,getIter_row hn (by omega) h,?_⟩
  rw [stepsOn_drop,List.drop_drop]
  rw [List.length_drop]
  omega

/-- `gtk_tree_path_append_index` appends an index; it may refuse one that is negative. -/
structure AppendsIndex (appendIndex : List Int32 → Int32 → List Int32) : Prop where
  nonneg : ∀ path i, 0 ≤ i → appendIndex path i = path ++ [i]
  negative : ∀ path i, i < 0 → appendIndex path i = path ++ [i] ∨ appendIndex path i = path

variable [DecidableEq α] {appendIndex : List Int32 → Int32 → List Int32}

/-- The path of the iter is this one index. -/
def PathIs (appendIndex : List Int32 → Int32 → List Int32) (model : Model α)
    (iter : GtkTreeIter α) (i : ℤ) : Prop :=
  ∃ path, modelGslistGetPath model iter appendIndex = some path ∧ path.map Int32.toInt = [i]

/-- An index gives an iter, and that gives the index again, also after some rows. -/
def RoundTrip (appendIndex : List Int32 → Int32 → List Int32) (model : Model α)
    (iter : GtkTreeIter α) (n : Int32) : Prop :=
  ∃ first, modelGslistGetIter model iter n = (true,first) ∧
    ∀ k last, stepsOn model k first = some last → PathIs appendIndex model last (n.toInt+k)

/-- The list holds records, and is searched for a cell. -/
theorem not_pathIs (h : AppendsIndex appendIndex) (iter : GtkTreeIter α) {i : ℤ} (hi : 0 ≤ i) :
    ¬PathIs appendIndex model iter i := by
  rintro ⟨path,hget,hpath⟩
  rw [modelGslistGetPath,Gslist.gSlistIndex_pointer] at hget
  split_ifs at hget with hnull
  rw [Option.some.injEq] at hget
  subst path
  rcases h.negative [] (-1) (by decide) with happ | happ
  · rw [happ] at hpath
    have hneg : (-1 : Int32).toInt = -1 := by decide
    simp only [List.nil_append,List.map_cons,List.map_nil,hneg,List.cons.injEq,and_true] at hpath
    omega
  · rw [happ] at hpath
    simp at hpath

/-- No iter gives a path back: neither the iter of a row, nor one that has gone on from it. -/
theorem no_round_trip (h : AppendsIndex appendIndex) (model : Model α) (iter : GtkTreeIter α)
    (n : Int32) : ¬RoundTrip appendIndex model iter n ∧
      ∀ first k last, modelGslistGetIter model iter n = (true,first) →
        stepsOn model k first = some last → ¬PathIs appendIndex model last (n.toInt+k) := by
  have hlost : ∀ first k last, modelGslistGetIter model iter n = (true,first) →
      stepsOn model k first = some last → ¬PathIs appendIndex model last (n.toInt+k) := by
    intro first k last hget _
    have hn := getIter_nonneg hget
    exact not_pathIs h last (by omega)
  refine ⟨?_,hlost⟩
  rintro ⟨first,hget,hsteps⟩
  exact hlost first 0 first hget rfl (hsteps 0 first rfl)

end Rows

/-- What GTK does: a negative index is refused. -/
def gtkTreePathAppendIndex (path : List Int32) (i : Int32) : List Int32 :=
  if i < 0 then path else path ++ [i]

theorem appendsIndex_gtk : AppendsIndex gtkTreePathAppendIndex where
  nonneg _ _ hi := if_neg (Int32.not_lt.mpr hi)
  negative _ _ hi := .inr (if_pos hi)

theorem no_round_trip_two : ¬RoundTrip gtkTreePathAppendIndex twoRows ⟨0,[]⟩ 0 :=
  (no_round_trip appendsIndex_gtk twoRows ⟨0,[]⟩ 0).1

/-- The first of two rows has the empty path. -/
theorem first_row_lost : ¬∀ (model : Model ℕ) (iter : GtkTreeIter ℕ) (n : Int32), 0 ≤ n.toInt →
    n.toInt < model.list.length → RoundTrip gtkTreePathAppendIndex model iter n := by
  intro h
  obtain ⟨first,hget,hsteps⟩ := h twoRows ⟨0,[]⟩ 0 (by decide) (by decide)
  have hfirst : first = ⟨7,twoRows.list⟩ := by
    have hrow : modelGslistGetIter twoRows ⟨0,[]⟩ 0 = (true,⟨7,twoRows.list⟩) := rfl
    rw [hrow,Prod.mk.injEq] at hget
    exact hget.2.symm
  obtain ⟨path,hpath,hmap⟩ := hsteps 0 first rfl
  subst hfirst
  have hempty : modelGslistGetPath twoRows ⟨7,twoRows.list⟩ gtkTreePathAppendIndex = some [] := by
    decide
  rw [hempty,Option.some.injEq] at hpath
  subst hpath
  simp at hmap

end GtkTreeModel
end Pingu
end MiscUniStuff
