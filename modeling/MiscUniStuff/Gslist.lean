import Mathlib.Data.Int.Notation
import Mathlib.Data.List.Basic

/-! Singly linked lists of glib. A list is the cells from the one its pointer points to
on, and `NULL` is the empty list. -/
namespace MiscUniStuff
namespace Gslist

/-- A cell, at its address, with the record its `data` points to. -/
structure Cell (α : Type) where
  address : ℕ
  data : α
  deriving DecidableEq

/-- What a `gpointer` may point to. glib allocates the cells, the program the records. -/
inductive Gpointer (α : Type)
  | null
  | cell (address : ℕ)
  | record (data : α)
  deriving DecidableEq

section Lists
variable {α : Type}

/-- The list itself as a `gpointer`. -/
def pointer : List (Cell α) → Gpointer α
  | [] => .null
  | c::_ => .cell c.address

/-- `g_slist_length`, a `guint`. -/
def gSlistLength (list : List (Cell α)) : UInt32 := UInt32.ofNat list.length

/-- `g_slist_nth`. -/
def gSlistNth (list : List (Cell α)) (n : UInt32) : List (Cell α) := list.drop n.toNat

section Compare
variable [DecidableEq α]

def Cell.Holds (c : Cell α) (data : Gpointer α) : Bool := Gpointer.record c.data = data

/-- `g_slist_remove`: takes out the first cell with this `data`. -/
def gSlistRemove (list : List (Cell α)) (data : Gpointer α) : List (Cell α) :=
  list.eraseP (·.Holds data)

/-- `g_slist_index`: the position of the first cell with this `data`, or -1. -/
def gSlistIndex (list : List (Cell α)) (data : Gpointer α) : Int32 :=
  match list.findIdx? (·.Holds data) with
  | some i => Int32.ofNat i
  | none => -1

/-- No cell has a list for its record. -/
theorem not_holds_pointer (c : Cell α) (list : List (Cell α)) : c.Holds (pointer list) = false := by
  cases list <;> simp [Cell.Holds,pointer]

theorem gSlistRemove_pointer (list l : List (Cell α)) : gSlistRemove list (pointer l) = list := by
  rw [gSlistRemove,List.eraseP_of_forall_not]
  simp [not_holds_pointer]

theorem gSlistIndex_pointer (list l : List (Cell α)) : gSlistIndex list (pointer l) = -1 := by
  have hnone : list.findIdx? (·.Holds (pointer l)) = none := by
    simp [List.findIdx?_eq_none_iff,not_holds_pointer]
  rw [gSlistIndex,hnone]

end Compare
end Lists

end Gslist
end MiscUniStuff
