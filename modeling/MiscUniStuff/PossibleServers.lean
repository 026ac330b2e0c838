import MiscUniStuff.Gslist
import MiscUniStuff.Pingers

/-! What `look_for_new_servers` does to the lists of active and of possible servers, against
what the README says of it: the first 5 possible servers become active. -/
namespace MiscUniStuff
namespace Pingu
open Gslist

/-- The lists and the pool, with the cells that make up the list of possible servers. -/
structure PossibleServers where
  pingers : Pingers
  cells : List (Cell ℕ)
  data : cells.map Cell.data = pingers.servers.possibleServers

namespace PossibleServers

/-- The loop `for (j = 0; j <= i; j++)`, by the rounds that are left. What it takes out of
the list is a pointer to the list. -/
def removeLoop : ℕ → List (Cell ℕ) → List (Cell ℕ)
  | 0, possibleServers => possibleServers
  | j+1, possibleServers => removeLoop j (gSlistRemove possibleServers (pointer possibleServers))

/-- `look_for_new_servers`, cell by cell. -/
def lookForNewServers (now : ℤ) (s : PossibleServers) : PossibleServers × List PingEvent :=
  let started := Pingers.lookLoop now 0 (s.cells.map Cell.data) s.pingers
  let cells := removeLoop (started.2+1) s.cells
  let servers := { started.1.1.servers with possibleServers := cells.map Cell.data }
  ({ pingers := { started.1.1 with servers := servers }, cells := cells, data := rfl },
    started.1.2 ++ if started.2 = 0 then [.asked] else [])

variable {now : ℤ} {s : PossibleServers}

/-- No servlet in the list is a cell of it. -/
theorem removeLoop_eq (j : ℕ) (cells : List (Cell ℕ)) : removeLoop j cells = cells := by
  induction j with
  | zero => rfl
  | succ j ih => rw [removeLoop,gSlistRemove_pointer,ih]

theorem lookForNewServers_pingers (now : ℤ) (s : PossibleServers) :
    ((s.lookForNewServers now).1.pingers,(s.lookForNewServers now).2) =
      s.pingers.lookForNewServers now := by
  have hfst : (Pingers.lookLoop now 0 s.pingers.servers.possibleServers s.pingers).1 = _ :=
    Pingers.lookLoop_fst (Nat.zero_le 5) _ _
  simp only [lookForNewServers,Pingers.lookForNewServers,removeLoop_eq,s.data]
  rw [hfst]

/-- The active servers. -/
def sockets (s : PossibleServers) : List ℕ := s.pingers.servers.sockets

/-- The servers in reserve. -/
def possibleServers (s : PossibleServers) : List ℕ := s.pingers.servers.possibleServers

theorem sockets_look (now : ℤ) (s : PossibleServers) :
    (s.lookForNewServers now).1.sockets = s.sockets ++ s.possibleServers.take 6 := by
  have heq := congrArg Prod.fst (lookForNewServers_pingers now s)
  simp only [Pingers.lookForNewServers_eq] at heq
  simp [sockets,possibleServers,heq]

theorem possibleServers_look (now : ℤ) (s : PossibleServers) :
    (s.lookForNewServers now).1.possibleServers = s.possibleServers := by
  have heq := congrArg Prod.fst (lookForNewServers_pingers now s)
  simp only [Pingers.lookForNewServers_eq] at heq
  simp [possibleServers,heq]

theorem asked_look (now : ℤ) (s : PossibleServers) :
    .asked ∈ (s.lookForNewServers now).2 ↔ s.possibleServers = [] := by
  have heq := congrArg Prod.snd (lookForNewServers_pingers now s)
  simp only [Pingers.lookForNewServers_eq] at heq
  have hstarted : ∀ l : List ℕ, PingEvent.asked ∉ l.map fun j => .started j now := by simp
  rw [heq,List.mem_append]
  by_cases hnil : s.pingers.servers.possibleServers = []
  · simp [possibleServers,hnil]
  · simp only [possibleServers,hnil,if_false,hstarted,false_or,List.not_mem_nil]

/-- The state after some calls, at these times. -/
def afterCalls (s : PossibleServers) (times : List ℤ) : PossibleServers :=
  (Runs.run lookForNewServers s times).1

/-- One call makes the first 5 possible servers active and takes them out of the reserve;
it asks the user if there are none. -/
structure MovesFive (now : ℤ) (s : PossibleServers) : Prop where
  sockets : (s.lookForNewServers now).1.sockets = s.sockets ++ s.possibleServers.take 5
  possibleServers : (s.lookForNewServers now).1.possibleServers = s.possibleServers.drop 5
  asked : .asked ∈ (s.lookForNewServers now).2 ↔ s.possibleServers = []

/-- However often it is called, every servlet is in one of the lists as before. -/
def KeepsServlets (s : PossibleServers) : Prop :=
  ∀ times, ((s.afterCalls times).sockets ++ (s.afterCalls times).possibleServers).Perm
    (s.sockets ++ s.possibleServers)

theorem possibleServers_afterCalls (s : PossibleServers) (times : List ℤ) :
    (s.afterCalls times).possibleServers = s.possibleServers := by
  refine Runs.state_invariant (P:=fun t : PossibleServers => t.possibleServers = s.possibleServers) rfl ?_ times
  intro now t ht
  rw [possibleServers_look,ht]

/-- Every call appends the same servlets again. -/
theorem sockets_afterCalls (s : PossibleServers) (times : List ℤ) :
    (s.afterCalls times).sockets =
      s.sockets ++ (List.replicate times.length (s.possibleServers.take 6)).flatten := by
  induction times using List.reverseRecOn with
  | nil => simp [afterCalls]
  | append_singleton times now ih =>
    have hposs := possibleServers_afterCalls s times
    have hlast : (s.afterCalls (times ++ [now])).sockets =
        ((s.afterCalls times).lookForNewServers now).1.sockets := by
      rw [afterCalls,Runs.run_snoc]
      rfl
    rw [hlast,sockets_look,ih,hposs]
    simp [List.replicate_succ']

theorem movesFive_iff (now : ℤ) (s : PossibleServers) :
    MovesFive now s ↔ s.possibleServers = [] := by
  constructor
  · intro h
    have hdrop := h.possibleServers
    rw [possibleServers_look] at hdrop
    have hlen := congrArg List.length hdrop
    simp only [List.length_drop] at hlen
    exact List.length_eq_zero_iff.mp (by omega)
  · intro hnil
    exact ⟨by rw [sockets_look,hnil]; rfl,by rw [possibleServers_look,hnil]; rfl,asked_look now s⟩

theorem keepsServlets_iff (s : PossibleServers) : KeepsServlets s ↔ s.possibleServers = [] := by
  simp only [KeepsServlets,sockets_afterCalls,possibleServers_afterCalls]
  constructor
  · intro h
    have hlen := (h [0]).length_eq
    simp only [List.length_cons,List.length_nil,List.replicate_succ,List.replicate_zero,
      List.flatten_cons,List.flatten_nil,List.append_nil,List.length_append,List.length_take] at hlen
    exact List.length_eq_zero_iff.mp (by omega)
  · intro hnil times
    simp [hnil]

/-- The lists come out as the README says only if there is no possible server to move. -/
theorem moves_first_five_iff (now : ℤ) (s : PossibleServers) :
    MovesFive now s ∧ KeepsServlets s ↔ s.possibleServers = [] := by
  rw [movesFive_iff,keepsServlets_iff,and_self]

end PossibleServers

/-- Seven possible servers, none of them active. -/
def sevenPossible : PossibleServers where
  pingers := ⟨⟨fun _ => ⟨⟨.zero,⟨0,0⟩⟩,0,0⟩,7,[],[0,1,2,3,4,5,6]⟩,[]⟩
  cells := [⟨10,0⟩,⟨11,1⟩,⟨12,2⟩,⟨13,3⟩,⟨14,4⟩,⟨15,5⟩,⟨16,6⟩]
  data := rfl

/-- Six of them become active, and all seven stay possible. -/
theorem moves_six_of_seven : ¬∀ (now : ℤ) (s : PossibleServers), s.possibleServers.Nodup →
    s.MovesFive now := by
  intro h
  have hmoves := h 0 sevenPossible (by decide)
  exact absurd hmoves.sockets (by decide)

end Pingu
end MiscUniStuff
