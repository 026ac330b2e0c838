import Mathlib.Logic.Function.Basic

/-! Threads and locks that can be held once. Where a thread is in its program says which
locks it holds and which one it is about to take; the lock variables agree with that. -/
namespace Locks

/-- Who holds each lock. -/
abbrev Owners (L T : Type*) := L → Option T

variable {L T : Type*}

def acquire [DecidableEq L] (l : L) (t : T) (owner : Owners L T) : Owners L T :=
  Function.update owner l (some t)

def release [DecidableEq L] (l : L) (owner : Owners L T) : Owners L T :=
  Function.update owner l none

/-- The lock variables agree with what the threads hold. -/
def Agree (owner : Owners L T) (holds : T → L → Prop) : Prop := ∀ t l, owner l = some t ↔ holds t l

variable {owner : Owners L T} {holds holds' : T → L → Prop} {t u : T} {l m : L}

/-- No two threads hold a lock. -/
theorem Agree.unique (h : Agree owner holds) (ht : holds t l) (hu : holds u l) : t = u := by
  have h₁ := (h t l).mpr ht
  have h₂ := (h u l).mpr hu
  rw [h₁] at h₂
  exact Option.some.inj h₂

/-- A thread takes a free lock. -/
theorem Agree.acquire [DecidableEq L] (h : Agree owner holds) (hfree : owner l = none)
    (hh : ∀ u m, holds' u m ↔ holds u m ∨ u = t ∧ m = l) : Agree (acquire l t owner) holds' := by
  intro u m
  rw [hh,← h u m]
  by_cases hm : m = l
  · subst m
    simp [Locks.acquire,hfree,eq_comm]
  · simp [Locks.acquire,hm]

/-- The thread that holds a lock gives it back; no other one has held it. -/
theorem Agree.release [DecidableEq L] (h : Agree owner holds) (ht : holds t l)
    (hh : ∀ u m, holds' u m ↔ holds u m ∧ ¬(u = t ∧ m = l)) : Agree (release l owner) holds' := by
  intro u m
  rw [hh,← h u m]
  by_cases hm : m = l
  · subst m
    have hu : owner l = some u → u = t := fun hu => h.unique ((h u l).mp hu) ht
    simpa [Locks.release] using hu
  · simp [Locks.release,hm]

/-- No lock changes hands. -/
theorem Agree.congr (h : Agree owner holds) (hh : ∀ u m, holds' u m ↔ holds u m) :
    Agree owner holds' := by
  intro u m
  rw [hh,h u m]

/-- One thread holds `l` and wants `m`, another one holds `m` and wants `l`. -/
def Crossed (owner : Owners L T) (wants : T → Option L) (l m : L) : Prop :=
  ∃ a b, owner l = some a ∧ wants a = some m ∧ owner m = some b ∧ wants b = some l

end Locks
