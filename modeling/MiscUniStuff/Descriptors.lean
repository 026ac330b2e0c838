import Mathlib.Data.Multiset.AddSub
import Mathlib.Data.Multiset.ZeroCons
import Mathlib.Tactic

/-! The descriptors that are open after a list of system calls. A call comes with its
result, which is `none` where C has -1. -/
namespace Descriptors
variable {κ : Type*}

/-- What a call does to the descriptors: it returns a new one, closes one, or neither. -/
inductive Effect
  | opens | closes (fd : ℕ) | keeps

/-- The descriptors open after some calls, given those before them; `none` once one has
been closed that was not open. -/
def openAfter (effect : κ → Effect) : List (κ × Option ℕ) → Multiset ℕ → Option (Multiset ℕ)
  | [], own => some own
  | (c,r)::t, own =>
    match effect c,r with
    | .opens, some fd => openAfter effect t (fd ::ₘ own)
    | .opens, none => openAfter effect t own
    | .closes fd, _ => if fd ∈ own then openAfter effect t (own.erase fd) else none
    | .keeps, _ => openAfter effect t own

/-- Every descriptor that the calls open they close exactly once, and no other. -/
def Released (effect : κ → Effect) (t : List (κ × Option ℕ)) : Prop :=
  openAfter effect t 0 = some 0

variable {effect : κ → Effect} {c : κ} {r : Option ℕ} {t t' : List (κ × Option ℕ)}
  {own own' : Multiset ℕ} {fd : ℕ}

@[simp] theorem openAfter_nil : openAfter effect [] own = some own := rfl

theorem openAfter_opens (h : effect c = .opens) :
    openAfter effect ((c,some fd)::t) own = openAfter effect t (fd ::ₘ own) := by
  simp [openAfter,h]

theorem openAfter_keeps (h : effect c = .keeps) :
    openAfter effect ((c,r)::t) own = openAfter effect t own := by
  simp [openAfter,h]

theorem openAfter_closes (h : effect c = .closes fd) :
    openAfter effect ((c,r)::t) (fd ::ₘ own) = openAfter effect t own := by
  simp [openAfter,h]

theorem openAfter_append : openAfter effect (t ++ t') own =
    (openAfter effect t own).bind (openAfter effect t') := by
  induction t generalizing own with
  | nil => rfl
  | cons a t ih =>
    rcases a with ⟨c,r⟩
    simp only [List.cons_append,openAfter]
    cases effect c with
    | opens => cases r <;> simp [ih]
    | closes fd =>
      simp only
      split_ifs with hmem
      · exact ih
      · rfl
    | keeps => exact ih

/-- Calls that neither open nor close anything. -/
def Idle (effect : κ → Effect) (t : List (κ × Option ℕ)) : Prop := ∀ a ∈ t, effect a.1 = .keeps

theorem Idle.openAfter_append (h : Idle effect t) :
    openAfter effect (t ++ t') own = openAfter effect t' own := by
  induction t with
  | nil => rfl
  | cons a t ih =>
    have hhead := h a (by simp)
    have htail := ih fun b hb => h b (by simp [hb])
    rw [List.cons_append,openAfter_keeps hhead,htail]

theorem Idle.openAfter (h : Idle effect t) : openAfter effect t own = some own := by
  rw [← List.append_nil t,h.openAfter_append,openAfter_nil]

end Descriptors
