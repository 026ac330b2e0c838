import Mathlib.Algebra.BigOperators.Group.List.Basic
import Mathlib.Tactic

/-! A list used as a bag of things in transit: one of them is taken out by its position
and others are put in. -/
namespace Bags
variable {α β : Type*} {l m : List α} {i : ℕ} {a : α}

/-- Take the thing at position `i` out and put `new` in. -/
def exchange (l : List α) (i : ℕ) (new : List α) : List α := l.eraseIdx i ++ new

theorem perm_cons_eraseIdx (h : l[i]? = some a) : l.Perm (a :: l.eraseIdx i) := by
  obtain ⟨hi,rfl⟩ := List.getElem?_eq_some_iff.mp h
  exact (List.getElem_cons_eraseIdx_perm hi).symm

theorem mem_of_mem_exchange {b : α} (h : b ∈ exchange l i m) : b ∈ l ∨ b ∈ m := by
  rcases List.mem_append.mp h with hb | hb
  · exact .inl (List.mem_of_mem_eraseIdx hb)
  · exact .inr hb

theorem forall_exchange {P : α → Prop} (hl : ∀ b ∈ l, P b) (hm : ∀ b ∈ m, P b) :
    ∀ b ∈ exchange l i m, P b := by
  intro b hb
  rcases mem_of_mem_exchange hb with h | h
  · exact hl b h
  · exact hm b h

/-- Weights: what is taken out is traded for what is put in. -/
theorem sum_exchange (weight : α → ℕ) (h : l[i]? = some a) :
    ((exchange l i m).map weight).sum+weight a = (l.map weight).sum+(m.map weight).sum := by
  have hh := ((perm_cons_eraseIdx h).map weight).sum_eq
  simp only [List.map_cons,List.sum_cons] at hh
  simp only [exchange,List.map_append,List.sum_append]
  omega

theorem countP_exchange (p : α → Bool) (h : l[i]? = some a) :
    (exchange l i m).countP p+(if p a then 1 else 0) = l.countP p+m.countP p := by
  have hh := (perm_cons_eraseIdx h).countP_eq p
  rw [List.countP_cons] at hh
  rw [exchange,List.countP_append]
  omega

theorem countP_exchange_nil_le (p : α → Bool) : (exchange l i []).countP p ≤ l.countP p := by
  rw [exchange,List.append_nil]
  exact (List.eraseIdx_sublist l i).countP_le

theorem sum_exchange_nil_le (weight : α → ℕ) :
    ((exchange l i []).map weight).sum ≤ (l.map weight).sum := by
  cases h : l[i]? with
  | none =>
    have hlen := List.getElem?_eq_none_iff.mp h
    simp [exchange,List.eraseIdx_of_length_le hlen]
  | some a =>
    have hh := sum_exchange (m:=[]) weight h
    simp only [List.map_nil,List.sum_nil] at hh
    omega

/-- A symmetric relation between any two things stays if what is put in is related to
everything that what is taken out was related to. -/
theorem pairwise_exchange {R : α → α → Prop} (hsymm : ∀ {b c}, R b c → R c b)
    (hl : l.Pairwise R) (h : l[i]? = some a) (hm : m.Pairwise R)
    (hnew : ∀ b ∈ m, ∀ c, R c a → R c b) : (exchange l i m).Pairwise R := by
  have hcons := (perm_cons_eraseIdx h).pairwise hl hsymm
  rw [List.pairwise_cons] at hcons
  refine List.pairwise_append.mpr ⟨hcons.2,hm,fun c hc b hb => ?_⟩
  exact hnew b hb c (hsymm (hcons.1 c hc))

theorem pairwise_exchange_nil {R : α → α → Prop} (hl : l.Pairwise R) :
    (exchange l i []).Pairwise R := by
  simpa [exchange] using hl.sublist (List.eraseIdx_sublist l i)

end Bags
