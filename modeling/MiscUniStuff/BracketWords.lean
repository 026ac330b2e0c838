import Mathlib.Tactic
import Mathlib.Data.List.Infix

/-! Bracket words over an arbitrary alphabet with one opening symbol `o` and one
closing symbol `c`; every other letter is neutral. The library has the first
return decomposition, the repair of a word that is not balanced, the matching
bracket of a position and its stability when the word is placed in a larger text,
and the shortest beginning that closes a given number of brackets more than it opens. -/
namespace BracketWords

variable {α : Type*}

/-! ### Stretches of a text -/

/-- The word `w` stands in the text `t` from position `p` on. -/
def Occurs (w : List α) (p : ℕ) (t : List α) : Prop :=
  ∃ u v, t = u++(w++v) ∧ p = u.length

namespace Occurs

variable {w g f t : List α} {p : ℕ} {o c x : α}

theorem whole (t : List α) : Occurs t 0 t := ⟨[],[],by simp,rfl⟩

theorem head (h : Occurs (x::w) p t) : t[p]? = some x := by
  obtain ⟨u,v,rfl,rfl⟩ := h
  simp

theorem lt_length (h : Occurs (x::w) p t) : p < t.length := by
  obtain ⟨u,v,rfl,rfl⟩ := h
  simp

theorem right (h : Occurs (g++f) p t) : Occurs f (p+g.length) t := by
  obtain ⟨u,v,rfl,rfl⟩ := h
  exact ⟨u++g,v,by simp,by simp⟩

theorem left (h : Occurs (g++f) p t) : Occurs g p t := by
  obtain ⟨u,v,rfl,rfl⟩ := h
  exact ⟨u,f++v,by simp,rfl⟩

theorem tail (h : Occurs (x::w) p t) : Occurs w (p+1) t :=
  right (g:=[x]) h

/-- The body of a loop, the closing bracket and the continuation. -/
theorem body (h : Occurs (o::(g++c::f)) p t) : Occurs g (p+1) t := h.tail.left

theorem close (h : Occurs (o::(g++c::f)) p t) : t[p+1+g.length]? = some c := h.tail.right.head

theorem rest (h : Occurs (o::(g++c::f)) p t) : Occurs f (p+1+g.length+1) t := h.tail.right.tail

end Occurs

/-! ### Balanced words -/

variable [DecidableEq α]

/-- Read after `k` open brackets, the word closes all of them and its own, and
never one that is not open. -/
def Closes (o c : α) (k : ℕ) (w : List α) : Prop :=
  (∀ u ∈ w.inits, u.count c ≤ u.count o+k) ∧ w.count c = w.count o+k

/-- No beginning of the word closes more than it has opened, and all is closed at the end. -/
abbrev Balanced (o c : α) (w : List α) : Prop := Closes o c 0 w

instance (o c : α) (k : ℕ) (w : List α) : Decidable (Closes o c k w) :=
  inferInstanceAs (Decidable (_ ∧ _))

variable {o c : α}

@[simp] theorem closes_nil {k : ℕ} : Closes o c k [] ↔ k = 0 := by
  simp only [Closes,List.inits,List.mem_singleton,forall_eq,List.count_nil]
  omega

theorem closes_cons (x : α) {k : ℕ} (w : List α) :
    Closes o c k (x::w) ↔
      (∀ u ∈ w.inits, (x::u).count c ≤ (x::u).count o+k) ∧ (x::w).count c = (x::w).count o+k := by
  simp [Closes]

theorem closes_open (hne : o ≠ c) {k : ℕ} (w : List α) :
    Closes o c k (o::w) ↔ Closes o c (k+1) w := by
  rw [closes_cons,Closes]
  simp only [List.count_cons_self,List.count_cons_of_ne hne]
  apply and_congr
  · exact forall₂_congr fun u _ => by omega
  · omega

theorem closes_close (hne : o ≠ c) {k : ℕ} (w : List α) :
    Closes o c (k+1) (c::w) ↔ Closes o c k w := by
  rw [closes_cons,Closes]
  simp only [List.count_cons_self,List.count_cons_of_ne hne.symm]
  apply and_congr
  · exact forall₂_congr fun u _ => by omega
  · omega

theorem not_closes_close (hne : o ≠ c) (w : List α) : ¬ Closes o c 0 (c::w) := by
  rw [closes_cons]
  intro h
  have hnil := h.1 [] (by simp)
  simp [List.count_cons_of_ne hne.symm] at hnil

theorem closes_skip {x : α} (ho : x ≠ o) (hc : x ≠ c) {k : ℕ} (w : List α) :
    Closes o c k (x::w) ↔ Closes o c k w := by
  rw [closes_cons,Closes]
  simp only [List.count_cons_of_ne ho,List.count_cons_of_ne hc]

/-- After a word that closes `j` brackets, `k` of the open ones are left. -/
theorem closes_append (hne : o ≠ c) {j k : ℕ} {g : List α} (hg : Closes o c j g) (f : List α) :
    Closes o c (j+k) (g++f) ↔ Closes o c k f := by
  induction g generalizing j with
  | nil =>
    have hj := closes_nil.mp hg
    simp [hj]
  | cons x g ih =>
    by_cases hxo : x = o
    · subst x
      rw [closes_open hne] at hg
      rw [List.cons_append,closes_open hne,← ih hg,Nat.add_right_comm]
    by_cases hxc : x = c
    · subst x
      cases j with
      | zero => exact absurd hg (not_closes_close hne g)
      | succ j =>
        rw [closes_close hne] at hg
        rw [List.cons_append,Nat.add_right_comm,closes_close hne,ih hg]
    · rw [closes_skip hxo hxc] at hg
      rw [List.cons_append,closes_skip hxo hxc,ih hg]

theorem balanced_append (hne : o ≠ c) {k : ℕ} {g : List α} (hg : Balanced o c g)
    (f : List α) : Closes o c k (g++f) ↔ Closes o c k f := by
  simpa only [Nat.zero_add] using closes_append (k:=k) hne hg f

theorem balanced_loop (hne : o ≠ c) {g : List α} (hg : Balanced o c g) (f : List α) :
    Balanced o c (o::(g++c::f)) ↔ Balanced o c f := by
  rw [Balanced,closes_open hne,balanced_append hne hg,closes_close hne]

/-- First return: the word splits at the bracket that closes the last one opened
before it. -/
theorem exists_close (hne : o ≠ c) {k : ℕ} {w : List α} (hw : Closes o c (k+1) w) :
    ∃ g f, w = g++c::f ∧ Balanced o c g ∧ Closes o c k f := by
  induction hn : w.length using Nat.strong_induction_on generalizing k w with
  | _ n ih =>
    cases w with
    | nil => simp at hw
    | cons x w =>
      simp only [List.length_cons] at hn
      by_cases hxc : x = c
      · subst x
        exact ⟨[],w,rfl,by simp,(closes_close hne w).mp hw⟩
      by_cases hxo : x = o
      · subst x
        rw [closes_open hne] at hw
        obtain ⟨g₁,f₁,rfl,hg₁,hf₁⟩ := ih w.length (by omega) hw rfl
        simp only [List.length_append,List.length_cons] at hn
        obtain ⟨g₂,f₂,rfl,hg₂,hf₂⟩ := ih f₁.length (by omega) hf₁ rfl
        refine ⟨o::(g₁++c::g₂),f₂,by simp,?_,hf₂⟩
        exact (balanced_loop hne hg₁ g₂).mpr hg₂
      · rw [closes_skip hxo hxc] at hw
        obtain ⟨g,f,rfl,hg,hf⟩ := ih w.length (by omega) hw rfl
        exact ⟨x::g,f,rfl,(closes_skip hxo hxc g).mpr hg,hf⟩

theorem balanced_open (hne : o ≠ c) {w : List α} (hw : Balanced o c (o::w)) :
    ∃ g f, w = g++c::f ∧ Balanced o c g ∧ Balanced o c f :=
  exists_close hne ((closes_open hne w).mp hw)

/-! ### Repaired words -/

/-- With `k` brackets open, drop the closing brackets that have none to close. -/
def dropStray (o c : α) : ℕ → List α → List α
  | _, [] => []
  | k, x::w =>
    if x = o then x::dropStray o c (k+1) w
    else if x = c ∧ k = 0 then dropStray o c 0 w
    else if x = c then x::dropStray o c (k-1) w
    else x::dropStray o c k w

/-- How many brackets are open behind the word, when `k` are open before it. -/
def unclosed (o c : α) : ℕ → List α → ℕ
  | k, [] => k
  | k, x::w =>
    if x = o then unclosed o c (k+1) w
    else if x = c then unclosed o c (k-1) w
    else unclosed o c k w

/-- Drop what closes nothing and close what is left open. -/
def repair (o c : α) (k : ℕ) (w : List α) : List α :=
  dropStray o c k w++List.replicate (unclosed o c k w) c

@[simp] theorem repair_nil (k : ℕ) : repair o c k [] = List.replicate k c := rfl

@[simp] theorem repair_open (k : ℕ) (w : List α) :
    repair o c k (o::w) = o::repair o c (k+1) w := by
  simp [repair,dropStray,unclosed]

theorem dropStray_append (k : ℕ) (w v : List α) : dropStray o c k (w ++ v) =
    dropStray o c k w ++ dropStray o c (unclosed o c k w) v := by
  induction w generalizing k with
  | nil => rfl
  | cons x w ih =>
    simp only [List.cons_append,dropStray,unclosed]
    split_ifs <;> simp_all

theorem unclosed_append (k : ℕ) (w v : List α) :
    unclosed o c k (w ++ v) = unclosed o c (unclosed o c k w) v := by
  induction w generalizing k with
  | nil => rfl
  | cons x w ih =>
    simp only [List.cons_append,unclosed]
    split_ifs
    · exact ih _
    · exact ih _
    · exact ih _

/-- Behind a word that leaves nothing open the repair starts anew. -/
theorem repair_append {w : List α} (h : unclosed o c 0 w = 0) (v : List α) :
    repair o c 0 (w ++ v) = repair o c 0 w ++ repair o c 0 v := by
  simp [repair,dropStray_append,unclosed_append,h]

theorem repair_stray (hne : o ≠ c) (w : List α) : repair o c 0 (c::w) = repair o c 0 w := by
  simp [repair,dropStray,unclosed,hne.symm]

theorem repair_close (hne : o ≠ c) (k : ℕ) (w : List α) :
    repair o c (k+1) (c::w) = c::repair o c k w := by
  simp [repair,dropStray,unclosed,hne.symm]

theorem repair_skip {x : α} (ho : x ≠ o) (hc : x ≠ c) (k : ℕ) (w : List α) :
    repair o c k (x::w) = x::repair o c k w := by
  simp [repair,dropStray,unclosed,ho,hc]

/-- There is nothing to repair in a word that closes all it finds open. -/
theorem repair_of_closes (hne : o ≠ c) {k : ℕ} {w : List α} (hw : Closes o c k w) :
    repair o c k w = w := by
  induction w generalizing k with
  | nil =>
    have hk := closes_nil.mp hw
    simp [hk]
  | cons x w ih =>
    by_cases hxo : x = o
    · subst x
      rw [repair_open,ih ((closes_open hne w).mp hw)]
    by_cases hxc : x = c
    · subst x
      cases k with
      | zero => exact absurd hw (not_closes_close hne w)
      | succ k => rw [repair_close hne,ih ((closes_close hne w).mp hw)]
    · rw [repair_skip hxo hxc,ih ((closes_skip hxo hxc w).mp hw)]

/-! ### Matching brackets -/

/-- The brackets at `i` and `j` belong together: what stands between them is balanced. -/
def Matches (o c : α) (w : List α) (i j : ℕ) : Prop :=
  i < j ∧ w[i]? = some o ∧ w[j]? = some c ∧ Balanced o c ((w.drop (i+1)).take (j-(i+1)))

instance (o c : α) (w : List α) (i j : ℕ) : Decidable (Matches o c w i j) :=
  inferInstanceAs (Decidable (_ ∧ _ ∧ _ ∧ _))

/-- The bracket that closes the one at `i`. -/
def closeOf (o c : α) (w : List α) (i : ℕ) : Option ℕ :=
  (List.range w.length).find? fun j => Matches o c w i j

/-- The bracket that the one at `j` closes. -/
def openOf (o c : α) (w : List α) (j : ℕ) : Option ℕ :=
  (List.range w.length).find? fun i => Matches o c w i j

theorem matches_iff {w : List α} {i j : ℕ} :
    Matches o c w i j ↔ ∃ u g f, w = u++o::(g++c::f) ∧ Balanced o c g ∧ i = u.length ∧
      j = u.length+1+g.length := by
  constructor
  · rintro ⟨hij,hi,hj,hg⟩
    obtain ⟨hil,hi⟩ := List.getElem?_eq_some_iff.mp hi
    obtain ⟨hjl,hj⟩ := List.getElem?_eq_some_iff.mp hj
    have hdrop : w.drop (i+1) =
        (w.drop (i+1)).take (j-(i+1)) ++ c::w.drop (j+1) := by
      have hsplit := List.take_append_drop (j-(i+1)) (w.drop (i+1))
      rw [List.drop_drop,show i+1+(j-(i+1)) = j by omega,List.drop_eq_getElem_cons hjl,hj] at hsplit
      exact hsplit.symm
    refine ⟨w.take i,_,w.drop (j+1),?_,hg,?_,?_⟩
    · rw [← hdrop,← hi,← List.drop_eq_getElem_cons hil,List.take_append_drop]
    · simp only [List.length_take]
      omega
    · simp only [List.length_take,List.length_drop]
      omega
  · rintro ⟨u,g,f,rfl,hg,rfl,rfl⟩
    have hdrop : (u++o::(g++c::f)).drop (u.length+1) = g++c::f := by
      rw [List.append_cons]
      exact List.drop_left' (by simp)
    refine ⟨by omega,by simp,?_,?_⟩
    · rw [List.append_cons,List.getElem?_append_right (by simp)]
      simp
    · rw [hdrop,show u.length+1+g.length-(u.length+1) = g.length by omega,List.take_left]
      exact hg

/-- A balanced word followed by a closing bracket is no beginning of a balanced word. -/
theorem not_balanced_early_close (hne : o ≠ c) {g f : List α} (hg : Balanced o c g) :
    ¬ Balanced o c (g++c::f) := by
  rw [Balanced,balanced_append hne hg]
  exact not_closes_close hne f

theorem close_unique_aux (hne : o ≠ c) {g g' f f' : List α} (hg : Balanced o c g)
    (hg' : Balanced o c g') (h : g++c::f = g'++c::f') : g.length ≤ g'.length := by
  by_contra hlt
  obtain ⟨t,ht⟩ : ∃ t, g = g'++c::t := by
    obtain ⟨t,ht⟩ := List.prefix_of_prefix_length_le
      (List.prefix_append g' (c::f')) (h ▸ List.prefix_append g (c::f)) (by omega)
    cases t with
    | nil => simp only [List.append_nil] at ht; subst ht; omega
    | cons x t =>
      rw [← ht,List.append_assoc,List.append_cancel_left_eq] at h
      simp only [List.cons_append,List.cons.injEq] at h
      exact ⟨t,by rw [← ht,h.1]⟩
  subst g
  exact not_balanced_early_close hne hg' hg

theorem matches_close_unique (hne : o ≠ c) {w : List α} {i j j' : ℕ} (h : Matches o c w i j)
    (h' : Matches o c w i j') : j = j' := by
  obtain ⟨u,g,f,rfl,hg,rfl,rfl⟩ := matches_iff.mp h
  obtain ⟨u',g',f',hw,hg',hu,rfl⟩ := matches_iff.mp h'
  obtain ⟨rfl,htail⟩ := List.append_inj hw hu
  have hinner := (List.cons.inj htail).2
  have h₁ := close_unique_aux hne hg hg' hinner
  have h₂ := close_unique_aux hne hg' hg hinner.symm
  omega

theorem matches_open_unique_aux (hne : o ≠ c) {w : List α} {i i' j : ℕ}
    (h : Matches o c w i j) (h' : Matches o c w i' j) : i' ≤ i := by
  by_contra hlt
  obtain ⟨u,g,f,rfl,hg,rfl,hj⟩ := matches_iff.mp h
  obtain ⟨u',g',f',hw,hg',rfl,hj'⟩ := matches_iff.mp h'
  -- the later opening bracket stands inside the text between the earlier one and `j`
  obtain ⟨v,rfl⟩ : ∃ v, u' = u++o::v := by
    have hpre : u++[o] <+: u' := by
      refine @List.prefix_of_prefix_length_le _ _ _ (u++o::(g++c::f)) ⟨g++c::f,by simp⟩ ?_ ?_
      · rw [hw]
        exact List.prefix_append _ _
      · simp only [List.length_append,List.length_singleton]
        omega
    obtain ⟨v,hv⟩ := hpre
    exact ⟨v,by rw [← hv]; simp⟩
  simp only [List.append_assoc,List.cons_append,List.append_cancel_left_eq,List.cons.injEq,
    true_and] at hw
  simp only [List.length_append,List.length_cons] at hj'
  have hgv : g = v++o::g' := by
    have hw' : g++c::f = (v++o::g')++c::f' := by simpa using hw
    exact (List.append_inj hw' (by simp; omega)).1
  subst g
  have hv := hg.1 v (by simp)
  have hall := hg.2
  have hg'' := hg'.2
  simp only [List.count_append,List.count_cons_self,List.count_cons_of_ne hne] at hall
  omega

theorem matches_open_unique (hne : o ≠ c) {w : List α} {i i' j : ℕ} (h : Matches o c w i j)
    (h' : Matches o c w i' j) : i = i' :=
  le_antisymm (matches_open_unique_aux hne h' h) (matches_open_unique_aux hne h h')

theorem find_range_of_unique {p : ℕ → Prop} [DecidablePred p] {n j : ℕ} (hj : p j) (hn : j < n)
    (huniq : ∀ i, p i → i = j) : (List.range n).find? (fun i => p i) = some j := by
  rw [List.find?_range_eq_some]
  refine ⟨by simpa using hj,by simpa using hn,?_⟩
  intro i hi
  have hne : ¬ p i := fun hpi => by have := huniq i hpi; omega
  simpa using hne

namespace Occurs

variable {g f t : List α} {p : ℕ}

theorem matches_loop (hg : Balanced o c g) (h : Occurs (o::(g++c::f)) p t) :
    Matches o c t p (p+1+g.length) := by
  obtain ⟨u,v,rfl,rfl⟩ := h
  exact matches_iff.mpr ⟨u,g,f++v,by simp,hg,rfl,rfl⟩

/-- The opening bracket of a loop finds its closing bracket. -/
theorem closeOf_eq (hne : o ≠ c) (hg : Balanced o c g) (h : Occurs (o::(g++c::f)) p t) :
    closeOf o c t p = some (p+1+g.length) :=
  find_range_of_unique (h.matches_loop hg) h.tail.right.lt_length
    fun _ hj => matches_close_unique hne hj (h.matches_loop hg)

theorem openOf_eq (hne : o ≠ c) (hg : Balanced o c g) (h : Occurs (o::(g++c::f)) p t) :
    openOf o c t (p+1+g.length) = some p :=
  find_range_of_unique (h.matches_loop hg) h.lt_length
    fun _ hi => matches_open_unique hne hi (h.matches_loop hg)

end Occurs

/-! ### Shortest beginnings -/

/-- How many more closing than opening brackets the word has. -/
def excess (o c : α) (w : List α) : ℤ := w.count c-w.count o

/-- Some beginning of the word has excess `n`. -/
def Reaches (o c : α) (n : ℤ) (w : List α) : Prop := ∃ p, p <+: w ∧ excess o c p = n

/-- `g` with its closing bracket is the shortest beginning of `w` with excess `n`,
and `f` is what follows it. -/
structure SplitsAt (o c : α) (n : ℤ) (w g f : List α) : Prop where
  split : w = g++c::f
  excess_eq : excess o c (g++[c]) = n
  shortest : ∀ p, p <+: w → excess o c p = n → (g++[c]).length ≤ p.length

@[simp] theorem excess_nil : excess o c [] = 0 := by simp [excess]

theorem excess_cons (x : α) (w : List α) :
    excess o c (x::w) = excess o c [x]+excess o c w := by
  have happend : ∀ d : α, (x::w).count d = [x].count d+w.count d :=
    fun d => @List.count_append _ _ d [x] w
  simp only [excess,happend]
  omega

@[simp] theorem excess_open (hne : o ≠ c) : excess o c [o] = -1 := by
  simp [excess,List.count_cons_of_ne hne]

@[simp] theorem excess_close (hne : o ≠ c) : excess o c [c] = 1 := by
  simp [excess,List.count_cons_of_ne hne.symm]

theorem excess_skip {x : α} (ho : x ≠ o) (hc : x ≠ c) : excess o c [x] = 0 := by
  simp [excess,List.count_cons_of_ne ho,List.count_cons_of_ne hc]

theorem not_reaches_nil {n : ℤ} (hn : n ≠ 0) : ¬ Reaches o c n [] := by
  rintro ⟨p,hp,hex⟩
  rw [List.prefix_nil.mp hp,excess_nil] at hex
  exact hn hex.symm

/-- A beginning with an excess other than 0 has the first letter. -/
theorem exists_cons_of_excess {n : ℤ} (hn : n ≠ 0) {x : α} {p w : List α} (hp : p <+: x::w)
    (hex : excess o c p = n) :
    ∃ q, p = x::q ∧ q <+: w ∧ excess o c q = n-excess o c [x] := by
  rcases List.prefix_cons_iff.mp hp with rfl | ⟨q,rfl,hq⟩
  · exact absurd hex.symm hn
  · rw [excess_cons] at hex
    exact ⟨q,rfl,hq,by omega⟩

theorem reaches_cons {n : ℤ} (hn : n ≠ 0) (x : α) (w : List α) :
    Reaches o c n (x::w) ↔ Reaches o c (n-excess o c [x]) w := by
  constructor
  · rintro ⟨p,hp,hex⟩
    obtain ⟨q,rfl,hq,hex⟩ := exists_cons_of_excess hn hp hex
    exact ⟨q,hq,hex⟩
  · rintro ⟨q,hq,hex⟩
    refine ⟨x::q,List.prefix_cons_inj x |>.mpr hq,?_⟩
    rw [excess_cons,hex]
    omega

theorem splitsAt_cons {n : ℤ} (hn : n ≠ 0) {x : α} {w g f : List α}
    (h : SplitsAt o c (n-excess o c [x]) w g f) : SplitsAt o c n (x::w) (x::g) f where
  split := by rw [h.split]; rfl
  excess_eq := by
    rw [List.cons_append,excess_cons,h.excess_eq]
    omega
  shortest := by
    intro p hp hex
    obtain ⟨q,rfl,hq,hex⟩ := exists_cons_of_excess hn hp hex
    exact Nat.succ_le_succ (h.shortest q hq hex)

theorem splitsAt_close (hne : o ≠ c) (w : List α) : SplitsAt o c 1 (c::w) [] w where
  split := rfl
  excess_eq := excess_close hne
  shortest := by
    intro p hp hex
    obtain ⟨q,rfl,hq,hex⟩ := exists_cons_of_excess one_ne_zero hp hex
    simp

theorem SplitsAt.reaches {n : ℤ} {w g f : List α} (h : SplitsAt o c n w g f) :
    Reaches o c n w := ⟨g++[c],⟨f,by rw [h.split]; simp⟩,h.excess_eq⟩

end BracketWords
