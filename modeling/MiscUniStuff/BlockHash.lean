import Mathlib.Data.List.Basic
import Mathlib.Data.Nat.Basic
import Mathlib.Tactic

/-! Hash functions that fold a compression function over blocks of one size: what a part of
the input that has been folded says about the rest, and what equal digests say about the
compression function. -/
namespace BlockHash

variable {α : Type*} {σ : Type*}

/-- `f` over the first `k` blocks of `n`. -/
def blocks (n : ℕ) (f : σ → List α → σ) : ℕ → σ → List α → σ
  | 0, s, _ => s
  | k+1, s, xs => blocks n f k (f s (xs.take n)) (xs.drop n)

/-- `f` over all the whole blocks of `n`. -/
def fold (n : ℕ) (f : σ → List α → σ) (s : σ) (xs : List α) : σ :=
  blocks n f (xs.length/n) s xs

section Fold
variable {n : ℕ} {f : σ → List α → σ}

theorem blocks_append (k l : ℕ) (s : σ) {xs : List α} (ys : List α) (hxs : xs.length = n*k) :
    blocks n f (k+l) s (xs ++ ys) = blocks n f l (blocks n f k s xs) ys := by
  induction k generalizing s xs with
  | zero =>
    have hnil : xs = [] := by simpa using hxs
    simp [blocks,hnil]
  | succ k ih =>
    have hn : n ≤ xs.length := by rw [hxs]; exact Nat.le_mul_of_pos_right n (by omega)
    have hdrop : (xs.drop n).length = n*k := by
      rw [List.length_drop,hxs,Nat.mul_succ]
      omega
    rw [Nat.add_right_comm,blocks,blocks,List.take_append_of_le_length hn,
      List.drop_append_of_le_length hn]
    exact ih (f s (xs.take n)) hdrop

@[simp] theorem fold_nil (s : σ) : fold n f s ([] : List α) = s := by
  simp [fold,blocks]

/-- Whole blocks first, and then the rest. -/
theorem fold_append (s : σ) {xs : List α} (ys : List α) (hxs : n ∣ xs.length) :
    fold n f s (xs ++ ys) = fold n f (fold n f s xs) ys := by
  have hk : xs.length = n*(xs.length/n) := (Nat.mul_div_cancel' hxs).symm
  have hdiv : (xs ++ ys).length/n = xs.length/n + ys.length/n := by
    rw [List.length_append,Nat.add_div_of_dvd_right hxs]
  rw [fold,hdiv]
  exact blocks_append _ _ s ys hk

theorem fold_block (hn : 0 < n) (s : σ) {xs : List α} (h : xs.length = n) :
    fold n f s xs = f s xs := by
  have hdiv : xs.length/n = 1 := by rw [h,Nat.div_self hn]
  have htake : xs.take n = xs := List.take_of_length_le (by omega)
  rw [fold,hdiv,blocks,blocks,htake]

end Fold

/-! ### Input that comes piece by piece -/

/-- Of `input` all but `rest` has been folded, in whole blocks. -/
def Absorbed (n : ℕ) (f : σ → List α → σ) (iv : σ) (input : List α) (s : σ) (rest : List α) :
    Prop :=
  ∃ front, input = front ++ rest ∧ n ∣ front.length ∧ s = fold n f iv front

namespace Absorbed
variable {n : ℕ} {f : σ → List α → σ} {iv s : σ} {input rest : List α}

theorem more (h : Absorbed n f iv input s rest) (xs : List α) :
    Absorbed n f iv (input ++ xs) s (rest ++ xs) := by
  obtain ⟨front,rfl,hdvd,hs⟩ := h
  exact ⟨front,List.append_assoc ..,hdvd,hs⟩

theorem start : Absorbed n f iv ([] : List α) iv [] :=
  ⟨[],rfl,dvd_zero n,(fold_nil iv).symm⟩

/-- Whole blocks at the front of what waits are folded. -/
theorem compress {xs ys : List α} (h : Absorbed n f iv input s (xs ++ ys)) (hxs : n ∣ xs.length) :
    Absorbed n f iv input (fold n f s xs) ys := by
  obtain ⟨front,hinput,hdvd,hs⟩ := h
  refine ⟨front ++ xs,?_,?_,?_⟩
  · rw [hinput,List.append_assoc]
  · rw [List.length_append]
    exact dvd_add hdvd hxs
  · rw [fold_append iv xs hdvd,hs]

theorem finish (h : Absorbed n f iv input s rest) (ys : List α) :
    fold n f s (rest ++ ys) = fold n f iv (input ++ ys) := by
  obtain ⟨front,rfl,hdvd,rfl⟩ := h
  rw [List.append_assoc,fold_append iv _ hdvd]

end Absorbed

/-! ### Padding that ends in the length -/

/-- What is put behind an input of `k` elements so that whole blocks come out: a filling,
and a count that tells lengths below `limit` apart. -/
structure Padding (α : Type*) (n limit : ℕ) where
  fill : ℕ → List α
  count : ℕ → List α
  width : ℕ
  length_count : ∀ k, (count k).length = width
  width_le : width ≤ n
  whole : ∀ k, n ∣ k + (fill k).length + width
  count_inj : ∀ k l, k < limit → l < limit → count k = count l → k = l

section Collisions
variable {n limit : ℕ} {f : σ → List α → σ} {iv : σ}

/-- The input with its padding. -/
def Padding.pad (p : Padding α n limit) (m : List α) : List α :=
  m ++ p.fill m.length ++ p.count m.length

/-- The digest before it is written out. -/
def Padding.digest (p : Padding α n limit) (f : σ → List α → σ) (iv : σ) (m : List α) : σ :=
  fold n f iv (p.pad m)

theorem Padding.length_pad (p : Padding α n limit) (m : List α) :
    (p.pad m).length = m.length + (p.fill m.length).length + p.width := by
  simp only [pad,List.length_append,p.length_count]

theorem Padding.dvd_pad (p : Padding α n limit) (m : List α) : n ∣ (p.pad m).length := by
  rw [p.length_pad]
  exact p.whole m.length

/-- Two inputs of the compression function that differ and have one result. -/
def Collision (n : ℕ) (f : σ → List α → σ) : Prop :=
  ∃ s t xs ys, xs.length = n ∧ ys.length = n ∧ ¬(s = t ∧ xs = ys) ∧ f s xs = f t ys

/-- Folds of as many blocks that agree in the end have agreed throughout, or there is a
collision on the way. -/
theorem blocks_inj (k : ℕ) {s t : σ} {xs ys : List α} (hxs : xs.length = n*k)
    (hys : ys.length = n*k) (h : blocks n f k s xs = blocks n f k t ys) :
    Collision n f ∨ s = t ∧ xs = ys := by
  induction k generalizing s t xs ys with
  | zero =>
    have hnx : xs = [] := by simpa using hxs
    have hny : ys = [] := by simpa using hys
    exact Or.inr ⟨h,hnx.trans hny.symm⟩
  | succ k ih =>
    have hle : n ≤ n*(k+1) := Nat.le_mul_of_pos_right n (by omega)
    have hdx : (xs.drop n).length = n*k := by rw [List.length_drop,hxs,Nat.mul_succ]; omega
    have hdy : (ys.drop n).length = n*k := by rw [List.length_drop,hys,Nat.mul_succ]; omega
    rcases ih hdx hdy h with hc | ⟨hstep,hdrop⟩
    · exact Or.inl hc
    by_cases hsame : s = t ∧ xs.take n = ys.take n
    · have hxy : xs = ys := by
        rw [← List.take_append_drop n xs,← List.take_append_drop n ys,hsame.2,hdrop]
      exact Or.inr ⟨hsame.1,hxy⟩
    · have htx : (xs.take n).length = n := by rw [List.length_take,hxs]; omega
      have hty : (ys.take n).length = n := by rw [List.length_take,hys]; omega
      exact Or.inl ⟨s,t,xs.take n,ys.take n,htx,hty,hsame,hstep⟩

theorem fold_inj {s t : σ} {xs ys : List α} (hdvd : n ∣ xs.length) (hlen : ys.length = xs.length)
    (h : fold n f s xs = fold n f t ys) : Collision n f ∨ s = t ∧ xs = ys := by
  have hk : xs.length = n*(xs.length/n) := (Nat.mul_div_cancel' hdvd).symm
  rw [fold,fold,hlen] at h
  exact blocks_inj _ hk (hlen.trans hk) h

/-- The last block of a fold, with what comes before it. -/
theorem fold_last (f : σ → List α → σ) (iv : σ) (hn : 0 < n) {xs : List α}
    (hdvd : n ∣ xs.length) (hpos : 0 < xs.length) :
    ∃ s last, last.length = n ∧ fold n f iv xs = f s last ∧
      last = xs.drop (xs.length - n) := by
  have hle : n ≤ xs.length := Nat.le_of_dvd hpos hdvd
  have htake : (xs.take (xs.length-n)).length = xs.length - n := by
    rw [List.length_take]
    omega
  have hdrop : (xs.drop (xs.length-n)).length = n := by
    rw [List.length_drop]
    omega
  have hfront : n ∣ (xs.take (xs.length-n)).length := by
    rw [htake]
    exact Nat.dvd_sub hdvd dvd_rfl
  refine ⟨fold n f iv (xs.take (xs.length-n)),xs.drop (xs.length-n),hdrop,?_,rfl⟩
  conv_lhs => rw [← List.take_append_drop (xs.length-n) xs]
  rw [fold_append iv _ hfront,fold_block hn _ hdrop]

/-- The count lies at the end of the last block. -/
theorem Padding.drop_pad (p : Padding α n limit) (m : List α) :
    (p.pad m).drop ((p.pad m).length - p.width) = p.count m.length := by
  have hlen := p.length_pad m
  have hcut : (p.pad m).length - p.width = (m ++ p.fill m.length).length := by
    rw [hlen,List.length_append]
    omega
  rw [hcut,pad,List.drop_left]

/-- Different inputs with one digest give a collision of the compression function. -/
theorem Padding.collision (p : Padding α n limit) (hn : 0 < n) (hwidth : 0 < p.width)
    {m m' : List α} (hm : m.length < limit) (hm' : m'.length < limit) (hne : m ≠ m')
    (h : p.digest f iv m = p.digest f iv m') : Collision n f := by
  by_cases hlen : m.length = m'.length
  · have hpadlen : (p.pad m').length = (p.pad m).length := by
      rw [p.length_pad,p.length_pad,hlen]
    rcases fold_inj (p.dvd_pad m) hpadlen h with hc | ⟨_,hpad⟩
    · exact hc
    · rw [pad,pad,hlen,List.append_assoc,List.append_assoc] at hpad
      exact absurd (List.append_cancel_right hpad) hne
  · have hpos (x : List α) : 0 < (p.pad x).length := by
      rw [p.length_pad]
      omega
    obtain ⟨s,last,hl,hs,hlast⟩ := fold_last f iv hn (p.dvd_pad m) (hpos m)
    obtain ⟨t,last',hl',ht,hlast'⟩ := fold_last f iv hn (p.dvd_pad m') (hpos m')
    refine ⟨s,t,last,last',hl,hl',?_,?_⟩
    · rintro ⟨_,heq⟩
      -- the ends of the last blocks are the counts
      have hend (x : List α) (hx : n ≤ (p.pad x).length) :
          ((p.pad x).drop ((p.pad x).length-n)).drop (n-p.width) = p.count x.length := by
        have hw := p.width_le
        rw [List.drop_drop,← p.drop_pad x]
        congr 1
        omega
      have hx := hend m (Nat.le_of_dvd (hpos m) (p.dvd_pad m))
      have hy := hend m' (Nat.le_of_dvd (hpos m') (p.dvd_pad m'))
      rw [← hlast,heq] at hx
      rw [← hlast',hx] at hy
      exact hlen (p.count_inj _ _ hm hm' hy)
    · rw [← hs,← ht]
      exact h

end Collisions

end BlockHash
