import Mathlib.Tactic
import Mathlib.Data.List.Induction
import Mathlib.Data.Set.Finite.List

/-! Relative paths as walks in a tree of directories. A path is the list of its
moves; the place it names is found without looking at any directory, and it is
the same place whatever the working directory. -/
namespace Paths

variable {α : Type*}

/-- To the parent directory, or to an entry of the directory. -/
inductive Move (α : Type*)
  | up
  | down (x : α)
  deriving DecidableEq

/-- So many directories up from the working directory, then down along the names,
of which the last is first in the list. -/
structure Place (α : Type*) where
  ups : ℕ
  names : List α
  deriving DecidableEq

def Place.move : Place α → Move α → Place α
  | ⟨k,l⟩, .down x => ⟨k,x::l⟩
  | ⟨k,[]⟩, .up => ⟨k+1,[]⟩
  | ⟨k,_::l⟩, .up => ⟨k,l⟩

def walk (p : Place α) (w : List (Move α)) : Place α := w.foldl Place.move p

@[simp] theorem walk_nil (p : Place α) : walk p [] = p := rfl

@[simp] theorem walk_cons (p : Place α) (m : Move α) (w : List (Move α)) :
    walk p (m::w) = walk (p.move m) w := rfl

theorem walk_append (p : Place α) (u v : List (Move α)) :
    walk p (u++v) = walk (walk p u) v := List.foldl_append

/-- The place a path names. -/
def resolve (w : List (Move α)) : Place α := walk ⟨0,[]⟩ w

/-- The directory itself or something below it. -/
def Place.Under (d p : Place α) : Prop := p.ups = d.ups ∧ d.names <:+ p.names

/-! ### What a place means -/

/-- The moves made from a directory of the tree, given by the names on the way to it from
the root, the last one first. The root is its own parent. -/
def follow (cwd : List α) (w : List (Move α)) : List α :=
  w.foldl (fun l m => match m with | .up => l.tail | .down x => x::l) cwd

theorem follow_walk (cwd : List α) (p : Place α) (w : List (Move α)) :
    follow (p.names++cwd.drop p.ups) w = (walk p w).names++cwd.drop (walk p w).ups := by
  induction w generalizing p with
  | nil => rfl
  | cons m w ih =>
    obtain ⟨k,l⟩ := p
    cases m with
    | down x => exact ih ⟨k,x::l⟩
    | up =>
      cases l with
      | cons x l => exact ih ⟨k,l⟩
      | nil =>
        have hh := ih ⟨k+1,[]⟩
        simpa only [follow,walk_cons,Place.move,List.foldl_cons,List.nil_append,List.tail_drop]
          using hh

theorem follow_eq (cwd : List α) (w : List (Move α)) :
    follow cwd w = (resolve w).names++cwd.drop (resolve w).ups :=
  follow_walk cwd ⟨0,[]⟩ w

theorem replicate_prefix {c : α} {p q : ℕ} {x y : List α} (hx : x ≠ []) (hcx : c ∉ x)
    (hcy : c ∉ y) (h : List.replicate p c++x <+: List.replicate q c++y) : p = q ∧ x <+: y := by
  induction p generalizing q with
  | zero =>
    cases q with
    | zero => exact ⟨rfl,h⟩
    | succ q =>
      cases x with
      | nil => exact absurd rfl hx
      | cons z x =>
        have hz := (List.cons_prefix_cons.mp h).1
        exact absurd (hz ▸ List.mem_cons_self) hcx
  | succ p ih =>
    cases q with
    | zero =>
      have hc := h.subset (List.mem_cons_self)
      exact absurd hc hcy
    | succ q =>
      obtain ⟨hpq,hxy⟩ := ih (List.cons_prefix_cons.mp h).2
      exact ⟨congrArg (·+1) hpq,hxy⟩

/-- Being under a directory by its place is being under it from every working directory,
unless the directory holds the working directory. -/
theorem under_iff_follow [Infinite α] {d w : List (Move α)} (hd : (resolve d).names ≠ []) :
    (resolve d).Under (resolve w) ↔ ∀ cwd : List α, follow cwd d <:+ follow cwd w := by
  constructor
  · rintro ⟨hups,l,hl⟩ cwd
    rw [follow_eq,follow_eq,hups,← hl]
    exact ⟨l,(List.append_assoc _ _ _).symm⟩
  · intro h
    obtain ⟨c,hc⟩ := (List.finite_toSet ((resolve d).names++(resolve w).names)).exists_notMem
    simp only [List.mem_append,Set.mem_ofPred_eq,not_or] at hc
    -- a working directory so deep that both places keep a part of it
    have hh := h (List.replicate ((resolve d).ups+(resolve w).ups) c)
    rw [follow_eq,follow_eq,← List.reverse_prefix] at hh
    simp only [List.drop_replicate,List.reverse_append,List.reverse_replicate,
      Nat.add_sub_cancel_left,Nat.add_sub_cancel] at hh
    obtain ⟨hups,hnames⟩ := replicate_prefix (by simpa using hd) (by simpa using hc.1)
      (by simpa using hc.2) hh
    exact ⟨hups,List.reverse_prefix.mp hnames⟩

/-! ### Walks that come back -/

/-- How far below its start a walk ends. -/
def level : List (Move α) → ℤ
  | [] => 0
  | .up::w => level w-1
  | .down _::w => level w+1

theorem level_append (u v : List (Move α)) : level (u++v) = level u+level v := by
  induction u with
  | nil => simp [level]
  | cons m u ih =>
    cases m <;> simp only [List.cons_append,level,ih] <;> ring

/-- The walk is never more than `n` levels above its start. -/
def Within (n : ℕ) (w : List (Move α)) : Prop := ∀ u ∈ w.inits, -(n : ℤ) ≤ level u

instance (n : ℕ) (w : List (Move α)) : Decidable (Within n w) :=
  inferInstanceAs (Decidable (∀ u ∈ w.inits, -(n : ℤ) ≤ level u))

theorem within_nil (n : ℕ) : Within n ([] : List (Move α)) := by
  simp [Within,level]

theorem within_down {n : ℕ} {x : α} {w : List (Move α)} :
    Within n (.down x::w) ↔ Within (n+1) w := by
  simp only [Within,List.inits_cons,List.forall_mem_cons,List.forall_mem_map,level]
  push_cast
  constructor
  · intro h u hu
    have hh := h.2 u hu
    omega
  · intro h
    refine ⟨by omega,fun u hu => ?_⟩
    have hh := h u hu
    omega

theorem within_up {n : ℕ} {w : List (Move α)} : Within (n+1) (.up::w) ↔ Within n w := by
  simp only [Within,List.inits_cons,List.forall_mem_cons,List.forall_mem_map,level]
  push_cast
  constructor
  · intro h u hu
    have hh := h.2 u hu
    omega
  · intro h
    refine ⟨by omega,fun u hu => ?_⟩
    have hh := h u hu
    omega

theorem not_within_up {w : List (Move α)} : ¬Within 0 (.up::w) := by
  intro h
  have hh := h [.up] (by simp)
  simp [level] at hh

theorem within_concat {n : ℕ} {w : List (Move α)} {m : Move α} :
    Within n (w++[m]) ↔ Within n w ∧ -(n : ℤ) ≤ level (w++[m]) := by
  simp only [Within,List.mem_inits,List.prefix_concat_iff]
  constructor
  · intro h
    exact ⟨fun u hu => h u (.inr hu),h _ (.inl rfl)⟩
  · rintro ⟨h₁,h₂⟩ u (rfl | hu)
    · exact h₂
    · exact h₁ u hu

theorem within_append {n j : ℕ} {u v : List (Move α)} (hu : Within n u) (hv : Within j v)
    (hj : (j : ℤ) ≤ n+level u) : Within n (u++v) := by
  induction v using List.reverseRecOn with
  | nil => simpa using hu
  | append_singleton v m ih =>
    obtain ⟨hv,hm⟩ := within_concat.mp hv
    rw [← List.append_assoc]
    refine within_concat.mpr ⟨ih hv,?_⟩
    rw [List.append_assoc,level_append]
    omega

theorem Within.mono {n k : ℕ} {w : List (Move α)} (h : Within n w) (hnk : n ≤ k) : Within k w := by
  intro u hu
  have hh := h u hu
  omega

/-- A walk that stays below the last `n` names only exchanges these. -/
theorem walk_within {n k : ℕ} {w : List (Move α)} (h : Within n w) (l r : List α)
    (hl : l.length = n) : ∃ t, walk ⟨k,l++r⟩ w = ⟨k,t++r⟩ ∧ (t.length : ℤ) = n+level w := by
  induction w generalizing n l with
  | nil => exact ⟨l,rfl,by simp [level,hl]⟩
  | cons m w ih =>
    cases m with
    | down x =>
      obtain ⟨t,ht,hlen⟩ := ih (within_down.mp h) (x::l) (by simp [hl])
      refine ⟨t,ht,?_⟩
      simp only [level]
      push_cast at hlen
      omega
    | up =>
      cases l with
      | nil =>
        subst n
        exact absurd h not_within_up
      | cons x l =>
        subst n
        obtain ⟨t,ht,hlen⟩ := ih (within_up.mp h) l rfl
        refine ⟨t,ht,?_⟩
        simp only [level,List.length_cons]
        push_cast
        omega

theorem ups_le_walk (p : Place α) (w : List (Move α)) : p.ups ≤ (walk p w).ups := by
  induction w generalizing p with
  | nil => exact le_rfl
  | cons m w ih =>
    have hm : p.ups ≤ (p.move m).ups := by
      obtain ⟨k,l⟩ := p
      cases m <;> cases l <;> simp [Place.move]
    exact hm.trans (ih (p.move m))

/-- A walk that goes further up does not come back. -/
theorem ups_lt_walk {n k : ℕ} {w : List (Move α)} (h : ¬Within n w) (l : List α)
    (hl : l.length = n) : k < (walk ⟨k,l⟩ w).ups := by
  induction w generalizing n l with
  | nil => exact absurd (within_nil n) h
  | cons m w ih =>
    cases m with
    | down x => exact ih (fun hw => h (within_down.mpr hw)) (x::l) (by simp [hl])
    | up =>
      cases l with
      | nil => exact ups_le_walk ⟨k+1,[]⟩ w
      | cons x l =>
        subst n
        exact ih (fun hw => h (within_up.mpr hw)) l rfl

/-- The walk leaves its start for the parent, comes back through the entry `x` and stays
there. -/
def ReturnsTo (x : α) (w : List (Move α)) : Prop :=
  ∃ u v, w = u++.down x::v ∧ Within 1 u ∧ level u = -1 ∧ Within 0 v

/-- Where a walk can end: below its start, below an entry of the parent, in the parent,
or out of reach. -/
theorem walk_cases (w : List (Move α)) :
    Within 0 w ∨ (∃ x, ReturnsTo x w) ∨ (Within 1 w ∧ level w = -1) ∨ ¬Within 1 w := by
  induction w using List.reverseRecOn with
  | nil => exact .inl (within_nil 0)
  | append_singleton w m ih =>
    obtain h | ⟨x,u,v,rfl,hu,hlu,hv⟩ | ⟨h,hl⟩ | h := ih
    · have hlevel := h w (by simp)
      cases m with
      | down x =>
        refine .inl (within_concat.mpr ⟨h,?_⟩)
        simp only [level_append,level]
        omega
      | up =>
        by_cases h0 : level w = 0
        · refine .inr (.inr (.inl ⟨within_concat.mpr ⟨h.mono (by omega),?_⟩,?_⟩))
          · simp [level_append,level,h0]
          · simp [level_append,level,h0]
        · refine .inl (within_concat.mpr ⟨h,?_⟩)
          simp only [level_append,level]
          omega
    · have hlevel := hv v (by simp)
      cases m with
      | down y =>
        refine .inr (.inl ⟨x,u,v++[.down y],by simp,hu,hlu,within_concat.mpr ⟨hv,?_⟩⟩)
        simp only [level_append,level]
        omega
      | up =>
        by_cases h0 : level v = 0
        · -- the walk is back in the parent
          have hlw : level (u++.down x::(v++[.up])) = -1 := by
            simp [level_append,level,h0,hlu]
          have hvu : Within 1 (v++[Move.up]) :=
            within_concat.mpr ⟨hv.mono (by omega),by simp [level_append,level,h0]⟩
          have hdown : Within 0 (.down x::(v++[.up])) := within_down.mpr hvu
          have hw := within_append hu hdown (by simp [hlu])
          refine .inr (.inr (.inl ⟨?_,?_⟩))
          · simpa using hw
          · simpa using hlw
        · refine .inr (.inl ⟨x,u,v++[.up],by simp,hu,hlu,within_concat.mpr ⟨hv,?_⟩⟩)
          simp only [level_append,level]
          omega
    · cases m with
      | down x => exact .inr (.inl ⟨x,w,[],rfl,h,hl,within_nil 0⟩)
      | up =>
        refine .inr (.inr (.inr fun hw => ?_))
        have hh := (within_concat.mp hw).2
        simp only [level_append,level,hl] at hh
        omega
    · exact .inr (.inr (.inr fun hw => h (within_concat.mp hw).1))

theorem walk_stays {k : ℕ} {x : α} {w : List (Move α)} (h : Within 0 w) :
    ∃ t, walk ⟨k,[x]⟩ w = ⟨k,t++[x]⟩ := by
  obtain ⟨t,ht,-⟩ := walk_within (k:=k) h [] [x] rfl
  exact ⟨t,ht⟩

theorem walk_parent {k : ℕ} {x : α} {w : List (Move α)} (h : Within 1 w) (hl : level w = -1) :
    walk ⟨k,[x]⟩ w = ⟨k,[]⟩ := by
  obtain ⟨t,ht,hlen⟩ := walk_within (k:=k) h [x] [] rfl
  have ht0 : t = [] := List.length_eq_zero_iff.mp (by omega)
  rw [ht0] at ht
  exact ht

theorem walk_returnsTo {k : ℕ} {x y : α} {w : List (Move α)} (h : ReturnsTo y w) :
    ∃ t, walk ⟨k,[x]⟩ w = ⟨k,t++[y]⟩ := by
  obtain ⟨u,v,rfl,hu,hlu,hv⟩ := h
  rw [walk_append,walk_parent hu hlu]
  exact walk_stays hv

theorem under_append {k : ℕ} {x y : α} {t : List α} :
    Place.Under ⟨k,[x]⟩ ⟨k,t++[y]⟩ ↔ y = x := by
  constructor
  · rintro ⟨-,l,hl⟩
    have hlast := congrArg List.getLast? hl
    simpa [eq_comm] using hlast
  · rintro rfl
    exact ⟨rfl,t,rfl⟩

/-- A walk from a directory ends in it or below it exactly when it never leaves it, or
leaves it for the parent only and comes back by its name to stay. -/
theorem under_walk_iff {k : ℕ} {x : α} {w : List (Move α)} :
    Place.Under ⟨k,[x]⟩ (walk ⟨k,[x]⟩ w) ↔ Within 0 w ∨ ReturnsTo x w := by
  constructor
  · intro h
    obtain hw | ⟨y,hy⟩ | ⟨hw,hl⟩ | hw := walk_cases w
    · exact .inl hw
    · obtain ⟨t,ht⟩ := walk_returnsTo (k:=k) (x:=x) hy
      rw [ht,under_append] at h
      subst y
      exact .inr hy
    · rw [walk_parent hw hl] at h
      have hh := h.2
      simp at hh
    · have hups := ups_lt_walk (k:=k) hw [x] rfl
      have hh := h.1
      simp only at hh
      omega
  · rintro (hw | hw)
    · obtain ⟨t,ht⟩ := walk_stays (k:=k) (x:=x) hw
      rw [ht,under_append]
    · obtain ⟨t,ht⟩ := walk_returnsTo (k:=k) (x:=x) hw
      rw [ht,under_append]

end Paths
