import MiscUniStuff.BrainfuckBytes

/-! Loops that count: what a loop does whose body only adds and moves and brings the pointer
back to where it was, and when it comes to its end. -/
namespace MiscUniStuff
namespace Brainfuck

namespace BF

/-- The tree only adds, subtracts and moves. -/
def Straight : BF → Prop
  | .nil => True
  | .add _ g | .sub _ g | .incP _ g | .decP _ g => g.Straight
  | .put _ | .get _ | .start _ _ => False

/-- How far a straight tree takes the pointer. -/
def shift : BF → ℤ
  | .incP n g => g.shift+n.toInt
  | .decP n g => g.shift-n.toInt
  | .add _ g | .sub _ g => g.shift
  | .nil | .put _ | .get _ | .start _ _ => 0

/-- What a straight tree adds to the cell that is `d` to the right of the pointer. -/
def change : BF → ℤ → Int64
  | .add n g, d => (if d = 0 then n else 0)+g.change d
  | .sub n g, d => (if d = 0 then -n else 0)+g.change d
  | .incP n g, d => g.change (d-n.toInt)
  | .decP n g, d => g.change (d+n.toInt)
  | .nil, _ | .put _, _ | .get _, _ | .start _ _, _ => 0

/-- Started at `p`, the pointer stays on the tape. -/
def Stays : BF → ℤ → Prop
  | .incP n g, p => (0 ≤ p+n.toInt ∧ p+n.toInt ≤ 50000) ∧ g.Stays (p+n.toInt)
  | .decP n g, p => (0 ≤ p-n.toInt ∧ p-n.toInt ≤ 50000) ∧ g.Stays (p-n.toInt)
  | .add _ g, p | .sub _ g, p => g.Stays p
  | .nil, _ | .put _, _ | .get _, _ | .start _ _, _ => True

/-- The state with `k` times the changes of a tree made around the pointer. -/
def times (t : BF) (k : ℕ) (s : State) : State :=
  { s with tape := fun i => s.tape i+Int64.ofNat k*t.change (i-s.pointer.toInt) }

/-- The state behind a straight tree. -/
def across (t : BF) (s : State) : State :=
  { t.times 1 s with pointer := Int64.ofInt (s.pointer.toInt+t.shift) }

end BF

section Loops
variable {g t x y : BF} {s : State} {r : Outcome} {i : Fin 50001} {n : Int64}

theorem pointer_of_cell (h : s.cell = some i) : s.pointer.toInt = i := by
  rw [State.cell,Option.dite_none_right_eq_some] at h
  obtain ⟨hrange,hi⟩ := h
  rw [← Option.some.inj hi,Int.toNat_of_nonneg hrange.1]

/-- Changing the cell at the pointer, and then making the changes of the rest. -/
theorem across_update (hcell : s.cell = some i) (hshift : t.shift = g.shift)
    (hchange : ∀ d, t.change d = (if d = 0 then n else 0)+g.change d) :
    g.across { s with tape := Function.update s.tape i (s.tape i+n) } = t.across s := by
  have hp := pointer_of_cell hcell
  have hone (a : Int64) : Int64.ofNat 1*a = a := Int64.one_mul a
  have htape (j : Fin 50001) : Function.update s.tape i (s.tape i+n) j+
      Int64.ofNat 1*g.change (j-s.pointer.toInt) =
        s.tape j+Int64.ofNat 1*t.change (j-s.pointer.toInt) := by
    rw [hchange,hone,hone,hp]
    by_cases hj : j = i
    · subst j
      rw [Function.update_self,if_pos (sub_self _),Int64.add_assoc]
    · have hne : (j : ℤ)-i ≠ 0 := by
        have := Fin.val_ne_of_ne hj
        omega
      rw [Function.update_of_ne hj,if_neg hne,Int64.zero_add]
  simp only [BF.across,BF.times,hshift,htape]

theorem across_moved {p : Int64} {n : ℤ} (hp : p.toInt = s.pointer.toInt+n)
    (hshift : t.shift = g.shift+n) (hchange : ∀ d, t.change d = g.change (d-n)) :
    g.across { s with pointer := p } = t.across s := by
  have hplace : p.toInt+g.shift = s.pointer.toInt+t.shift := by omega
  have htape (j : Fin 50001) : g.change (j-p.toInt) = t.change (j-s.pointer.toInt) := by
    rw [hchange,hp]
    congr 1
    omega
  simp only [BF.across,BF.times,hplace,htape]

/-- A straight tree that stays on the tape comes to its end, with its changes made. -/
theorem eval_straight (ht : t.Straight) (hs : s.InRange) (hstays : t.Stays s.pointer.toInt) :
    Eval t s (.ok (t.across s)) := by
  induction t generalizing s with
  | nil =>
    have htape (a : Int64) : a+Int64.ofNat 1*0 = a := by rw [Int64.mul_zero,Int64.add_zero]
    have hacross : BF.nil.across s = s := by
      simp only [BF.across,BF.times,BF.shift,BF.change,add_zero,Int64.ofInt_toInt,htape]
    rw [hacross]
    exact .halt rfl
  | add n g ih =>
    obtain ⟨i,hcell⟩ := cell_of_inRange hs
    have hact : addCell n s =
        .ok { s with tape := Function.update s.tape i (s.tape i+n) } := by
      simp [addCell,modifyCell,State.readIOArray,State.writeIOArray,hcell,bind,Except.bind]
    have hrest := ih (s:={ s with tape := Function.update s.tape i (s.tape i+n) }) ht hs hstays
    rw [across_update (g:=g) (t:=.add n g) hcell rfl fun _ => rfl] at hrest
    exact .act rfl hact hrest
  | sub n g ih =>
    obtain ⟨i,hcell⟩ := cell_of_inRange hs
    have hact : subCell n s =
        .ok { s with tape := Function.update s.tape i (s.tape i+ -n) } := by
      simp [subCell,modifyCell,State.readIOArray,State.writeIOArray,hcell,bind,Except.bind,
        Int64.sub_eq_add_neg]
    have hrest := ih (s:={ s with tape := Function.update s.tape i (s.tape i+ -n) }) ht hs hstays
    rw [across_update (g:=g) (t:=.sub n g) hcell rfl fun _ => rfl] at hrest
    exact .act rfl hact hrest
  | incP n g ih =>
    obtain ⟨⟨hlow,hhigh⟩,hrest⟩ := hstays
    have hp : (s.pointer+n).toInt = s.pointer.toInt+n.toInt :=
      toInt_add_of_fits (by omega) (by omega)
    have hact : incPointer n s = .ok { s with pointer := s.pointer+n } := by
      rw [incPointer,moveUnless,if_neg]
      rw [lt_iff_of_toInt hp]
      omega
    have hrun := ih (s:={ s with pointer := s.pointer+n }) ht ⟨hp ▸ hlow,hp ▸ hhigh⟩ (hp ▸ hrest)
    rw [across_moved (t:=.incP n g) (n:=n.toInt) hp rfl fun _ => rfl] at hrun
    exact .act rfl hact hrun
  | decP n g ih =>
    obtain ⟨⟨hlow,hhigh⟩,hrest⟩ := hstays
    have hp : (s.pointer-n).toInt = s.pointer.toInt-n.toInt :=
      toInt_sub_of_fits (by omega) (by omega)
    have hact : decPointer n s = .ok { s with pointer := s.pointer-n } := by
      rw [decPointer,moveUnless,if_neg]
      rw [neg_iff_of_toInt hp]
      omega
    have hrun := ih (s:={ s with pointer := s.pointer-n }) ht ⟨hp ▸ hlow,hp ▸ hhigh⟩ (hp ▸ hrest)
    rw [across_moved (g:=g) (t:=.decP n g) (n:= -n.toInt) hp rfl fun d => by
      rw [BF.change,sub_neg_eq_add]] at hrun
    exact .act rfl hact hrun
  | put g => cases ht
  | get g => cases ht
  | start x y => cases ht

/-! ### The loop -/

theorem nothing_added (a b : Int64) : a+Int64.ofNat 0*b = a := by
  show a+0*b = a
  rw [Int64.zero_mul,Int64.add_zero]

theorem times_zero (x : BF) (s : State) : x.times 0 s = s := by
  simp only [BF.times,nothing_added]

theorem times_times (x : BF) (k m : ℕ) (s : State) : x.times k (x.times m s) = x.times (m+k) s := by
  simp only [BF.times,Int64.ofNat_add,Int64.add_mul,Int64.add_assoc]

theorem across_eq_times (hshift : x.shift = 0) : x.across s = x.times 1 s := by
  rw [BF.across,hshift,add_zero,Int64.ofInt_toInt]
  rfl

theorem times_tape (hcell : s.cell = some i) (k : ℕ) :
    (x.times k s).tape i = s.tape i+Int64.ofNat k*x.change 0 := by
  have hplace : (i : ℤ)-s.pointer.toInt = 0 := by rw [pointer_of_cell hcell,sub_self]
  simp only [BF.times,hplace]

/-- The body is run `k` times: the cell of the test is zero modulo 256 after that, and not
before. -/
def Rounds (x : BF) (h : Int64) (k : ℕ) : Prop :=
  (∀ j < k, wraper (h+Int64.ofNat j*x.change 0) ≠ 0) ∧ wraper (h+Int64.ofNat k*x.change 0) = 0

theorem next_round (x : BF) (h : Int64) (k : ℕ) :
    h+Int64.ofNat 1*x.change 0+Int64.ofNat k*x.change 0 =
    h+Int64.ofNat (k+1)*x.change 0 := by
  rw [Int64.add_assoc,← Int64.add_mul,← Int64.ofNat_add,Nat.add_comm 1 k]

theorem rounds_zero {h : Int64} : Rounds x h 0 ↔ wraper h = 0 := by
  rw [Rounds,nothing_added]
  exact and_iff_right fun j hj => absurd hj (Nat.not_lt_zero j)

theorem rounds_succ {h : Int64} {k : ℕ} :
    Rounds x h (k+1) ↔ wraper h ≠ 0 ∧ Rounds x (h+Int64.ofNat 1*x.change 0) k := by
  simp only [Rounds,next_round]
  constructor
  · rintro ⟨hbefore,hzero⟩
    refine ⟨?_,fun j hj => hbefore (j+1) (Nat.succ_lt_succ hj),hzero⟩
    have hfirst := hbefore 0 k.succ_pos
    rwa [nothing_added] at hfirst
  · rintro ⟨hfirst,hbefore,hzero⟩
    refine ⟨?_,hzero⟩
    intro j hj
    cases j with
    | zero =>
      rw [nothing_added]
      exact hfirst
    | succ j => exact hbefore j (Nat.lt_of_succ_lt_succ hj)

theorem eval_loop_of_rounds (hx : x.Straight) (hshift : x.shift = 0) (hstays : x.Stays i) {k : ℕ}
    (hcell : s.cell = some i) (hrounds : Rounds x (s.tape i) k) (hy : Eval y (x.times k s) r) :
    Eval (.start x y) s r := by
  have hread (s : State) (hcell : s.cell = some i) : s.readIOArray = .ok (s.tape i) := by
    simp only [State.readIOArray,hcell]
  induction k generalizing s with
  | zero =>
    rw [times_zero] at hy
    exact .exit rfl (hread s hcell) (rounds_zero.mp hrounds) hy
  | succ k ih =>
    obtain ⟨hfirst,hrest⟩ := rounds_succ.mp hrounds
    have hp := pointer_of_cell hcell
    have hrange : s.InRange := by
      have hi := i.isLt
      constructor
      · omega
      · omega
    have hbody := eval_straight hx hrange (hp ▸ hstays)
    rw [across_eq_times hshift] at hbody
    have hagain := ih (s:=x.times 1 s) hcell (by rwa [times_tape hcell])
      (by rwa [times_times,Nat.add_comm])
    exact .again rfl (hread s hcell) hfirst hbody hagain

theorem rounds_of_eval_loop (hx : x.Straight) (hshift : x.shift = 0) (hstays : x.Stays i)
    (hcell : s.cell = some i) (h : Eval (.start x y) s r) :
    ∃ k, Rounds x (s.tape i) k ∧ Eval y (x.times k s) r := by
  have hrun (s : State) (hcell : s.cell = some i) : s.readIOArray = .ok (s.tape i) ∧
      Eval x s (.ok (x.times 1 s)) := by
    have hp := pointer_of_cell hcell
    have hrange : s.InRange := by
      have hi := i.isLt
      constructor
      · omega
      · omega
    refine ⟨by simp only [State.readIOArray,hcell],?_⟩
    rw [← across_eq_times hshift]
    exact eval_straight hx hrange (hp ▸ hstays)
  generalize ht : BF.start x y = t at h
  induction h with
  | halt hs | act hs | actError hs =>
    subst ht
    cases hs
  | guardError hs hr =>
    subst ht
    cases hs
    rw [(hrun _ hcell).1] at hr
    cases hr
  | exit hs hr hz hy _ =>
    subst ht
    cases hs
    rw [(hrun _ hcell).1] at hr
    cases hr
    exact ⟨0,rounds_zero.mpr hz,by rwa [times_zero]⟩
  | again hs hr hz hbody _ _ ih =>
    subst ht
    cases hs
    rw [(hrun _ hcell).1] at hr
    cases hr
    cases eval_deterministic hbody (hrun _ hcell).2
    obtain ⟨k,hrounds,hy⟩ := ih hcell rfl
    rw [times_tape hcell] at hrounds
    rw [times_times,Nat.add_comm] at hy
    exact ⟨k+1,rounds_succ.mpr ⟨hz,hrounds⟩,hy⟩
  | bodyError hs hr hz hbody =>
    subst ht
    cases hs
    cases eval_deterministic hbody (hrun _ hcell).2

/-! ### How many rounds -/

theorem cell_modEq (h c : Int64) (k : ℕ) :
    (h+Int64.ofNat k*c).toInt ≡ h.toInt+k*c.toInt [ZMOD 256] := by
  have hk : (Int64.ofNat k).toInt ≡ k [ZMOD 256] := by
    rw [← Int64.ofInt_eq_ofNat,Int64.toInt_ofInt]
    exact bmod_word_mod k
  rw [Int64.toInt_add,Int64.toInt_mul]
  calc Int.bmod (h.toInt+Int.bmod ((Int64.ofNat k).toInt*c.toInt) (2^64)) (2^64)
      ≡ h.toInt+Int.bmod ((Int64.ofNat k).toInt*c.toInt) (2^64) [ZMOD 256] := bmod_word_mod _
    _ ≡ h.toInt+(Int64.ofNat k).toInt*c.toInt [ZMOD 256] := Int.ModEq.add_left _ (bmod_word_mod _)
    _ ≡ h.toInt+k*c.toInt [ZMOD 256] := (hk.mul_right _).add_left _

theorem wraper_round (h c : Int64) (k : ℕ) :
    wraper (h+Int64.ofNat k*c) = 0 ↔ (h.toInt+k*c.toInt) % 256 = 0 := by
  rw [wraper_eq_zero,cell_modEq h c k]

/-- The first round after which the test fails, if there is one. -/
theorem exists_rounds {h : Int64} {k : ℕ} (hk : wraper (h+Int64.ofNat k*x.change 0) = 0) :
    ∃ m ≤ k, Rounds x h m := by
  classical
  have hex : ∃ k, wraper (h+Int64.ofNat k*x.change 0) = 0 := ⟨k,hk⟩
  exact ⟨Nat.find hex,Nat.find_min' hex hk,fun j hj => Nat.find_min hex hj,Nat.find_spec hex⟩

theorem rounds_of_odd (h : Int64) (hodd : (x.change 0).toInt % 2 = 1) :
    ∃ k < 256, Rounds x h k := by
  have htwo : IsCoprime (x.change 0).toInt 2 := ⟨1,-((x.change 0).toInt/2),by omega⟩
  obtain ⟨a,b,hab⟩ := htwo.pow_right (n:=8)
  have hnonneg := Int.emod_nonneg (-h.toInt*a) (b:=256) (by norm_num)
  have hless := Int.emod_lt_of_pos (-h.toInt*a) (b:=256) (by norm_num)
  obtain ⟨k,hk⟩ := Int.eq_ofNat_of_zero_le hnonneg
  have hzero : h.toInt+k*(x.change 0).toInt ≡ 0 [ZMOD 256] := by
    rw [← hk]
    calc h.toInt+(-h.toInt*a % 256)*(x.change 0).toInt
        ≡ h.toInt+(-h.toInt*a)*(x.change 0).toInt [ZMOD 256] :=
          ((Int.mod_modEq _ _).mul_right _).add_left _
      _ = h.toInt*b*256 := by linear_combination -h.toInt*hab
      _ ≡ 0 [ZMOD 256] := (Int.modEq_zero_iff_dvd).mpr (dvd_mul_left _ _)
  obtain ⟨m,hm,hrounds⟩ := exists_rounds ((wraper_round h (x.change 0) k).mpr hzero)
  exact ⟨m,by omega,hrounds⟩

theorem rounds_of_down (h : Int64) (hdown : x.change 0 = -1) : Rounds x h (wraper h) := by
  have hone : (x.change 0).toInt = -1 := by rw [hdown]; rfl
  rw [Rounds,wraper_round,hone,wraper]
  constructor
  · intro j hj
    rw [Ne,wraper_round,hone]
    omega
  · omega

/-- A loop whose body only adds and moves, stays on the tape and comes back to its place ends
if and only if some number of rounds makes its cell zero modulo 256; it then has the effect of
that many times the changes of one round. If a round changes the cell by an odd number, this
takes less than 256 rounds, and if it takes one away, as many as the cell has modulo 256. -/
theorem proc_countingLoop (x y : BF) (s : State) (i : Fin 50001) (hcell : s.cell = some i)
    (hx : x.Straight) (hshift : x.shift = 0) (hstays : x.Stays i) (r : Outcome) :
    ((∃ n, proc n (.start x y) s = some r) ↔
      ∃ k, Rounds x (s.tape i) k ∧ ∃ n, proc n y (x.times k s) = some r) ∧
    ((x.change 0).toInt % 2 = 1 → ∃ k < 256, Rounds x (s.tape i) k) ∧
    (x.change 0 = -1 → Rounds x (s.tape i) (wraper (s.tape i))) := by
  simp only [← eval_iff_proc]
  refine ⟨⟨rounds_of_eval_loop hx hshift hstays hcell,?_⟩,rounds_of_odd _,rounds_of_down _⟩
  rintro ⟨k,hrounds,hy⟩
  exact eval_loop_of_rounds hx hshift hstays hcell hrounds hy

end Loops

/-- The loop `[->+++<]` at a cell that holds 5. -/
theorem proc_countingLoop_triple :
    ((∃ n, proc n (.start (.sub 1 (.incP 1 (.add 3 (.decP 1 .nil)))) .nil)
        ⟨0,Function.update start 0 5,.nil,[]⟩ = some (.ok ⟨0,Function.update start 1 15,.nil,[]⟩)) ↔
      ∃ k, Rounds (.sub 1 (.incP 1 (.add 3 (.decP 1 .nil)))) 5 k ∧
        ∃ n, proc n .nil (BF.times (.sub 1 (.incP 1 (.add 3 (.decP 1 .nil)))) k
          ⟨0,Function.update start 0 5,.nil,[]⟩) =
            some (.ok ⟨0,Function.update start 1 15,.nil,[]⟩)) ∧
    ((-1 : Int64).toInt % 2 = 1 →
      ∃ k < 256, Rounds (.sub 1 (.incP 1 (.add 3 (.decP 1 .nil)))) 5 k) ∧
    ((-1 : Int64) = -1 → Rounds (.sub 1 (.incP 1 (.add 3 (.decP 1 .nil)))) 5 5) :=
  proc_countingLoop (.sub 1 (.incP 1 (.add 3 (.decP 1 .nil)))) .nil
    ⟨0,Function.update start 0 5,.nil,[]⟩ 0 (by decide) trivial (by decide)
    ⟨by decide,by decide,trivial⟩ (.ok ⟨0,Function.update start 1 15,.nil,[]⟩)

end Brainfuck
end MiscUniStuff
