import MiscUniStuff.BlockMachine
import MiscUniStuff.BrainfuckPrint

/-! The evaluator one instruction at a time: the calls of `proc` that are still
to be made are the stack of the machine. Its runs, also those that never end,
keep the pointer within the array as long as no run of moves overflows a word. -/
namespace MiscUniStuff
namespace Brainfuck

open BlockMachine

/-- The question `proc_while` asks: does the loop go on? -/
def loopTest (s : State) : Except Failure Bool :=
  s.readIOArray.map fun h => decide (wraper h ≠ 0)

def BF.view (t : BF) : View BF State Failure :=
  match t.shape with
  | .halt => .halt
  | .act f g => .act f g
  | .loop x y => .loop loopTest x y

abbrev Config := BlockMachine.Config BF State

/-- The state of `proc` after `n` instructions of the tree, with what is left to do. -/
def procSteps (n : ℕ) (t : BF) (s : State) : Except Failure Config := after BF.view n ⟨[t],s⟩

/-! ### Single steps -/

variable {t g x y : BF} {bs : List BF} {s s' : State}

theorem step_halt (ht : t.shape = .halt) : step BF.view ⟨t::bs,s⟩ = .ok ⟨bs,s⟩ := by
  simp only [step,BF.view,ht]

theorem step_act {f : State → Outcome} (ht : t.shape = .act f g) (hf : f s = .ok s') :
    step BF.view ⟨t::bs,s⟩ = .ok ⟨g::bs,s'⟩ := by
  simp only [step,BF.view,ht,hf,Except.map]

theorem step_actError {f : State → Outcome} (ht : t.shape = .act f g) {e : Failure}
    (hf : f s = .error e) : step BF.view ⟨t::bs,s⟩ = .error e := by
  simp only [step,BF.view,ht,hf,Except.map]

theorem step_exit (ht : t.shape = .loop x y) {h : Int64} (hr : s.readIOArray = .ok h)
    (hz : wraper h = 0) : step BF.view ⟨t::bs,s⟩ = .ok ⟨y::bs,s⟩ := by
  simp [step,BF.view,ht,loopTest,hr,hz,Except.map]

theorem step_again (ht : t.shape = .loop x y) {h : Int64} (hr : s.readIOArray = .ok h)
    (hz : wraper h ≠ 0) : step BF.view ⟨t::bs,s⟩ = .ok ⟨x::t::bs,s⟩ := by
  simp [step,BF.view,ht,loopTest,hr,hz,Except.map]

theorem step_guardError (ht : t.shape = .loop x y) {e : Failure}
    (hr : s.readIOArray = .error e) : step BF.view ⟨t::bs,s⟩ = .error e := by
  simp [step,BF.view,ht,loopTest,hr,Except.map]

/-! ### The machine computes what the evaluator computes -/

/-- Where the machine is when the block on top of `bs` has had this outcome. -/
def behind (bs : List BF) (r : Outcome) : Except Failure Config := r.map fun s => ⟨bs,s⟩

theorem reaches_of_eval {r : Outcome} (h : Eval t s r) (bs : List BF) :
    Reaches BF.view ⟨t::bs,s⟩ (behind bs r) := by
  induction h generalizing bs with
  | halt ht => exact Reaches.head (step_halt ht) (Reaches.refl _)
  | act ht hf _ ih => exact Reaches.head (step_act ht hf) (ih bs)
  | actError ht hf => exact Reaches.error (step_actError ht hf)
  | guardError ht hr => exact Reaches.error (step_guardError ht hr)
  | exit ht hr hz _ ih => exact Reaches.head (step_exit ht hr hz) (ih bs)
  | again ht hr hz _ _ ihx iht =>
    exact Reaches.head (step_again ht hr hz) (Reaches.trans (ihx _) (iht bs))
  | bodyError ht hr hz _ ih => exact Reaches.head (step_again ht hr hz) (ih _)

/-- The machine stands still: nothing left to run, or an error. -/
def Stopped (r : Except Failure Config) : Prop := Post (fun c => c.blocks = []) (fun _ => True) r

/-- A run that stops has got through the block on top, unless that block stopped it. -/
theorem eval_of_after {n : ℕ} {r : Except Failure Config}
    (h : after BF.view n ⟨t::bs,s⟩ = r) (hstop : Stopped r) :
    (∃ s₁ m, m < n ∧ Eval t s (.ok s₁) ∧ after BF.view m ⟨bs,s₁⟩ = r) ∨
      ∃ e, r = .error e ∧ Eval t s (.error e) := by
  induction n using Nat.strong_induction_on generalizing t bs s with
  | _ n ih =>
    cases n with
    | zero =>
      subst r
      exact absurd hstop (List.cons_ne_nil t bs)
    | succ n =>
      rw [after] at h
      cases ht : t.shape with
      | halt =>
        rw [step_halt ht] at h
        exact .inl ⟨s,n,n.lt_succ_self,.halt ht,h⟩
      | act f g =>
        cases hf : f s with
        | error e =>
          rw [step_actError ht hf] at h
          exact .inr ⟨e,h.symm,.actError ht hf⟩
        | ok s' =>
          rw [step_act ht hf] at h
          obtain ⟨s₁,m,hm,hev,hrest⟩ | ⟨e,hr,hev⟩ := ih n (by omega) h
          · exact .inl ⟨s₁,m,by omega,.act ht hf hev,hrest⟩
          · exact .inr ⟨e,hr,.act ht hf hev⟩
      | loop x y =>
        cases ha : s.readIOArray with
        | error e =>
          rw [step_guardError ht ha] at h
          exact .inr ⟨e,h.symm,.guardError ht ha⟩
        | ok a =>
          by_cases hz : wraper a = 0
          · rw [step_exit ht ha hz] at h
            obtain ⟨s₁,m,hm,hev,hrest⟩ | ⟨e,hr,hev⟩ := ih n (by omega) h
            · exact .inl ⟨s₁,m,by omega,.exit ht ha hz hev,hrest⟩
            · exact .inr ⟨e,hr,.exit ht ha hz hev⟩
          · rw [step_again ht ha hz] at h
            obtain ⟨s₁,m,hm,hbody,hback⟩ | ⟨e,hr,hev⟩ := ih n (by omega) h
            · -- the body is through and the loop is on top again
              obtain ⟨s₂,k,hk,hev,hrest⟩ | ⟨e,hr,hev⟩ := ih m (by omega) hback
              · exact .inl ⟨s₂,k,by omega,.again ht ha hz hbody hev,hrest⟩
              · exact .inr ⟨e,hr,.again ht ha hz hbody hev⟩
            · exact .inr ⟨e,hr,.bodyError ht ha hz hev⟩

/-- A tree has an outcome exactly when the machine stops with it. -/
theorem proc_iff_procSteps {r : Outcome} :
    (∃ n, proc n t s = some r) ↔ ∃ n, procSteps n t s = behind [] r := by
  rw [← eval_iff_proc]
  constructor
  · intro h
    exact reaches_of_eval h []
  · rintro ⟨n,h⟩
    have hstop : Stopped (behind [] r) := by
      cases r with
      | ok s => rfl
      | error e => trivial
    obtain ⟨s₁,m,_,hev,hrest⟩ | ⟨e,hr,hev⟩ := eval_of_after h hstop
    · rw [after_nothing] at hrest
      cases r with
      | ok s =>
        cases hrest
        exact hev
      | error e => cases hrest
    · cases r with
      | ok s => cases hr
      | error e =>
        cases hr
        exact hev

/-! ### The pointer stays within the array -/

/-- The pointer selects a cell that can be read and written. -/
structure State.Accessible (s : State) : Prop where
  pointer : s.InRange
  read : ∃ h, s.readIOArray = .ok h
  write : ∀ h, ∃ s', s.writeIOArray h = .ok s'

theorem cell_of_inRange (hs : s.InRange) : ∃ i, s.cell = some i := by
  have hpos : 0 ≤ s.pointer.toInt ∧ s.pointer.toInt ≤ 50000 := hs
  simp [State.cell,hpos]

theorem accessible_of_inRange (hs : s.InRange) : s.Accessible := by
  obtain ⟨i,hi⟩ := cell_of_inRange hs
  refine ⟨hs,⟨s.tape i,?_⟩,fun h => ⟨{ s with tape := Function.update s.tape i h },?_⟩⟩
  · simp only [State.readIOArray,hi]
  · simp only [State.writeIOArray,hi]

theorem modifyCell_ok (hs : s.InRange) (f : Int64 → Int64) : ∃ s', modifyCell f s = .ok s' := by
  obtain ⟨h,hh⟩ := (accessible_of_inRange hs).read
  obtain ⟨s',hs'⟩ := (accessible_of_inRange hs).write (f h)
  exact ⟨s',by simp only [modifyCell,hh,bind,Except.bind,hs']⟩

theorem putCell_ok (hs : s.InRange) : ∃ s', putCell s = .ok s' := by
  obtain ⟨h,hh⟩ := (accessible_of_inRange hs).read
  refine ⟨{ s with output := s.output ++ [wrapChr h] },?_⟩
  simp only [putCell,hh,bind,Except.bind,pure,Except.pure]

theorem getCell_ok (hs : s.InRange) : ∃ s', getCell s = .ok s' := by
  have hget : (getChar s).2.InRange := by simpa only [State.InRange,getChar_pointer] using hs
  exact (accessible_of_inRange hget).write _

theorem moveUnless_error {outside : Prop} [Decidable outside] {p : Int64} {e : Failure}
    (h : moveUnless outside p s = .error e) : e.error = .overRange := by
  unfold moveUnless at h
  split_ifs at h
  cases h
  rfl

/-- In range only the range check of a move can stop an instruction. -/
theorem act_error {f : State → Outcome} (ht : t.shape = .act f g) (hs : s.InRange) {e : Failure}
    (he : f s = .error e) : e.error = .overRange := by
  cases t with
  | nil | start => cases ht
  | add n g | sub n g =>
    cases ht
    obtain ⟨s',hs'⟩ := modifyCell_ok hs _
    cases he.symm.trans hs'
  | incP n g | decP n g =>
    cases ht
    exact moveUnless_error he
  | put g =>
    cases ht
    obtain ⟨s',hs'⟩ := putCell_ok hs
    cases he.symm.trans hs'
  | get g =>
    cases ht
    obtain ⟨s',hs'⟩ := getCell_ok hs
    cases he.symm.trans hs'

theorem view_keeps (t : BF) (h : t.MovesFit) :
    t.view.Keeps BF.MovesFit State.InRange fun f => f.error = .overRange := by
  cases ht : t.shape with
  | halt => simp [BF.view,ht,View.Keeps]
  | act f g =>
    obtain ⟨hkeep,hg⟩ := movesFit_act ht h
    simp only [BF.view,ht,View.Keeps]
    refine ⟨hg,?_⟩
    intro s hs
    cases hf : f s with
    | ok s' => exact hkeep s s' hs hf
    | error e => exact act_error ht hs hf
  | loop x y =>
    obtain ⟨hx,hy⟩ := movesFit_loop ht h
    simp only [BF.view,ht,View.Keeps]
    refine ⟨hx,hy,?_⟩
    intro s hs
    obtain ⟨a,ha⟩ := (accessible_of_inRange hs).read
    simp [loopTest,ha,Except.map,Post]

/-- Merging keeps the counts of every run, so they still fit. -/
theorem movesFit_reduce {t : BF} (h : t.MovesFit) :
    (reduce t).MovesFit ∧ incRun (reduce t) = incRun t ∧ decRun (reduce t) = decRun t := by
  induction t using reduce.induct with
  | case1 x y g ih =>
    rw [reduce]
    exact ih h
  | case2 x y g ih =>
    rw [reduce]
    exact ih h
  | case3 x y hne ih =>
    rw [reduce.eq_3 _ _ hne]
    exact ⟨(ih h).1,rfl,rfl⟩
  | case4 x y hne ih =>
    rw [reduce.eq_4 _ _ hne]
    exact ⟨(ih h).1,rfl,rfl⟩
  | case5 x y g ih =>
    obtain ⟨hred,hinc,hdec⟩ := ih (movesFit_incP_merge h).2
    rw [reduce]
    exact ⟨hred,hinc.trans (incRun_merge h).2,hdec⟩
  | case6 x y g ih =>
    obtain ⟨hred,hinc,hdec⟩ := ih (movesFit_decP_merge h).2
    rw [reduce]
    exact ⟨hred,hinc,hdec.trans (decRun_merge h).2⟩
  | case7 x y hne ih =>
    obtain ⟨hred,hinc,hdec⟩ := ih h.2.2
    rw [reduce.eq_7 _ _ hne]
    refine ⟨⟨h.1,?_,hred⟩,?_,rfl⟩
    · simpa only [incRun,hinc] using h.2.1
    · simp only [incRun,hinc]
  | case8 x y hne ih =>
    obtain ⟨hred,hinc,hdec⟩ := ih h.2.2
    rw [reduce.eq_8 _ _ hne]
    refine ⟨⟨h.1,?_,hred⟩,rfl,?_⟩
    · simpa only [decRun,hdec] using h.2.1
    · simp only [decRun,hdec]
  | case9 y ih =>
    rw [reduce]
    exact ⟨(ih h).1,rfl,rfl⟩
  | case10 y ih =>
    rw [reduce]
    exact ⟨(ih h).1,rfl,rfl⟩
  | case11 x y ihx ihy =>
    rw [reduce]
    exact ⟨⟨(ihx h.1).1,(ihy h.2).1⟩,rfl,rfl⟩
  | case12 =>
    rw [reduce]
    exact ⟨h,rfl,rfl⟩

theorem nonNegative_of_unitCounts {t : BF} (h : t.UnitCounts) : t.NonNegative := by
  have h1 : 0 ≤ (1 : Int64).toInt := Int.one_nonneg
  induction t with
  | nil => trivial
  | add n g ih | sub n g ih | incP n g ih | decP n g ih => exact ⟨h.1 ▸ h1,ih h.2⟩
  | put g ih | get g ih => exact ih h
  | start x y ihx ihy => exact ⟨ihx h.1,ihy h.2⟩

/-- Every state `test` goes through has its pointer on a cell, and nothing but the
range check stops the program. -/
def AccessesInRange (text : List Char) (input : Stream'.Seq Char) : Prop :=
  ∀ n, Post (fun c => c.state.Accessible) (fun f => f.error = .overRange)
    (procSteps n (reduce (compile text)) ⟨0,start,input,[]⟩)

theorem accessesInRange_of_runsFit {text : List Char} (hfit : (compile text).RunsFit)
    (input : Stream'.Seq Char) : AccessesInRange text input := by
  have hpos := nonNegative_of_unitCounts (unitCounts_compile text)
  have hmoves := (movesFit_reduce (movesFit_of hpos hfit)).1
  intro n
  have hstart : BlockMachine.Config.All BF.MovesFit State.InRange
      ⟨[reduce (compile text)],⟨0,start,input,[]⟩⟩ :=
    ⟨by simpa using hmoves,by simp [State.InRange]⟩
  have hrun := after_keeps view_keeps hstart n
  unfold procSteps
  cases hr : after BF.view n ⟨[reduce (compile text)],⟨0,start,input,[]⟩⟩ with
  | ok c =>
    rw [hr] at hrun
    exact accessible_of_inRange hrun.2
  | error e =>
    rw [hr] at hrun
    exact hrun

/-- No access of a run of `test`, finished or not, misses the array, if the text
has no run of moves whose count overflows a word; and the outcomes that are
errors are failed range checks. -/
theorem test_accesses (text : List Char) (hfit : (compile text).RunsFit)
    (input : Stream'.Seq Char) :
    AccessesInRange text input ∧
      ∀ n f, test n text input = some (.error f) → f.error = .overRange := by
  have hacc := accessesInRange_of_runsFit hfit input
  refine ⟨hacc,?_⟩
  intro n f hf
  obtain ⟨m,hm⟩ := proc_iff_procSteps.mp ⟨n,hf⟩
  have hpost := hacc m
  rw [hm] at hpost
  exact hpost

theorem test_accesses_loop :
    AccessesInRange ['+','[','>',']'] .nil ∧
      ∀ n f, test n ['+','[','>',']'] .nil = some (.error f) → f.error = .overRange :=
  test_accesses _ (by simp [compile,findend,BF.RunsFit,incRun]) _

/-! ### A run of moves that overflows -/

/-- A tree behind `n` single moves to the right. -/
def moves : ℕ → BF → BF
  | 0, t => t
  | n+1, t => .incP 1 (moves n t)

theorem compile_moves (n : ℕ) (w : List Char) :
    compile (List.replicate n '>' ++ w) = moves n (compile w) := by
  induction n with
  | zero => rfl
  | succ n ih => simp [List.replicate_succ,compile,moves,ih]

theorem reduce_moves (n : ℕ) (x : Int64) (t : BF) :
    reduce (.incP x (moves n t)) = reduce (.incP (x+Int64.ofNat n) t) := by
  induction n generalizing x with
  | zero => simp [moves]
  | succ n ih =>
    rw [moves,reduce,ih,Int64.add_assoc,Int64.ofNat_add,Int64.add_comm 1]
    rfl

/-- With `2^63` moves before it, the increment is done far to the left of the array. -/
theorem reduce_compile_moves (n : ℕ) :
    reduce (compile (List.replicate (n+1) '>' ++ ['+'])) =
      .incP (1+Int64.ofNat n) (.add 1 .nil) := by
  rw [compile_moves,moves,reduce_moves]
  simp [compile,reduce]

/-- The count of `2^63` moves, as a word, is the least one; it passes the range check. -/
theorem moves_overflow : ¬ ∀ text input, AccessesInRange text input := by
  intro h
  have hrun := h (List.replicate (9223372036854775807+1) '>' ++ ['+']) .nil 1
  rw [reduce_compile_moves] at hrun
  have hstep : procSteps 1 (.incP (1+Int64.ofNat 9223372036854775807) (.add 1 .nil))
      ⟨0,start,.nil,[]⟩ = .ok ⟨[.add 1 .nil],⟨-9223372036854775808,start,.nil,[]⟩⟩ := rfl
  rw [hstep] at hrun
  have hpointer := hrun.pointer.1
  revert hpointer
  decide

end Brainfuck
end MiscUniStuff
