import MiscUniStuff.BracketWords
import MiscUniStuff.BrainfuckReduce

/-! The textbook machine that walks the program text by a program counter, and
the proof that on balanced text parsing and running the tree is the same as
running that machine. -/
namespace MiscUniStuff
namespace Brainfuck

open BracketWords

/-- The effect of a command that is not a bracket. -/
def command : Char → Option (State → Outcome)
  | '+' => some (addCell 1)
  | '-' => some (subCell 1)
  | '>' => some (incPointer 1)
  | '<' => some (decPointer 1)
  | '.' => some putCell
  | ',' => some getCell
  | _ => none

abbrev BalancedText (text : List Char) : Prop := Balanced '[' ']' text

/-- The flat machine, for at most the given number of steps. It stops behind the
last character; brackets jump by position. -/
def flatRun (text : List Char) : ℕ → ℕ → State → Option Outcome
  | 0, _, _ => none
  | n+1, pc, s =>
    match text[pc]? with
    | none => some (.ok s)
    | some x =>
      if x = '[' then
        match s.readIOArray with
        | .error e => some (.error e)
        | .ok h =>
          if h.toInt % 256 = 0 then (closeOf '[' ']' text pc).bind fun j => flatRun text n (j+1) s
          else flatRun text n (pc+1) s
      else if x = ']' then (openOf '[' ']' text pc).bind fun i => flatRun text n i s
      else
        match command x with
        | some f => Outcome.next (f s) (flatRun text n (pc+1))
        | none => flatRun text n (pc+1) s

/-! ### The parser on balanced text -/

theorem compile_command {x : Char} {f : State → Outcome} (hx : command x = some f)
    (y : List Char) : (compile (x::y)).shape = .act f (compile y) := by
  unfold command at hx
  split at hx <;> cases hx <;> simp [compile,BF.shape]

theorem compile_comment {x : Char} (hx : command x = none) (ho : x ≠ '[') (y : List Char) :
    compile (x::y) = compile y := by
  unfold command at hx
  split at hx <;> simp_all [compile]

theorem findend_balanced {k : ℕ} {g : List Char} (hg : Closes '[' ']' k g) (f : List Char)
    {y : ℤ} (hy : k < y) :
    findend (g++f) y = (g++(findend f (y-k)).1,(findend f (y-k)).2) := by
  induction g generalizing k y with
  | nil =>
    have hk := closes_nil.mp hg
    simp [hk]
  | cons x g ih =>
    by_cases hxo : x = '['
    · subst x
      rw [closes_open (by decide)] at hg
      simp only [List.cons_append,findend,if_pos,ih hg (y:=y+1) (by push_cast; omega)]
      rw [show y+1-((k+1 : ℕ) : ℤ) = y-k by push_cast; ring]
    by_cases hxc : x = ']'
    · subst x
      cases k with
      | zero => exact absurd hg (not_closes_close (by decide) g)
      | succ k =>
        rw [closes_close (by decide)] at hg
        push_cast at hy
        have hy1 : y ≠ 1 := by omega
        simp only [List.cons_append,findend,if_neg hxo,hy1,and_false,if_false,if_true,
          ih hg (y:=y-1) (by omega)]
        rw [show y-1-(k : ℤ) = y-((k+1 : ℕ) : ℤ) by push_cast; ring]
    · rw [closes_skip hxo hxc] at hg
      simp only [List.cons_append,findend,if_neg hxo,hxc,false_and,if_false,ih hg hy]

/-- `findend` splits the text behind an opening bracket at the matching one. -/
theorem findend_loop {g : List Char} (hg : BalancedText g) (f : List Char) :
    findend (g ++ ']' :: f) 1 = (g,f) := by
  rw [findend_balanced hg _ (by norm_num)]
  simp [findend]

theorem compile_loop {g : List Char} (hg : BalancedText g) (f : List Char) :
    compile ('[' :: (g ++ ']' :: f)) = .start (compile g) (compile f) := by
  rw [compile_open,findend_loop hg]

/-! ### Single steps of the flat machine -/

theorem wraper_eq_zero (h : Int64) : wraper h = 0 ↔ h.toInt % 256 = 0 := by
  simp [wraper]

variable {text : List Char} {pc : ℕ}

theorem flatRun_command {x : Char} (hpc : text[pc]? = some x) {f : State → Outcome}
    (hx : command x = some f) (n : ℕ) (s : State) :
    flatRun text (n+1) pc s = Outcome.next (f s) (flatRun text n (pc+1)) := by
  have ho : x ≠ '[' := by rintro rfl; simp [command] at hx
  have hc : x ≠ ']' := by rintro rfl; simp [command] at hx
  simp [flatRun,hpc,ho,hc,hx]

theorem flatRun_comment {x : Char} (hpc : text[pc]? = some x) (hx : command x = none)
    (ho : x ≠ '[') (hc : x ≠ ']') (n : ℕ) (s : State) :
    flatRun text (n+1) pc s = flatRun text n (pc+1) s := by
  simp [flatRun,hpc,ho,hc,hx]

theorem flatRun_open {g f : List Char} (h : Occurs ('[' :: (g ++ ']' :: f)) pc text)
    (hg : BalancedText g) (n : ℕ) (s : State) :
    flatRun text (n+1) pc s =
      match s.readIOArray with
      | .error e => some (.error e)
      | .ok a =>
        if wraper a = 0 then flatRun text n (pc+1+g.length+1) s
        else flatRun text n (pc+1) s := by
  simp only [flatRun,h.head,if_true,h.closeOf_eq (by decide) hg,Option.bind_some,wraper_eq_zero]

theorem flatRun_close {g f : List Char} (h : Occurs ('[' :: (g ++ ']' :: f)) pc text)
    (hg : BalancedText g) (n : ℕ) (s : State) :
    flatRun text (n+1) (pc+1+g.length) s = flatRun text n pc s := by
  simp [flatRun,h.close,h.openOf_eq (by decide) hg]

theorem next_mono {o : Outcome} {j k : State → Option Outcome} {r : Outcome}
    (hjk : ∀ s, j s = some r → k s = some r) (h : Outcome.next o j = some r) :
    Outcome.next o k = some r := by
  cases o with
  | error e => exact h
  | ok s => exact hjk s h

theorem flatRun_step {n : ℕ} {s : State} {r : Outcome}
    (h : flatRun text n pc s = some r) : flatRun text (n+1) pc s = some r := by
  induction n generalizing pc s with
  | zero => simp [flatRun] at h
  | succ n ih =>
    rw [flatRun] at h ⊢
    cases hx : text[pc]? with
    | none => simpa only [hx] using h
    | some x =>
      simp only [hx] at h ⊢
      by_cases ho : x = '['
      · simp only [if_pos ho] at h ⊢
        cases hr : s.readIOArray with
        | error e => simpa only [hr] using h
        | ok a =>
          simp only [hr] at h ⊢
          split_ifs at h ⊢
          · obtain ⟨j,hj,hrun⟩ := Option.bind_eq_some_iff.mp h
            exact Option.bind_eq_some_iff.mpr ⟨j,hj,ih hrun⟩
          · exact ih h
      by_cases hc : x = ']'
      · simp only [if_neg ho,if_pos hc] at h ⊢
        obtain ⟨i,hi,hrun⟩ := Option.bind_eq_some_iff.mp h
        exact Option.bind_eq_some_iff.mpr ⟨i,hi,ih hrun⟩
      · simp only [if_neg ho,if_neg hc] at h ⊢
        cases hf : command x with
        | none =>
          simp only [hf] at h ⊢
          exact ih h
        | some f =>
          simp only [hf] at h ⊢
          exact next_mono (fun s' => ih) h

theorem flatRun_mono {n m : ℕ} (hnm : n ≤ m) {s : State}
    {r : Outcome} (h : flatRun text n pc s = some r) : flatRun text m pc s = some r := by
  induction hnm with
  | refl => exact h
  | step _ ih => exact flatRun_step ih

/-! ### Simulation -/

/-- The flat machine stops with `r` when it goes on at `pc` after the outcome `o`
of the part before. -/
def FlatAfter (text : List Char) (pc : ℕ) (o r : Outcome) : Prop :=
  match o with
  | .ok s => ∃ n, flatRun text n pc s = some r
  | .error e => r = .error e

section Steps
variable {s : State} {r : Outcome} {x : Char} {g f : List Char} {a : Int64}

theorem flatAfter_command {act : State → Outcome} (hpc : text[pc]? = some x)
    (hx : command x = some act) (h : FlatAfter text (pc+1) (act s) r) :
    FlatAfter text pc (.ok s) r := by
  cases hs : act s with
  | error e =>
    rw [hs] at h
    exact ⟨1,by rw [flatRun_command hpc hx,hs,h]; rfl⟩
  | ok s' =>
    rw [hs] at h
    obtain ⟨m,hm⟩ := h
    exact ⟨m+1,by rw [flatRun_command hpc hx,hs]; exact hm⟩

theorem flatAfter_comment (hpc : text[pc]? = some x) (hx : command x = none) (ho : x ≠ '[')
    (hc : x ≠ ']') (h : FlatAfter text (pc+1) (.ok s) r) : FlatAfter text pc (.ok s) r := by
  obtain ⟨m,hm⟩ := h
  exact ⟨m+1,by rw [flatRun_comment hpc hx ho hc]; exact hm⟩

theorem flatAfter_guard {e : Failure} (hocc : Occurs ('[' :: (g ++ ']' :: f)) pc text)
    (hg : BalancedText g) (ha : s.readIOArray = .error e) : FlatAfter text pc (.ok s) (.error e) :=
  ⟨1,by rw [flatRun_open hocc hg,ha]⟩

theorem flatAfter_exit (hocc : Occurs ('[' :: (g ++ ']' :: f)) pc text) (hg : BalancedText g)
    (ha : s.readIOArray = .ok a) (hz : wraper a = 0)
    (h : FlatAfter text (pc+1+g.length+1) (.ok s) r) : FlatAfter text pc (.ok s) r := by
  obtain ⟨m,hm⟩ := h
  exact ⟨m+1,by rw [flatRun_open hocc hg,ha]; simp only [if_pos hz,hm]⟩

theorem flatAfter_enter (hocc : Occurs ('[' :: (g ++ ']' :: f)) pc text) (hg : BalancedText g)
    (ha : s.readIOArray = .ok a) (hz : ¬wraper a = 0) (h : FlatAfter text (pc+1) (.ok s) r) :
    FlatAfter text pc (.ok s) r := by
  obtain ⟨m,hm⟩ := h
  exact ⟨m+1,by rw [flatRun_open hocc hg,ha]; simp only [if_neg hz,hm]⟩

theorem flatAfter_close (hocc : Occurs ('[' :: (g ++ ']' :: f)) pc text) (hg : BalancedText g)
    (h : FlatAfter text pc (.ok s) r) : FlatAfter text (pc+1+g.length) (.ok s) r := by
  obtain ⟨m,hm⟩ := h
  exact ⟨m+1,by rw [flatRun_close hocc hg,hm]⟩

end Steps

theorem pos_cons (pc : ℕ) (x : Char) (w : List Char) : pc+(x::w).length = pc+1+w.length := by
  rw [List.length_cons]
  omega

/-- The position behind a loop and what follows it. -/
theorem pos_loop (pc : ℕ) (g f : List Char) :
    pc+('[' :: (g ++ ']' :: f)).length = pc+1+g.length+1+f.length := by
  simp only [List.length_cons,List.length_append]
  omega

/-- How a balanced text can begin. -/
theorem balancedText_cases {x : Char} {w : List Char} (h : BalancedText (x::w)) :
    (∃ f, command x = some f ∧ BalancedText w) ∨
    (command x = none ∧ x ≠ '[' ∧ x ≠ ']' ∧ BalancedText w) ∨
    (x = '[' ∧ ∃ g f, w = g ++ ']' :: f ∧ BalancedText g ∧ BalancedText f) := by
  by_cases ho : x = '['
  · subst x
    exact .inr (.inr ⟨rfl,balanced_open (by decide) h⟩)
  by_cases hc : x = ']'
  · subst x
    exact absurd h (not_closes_close (by decide) w)
  have hw := (closes_skip ho hc w).mp h
  cases hx : command x with
  | none => exact .inr (.inl ⟨rfl,ho,hc,hw⟩)
  | some f => exact .inl ⟨f,rfl,hw⟩

/-- Whatever the tree of a balanced stretch of text does, the flat machine does on
that stretch. The outer induction is on the bound of the evaluator, the inner one
passes over the comments in front. -/
theorem flat_of_proc {n : ℕ} {mid : List Char} (hmid : BalancedText mid)
    (hocc : Occurs mid pc text) {s : State} {o : Outcome} (h : proc n (compile mid) s = some o)
    {r : Outcome} (hr : FlatAfter text (pc+mid.length) o r) :
    FlatAfter text pc (.ok s) r := by
  induction n using Nat.strong_induction_on generalizing pc mid s o with
  | _ n ih =>
    induction mid generalizing pc with
    | nil =>
      cases n with
      | zero => simp [proc] at h
      | succ n =>
        simp only [compile_nil,proc,Option.some.injEq] at h
        subst o
        exact hr
    | cons x w ihw =>
      obtain ⟨f,hx,hw⟩ | ⟨hx,ho,hc,hw⟩ | ⟨rfl,g,f,rfl,hg,hf⟩ := balancedText_cases hmid
      · have hlen := pos_cons pc x w
        cases n with
        | zero => simp [proc] at h
        | succ n =>
          rw [proc_succ,compile_command hx] at h
          refine flatAfter_command hocc.head hx ?_
          cases hs : f s with
          | error e =>
            simp only [hs,Outcome.next,Option.some.injEq] at h
            subst o
            exact hr
          | ok s' =>
            simp only [hs,Outcome.next] at h
            exact ih n (by omega) hw hocc.tail h (hlen ▸ hr)
      · have hlen := pos_cons pc x w
        rw [compile_comment hx ho] at h
        exact flatAfter_comment hocc.head hx ho hc (ihw hw hocc.tail h (hlen ▸ hr))
      · have hlen := pos_loop pc g f
        rw [compile_loop hg] at h
        obtain _ | _ | n := n
        · simp [proc] at h
        · simp [proc,procWhile] at h
        rw [proc,procWhile] at h
        cases ha : s.readIOArray with
        | error e =>
          simp only [ha,Option.some.injEq] at h
          subst o
          rw [hr]
          exact flatAfter_guard hocc hg ha
        | ok a =>
          simp only [ha] at h
          split_ifs at h with hz
          · exact flatAfter_exit hocc hg ha hz (ih n (by omega) hf hocc.rest h (hlen ▸ hr))
          cases n with
          | zero => simp [procNext] at h
          | succ n =>
            rw [procNext] at h
            cases hbody : proc n (compile g) s with
            | none => simp [hbody] at h
            | some o₁ =>
              refine flatAfter_enter hocc hg ha hz (ih n (by omega) hg hocc.body hbody ?_)
              -- behind the body the flat machine is back at the closing bracket
              cases o₁ with
              | error e =>
                simp only [hbody,Outcome.next,Option.some.injEq] at h
                subst o
                exact hr
              | ok s₁ =>
                simp only [hbody,Outcome.next] at h
                have hagain : proc (n+1) (compile ('[' :: (g ++ ']' :: f))) s₁ = some o := by
                  rw [compile_loop hg]
                  exact h
                exact flatAfter_close hocc hg (ih (n+1) (by omega) hmid hocc hagain hr)

/-- A run of the flat machine from the start of a balanced stretch gets through the
stretch, as its tree does, unless it stops with an error of the tree. -/
theorem proc_of_flat {n : ℕ} {mid : List Char} (hmid : BalancedText mid)
    (hocc : Occurs mid pc text) {s : State} {r : Outcome} (h : flatRun text n pc s = some r) :
    (∃ s' m, Eval (compile mid) s (.ok s') ∧ m ≤ n ∧
      flatRun text m (pc+mid.length) s' = some r) ∨
    (∃ e, r = .error e ∧ Eval (compile mid) s (.error e)) := by
  induction n using Nat.strong_induction_on generalizing pc mid s with
  | _ n ih =>
    cases mid with
    | nil =>
      refine .inl ⟨s,n,?_,le_rfl,by simpa using h⟩
      rw [compile_nil]
      exact .halt rfl
    | cons x w =>
      cases n with
      | zero => simp [flatRun] at h
      | succ n =>
      obtain ⟨f,hx,hw⟩ | ⟨hx,ho,hc,hw⟩ | ⟨rfl,g,f,rfl,hg,hf⟩ := balancedText_cases hmid
      · have hlen := pos_cons pc x w
        rw [flatRun_command hocc.head hx] at h
        have hshape := compile_command hx w
        cases hfs : f s with
        | error e =>
          simp only [hfs,Outcome.next,Option.some.injEq] at h
          exact .inr ⟨e,h.symm,.actError hshape hfs⟩
        | ok s' =>
          simp only [hfs,Outcome.next] at h
          obtain ⟨s₁,m,hev,hm,hrun⟩ | ⟨e,hr,hev⟩ := ih n (by omega) hw hocc.tail h
          · exact .inl ⟨s₁,m,.act hshape hfs hev,by omega,hlen ▸ hrun⟩
          · exact .inr ⟨e,hr,.act hshape hfs hev⟩
      · have hlen := pos_cons pc x w
        rw [flatRun_comment hocc.head hx ho hc] at h
        rw [compile_comment hx ho]
        obtain ⟨s₁,m,hev,hm,hrun⟩ | hstop := ih n (by omega) hw hocc.tail h
        · exact .inl ⟨s₁,m,hev,by omega,hlen ▸ hrun⟩
        · exact .inr hstop
      · have hlen := pos_loop pc g f
        have hshape : (compile ('[' :: (g ++ ']' :: f))).shape =
            .loop (compile g) (compile f) := by rw [compile_loop hg]; rfl
        rw [flatRun_open hocc hg] at h
        cases ha : s.readIOArray with
        | error e =>
          simp only [ha,Option.some.injEq] at h
          exact .inr ⟨e,h.symm,.guardError hshape ha⟩
        | ok a =>
          simp only [ha] at h
          split_ifs at h with hz
          · obtain ⟨s₁,m,hev,hm,hrun⟩ | ⟨e,hr,hev⟩ := ih n (by omega) hf hocc.rest h
            · exact .inl ⟨s₁,m,.exit hshape ha hz hev,by omega,hlen ▸ hrun⟩
            · exact .inr ⟨e,hr,.exit hshape ha hz hev⟩
          obtain ⟨s₁,m,hbody,hm,hrun⟩ | ⟨e,hr,hev⟩ := ih n (by omega) hg hocc.body h
          · -- the body is through: jump back and run the loop again with what is left
            cases m with
            | zero => simp [flatRun] at hrun
            | succ m =>
              rw [flatRun_close hocc hg] at hrun
              obtain ⟨s₂,k,hev,hk,hrest⟩ | ⟨e,hr,hev⟩ := ih m (by omega) hmid hocc hrun
              · exact .inl ⟨s₂,k,.again hshape ha hz hbody hev,by omega,hrest⟩
              · exact .inr ⟨e,hr,.again hshape ha hz hbody hev⟩
          · exact .inr ⟨e,hr,.bodyError hshape ha hz hev⟩

theorem eval_compile_iff {text : List Char} (hbal : BalancedText text) {s : State} {r : Outcome} :
    Eval (compile text) s r ↔ ∃ n, flatRun text n 0 s = some r := by
  constructor
  · intro h
    obtain ⟨n,hn⟩ := proc_of_eval h
    apply flat_of_proc hbal (Occurs.whole text) hn
    cases r with
    | error e => rfl
    | ok s' => exact ⟨1,by simp [flatRun]⟩
  · rintro ⟨n,h⟩
    obtain ⟨s',m,hev,_,hrun⟩ | ⟨e,rfl,hev⟩ := proc_of_flat hbal (Occurs.whole text) h
    · cases m with
      | zero => simp [flatRun] at hrun
      | succ m =>
        have hr : r = .ok s' := by simpa [flatRun,eq_comm] using hrun
        rw [hr]
        exact hev
    · exact hev

/-- Parsing a balanced program and running its tree is the same as running the
flat machine on its text: same final pointer, tape, output and unread input, same
error, and no outcome on one side without the other. -/
theorem compile_correct (text : List Char) (hbal : BalancedText text) (s : State) (r : Outcome) :
    (∃ n, proc n (compile text) s = some r) ↔ ∃ n, flatRun text n 0 s = some r := by
  rw [← eval_iff_proc]
  exact eval_compile_iff hbal

/-- The instance for a program with a comment, a loop that is not entered and an output. -/
theorem compile_correct_loop :
    (∃ n, proc n (compile ['a','[','+',']','.']) ⟨0,start,.nil,[]⟩ =
        some (.ok ⟨0,start,.nil,[Char.ofNat 0]⟩)) ↔
      ∃ n, flatRun ['a','[','+',']','.'] n 0 ⟨0,start,.nil,[]⟩ =
        some (.ok ⟨0,start,.nil,[Char.ofNat 0]⟩) :=
  compile_correct _ (by decide) _ _

/-- The whole interpreter, parser and optimiser included, against the flat machine. -/
theorem test_flat (text : List Char) (hbal : BalancedText text)
    (hlen : text.length ≤ 2^63-1-50000) (input : Stream'.Seq Char) (r : Outcome) :
    (∃ n, test n text input = some r) ↔ ∃ n, flatRun text n 0 ⟨0,start,input,[]⟩ = some r := by
  have hcounts := compile_counts hlen
  have hsame := same_reduce (movesFit_of hcounts.1 hcounts.2.1) ⟨0,start,input,[]⟩ r
    (by simp [State.InRange])
  simp only [test]
  rw [← eval_iff_proc,hsame]
  exact eval_compile_iff hbal

end Brainfuck
end MiscUniStuff
