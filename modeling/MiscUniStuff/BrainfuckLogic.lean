import MiscUniStuff.BlockLogic
import MiscUniStuff.BrainfuckMachine

/-! Programs for the interpreter: the program logic of the block machine at its trees, and
texts one after another. -/
namespace MiscUniStuff
namespace Brainfuck

open BlockMachine
open BracketWords (unclosed repair_append)

/-! ### The program logic -/

theorem part_size {c b : BF} (h : Part BF.view c b) : c.size < b.size := by
  rcases h with ⟨f,h⟩ | ⟨test,x,y,h,hc⟩
  · cases b with
    | nil => cases h
    | start x y => cases h
    | _ =>
      cases h
      exact Nat.lt_succ_self _
  · cases b with
    | start x' y' =>
      cases h
      simp only [BF.size]
      rcases hc with rfl | rfl
      · omega
      · omega
    | _ => cases h

theorem part_wellFounded : WellFounded (Part BF.view) :=
  Subrelation.wf part_size (measure BF.size).wf

theorem ends_iff {t : BF} {s s' : State} :
    Ends BF.view t s s' ↔ ∃ n, proc n t s = some (.ok s') :=
  (proc_iff_procSteps (r:=.ok s')).symm

/-- From the states of `A` the evaluator stops without an error in a state of `B`, if and
only if this can be proved with one rule for each form of a tree. -/
theorem proves_iff_proc (A : State → Prop) (t : BF) (B : State → Prop) :
    Proves BF.view A t B ↔ ∀ s, A s → ∃ n s', proc n t s = some (.ok s') ∧ B s' := by
  rw [proves_iff part_wellFounded]
  refine forall_congr' fun s => imp_congr_right fun _ => ?_
  constructor
  · rintro ⟨s',hends,hB⟩
    obtain ⟨n,hn⟩ := ends_iff.mp hends
    exact ⟨n,s',hn,hB⟩
  · rintro ⟨n,s',hn,hB⟩
    exact ⟨s',ends_iff.mpr ⟨n,hn⟩,hB⟩

/-! ### One program after another -/

/-- The tree with another one behind its end. -/
def BF.append : BF → BF → BF
  | .nil, u => u
  | .add n g, u => .add n (g.append u)
  | .sub n g, u => .sub n (g.append u)
  | .incP n g, u => .incP n (g.append u)
  | .decP n g, u => .decP n (g.append u)
  | .put g, u => .put (g.append u)
  | .get g, u => .get (g.append u)
  | .start x y, u => .start x (y.append u)

section Append
variable {t u g x y : BF} {s s₁ : State} {r : Outcome}

theorem append_halt (ht : t.shape = .halt) : t.append u = u := by
  cases t with
  | nil => rfl
  | _ => cases ht

theorem append_act {f : State → Outcome} (ht : t.shape = .act f g) :
    (t.append u).shape = .act f (g.append u) := by
  cases t with
  | nil => cases ht
  | start => cases ht
  | _ =>
    cases ht
    rfl

theorem append_loop (ht : t.shape = .loop x y) : (t.append u).shape = .loop x (y.append u) := by
  cases t with
  | start =>
    cases ht
    rfl
  | _ => cases ht

theorem eval_append_ok {o : Outcome} (h : Eval t s o) (ho : o = .ok s₁) (hu : Eval u s₁ r) :
    Eval (t.append u) s r := by
  induction h with
  | halt ht =>
    cases ho
    rw [append_halt ht]
    exact hu
  | act ht hf _ ih => exact .act (append_act ht) hf (ih ho)
  | actError | guardError | bodyError => cases ho
  | exit ht hr hz _ ih => exact .exit (append_loop ht) hr hz (ih ho)
  | again ht hr hz hx _ _ ih => exact .again (append_loop ht) hr hz hx (ih ho)

theorem eval_append_error {o : Outcome} {e : Failure} (h : Eval t s o) (ho : o = .error e) :
    Eval (t.append u) s (.error e) := by
  induction h with
  | halt => cases ho
  | act ht hf _ ih => exact .act (append_act ht) hf (ih ho)
  | actError ht hf =>
    cases ho
    exact .actError (append_act ht) hf
  | guardError ht hr =>
    cases ho
    exact .guardError (append_loop ht) hr
  | exit ht hr hz _ ih => exact .exit (append_loop ht) hr hz (ih ho)
  | again ht hr hz hx _ _ ih => exact .again (append_loop ht) hr hz hx (ih ho)
  | bodyError ht hr hz hx =>
    cases ho
    exact .bodyError (append_loop ht) hr hz hx

/-- Either the first tree comes to its end and the second runs from there, or an error stops
the first. -/
def Follows (t u : BF) (s : State) (r : Outcome) : Prop :=
  (∃ s₁, Eval t s (.ok s₁) ∧ Eval u s₁ r) ∨ ∃ e, r = .error e ∧ Eval t s (.error e)

theorem follows_act {f : State → Outcome} (ht : t.shape = .act f g)
    (ih : ∀ s r, Eval (g.append u) s r → Follows g u s r) (h : Eval (t.append u) s r) :
    Follows t u s r := by
  rcases (eval_act_iff (append_act ht)).mp h with ⟨s',hf,hg⟩ | ⟨e,hf,rfl⟩
  · rcases ih s' r hg with ⟨s₁,hfirst,hsecond⟩ | ⟨e,rfl,herr⟩
    · exact Or.inl ⟨s₁,.act ht hf hfirst,hsecond⟩
    · exact Or.inr ⟨e,rfl,.act ht hf herr⟩
  · exact Or.inr ⟨e,rfl,.actError ht hf⟩

theorem follows_loop {w : BF} (ht : t.shape = .loop x y) (hw : w.shape = .loop x (y.append u))
    (ih : ∀ s r, Eval (y.append u) s r → Follows y u s r) (h : Eval w s r) : Follows t u s r := by
  induction h with
  | halt hs => cases hw.symm.trans hs
  | act hs => cases hw.symm.trans hs
  | actError hs => cases hw.symm.trans hs
  | guardError hs hr =>
    cases hw.symm.trans hs
    exact Or.inr ⟨_,rfl,.guardError ht hr⟩
  | exit hs hr hz hy _ =>
    cases hw.symm.trans hs
    rcases ih _ _ hy with ⟨s₁,hfirst,hsecond⟩ | ⟨e,rfl,herr⟩
    · exact Or.inl ⟨s₁,.exit ht hr hz hfirst,hsecond⟩
    · exact Or.inr ⟨e,rfl,.exit ht hr hz herr⟩
  | again hs hr hz hx _ _ ihw =>
    cases hw.symm.trans hs
    rcases ihw hw with ⟨s₁,hfirst,hsecond⟩ | ⟨e,rfl,herr⟩
    · exact Or.inl ⟨s₁,.again ht hr hz hx hfirst,hsecond⟩
    · exact Or.inr ⟨e,rfl,.again ht hr hz hx herr⟩
  | bodyError hs hr hz hx =>
    cases hw.symm.trans hs
    exact Or.inr ⟨_,rfl,.bodyError ht hr hz hx⟩

theorem follows_of_eval (t : BF) (s : State) (r : Outcome) (h : Eval (t.append u) s r) :
    Follows t u s r := by
  induction t generalizing s r with
  | nil => exact Or.inl ⟨s,.halt rfl,h⟩
  | start x y _ ih => exact follows_loop rfl rfl ih h
  | add n g ih | sub n g ih | incP n g ih | decP n g ih | put g ih | get g ih =>
    exact follows_act rfl ih h

theorem eval_append_iff : Eval (t.append u) s r ↔ Follows t u s r := by
  constructor
  · exact follows_of_eval t s r
  · rintro (⟨s₁,ht,hu⟩ | ⟨e,rfl,ht⟩)
    · exact eval_append_ok ht rfl hu
    · exact eval_append_error ht rfl

end Append

theorem print_append (t u : BF) : (t.append u).print = t.print ++ u.print := by
  induction t with
  | nil => rfl
  | start x y _ ih => simp [BF.append,BF.print,ih]
  | add n g ih | sub n g ih | incP n g ih | decP n g ih | put g ih | get g ih =>
    simp [BF.append,BF.print,ih]

theorem unitCounts_append {t u : BF} (ht : t.UnitCounts) (hu : u.UnitCounts) :
    (t.append u).UnitCounts := by
  induction t with
  | nil => exact hu
  | add n g ih | sub n g ih | incP n g ih | decP n g ih => exact ⟨ht.1,ih ht.2⟩
  | put g ih | get g ih => exact ih ht
  | start x y _ ih => exact ⟨ht.1,ih ht.2⟩

/-- No bracket is open at the end of the text; there may be some that close nothing. -/
def Closed (text : List Char) : Prop := unclosed '[' ']' 0 (commands text) = 0

instance (text : List Char) : Decidable (Closed text) :=
  inferInstanceAs (Decidable (unclosed '[' ']' 0 (commands text) = 0))

theorem repaired_append {first : List Char} (h : Closed first) (second : List Char) :
    repaired 0 (first ++ second) = repaired 0 first ++ repaired 0 second := by
  have hsplit : commands (first ++ second) = commands first ++ commands second :=
    List.filter_append ..
  rw [repaired,hsplit,repair_append h,repaired,repaired]

/-- The parser puts the tree of the second text behind that of the first, if this leaves no
bracket open. -/
theorem compile_append {first : List Char} (h : Closed first) (second : List Char) :
    compile (first ++ second) = (compile first).append (compile second) := by
  have hprint : (compile (first ++ second)).print =
      ((compile first).append (compile second)).print := by
    rw [print_append,print_compile,print_compile,print_compile,repaired_append h]
  have hunits := unitCounts_append (unitCounts_compile first) (unitCounts_compile second)
  rw [← compile_print (unitCounts_compile (first ++ second)),hprint,compile_print hunits]

/-- Running one text behind another is running the second where the first has come to its
end, if the first leaves no bracket open: the same outcomes, errors included, and none on one
side without the other. -/
theorem proc_compile_append (first second : List Char) (h : Closed first) (s : State)
    (r : Outcome) : (∃ n, proc n (compile (first ++ second)) s = some r) ↔
      (∃ n m s₁, proc n (compile first) s = some (.ok s₁) ∧
        proc m (compile second) s₁ = some r) ∨
      ∃ n e, r = .error e ∧ proc n (compile first) s = some (.error e) := by
  rw [compile_append h,← eval_iff_proc,eval_append_iff]
  constructor
  · rintro (⟨s₁,hfirst,hsecond⟩ | ⟨e,rfl,hfirst⟩)
    · obtain ⟨n,hn⟩ := proc_of_eval hfirst
      obtain ⟨m,hm⟩ := proc_of_eval hsecond
      exact Or.inl ⟨n,m,s₁,hn,hm⟩
    · obtain ⟨n,hn⟩ := proc_of_eval hfirst
      exact Or.inr ⟨n,e,rfl,hn⟩
  · rintro (⟨n,m,s₁,hn,hm⟩ | ⟨n,e,rfl,hn⟩)
    · exact Or.inl ⟨s₁,(eval_of_proc n).1 _ _ _ hn,(eval_of_proc m).1 _ _ _ hm⟩
    · exact Or.inr ⟨e,rfl,(eval_of_proc n).1 _ _ _ hn⟩

theorem proc_compile_append_stray :
    (∃ n, proc n (compile ([']','+'] ++ ['.'])) ⟨0,start,.nil,[]⟩ =
        some (.ok ⟨0,Function.update start 0 1,.nil,[Char.ofNat 1]⟩)) ↔
      (∃ n m s₁, proc n (compile [']','+']) ⟨0,start,.nil,[]⟩ = some (.ok s₁) ∧
        proc m (compile ['.']) s₁ =
          some (.ok ⟨0,Function.update start 0 1,.nil,[Char.ofNat 1]⟩)) ∨
      ∃ n e, (.ok ⟨0,Function.update start 0 1,.nil,[Char.ofNat 1]⟩ : Outcome) = .error e ∧
        proc n (compile [']','+']) ⟨0,start,.nil,[]⟩ = some (.error e) :=
  proc_compile_append [']','+'] ['.'] (by decide) _ _

end Brainfuck
end MiscUniStuff
