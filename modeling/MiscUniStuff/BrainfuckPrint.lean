import MiscUniStuff.BrainfuckFlat

/-! A printer for parsed programs and the law that ties it to the parser: on any
text, balanced or not, parsing and printing keeps the commands and repairs the
brackets; on trees of unit counts printing and parsing changes nothing. -/
namespace MiscUniStuff
namespace Brainfuck

open BracketWords

/-- The source text of a tree, one character for each instruction. -/
def BF.print : BF → List Char
  | .nil => []
  | .add _ g => '+' :: g.print
  | .sub _ g => '-' :: g.print
  | .incP _ g => '>' :: g.print
  | .decP _ g => '<' :: g.print
  | .put g => '.' :: g.print
  | .get g => ',' :: g.print
  | .start x y => '[' :: (x.print ++ ']' :: y.print)

/-- All counts of the tree are one, as in the trees the parser makes. -/
def BF.UnitCounts : BF → Prop
  | .nil => True
  | .add n g | .sub n g | .incP n g | .decP n g => n = 1 ∧ g.UnitCounts
  | .put g | .get g => g.UnitCounts
  | .start x y => x.UnitCounts ∧ y.UnitCounts

def isCommand (x : Char) : Bool := ['+','-','>','<','[','.',',',']'].contains x

def commands (s : List Char) : List Char := s.filter isCommand

@[simp] theorem commands_nil : commands [] = [] := rfl

theorem commands_cons (x : Char) (s : List Char) :
    commands (x::s) = if isCommand x then x::commands s else commands s :=
  List.filter_cons

/-- The text with its comments removed and its brackets repaired, read where `k`
brackets are open. -/
def repaired (k : ℕ) (s : List Char) : List Char := repair '[' ']' k (commands s)

@[simp] theorem repaired_nil (k : ℕ) : repaired k [] = List.replicate k ']' := rfl

theorem repaired_open (k : ℕ) (s : List Char) :
    repaired k ('[' :: s) = '[' :: repaired (k+1) s := by
  simp [repaired,commands_cons,isCommand]

theorem repaired_stray (s : List Char) : repaired 0 (']' :: s) = repaired 0 s := by
  simp [repaired,commands_cons,isCommand,repair_stray]

theorem repaired_close (k : ℕ) (s : List Char) :
    repaired (k+1) (']' :: s) = ']' :: repaired k s := by
  simp [repaired,commands_cons,isCommand,repair_close]

theorem repaired_command {x : Char} (hx : isCommand x) (ho : x ≠ '[') (hc : x ≠ ']') (k : ℕ)
    (s : List Char) : repaired k (x::s) = x::repaired k s := by
  simp [repaired,commands_cons,hx,repair_skip ho hc]

theorem repaired_comment {x : Char} (hx : isCommand x = false) (k : ℕ) (s : List Char) :
    repaired k (x::s) = repaired k s := by
  simp [repaired,commands_cons,hx]

/-- Where `findend` splits the text, the repaired text has the closing bracket of
the loop; it is the last of the appended ones when the loop was never closed. -/
theorem repaired_findend (k : ℕ) (s : List Char) :
    repaired (k+1) s =
      repaired k (findend s (k+1)).1 ++ ']' :: repaired 0 (findend s (k+1)).2 := by
  induction s generalizing k with
  | nil => simp [findend,List.replicate_succ']
  | cons x s ih =>
    by_cases ho : x = '['
    · subst x
      have hs := ih (k+1)
      push_cast at hs
      simp only [findend,if_true,repaired_open,hs,List.cons_append]
    by_cases hc : x = ']'
    · subst x
      cases k with
      | zero => simp [findend,repaired_close]
      | succ k =>
        have hk : ((k+1 : ℕ) : ℤ)+1 ≠ 1 := by omega
        have hd : ((k+1 : ℕ) : ℤ)+1-1 = (k : ℤ)+1 := by omega
        simp only [findend,if_neg ho,hk,and_false,if_false,if_true,hd,repaired_close,ih k,
          List.cons_append]
    · simp only [findend,if_neg ho,hc,false_and,if_false]
      cases hx : isCommand x with
      | true => simp only [repaired_command hx ho hc,ih k,List.cons_append]
      | false => simp only [repaired_comment hx,ih k]

theorem print_compile (s : List Char) : (compile s).print = repaired 0 s := by
  induction s using text_induction with
  | nil => simp [BF.print]
  | cons x s hs hbody hrest =>
    by_cases ho : x = '['
    · subst x
      have hsplit := repaired_findend 0 s
      simp only [Nat.cast_zero,zero_add] at hsplit
      rw [compile_open,repaired_open,BF.print,hbody,hrest,hsplit]
    by_cases hc : x = ']'
    · subst x
      rw [repaired_stray,← hs]
      simp [compile]
    cases hx : isCommand x with
    | true =>
      rw [repaired_command hx ho hc,← hs,compile]
      simp only [isCommand,List.contains_cons,Bool.or_eq_true,beq_iff_eq] at hx
      split_ifs with h₁ h₂ h₃ h₄ h₅ h₆
      all_goals simp_all [BF.print]
    | false =>
      rw [repaired_comment hx,← hs,compile]
      simp only [isCommand,List.contains_cons,Bool.or_eq_false_iff,beq_eq_false_iff_ne] at hx
      simp [hx]

/-! ### Printed text -/

theorem balancedText_print (t : BF) : BalancedText t.print := by
  induction t with
  | nil => simp [BF.print]
  | start x y ihx ihy => exact (balanced_loop (by decide) ihx y.print).mpr ihy
  | _ => exact (closes_skip (by decide) (by decide) _).mpr ‹_›

theorem compile_print {t : BF} (h : t.UnitCounts) : compile t.print = t := by
  induction t with
  | nil => exact compile_nil
  | add n g ih => simp [BF.print,compile,ih h.2,h.1]
  | sub n g ih => simp [BF.print,compile,ih h.2,h.1]
  | incP n g ih => simp [BF.print,compile,ih h.2,h.1]
  | decP n g ih => simp [BF.print,compile,ih h.2,h.1]
  | put g ih => simp [BF.print,compile,ih h]
  | get g ih => simp [BF.print,compile,ih h]
  | start x y ihx ihy => rw [BF.print,compile_loop (balancedText_print x),ihx h.1,ihy h.2]

theorem unitCounts_compile (s : List Char) : (compile s).UnitCounts := by
  induction s using text_induction with
  | nil => simp [BF.UnitCounts]
  | cons x s hs hbody hrest =>
    rw [compile]
    split_ifs
    all_goals simp [BF.UnitCounts,doStart,hs,hbody,hrest]

/-- The repaired text parses to the same tree. -/
theorem compile_repaired (s : List Char) : compile (repaired 0 s) = compile s := by
  rw [← print_compile]
  exact compile_print (unitCounts_compile s)

/-- A balanced text without comments is printed back as it was. -/
theorem print_compile_balanced {s : List Char} (hs : BalancedText s) (hc : ∀ x ∈ s, isCommand x) :
    (compile s).print = s := by
  have hall : commands s = s := List.filter_eq_self.mpr hc
  rw [print_compile,repaired,hall]
  exact repair_of_closes (by decide) hs

/-- The parser law, both ways round. -/
theorem parser_law :
    (∀ s : List Char, (compile s).print = repair '[' ']' 0 (s.filter isCommand)) ∧
      ∀ t : BF, t.UnitCounts → compile t.print = t :=
  ⟨print_compile,fun _ h => compile_print h⟩

/-- A stray bracket, a comment and a loop that is never closed; and a tree with a loop. -/
theorem parser_law_loop :
    (compile [']','a','[','+']).print = ['[','+',']'] ∧
      compile (BF.print (.start (.add 1 .nil) .nil)) = .start (.add 1 .nil) .nil :=
  ⟨parser_law.1 _,parser_law.2 _ (by simp [BF.UnitCounts])⟩

end Brainfuck
end MiscUniStuff
