import Mathlib.Data.Seq.Basic
import Mathlib.Tactic

/-! The optimising Brainfuck interpreter `OBfi.lhs`: its parser, its optimiser
and its evaluator. A Haskell `Int` held in a tree, a cell or the pointer is a
64-bit word; only the bracket depth of `findend`, which never exceeds the length
of the text in memory, is kept as an unbounded integer. -/
namespace MiscUniStuff
namespace Brainfuck

/-- `data BF`: each instruction carries the rest of its block. -/
inductive BF
  | nil
  | add (n : Int64) (rest : BF)
  | sub (n : Int64) (rest : BF)
  | incP (n : Int64) (rest : BF)
  | decP (n : Int64) (rest : BF)
  | put (rest : BF)
  | get (rest : BF)
  | start (body rest : BF)
  deriving DecidableEq

/-- Split the text after a `'['` at depth `y` into the loop body and what follows its `']'`. -/
def findend : List Char → ℤ → List Char × List Char
  | [], _ => ([],[])
  | x::xs, y =>
    if x = '[' then (x::(findend xs (y+1)).1,(findend xs (y+1)).2)
    else if x = ']' ∧ y = 1 then ([],xs)
    else if x = ']' then (x::(findend xs (y-1)).1,(findend xs (y-1)).2)
    else (x::(findend xs y).1,(findend xs y).2)

theorem findend_body_length (xs : List Char) (y : ℤ) :
    (findend xs y).1.length ≤ xs.length := by
  induction xs generalizing y with
  | nil => simp [findend]
  | cons x xs ih =>
    unfold findend
    split_ifs <;> simp [ih]

theorem findend_rest_length (xs : List Char) (y : ℤ) :
    (findend xs y).2.length ≤ xs.length := by
  induction xs generalizing y with
  | nil => simp [findend]
  | cons x xs ih =>
    unfold findend
    split_ifs
    · exact (ih (y+1)).trans (Nat.le_succ _)
    · exact Nat.le_succ _
    · exact (ih (y-1)).trans (Nat.le_succ _)
    · exact (ih y).trans (Nat.le_succ _)

mutual
/-- Parse program text; every character that is not a command is skipped, a stray `']'` too. -/
def compile : List Char → BF
  | [] => .nil
  | x::y =>
    if x = '+' then .add 1 (compile y)
    else if x = '-' then .sub 1 (compile y)
    else if x = '>' then .incP 1 (compile y)
    else if x = '<' then .decP 1 (compile y)
    else if x = '[' then doStart y
    else if x = '.' then .put (compile y)
    else if x = ',' then .get (compile y)
    else compile y
  termination_by s => 2*s.length
def doStart (x : List Char) : BF :=
  .start (compile (findend x 1).1) (compile (findend x 1).2)
  termination_by 2*x.length+1
  decreasing_by
    · have := findend_body_length x 1; omega
    · have := findend_rest_length x 1; omega
end

@[simp] theorem compile_nil : compile [] = .nil := by rw [compile]

@[simp] theorem compile_open (y : List Char) :
    compile ('['::y) = .start (compile (findend y 1).1) (compile (findend y 1).2) := by
  simp [compile,doStart]

/-- Induction on a text the way the parser goes through it: the rest of the text, and the two
halves of the rest. -/
theorem text_induction {P : List Char → Prop} (nil : P [])
    (cons : ∀ x y, P y → P (findend y 1).1 → P (findend y 1).2 → P (x::y)) (text : List Char) :
    P text := by
  induction hn : text.length using Nat.strong_induction_on generalizing text with
  | _ n ih =>
    cases text with
    | nil => exact nil
    | cons x y =>
      rw [List.length_cons] at hn
      have hbody := findend_body_length y 1
      have hrest := findend_rest_length y 1
      exact cons x y (ih _ (by omega) y rfl) (ih _ (by omega) _ rfl) (ih _ (by omega) _ rfl)

/-- Number of instructions, loop bodies included. -/
def BF.size : BF → ℕ
  | .nil => 0
  | .add _ g | .sub _ g | .incP _ g | .decP _ g | .put g | .get g => g.size+1
  | .start x y => x.size+y.size+1

/-- Merge every run of equal instructions into one. -/
def reduce : BF → BF
  | .add x (.add y g) => reduce (.add (x+y) g)
  | .sub x (.sub y g) => reduce (.sub (x+y) g)
  | .add x y => .add x (reduce y)
  | .sub x y => .sub x (reduce y)
  | .incP x (.incP y g) => reduce (.incP (x+y) g)
  | .decP x (.decP y g) => reduce (.decP (x+y) g)
  | .incP x y => .incP x (reduce y)
  | .decP x y => .decP x (reduce y)
  | .put y => .put (reduce y)
  | .get y => .get (reduce y)
  | .start x y => .start (reduce x) (reduce y)
  | .nil => .nil
  termination_by t => t.size
  decreasing_by all_goals simp only [BF.size]; omega

/-- The array made by `start`, with bounds `(0,50000)`. -/
abbrev Tape := Fin 50001 → Int64

def start : Tape := fun _ => 0

/-- What `proc` works on: the pointer, the array, the unread input (possibly
endless) and the output so far. -/
structure State where
  pointer : Int64
  tape : Tape
  input : Stream'.Seq Char
  output : List Char

inductive Error
  | overRange | arrayIndex
  deriving DecidableEq

/-- An abnormal stop leaves behind what the outside world can still see. -/
structure Failure where
  error : Error
  input : Stream'.Seq Char
  output : List Char

abbrev Outcome := Except Failure State

namespace State

def fail (s : State) (e : Error) : Failure := ⟨e,s.input,s.output⟩

/-- The array cell the pointer selects, if it is within the bounds. -/
def cell (s : State) : Option (Fin 50001) :=
  if h : 0 ≤ s.pointer.toInt ∧ s.pointer.toInt ≤ 50000 then
    some ⟨s.pointer.toInt.toNat,by omega⟩
  else none

def readIOArray (s : State) : Except Failure Int64 :=
  match s.cell with
  | some i => .ok (s.tape i)
  | none => .error (s.fail .arrayIndex)

def writeIOArray (s : State) (h : Int64) : Outcome :=
  match s.cell with
  | some i => .ok { s with tape := Function.update s.tape i h }
  | none => .error (s.fail .arrayIndex)

end State

/-- `abs (x mod 256)`, with Haskell's flooring `mod`. -/
def wraper (x : Int64) : ℕ := (x.toInt % 256).natAbs

def wrapChr (x : Int64) : Char := Char.ofNat (wraper x)

def ord (c : Char) : Int64 := Int64.ofNat c.toNat

/-- `get_char`: the next input character, or `chr 0` once the input has ended. -/
def getChar (s : State) : Char × State :=
  match s.input.destruct with
  | none => (Char.ofNat 0,s)
  | some (c,rest) => (c,{ s with input := rest })

/-- Read the current cell and write it back changed. -/
def modifyCell (f : Int64 → Int64) (s : State) : Outcome := do
  let h ← s.readIOArray
  s.writeIOArray (f h)

def addCell (x : Int64) : State → Outcome := modifyCell (·+x)

def subCell (x : Int64) : State → Outcome := modifyCell (·-x)

/-- Move the pointer to `p`, unless the range check has failed. -/
def moveUnless (outside : Prop) [Decidable outside] (p : Int64) (s : State) : Outcome :=
  if outside then .error (s.fail .overRange) else .ok { s with pointer := p }

def incPointer (x : Int64) (s : State) : Outcome :=
  moveUnless (s.pointer+x > 50000) (s.pointer+x) s

def decPointer (x : Int64) (s : State) : Outcome :=
  moveUnless (s.pointer-x < 0) (s.pointer-x) s

def putCell (s : State) : Outcome := do
  let h ← s.readIOArray
  pure { s with output := s.output ++ [wrapChr h] }

def getCell (s : State) : Outcome :=
  (getChar s).2.writeIOArray (ord (getChar s).1)

/-- Go on with `k` unless the action before it has stopped the program. -/
def Outcome.next (o : Outcome) (k : State → Option Outcome) : Option Outcome :=
  match o with
  | .ok s => k s
  | .error e => some (.error e)

mutual
/-- The evaluator, with a bound on the depth of calls; `none` when it is used up. -/
def proc : ℕ → BF → State → Option Outcome
  | 0, _, _ => none
  | _+1, .nil, s => some (.ok s)
  | n+1, .add x xs, s => Outcome.next (addCell x s) (proc n xs)
  | n+1, .sub x xs, s => Outcome.next (subCell x s) (proc n xs)
  | n+1, .incP x xs, s => Outcome.next (incPointer x s) (proc n xs)
  | n+1, .decP x xs, s => Outcome.next (decPointer x s) (proc n xs)
  | n+1, .put xs, s => Outcome.next (putCell s) (proc n xs)
  | n+1, .get xs, s => Outcome.next (getCell s) (proc n xs)
  | n+1, .start x xs, s => procWhile n x xs s
def procWhile : ℕ → BF → BF → State → Option Outcome
  | 0, _, _, _ => none
  | n+1, x, y, s =>
    match s.readIOArray with
    | .error e => some (.error e)
    | .ok h => if wraper h = 0 then proc n y s else procNext n x y s
def procNext : ℕ → BF → BF → State → Option Outcome
  | 0, _, _, _ => none
  | n+1, x, y, s =>
    match proc n x s with
    | none => none
    | some f => Outcome.next f (procWhile n x y)
end

/-- `test`: optimise the program and run it on the blank tape. -/
def test (n : ℕ) (x : List Char) (input : Stream'.Seq Char) : Option Outcome :=
  proc n (reduce (compile x)) ⟨0,start,input,[]⟩

end Brainfuck
end MiscUniStuff
