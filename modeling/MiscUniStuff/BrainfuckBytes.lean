import MiscUniStuff.BrainfuckMachine

/-! The standard machine with cells of eight bits, and the proof that the
evaluator, which never normalises a cell it writes, goes in lock-step with it. -/
namespace MiscUniStuff
namespace Brainfuck

open BlockMachine

/-- The state of the machine with byte cells; all else is as in `State`. -/
structure ByteState where
  pointer : Int64
  tape : Fin 50001 → UInt8
  input : Stream'.Seq Char
  output : List Char

/-- A number modulo 256. -/
def byte (x : Int64) : UInt8 := UInt8.ofInt x.toInt

namespace ByteState

def fail (s : ByteState) (e : Error) : Failure := ⟨e,s.input,s.output⟩

def cell (s : ByteState) : Option (Fin 50001) :=
  if h : 0 ≤ s.pointer.toInt ∧ s.pointer.toInt ≤ 50000 then
    some ⟨s.pointer.toInt.toNat,by omega⟩
  else none

def read (s : ByteState) : Except Failure UInt8 :=
  match s.cell with
  | some i => .ok (s.tape i)
  | none => .error (s.fail .arrayIndex)

def write (s : ByteState) (b : UInt8) : Except Failure ByteState :=
  match s.cell with
  | some i => .ok { s with tape := Function.update s.tape i b }
  | none => .error (s.fail .arrayIndex)

/-- Byte arithmetic, which wraps. -/
def modify (f : UInt8 → UInt8) (s : ByteState) : Except Failure ByteState :=
  s.read.bind fun b => s.write (f b)

def moveUnless (outside : Prop) [Decidable outside] (p : Int64) (s : ByteState) :
    Except Failure ByteState :=
  if outside then .error (s.fail .overRange) else .ok { s with pointer := p }

def put (s : ByteState) : Except Failure ByteState :=
  s.read.map fun b => { s with output := s.output ++ [Char.ofNat b.toNat] }

/-- Store the input character modulo 256, or zero once the input has ended. -/
def get (s : ByteState) : Except Failure ByteState :=
  match s.input.destruct with
  | none => s.write 0
  | some (c,rest) => ByteState.write { s with input := rest } (UInt8.ofNat c.toNat)

def loopTest (s : ByteState) : Except Failure Bool := s.read.map fun b => decide (b ≠ 0)

end ByteState

/-- The tree read as a program for byte cells. -/
def BF.byteView : BF → View BF ByteState Failure
  | .nil => .halt
  | .add x g => .act (ByteState.modify (·+byte x)) g
  | .sub x g => .act (ByteState.modify (·-byte x)) g
  | .incP x g => .act (fun s => s.moveUnless (s.pointer+x > 50000) (s.pointer+x)) g
  | .decP x g => .act (fun s => s.moveUnless (s.pointer-x < 0) (s.pointer-x)) g
  | .put g => .act ByteState.put g
  | .get g => .act ByteState.get g
  | .start x y => .loop ByteState.loopTest x y

/-- The byte machine after `n` instructions of the tree. -/
def byteSteps (n : ℕ) (t : BF) (s : ByteState) : Except Failure (BlockMachine.Config BF ByteState) :=
  after BF.byteView n ⟨[t],s⟩

/-- Each cell replaced by its value modulo 256. -/
def State.bytes (s : State) : ByteState := ⟨s.pointer,fun i => byte (s.tape i),s.input,s.output⟩

/-! ### Numbers and bytes -/

theorem toNat_byte (x : Int64) : (byte x).toNat = wraper x := by
  have h₀ := Int.emod_nonneg x.toInt (b:=256) (by norm_num)
  have h₁ := Int.emod_lt_of_pos x.toInt (b:=256) (by norm_num)
  have hpow : (2 : ℤ)^8 = 256 := by norm_num
  rw [byte,UInt8.ofInt,UInt8.toNat_ofNat',wraper,hpow]
  omega

theorem byte_eq_zero (x : Int64) : byte x = 0 ↔ wraper x = 0 := by
  rw [← toNat_byte,← UInt8.toNat_inj]
  rfl

/-- A byte does not tell a number from one that differs by a multiple of 256. -/
theorem byte_eq_ofInt {x : Int64} {n : ℤ} (h : x.toInt % 2^8 = n % 2^8) :
    byte x = UInt8.ofInt n := by
  rw [byte,UInt8.ofInt,UInt8.ofInt,h]

theorem bmod_word_mod (n : ℤ) : Int.bmod n (2^64) % 2^8 = n % 2^8 := by
  have h := Int.bmod_def n (2^64)
  omega

theorem byte_add (x y : Int64) : byte (x+y) = byte x + byte y := by
  have h : (x+y).toInt % 2^8 = (x.toInt+y.toInt) % 2^8 := by
    rw [Int64.toInt_add]
    exact bmod_word_mod _
  rw [byte_eq_ofInt h,UInt8.ofInt_add,byte,byte]

theorem byte_sub (x y : Int64) : byte (x-y) = byte x - byte y := by
  have h : (x-y).toInt % 2^8 = (x.toInt+ -y.toInt) % 2^8 := by
    rw [Int64.toInt_sub,← sub_eq_add_neg]
    exact bmod_word_mod _
  rw [byte_eq_ofInt h,UInt8.ofInt_add,UInt8.ofInt_neg,byte,byte,UInt8.sub_eq_add_neg]

theorem byte_ord (c : Char) : byte (ord c) = UInt8.ofNat c.toNat := by
  have hc : c.toNat < 2^32 := c.val.toNat_lt
  have hord : (ord c).toInt = c.toNat := Int64.toInt_ofNat_of_lt (by omega)
  have hpow : (2 : ℤ)^8 = (256 : ℕ) := by norm_num
  rw [byte,hord,UInt8.ofInt,hpow,← Int.natCast_emod,Int.toNat_natCast,← UInt8.toNat_inj]
  simp

/-! ### Each instruction in lock-step -/

variable (s : State)

theorem cell_bytes : s.bytes.cell = s.cell := rfl

theorem read_bytes : s.bytes.read = s.readIOArray.map byte := by
  rw [ByteState.read,State.readIOArray,cell_bytes]
  cases s.cell <;> rfl

theorem write_bytes (x : Int64) :
    s.bytes.write (byte x) = (s.writeIOArray x).map State.bytes := by
  rw [ByteState.write,State.writeIOArray,cell_bytes]
  cases hi : s.cell with
  | none => rfl
  | some i =>
    have htape : Function.update s.bytes.tape i (byte x) =
        fun j => byte (Function.update s.tape i x j) := by
      funext j
      by_cases hj : j = i
      · subst j
        simp
      · simp [hj,State.bytes]
    simp only [Except.map,State.bytes] at htape ⊢
    rw [htape]

theorem modify_bytes {f : Int64 → Int64} {f' : UInt8 → UInt8} (hf : ∀ x, byte (f x) = f' (byte x)) :
    s.bytes.modify f' = (modifyCell f s).map State.bytes := by
  rw [ByteState.modify,modifyCell,read_bytes]
  cases hr : s.readIOArray with
  | error e => rfl
  | ok x =>
    have hw := write_bytes s (f x)
    rw [hf] at hw
    exact hw

theorem moveUnless_bytes (outside : Prop) [Decidable outside] (p : Int64) :
    s.bytes.moveUnless outside p = (moveUnless outside p s).map State.bytes := by
  unfold ByteState.moveUnless moveUnless
  split_ifs <;> rfl

theorem put_bytes : s.bytes.put = (putCell s).map State.bytes := by
  rw [ByteState.put,putCell,read_bytes]
  cases hr : s.readIOArray with
  | error e => rfl
  | ok x =>
    have hchar : Char.ofNat (byte x).toNat = wrapChr x := by rw [toNat_byte]; rfl
    simp only [Except.map,bind,Except.bind,pure,Except.pure,hchar,State.bytes]

theorem get_bytes : s.bytes.get = (getCell s).map State.bytes := by
  have hinput : s.bytes.input = s.input := rfl
  rw [ByteState.get,getCell,getChar,hinput]
  cases hd : s.input.destruct with
  | none => exact write_bytes s (ord (Char.ofNat 0))
  | some p =>
    have hw := write_bytes { s with input := p.2 } (ord p.1)
    rw [byte_ord] at hw
    exact hw

theorem loopTest_bytes : s.bytes.loopTest = loopTest s := by
  rw [ByteState.loopTest,loopTest,read_bytes]
  cases hr : s.readIOArray with
  | error e => rfl
  | ok x =>
    have hzero := byte_eq_zero x
    simp [Except.map,hzero]

theorem view_bytes (t : BF) : t.view.Maps State.bytes t.byteView := by
  cases t with
  | nil => trivial
  | add x g => exact ⟨rfl,fun s => modify_bytes s fun y => byte_add y x⟩
  | sub x g => exact ⟨rfl,fun s => modify_bytes s fun y => byte_sub y x⟩
  | incP x g => exact ⟨rfl,fun s => moveUnless_bytes s _ _⟩
  | decP x g => exact ⟨rfl,fun s => moveUnless_bytes s _ _⟩
  | put g => exact ⟨rfl,put_bytes⟩
  | get g => exact ⟨rfl,get_bytes⟩
  | start x y => exact ⟨rfl,rfl,loopTest_bytes⟩

/-- Where the byte machine is when its program has had this outcome. -/
def byteEnd (q : Except Failure ByteState) : Except Failure (BlockMachine.Config BF ByteState) :=
  q.map fun b => ⟨[],b⟩

theorem byteEnd_map (r : Outcome) :
    byteEnd (r.map State.bytes) = (behind [] r).map (Config.map State.bytes) := by
  rw [byteEnd,behind,map_map,map_map]
  rfl

/-- Only the image of an end of the evaluator is an end of the byte machine. -/
theorem byteEnd_inv {c : Except Failure Config} {q : Except Failure ByteState}
    (h : c.map (Config.map State.bytes) = byteEnd q) :
    ∃ r : Outcome, c = behind [] r ∧ r.map State.bytes = q := by
  cases c with
  | error e =>
    cases q with
    | ok b => cases h
    | error e' =>
      cases h
      exact ⟨.error e,rfl,rfl⟩
  | ok c =>
    cases q with
    | error e' => cases h
    | ok b =>
      obtain ⟨blocks,s⟩ := c
      cases h
      exact ⟨.ok s,rfl,rfl⟩

/-- The evaluator and the byte machine go in lock-step: after any number of
instructions both have the same instructions left to do, the same pointer, input
and output, or have stopped with the same error, and every byte is its cell
modulo 256. So the outcomes of the byte machine are the images of those of the
evaluator, and one of the two never stops if the other does not. -/
theorem bytes_lockstep (t : BF) (s : State) :
    (∀ n, byteSteps n t s.bytes = (procSteps n t s).map (Config.map State.bytes)) ∧
      (∀ (s : State) i, ((s.bytes.tape i).toNat : ℤ) = (s.tape i).toInt % 256) ∧
      ∀ q, (∃ n, byteSteps n t s.bytes = byteEnd q) ↔
        ∃ r, (∃ n, proc n t s = some r) ∧ r.map State.bytes = q := by
  have hsteps (n : ℕ) : byteSteps n t s.bytes = (procSteps n t s).map (Config.map State.bytes) :=
    after_map view_bytes n ⟨[t],s⟩
  refine ⟨hsteps,?_,?_⟩
  · intro s i
    have h := Int.emod_nonneg (s.tape i).toInt (b:=256) (by norm_num)
    rw [State.bytes,toNat_byte,wraper]
    omega
  · intro q
    constructor
    · rintro ⟨n,hn⟩
      rw [hsteps] at hn
      obtain ⟨r,hr,hq⟩ := byteEnd_inv hn
      exact ⟨r,proc_iff_procSteps.mpr ⟨n,hr⟩,hq⟩
    · rintro ⟨r,hr,rfl⟩
      obtain ⟨n,hn⟩ := proc_iff_procSteps.mp hr
      exact ⟨n,by rw [hsteps,hn,byteEnd_map]⟩

end Brainfuck
end MiscUniStuff
