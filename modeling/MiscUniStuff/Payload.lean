import Mathlib.Data.List.TakeWhile
import MiscUniStuff.Packet

/-! Memory as the packet handlers use it: C strings, blocks they fill, and the payload
of a packet, where a read outside its length or a negative length is a fault. -/
namespace MiscUniStuff
namespace Pingu
open ByteOrder

/-- What goes wrong in a handler that trusts its packet. -/
inductive Fault
  | payloadIndex | negativeLength | missingRequest | unsetModel
  deriving DecidableEq

/-- The bytes of a C string, without the closing 0. -/
structure CString where
  bytes : List UInt8
  noNul : 0 ∉ bytes
  deriving DecidableEq

def CString.strlen (s : CString) : ℕ := s.bytes.length

/-- A block of memory read as a C string; the byte after the block is 0. -/
def cstring (block : List UInt8) : CString where
  bytes := block.takeWhile (·≠0)
  noNul := by
    intro h
    have hh := List.mem_takeWhile_imp h
    exact absurd hh (by decide)

@[simp] theorem cstring_bytes (s : CString) : cstring s.bytes = s := by
  have hh : s.bytes.takeWhile (·≠0) = s.bytes := by
    refine List.takeWhile_eq_self_iff.mpr fun b hb => ?_
    simp only [ne_eq,decide_eq_true_eq]
    rintro rfl
    exact s.noNul hb
  cases s
  simpa [cstring] using hh

/-- `memcpy` of `bs` into a block. -/
def writeAt (block : List UInt8) (off : ℕ) (bs : List UInt8) : List UInt8 :=
  block.take off ++ bs ++ block.drop (off+bs.length)

/-- `malloc` of a length computed in `int`. -/
def malloc (n : ℤ) : Except Fault Unit := if n < 0 then .error .negativeLength else .ok ()

def InAddr.ofBytes : List UInt8 → InAddr
  | [a,b,c,d] => ⟨a,b,c,d⟩
  | _ => .zero

def InPort.ofBytes : List UInt8 → InPort
  | [a,b] => ⟨a,b⟩
  | _ => ⟨0,0⟩

@[simp] theorem InAddr.ofBytes_bytes (i : InAddr) : InAddr.ofBytes i.bytes = i := rfl

@[simp] theorem InPort.ofBytes_bytes (i : InPort) : InPort.ofBytes i.bytes = i := rfl

namespace FullPacket
variable {p : FullPacket} {i n : ℕ}

/-- Read `n` bytes of the payload. -/
def read (p : FullPacket) (off n : ℕ) : Except Fault (List UInt8) :=
  if n = 0 ∨ off+n ≤ p.data.length then .ok ((p.data.drop off).take n) else .error .payloadIndex

/-- Copy a number of bytes computed in `int` out of the payload. -/
def copy (p : FullPacket) (off : ℕ) (n : ℤ) : Except Fault (List UInt8) :=
  if n < 0 then .error .negativeLength else p.read off n.toNat

def readAddr (p : FullPacket) (off : ℕ) : Except Fault InAddr := (p.read off 4).map InAddr.ofBytes

def readPort (p : FullPacket) (off : ℕ) : Except Fault InPort := (p.read off 2).map InPort.ofBytes

/-- The length of the payload in `int`. -/
def length (p : FullPacket) : ℤ := p.packet.packetLength.toNat

/-- Store an address in the first four bytes of the payload. -/
def writeAddr (p : FullPacket) (i : InAddr) : Except Fault FullPacket :=
  if h : 4 ≤ p.data.length then
    .ok { p with
      data := writeAt p.data 0 i.bytes
      data_length := by simp [writeAt,← p.data_length]; omega }
  else .error .payloadIndex

theorem read_ok (h : i+n ≤ p.data.length) : p.read i n = .ok ((p.data.drop i).take n) := by
  simp [read,h]

theorem read_error (hn : n ≠ 0) (h : p.data.length < i+n) :
    p.read i n = .error .payloadIndex := by
  have hh : ¬(n = 0 ∨ i+n ≤ p.data.length) := by omega
  simp [read,hh]

theorem copy_rest {k : ℕ} (h : k ≤ p.data.length) :
    p.copy k (p.length-k) = .ok (p.data.drop k) := by
  have hlen := p.data_length
  have hneg : ¬p.length-k < 0 := by
    simp only [length]
    omega
  have hnat : (p.length-k).toNat = p.data.length-k := by
    simp only [length]
    omega
  rw [copy,if_neg hneg,hnat,read_ok (by omega)]
  simp

/-- The address in the first four bytes of the payload. -/
def address (p : FullPacket) : InAddr := InAddr.ofBytes (p.data.take 4)

/-- The port in the two bytes behind it. -/
def port (p : FullPacket) : InPort := InPort.ofBytes ((p.data.drop 4).take 2)

theorem readAddr_zero (h : 4 ≤ p.data.length) : p.readAddr 0 = .ok p.address := by
  simp [readAddr,read_ok (i:=0) (n:=4) (by omega),Except.map,address]

theorem readPort_four (h : 6 ≤ p.data.length) : p.readPort 4 = .ok p.port := by
  simp [readPort,read_ok (i:=4) (n:=2) (by omega),Except.map,port]

theorem readAddr_error (h : p.data.length < i+4) : p.readAddr i = .error .payloadIndex := by
  simp [readAddr,read_error (p:=p) (n:=4) (by omega) h,Except.map]

theorem readPort_error (h : p.data.length < i+2) : p.readPort i = .error .payloadIndex := by
  simp [readPort,read_error (p:=p) (n:=2) (by omega) h,Except.map]

end FullPacket

end Pingu
end MiscUniStuff
