import Mathlib.Data.Nat.Digits.Lemmas
import Mathlib.Tactic

/-! Unsigned integers of a fixed width in memory, on machines of either byte order.
Loading goes through `Nat.ofDigits` in base 256. -/
namespace ByteOrder

inductive Order
  | little | big
  deriving DecidableEq

/-- The lowest `w` bytes of `n`, the lowest first. -/
def lowBytes : ℕ → ℕ → List UInt8
  | 0, _ => []
  | w+1, n => UInt8.ofNat n :: lowBytes w (n/256)

/-- The `w` bytes of `n` as they lie in memory. -/
def store : Order → ℕ → ℕ → List UInt8
  | .little, w, n => lowBytes w n
  | .big, w, n => (lowBytes w n).reverse

/-- The number some bytes of memory stand for. -/
def load : Order → List UInt8 → ℕ
  | .little, bs => Nat.ofDigits 256 (bs.map UInt8.toNat)
  | .big, bs => Nat.ofDigits 256 (bs.reverse.map UInt8.toNat)

@[simp] theorem length_lowBytes (w n : ℕ) : (lowBytes w n).length = w := by
  induction w generalizing n with
  | zero => rfl
  | succ w ih => simp [lowBytes,ih]

@[simp] theorem length_store (o : Order) (w n : ℕ) : (store o w n).length = w := by
  cases o <;> simp [store]

theorem ofDigits_lowBytes {w n : ℕ} (h : n < 256^w) :
    Nat.ofDigits 256 ((lowBytes w n).map UInt8.toNat) = n := by
  induction w generalizing n with
  | zero =>
    have hn : n = 0 := by simpa using h
    simp [lowBytes,hn]
  | succ w ih =>
    have hdiv : n/256 < 256^w := Nat.div_lt_of_lt_mul (by rwa [← pow_succ'])
    have hh := ih hdiv
    simp only [lowBytes,List.map_cons,Nat.ofDigits_cons,hh]
    simp only [UInt8.toNat_ofNat']
    omega

theorem lowBytes_ofDigits (bs : List UInt8) :
    lowBytes bs.length (Nat.ofDigits 256 (bs.map UInt8.toNat)) = bs := by
  induction bs with
  | nil => rfl
  | cons b bs ih =>
    have hb := b.toNat_lt
    have hdiv : (b.toNat+256*Nat.ofDigits 256 (bs.map UInt8.toNat))/256 =
        Nat.ofDigits 256 (bs.map UInt8.toNat) := by omega
    have hmod : UInt8.ofNat (b.toNat+256*Nat.ofDigits 256 (bs.map UInt8.toNat)) = b := by
      apply UInt8.toNat_inj.mp
      simp only [UInt8.toNat_ofNat']
      omega
    simp only [List.length_cons,List.map_cons,Nat.ofDigits_cons,lowBytes,hdiv,hmod,ih]

theorem load_store {o : Order} {w n : ℕ} (h : n < 256^w) : load o (store o w n) = n := by
  cases o <;> simp [load,store,ofDigits_lowBytes h]

theorem store_load (o : Order) (bs : List UInt8) : store o bs.length (load o bs) = bs := by
  cases o with
  | little => exact lowBytes_ofDigits bs
  | big =>
    have hh := lowBytes_ofDigits bs.reverse
    simp only [List.length_reverse] at hh
    simp only [store,load,hh,List.reverse_reverse]

theorem load_lt (o : Order) (bs : List UInt8) : load o bs < 256^bs.length := by
  cases o with
  | little =>
    have hh := Nat.ofDigits_lt_base_pow_length (b:=256) (by omega)
      (l:=bs.map UInt8.toNat) (by simpa using fun b _ => b.toNat_lt)
    simpa [load] using hh
  | big =>
    have hh := Nat.ofDigits_lt_base_pow_length (b:=256) (by omega)
      (l:=bs.reverse.map UInt8.toNat) (by simpa using fun b _ => b.toNat_lt)
    simpa [load] using hh

theorem load_injective (o : Order) {bs cs : List UInt8} (hlen : bs.length = cs.length)
    (h : load o bs = load o cs) : bs = cs := by
  rw [← store_load o bs,← store_load o cs,hlen,h]

/-- Conversion between the order of the machine and that of the network, the big-endian
one: `htons`, `ntohl` and the like are the same function. -/
def network (o : Order) (w n : ℕ) : ℕ := load o (store .big w n)

theorem network_lt (o : Order) (w n : ℕ) : network o w n < 256^w := by
  simpa [network] using load_lt o (store .big w n)

/-- A converted number lies in memory in network order. -/
theorem store_network (o : Order) (w n : ℕ) : store o w (network o w n) = store .big w n := by
  simpa [network] using store_load o (store .big w n)

theorem network_network {w n : ℕ} (o : Order) (h : n < 256^w) :
    network o w (network o w n) = n := by
  cases o with
  | little =>
    have hrev : store .big w (network .little w n) = store .little w n := by
      rw [← List.reverse_inj]
      simpa [store] using store_network .little w n
    rw [network,hrev,load_store h]
  | big => simp only [network,load_store h]

/-- Converting what the machine reads gives what the bytes mean on the network. -/
theorem network_load (o : Order) (bs : List UInt8) :
    network o bs.length (load o bs) = load .big bs := by
  have hh : network o bs.length (load .big bs) = load o bs := by rw [network,store_load]
  rw [← hh,network_network o (load_lt .big bs)]

end ByteOrder
