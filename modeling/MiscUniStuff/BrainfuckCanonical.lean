import MiscUniStuff.BrainfuckReduce

/-! The optimiser as a normaliser: what it returns is the run-length form of the
tree of single steps, the same for every grouping of them. A count is a 64-bit
`Int`, so two trees that step differently can meet once a run adds up past the word. -/
namespace MiscUniStuff
namespace Brainfuck

/-- The instructions that carry a count. -/
inductive Kind
  | add | sub | incP | decP
  deriving DecidableEq

namespace Kind

def node : Kind → Int64 → BF → BF
  | .add => .add
  | .sub => .sub
  | .incP => .incP
  | .decP => .decP

/-- `m` instructions of count 1, one behind the other. -/
def units (k : Kind) : ℕ → BF → BF
  | 0, g => g
  | m+1, g => k.node 1 (units k m g)

end Kind

/-- The kind, the count and the rest, when a block begins with a counted instruction. -/
def BF.counted : BF → Option (Kind × Int64 × BF)
  | .add n g => some (.add,n,g)
  | .sub n g => some (.sub,n,g)
  | .incP n g => some (.incP,n,g)
  | .decP n g => some (.decP,n,g)
  | _ => none

def BF.kind (t : BF) : Option Kind := t.counted.map (·.1)

/-- Every count is replaced by as many single instructions. -/
def unroll : BF → BF
  | .nil => .nil
  | .add n g => Kind.add.units n.toInt.toNat (unroll g)
  | .sub n g => Kind.sub.units n.toInt.toNat (unroll g)
  | .incP n g => Kind.incP.units n.toInt.toNat (unroll g)
  | .decP n g => Kind.decP.units n.toInt.toNat (unroll g)
  | .put g => .put (unroll g)
  | .get g => .get (unroll g)
  | .start x y => .start (unroll x) (unroll y)

/-- Total count of the run of `k`s a block begins with. -/
def run (k : Kind) : BF → ℤ
  | .add n g => if k = .add then n.toInt+run k g else 0
  | .sub n g => if k = .sub then n.toInt+run k g else 0
  | .incP n g => if k = .incP then n.toInt+run k g else 0
  | .decP n g => if k = .decP then n.toInt+run k g else 0
  | _ => 0

namespace BF

/-- All counts of the tree are at least 1. -/
def CountsPositive : BF → Prop
  | .nil => True
  | .add n g | .sub n g | .incP n g | .decP n g => 1 ≤ n.toInt ∧ g.CountsPositive
  | .put g | .get g => g.CountsPositive
  | .start x y => x.CountsPositive ∧ y.CountsPositive

/-- Every run of equal instructions adds up to a count that fits the word. -/
def CountsFit : BF → Prop
  | .nil => True
  | .add n g => run .add (.add n g) ≤ 2^63-1 ∧ g.CountsFit
  | .sub n g => run .sub (.sub n g) ≤ 2^63-1 ∧ g.CountsFit
  | .incP n g => run .incP (.incP n g) ≤ 2^63-1 ∧ g.CountsFit
  | .decP n g => run .decP (.decP n g) ≤ 2^63-1 ∧ g.CountsFit
  | .put g | .get g => g.CountsFit
  | .start x y => x.CountsFit ∧ y.CountsFit

/-- At no depth do two instructions of the same kind follow one another. -/
def Merged : BF → Prop
  | .nil => True
  | .add _ g => g.kind ≠ some .add ∧ g.Merged
  | .sub _ g => g.kind ≠ some .sub ∧ g.Merged
  | .incP _ g => g.kind ≠ some .incP ∧ g.Merged
  | .decP _ g => g.kind ≠ some .decP ∧ g.Merged
  | .put g | .get g => g.Merged
  | .start x y => x.Merged ∧ y.Merged

end BF

/-! ### Counted instructions, whatever their kind -/

variable {k k' : Kind} {n m : Int64} {g t : BF}

@[simp] theorem counted_node : (k.node n g).counted = some (k,n,g) := by
  cases k <;> rfl

@[simp] theorem kind_node : (k.node n g).kind = some k := by
  cases k <;> rfl

@[simp] theorem unroll_node : unroll (k.node n g) = k.units n.toInt.toNat (unroll g) := by
  cases k <;> rfl

@[simp] theorem countsPositive_node :
    (k.node n g).CountsPositive ↔ 1 ≤ n.toInt ∧ g.CountsPositive := by
  cases k <;> rfl

@[simp] theorem countsFit_node :
    (k.node n g).CountsFit ↔ run k (k.node n g) ≤ 2^63-1 ∧ g.CountsFit := by
  cases k <;> rfl

@[simp] theorem merged_node : (k.node n g).Merged ↔ g.kind ≠ some k ∧ g.Merged := by
  cases k <;> rfl

theorem run_node : run k (k'.node n g) = if k = k' then n.toInt+run k g else 0 := by
  cases k' <;> rfl

@[simp] theorem run_node_self : run k (k.node n g) = n.toInt+run k g := by
  simp [run_node]

theorem eq_node_of_counted (h : t.counted = some (k,n,g)) : t = k.node n g := by
  cases t <;> simp only [BF.counted,Option.some.injEq,Prod.mk.injEq,reduceCtorEq] at h
  all_goals
    obtain ⟨rfl,rfl,rfl⟩ := h
    rfl

/-- Induction on a tree with one case for all counted instructions. -/
theorem BF.kindRec {P : BF → Prop} (nil : P .nil) (node : ∀ k n g, P g → P (Kind.node k n g))
    (put : ∀ g, P g → P (.put g)) (get : ∀ g, P g → P (.get g))
    (start : ∀ x y, P x → P y → P (.start x y)) (t : BF) : P t := by
  induction t with
  | nil => exact nil
  | add n g ih => exact node .add n g ih
  | sub n g ih => exact node .sub n g ih
  | incP n g ih => exact node .incP n g ih
  | decP n g ih => exact node .decP n g ih
  | put g ih => exact put g ih
  | get g ih => exact get g ih
  | start x y ihx ihy => exact start x y ihx ihy

/-! ### Merging one instruction -/

/-- Put an instruction before a block; one of its kind that the block begins with is merged. -/
def merge (k : Kind) (x : Int64) (t : BF) : BF :=
  match t.counted with
  | some (k',y,g) => if k = k' then k.node (x+y) g else k.node x t
  | none => k.node x t

theorem merge_same (k : Kind) (x y : Int64) (g : BF) :
    merge k x (k.node y g) = k.node (x+y) g := by
  simp [merge]

theorem merge_of_kind_ne (x : Int64) (h : t.kind ≠ some k) : merge k x t = k.node x t := by
  unfold merge
  cases hc : t.counted with
  | none => rfl
  | some c =>
    have hne : k ≠ c.1 := by
      rintro rfl
      exact h (by simp [BF.kind,hc])
    simp [hne]

/-- A block begins with a counted instruction of the kind, or merging puts one there. -/
theorem node_or_kind_ne (k : Kind) (t : BF) :
    (∃ n g, t = k.node n g) ∨ t.kind ≠ some k := by
  by_cases h : t.kind = some k
  · obtain ⟨⟨k',n,g⟩,hc,rfl⟩ := Option.map_eq_some_iff.mp h
    exact .inl ⟨n,g,eq_node_of_counted hc⟩
  · exact .inr h

@[simp] theorem kind_merge (k : Kind) (x : Int64) (t : BF) : (merge k x t).kind = some k := by
  rcases node_or_kind_ne k t with ⟨n,g,rfl⟩ | h
  · rw [merge_same,kind_node]
  · rw [merge_of_kind_ne x h,kind_node]

theorem merge_merge (k : Kind) (x y : Int64) (t : BF) :
    merge k x (merge k y t) = merge k (x+y) t := by
  rcases node_or_kind_ne k t with ⟨n,g,rfl⟩ | h
  · rw [merge_same,merge_same,merge_same,Int64.add_assoc]
  · rw [merge_of_kind_ne y h,merge_of_kind_ne (x+y) h,merge_same]

theorem merged_merge (x : Int64) (h : t.Merged) : (merge k x t).Merged := by
  rcases node_or_kind_ne k t with ⟨n,g,rfl⟩ | hk
  · rw [merge_same,merged_node]
    exact merged_node.mp h
  · rw [merge_of_kind_ne x hk,merged_node]
    exact ⟨hk,h⟩

theorem reduce_node_same (k : Kind) (x y : Int64) (g : BF) :
    reduce (k.node x (k.node y g)) = reduce (k.node (x+y) g) := by
  cases k <;> (simp only [Kind.node]; rw [reduce])

theorem reduce_node_ne (x : Int64) (h : g.kind ≠ some k) :
    reduce (k.node x g) = k.node x (reduce g) := by
  cases k <;> cases g <;>
    first
    | exact absurd rfl h
    | simp [Kind.node,reduce]

/-- The optimiser merges each instruction into the optimised rest. -/
theorem reduce_node (k : Kind) (x : Int64) (g : BF) :
    reduce (k.node x g) = merge k x (reduce g) := by
  induction g using BF.kindRec generalizing k x with
  | node k' y g ih =>
    by_cases hk : k = k'
    · subst k'
      rw [reduce_node_same,ih,ih,merge_merge]
    · have hne : some k' ≠ some k := fun h => hk (Option.some.inj h).symm
      rw [reduce_node_ne x (by rwa [kind_node]),ih,merge_of_kind_ne x (by rwa [kind_merge])]
  | nil | put g | get g | start x y =>
    rw [reduce_node_ne x (by simp [BF.kind,BF.counted]),merge_of_kind_ne x]
    simp [reduce,BF.kind,BF.counted]

/-! ### The result is merged -/

theorem reduce_merged (t : BF) : (reduce t).Merged := by
  induction t using BF.kindRec with
  | nil => simp [reduce,BF.Merged]
  | node k n g ih =>
    rw [reduce_node]
    exact merged_merge n ih
  | put g ih | get g ih => simpa [reduce,BF.Merged] using ih
  | start x y ihx ihy => simpa [reduce,BF.Merged] using ⟨ihx,ihy⟩

/-- There is nothing left to merge in a merged tree. -/
theorem reduce_eq_self (h : t.Merged) : reduce t = t := by
  induction t using BF.kindRec with
  | nil => simp [reduce]
  | node k n g ih =>
    obtain ⟨hk,hg⟩ := merged_node.mp h
    rw [reduce_node,ih hg,merge_of_kind_ne n hk]
  | put g ih | get g ih => simpa [reduce] using ih h
  | start x y ihx ihy => simpa [reduce] using ⟨ihx h.1,ihy h.2⟩

/-! ### The result depends on the single steps only -/

theorem reduce_units (k : Kind) (m : ℕ) (g : BF) :
    reduce (k.units (m+1) g) = merge k (Int64.ofNat (m+1)) (reduce g) := by
  induction m with
  | zero => simp [Kind.units,reduce_node]
  | succ m ih =>
    have hsum : 1+Int64.ofNat (m+1) = Int64.ofNat (m+1+1) := by
      rw [Int64.ofNat_add (m+1) 1]
      exact Int64.add_comm _ _
    rw [Kind.units,reduce_node,ih,merge_merge,hsum]

theorem ofNat_toNat_toInt (h : 1 ≤ n.toInt) : Int64.ofNat n.toInt.toNat = n := by
  rw [← Int64.ofInt_eq_ofNat,Int.toNat_of_nonneg (by omega),Int64.ofInt_toInt]

theorem reduce_unroll (h : t.CountsPositive) : reduce (unroll t) = reduce t := by
  induction t using BF.kindRec with
  | nil => rfl
  | node k n g ih =>
    obtain ⟨hn,hg⟩ := countsPositive_node.mp h
    obtain ⟨m,hm⟩ : ∃ m, n.toInt.toNat = m+1 := ⟨n.toInt.toNat-1,by omega⟩
    rw [unroll_node,hm,reduce_units,← hm,ofNat_toNat_toInt hn,ih hg,reduce_node]
  | put g ih | get g ih => simpa [reduce,unroll] using ih h
  | start x y ihx ihy => simpa [reduce,unroll] using ⟨ihx h.1,ihy h.2⟩

/-! ### The single steps can be read off the result -/

theorem units_add (k : Kind) (a b : ℕ) (g : BF) :
    k.units (a+b) g = k.units a (k.units b g) := by
  induction a with
  | zero => rw [Nat.zero_add,Kind.units]
  | succ a ih => rw [Nat.succ_add,Kind.units,Kind.units,ih]

theorem run_nonneg (k : Kind) (h : t.CountsPositive) : 0 ≤ run k t := by
  induction t using BF.kindRec with
  | node k' n g ih =>
    obtain ⟨hn,hg⟩ := countsPositive_node.mp h
    have hrun := ih hg
    rw [run_node]
    split <;> omega
  | nil | put g | get g | start x y => simp [run]

/-- Merging keeps the single steps, the counts and the runs, if the run fits. -/
structure SameSteps (t u : BF) : Prop where
  unroll_eq : unroll t = unroll u
  positive : t.CountsPositive
  run_eq : ∀ k, run k t = run k u

theorem merge_sameSteps (hx : 1 ≤ n.toInt) (ht : t.CountsPositive)
    (hfit : n.toInt+run k t ≤ 2^63-1) : SameSteps (merge k n t) (k.node n t) := by
  rcases node_or_kind_ne k t with ⟨y,g,rfl⟩ | hk
  · obtain ⟨hy,hg⟩ := countsPositive_node.mp ht
    have hrun := run_nonneg k hg
    rw [run_node_self] at hfit
    have hsum : (n+y).toInt = n.toInt+y.toInt := toInt_add_of_fits (by omega) (by omega)
    have hnat : (n+y).toInt.toNat = n.toInt.toNat+y.toInt.toNat := by omega
    rw [merge_same]
    refine ⟨?_,?_,?_⟩
    · rw [unroll_node,unroll_node,unroll_node,hnat,units_add]
    · exact countsPositive_node.mpr ⟨by omega,hg⟩
    · intro k'
      simp only [run_node]
      split <;> omega
  · rw [merge_of_kind_ne n hk]
    exact ⟨rfl,countsPositive_node.mpr ⟨hx,ht⟩,fun _ => rfl⟩

theorem reduce_sameSteps (hpos : t.CountsPositive) (hfit : t.CountsFit) :
    SameSteps (reduce t) t := by
  induction t using BF.kindRec with
  | nil => exact ⟨by simp [reduce],by simp [reduce,BF.CountsPositive],by simp [reduce]⟩
  | node k n g ih =>
    obtain ⟨hn,hg⟩ := countsPositive_node.mp hpos
    obtain ⟨hrun,hgfit⟩ := countsFit_node.mp hfit
    have hrest := ih hg hgfit
    rw [run_node_self,← hrest.run_eq k] at hrun
    have hmerge := merge_sameSteps hn hrest.positive hrun
    rw [reduce_node]
    refine ⟨?_,hmerge.positive,?_⟩
    · rw [hmerge.unroll_eq,unroll_node,unroll_node,hrest.unroll_eq]
    · intro k'
      rw [hmerge.run_eq,run_node,run_node,hrest.run_eq]
  | put g ih | get g ih =>
    have hrest := ih hpos hfit
    refine ⟨?_,?_,by simp [reduce,run]⟩
    · simp [reduce,unroll,hrest.unroll_eq]
    · simpa [reduce,BF.CountsPositive] using hrest.positive
  | start x y ihx ihy =>
    have hx := ihx hpos.1 hfit.1
    have hy := ihy hpos.2 hfit.2
    refine ⟨?_,?_,by simp [reduce,run]⟩
    · simp [reduce,unroll,hx.unroll_eq,hy.unroll_eq]
    · simpa [reduce,BF.CountsPositive] using ⟨hx.positive,hy.positive⟩

/-- The optimiser's result is merged and a fixed point. It is the same for trees with the
same single steps, and tells them apart when no run is too long for a count. -/
theorem reduce_canonical (t u : BF) :
    (reduce t).Merged ∧ reduce (reduce t) = reduce t ∧
    (t.CountsPositive → u.CountsPositive →
      (unroll t = unroll u → reduce t = reduce u) ∧
      (t.CountsFit → u.CountsFit → reduce t = reduce u → unroll t = unroll u)) := by
  refine ⟨reduce_merged t,reduce_eq_self (reduce_merged t),fun ht hu => ⟨?_,?_⟩⟩
  · intro hsteps
    rw [← reduce_unroll ht,← reduce_unroll hu,hsteps]
  · intro htfit hufit hreduce
    rw [← (reduce_sameSteps ht htfit).unroll_eq,← (reduce_sameSteps hu hufit).unroll_eq,hreduce]

theorem reduce_canonical_example :
    (BF.add 1 (.add 2 .nil)).CountsPositive ∧ (BF.add 3 .nil).CountsPositive ∧
      (BF.add 1 (.add 2 .nil)).CountsFit ∧ (BF.add 3 .nil).CountsFit ∧
      (reduce (.add 1 (.add 2 .nil)) = reduce (.add 3 .nil) ↔
        unroll (.add 1 (.add 2 .nil)) = unroll (.add 3 .nil)) := by
  have ht : (BF.add 1 (.add 2 .nil)).CountsPositive := ⟨by decide,by decide,trivial⟩
  have hu : (BF.add 3 .nil).CountsPositive := ⟨by decide,trivial⟩
  have htfit : (BF.add 1 (.add 2 .nil)).CountsFit := ⟨by decide,by decide,trivial⟩
  have hufit : (BF.add 3 .nil).CountsFit := ⟨by decide,trivial⟩
  have hiff := (reduce_canonical (.add 1 (.add 2 .nil)) (.add 3 .nil)).2.2 ht hu
  exact ⟨ht,hu,htfit,hufit,hiff.2 htfit hufit,hiff.1⟩

theorem run_units (k : Kind) (m : ℕ) (g : BF) : run k (k.units m g) = m+run k g := by
  induction m with
  | zero => simp [Kind.units]
  | succ m ih =>
    have hone : Int64.toInt 1 = 1 := rfl
    rw [Kind.units,run_node_self,ih,hone,Nat.cast_succ]
    omega

/-- Three counts that add up to `2^64+1` are merged into a single 1. -/
theorem reduce_forgets_wrapped_run :
    ¬ ∀ t u : BF, t.CountsPositive → u.CountsPositive →
      (reduce t = reduce u ↔ unroll t = unroll u) := by
  intro h
  have hmax : Int64.maxValue.toInt = 2^63-1 := by decide
  have hsum : Int64.maxValue+(Int64.maxValue+3) = 1 := by decide
  have ht : (Kind.add.node .maxValue (Kind.add.node .maxValue
      (Kind.add.node 3 .nil))).CountsPositive := ⟨by decide,by decide,by decide,trivial⟩
  have hu : (Kind.add.node 1 .nil).CountsPositive := ⟨by decide,trivial⟩
  have hreduce : reduce (Kind.add.node .maxValue (Kind.add.node .maxValue
      (Kind.add.node 3 .nil))) = reduce (Kind.add.node 1 .nil) := by
    rw [reduce_node_same,reduce_node_same,Int64.add_assoc,hsum]
  have hsteps := congrArg (run .add) ((h _ _ ht hu).mp hreduce)
  have hthree : (3 : Int64).toInt.toNat = 3 := by decide
  have hone : (1 : Int64).toInt.toNat = 1 := by decide
  simp only [unroll_node,run_units,hmax,hthree,hone] at hsteps
  omega

end Brainfuck
end MiscUniStuff
