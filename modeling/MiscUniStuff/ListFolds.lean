import Mathlib.Algebra.BigOperators.Group.List.Basic
import Mathlib.Algebra.Ring.Int.Defs
import MiscUniStuff.ListMethods

/-! What the folds of `List.java` return. A fold of `map` or `filter` calls a method of `List`
through a `Partial` that has another `Partial` bound; the calls of the inner one are found in
the calls of the outer one. -/
namespace MiscUniStuff
namespace PartialApplication

variable {κ υ : Type} {env : Env κ υ}

/-- From some depth on the call returns this value and leaves these collections. -/
def Ends (r : ℕ → Result κ υ) (value : Obj κ υ) (heap : Heap κ υ) : Prop :=
  ∃ depth, ∀ d ≥ depth, r d = .return' (some value) heap

section Ends
variable {r r' : ℕ → Result κ υ} {v v' : Obj κ υ} {heap heap' : Heap κ υ}

theorem Ends.next {k : ℕ → Option (Obj κ υ) → Heap κ υ → Result κ υ} (h : Ends r v heap)
    (hk : Ends (fun d => k d (some v) heap) v' heap') :
    Ends (fun d => (r d).next (k d)) v' heap' := by
  obtain ⟨depth,h⟩ := h
  obtain ⟨depth',hk⟩ := hk
  refine ⟨max depth depth',fun d hd => ?_⟩
  have hr := h d (by omega)
  have hrest := hk d (by omega)
  simp only [hr]
  exact hrest

theorem Ends.invoked (h : Ends r v heap) : Ends (fun d => (r d).invoked) v heap := by
  obtain ⟨depth,h⟩ := h
  refine ⟨depth,fun d hd => ?_⟩
  simp only [h d hd]
  rfl

theorem Ends.succ (h : Ends r v heap) (hr : ∀ d, r' (d+1) = r d) : Ends r' v heap := by
  obtain ⟨depth,h⟩ := h
  refine ⟨depth+1,fun d hd => ?_⟩
  cases d with
  | zero => omega
  | succ d => rw [hr,h d (by omega)]

end Ends

/-- The `Partial` has these arguments bound and a class with the method, which is the only
static one of its name there. -/
structure Names (env : Env κ υ) (f : Partial (JClass κ) (Obj κ υ)) (c : JClass κ)
    (m : Method (JClass κ)) (b : List (Obj κ υ)) : Prop where
  built : f.Built env.reflection m.name (some c) b
  mem : m ∈ env.reflection.getMethods c
  isStatic : m.isStatic
  only : ∀ m' ∈ env.reflection.getMethods c, m'.name = m.name → m'.isStatic → m' = m

/-- The method accepts these arguments, and returns this value. -/
structure Returns (env : Env κ υ) (c : JClass κ) (m : Method (JClass κ)) (args : List (Obj κ υ))
    (heap : Heap κ υ) (value : Obj κ υ) (heap' : Heap κ υ) : Prop where
  accepted : m.invoke env.reflection none args = .ok ⟨m,none,args⟩
  ends : Ends (fun d => perform env d c ⟨m,none,args⟩ heap) value heap'

section Calls
variable {f : Partial (JClass κ) (Obj κ υ)} {c : JClass κ} {m : Method (JClass κ)}
  {b xs : List (Obj κ υ)} {x v r out : Obj κ υ} {heap heap' : Heap κ υ} {in' : ℕ}

theorem Names.addArg (h : Names env f c m b) (x : Obj κ υ) :
    Names env (f.addArg (some x)) c m (b ++ [x]) := ⟨.addArg h.built x,h.mem,h.isStatic,h.only⟩

theorem find_only {methods : List (Method (JClass κ))} {p : Method (JClass κ) → Bool}
    (hm : m ∈ methods) (hp : p m) (honly : ∀ m' ∈ methods, p m' → m' = m) :
    methods.find? p = some m := by
  obtain ⟨m',hfind⟩ := Option.isSome_iff_exists.mp (List.find?_isSome.mpr ⟨m,hm,hp⟩)
  have heq := honly m' (List.mem_of_find?_eq_some hfind) (List.find?_some hfind)
  rw [hfind,heq]

/-- `Run` invokes the method with all arguments, if there are as many as it has parameters. -/
theorem Names.run_eq (h : Names env f c m (b ++ [x]))
    (hlength : m.parameterTypes.length = b.length+1) :
    f.run env.reflection = m.invoke env.reflection none (b ++ [x]) := by
  let k : Call (JClass κ) (Obj κ υ) := ⟨m.name,some c,b,x⟩
  have hfind : (k.table env.reflection).find? (fun m' => k.Candidate m') = some m := by
    apply find_only h.mem
    · have hcandidate : k.Candidate m :=
        ⟨rfl,fun _ => h.isStatic,by simp [k,Call.actual,hlength]⟩
      simpa using hcandidate
    · intro m' hm' hp
      have hcandidate : k.Candidate m' := by simpa using hp
      exact h.only m' hm' hcandidate.1 (hcandidate.2.1 rfl)
  have hrun := PartialApplication.run_eq (w:=env.reflection) k
  rw [hfind] at hrun
  rw [h.built.eq_mk]
  exact hrun

end Calls

/-! ### The methods of `List` -/

namespace ListMethod

/-- `new Partial(meth,"List")`. -/
def fresh (m : ListMethod) : Partial (JClass κ) (Obj κ υ) := ⟨m.name,some .list,none,[]⟩

end ListMethod

/-! ### `map` and `filter` -/

/-- What is added to the result for an element, from what the method returns. -/
abbrev Keep (κ υ : Type) := Obj κ υ → Obj κ υ → List (Obj κ υ)

def Heap.addAll (heap : Heap κ υ) (out : ℕ) (l : List (Obj κ υ)) : Heap κ υ :=
  l.foldl (fun heap x => heap.add out (some x)) heap

/-- The calls `f(b,x1)`, `f(b,x2)` and so on with their values, and between them the additions to
`out`. The calls leave both collections alone. -/
inductive Calls (env : Env κ υ) (c : JClass κ) (m : Method (JClass κ)) (b : List (Obj κ υ))
    (in' out : ℕ) (keep : Keep κ υ) :
    List (Obj κ υ) → Heap κ υ → List (Obj κ υ) → Heap κ υ → Prop
  | nil (heap : Heap κ υ) : Calls env c m b in' out keep [] heap [] heap
  | cons {x v : Obj κ υ} {xs vs : List (Obj κ υ)} {heap heap₁ heap₂ : Heap κ υ}
      (hcall : Returns env c m (b ++ [x]) heap v heap₁) (hin : heap₁ in' = heap in')
      (hout : heap₁ out = heap out)
      (hrest : Calls env c m b in' out keep xs (heap₁.addAll out (keep x v)) vs heap₂) :
      Calls env c m b in' out keep (x::xs) heap (v::vs) heap₂

section Collections
variable {f : Partial (JClass κ) (Obj κ υ)} {c : JClass κ} {m : Method (JClass κ)}
  {b xs vs l : List (Obj κ υ)} {x v : Obj κ υ} {heap heap' : Heap κ υ} {in' out : ℕ}
  {keep : Keep κ υ}

theorem addAll_elements (heap : Heap κ υ) (out : ℕ) (l : List (Obj κ υ)) :
    (heap.addAll out l out).elements = (heap out).elements ++ l.map some := by
  induction l generalizing heap with
  | nil => simp [Heap.addAll]
  | cons x l ih =>
    have hrest := ih (heap.add out (some x))
    simpa [Heap.addAll,Heap.add] using hrest

/-- The additions come behind what was there, in the order of the elements. -/
theorem Calls.elements (h : Calls env c m b in' out keep xs heap vs heap') :
    vs.length = xs.length ∧
      (heap' out).elements = (heap out).elements ++ (List.zipWith keep xs vs).flatten.map some := by
  induction h with
  | nil heap => simp
  | cons hcall hin hout hrest ih =>
    refine ⟨congrArg Nat.succ ih.1,?_⟩
    rw [ih.2,addAll_elements,hout]
    simp

end Collections

/-! ### `sum` and `product` -/

section Integers
variable {in' : ℕ} {heap : Heap κ υ} {ns : List Int32}

end Integers

end PartialApplication
end MiscUniStuff
