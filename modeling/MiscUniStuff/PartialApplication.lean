import Mathlib.Data.Int.Notation
import Mathlib.Data.List.Basic
import Mathlib.Data.List.Forall2
import Mathlib.Data.List.ReduceOption

/-! Calling a method by its name with arguments given one by one: `Partial.java` over Java's
reflection. The classes, with their methods and which objects they accept, are parameters. -/
namespace MiscUniStuff
namespace PartialApplication

inductive Primitive
  | boolean | char | byte | short | int | long | float | double
  deriving DecidableEq

/-- A value of the first type is accepted for a parameter of the second one, widened if need
be. -/
def Primitive.widens : Primitive → Primitive → Bool
  | boolean,p => p = .boolean
  | char,p => p ∈ [.char,.int,.long,.float,.double]
  | byte,p => p ∈ [.byte,.short,.int,.long,.float,.double]
  | short,p => p ∈ [.short,.int,.long,.float,.double]
  | int,p => p ∈ [.int,.long,.float,.double]
  | long,p => p ∈ [.long,.float,.double]
  | float,p => p ∈ [.float,.double]
  | double,p => p = .double

/-- A `Class`: a primitive type, or one of the others. -/
inductive Class (ρ : Type)
  | primitive (p : Primitive)
  | reference (r : ρ)

/-- What is used of a `Method`. It is accessible if its class is. -/
structure Method (ρ : Type) where
  name : String
  isStatic : Bool
  parameterTypes : List (Class ρ)
  accessible : Bool

/-- The classes `ρ` and objects `o` of a program. -/
structure Reflection (ρ o : Type) where
  forName : String → Option ρ
  getClass : o → ρ
  getMethods : ρ → List (Method ρ)
  isInstance : ρ → o → Bool
  /-- The primitive type that is boxed, for an `Integer`, a `Boolean` and so on. -/
  boxed : o → Option Primitive

inductive Exn
  | classNotFound | noSuchMethod | nullPointer | illegalArgument | illegalAccess
  deriving DecidableEq

/-- A method that has been invoked, with what it has been invoked on. -/
structure Invocation (ρ o : Type) where
  method : Method ρ
  receiver : Option o
  args : List o

variable {ρ o : Type} (w : Reflection ρ o)

/-- `Class.isInstance`, which is false for a primitive type. -/
def Class.isInstance : Class ρ → o → Bool
  | primitive _,_ => false
  | reference r,arg => w.isInstance r arg

/-- A call accepts the object for a parameter of this type. -/
def Class.accepts : Class ρ → o → Bool
  | primitive p,arg => (w.boxed arg).any fun q => q.widens p
  | reference r,arg => w.isInstance r arg

def acceptsAll : List (Class ρ) → List o → Bool
  | [],[] => true
  | todo::todos,arg::args => todo.accepts w arg && acceptsAll todos args
  | _,_ => false

/-- `Method.invoke`. -/
def Method.invoke (m : Method ρ) (receiver : Option o) (args : List o) :
    Except Exn (Invocation ρ o) :=
  if m.accessible = false then .error .illegalAccess
  else if m.isStatic = false ∧ receiver.isSome = false then .error .nullPointer
  else if acceptsAll w m.parameterTypes args then .ok ⟨m,receiver,args⟩
  else .error .illegalArgument

/-! ### `Partial` -/

structure Partial (ρ o : Type) where
  method : String
  classToRun : Option ρ
  lastarg : Option o
  args : List o

/-- The constructor without a class. -/
def Partial.new (meth : String) : Partial ρ o := ⟨meth,none,none,[]⟩

/-- The constructor with the name of a class. -/
def Partial.newClass (meth classTo : String) : Except Exn (Partial ρ o) :=
  match w.forName classTo with
  | none => .error .classNotFound
  | some c => .ok ⟨meth,some c,none,[]⟩

namespace Partial

/-- `addLast`. -/
def addLast (p : Partial ρ o) : List o :=
  match p.lastarg with
  | none => p.args
  | some lastarg => p.args ++ [lastarg]

/-- `addArg`. -/
def addArg (p : Partial ρ o) (arg : Option o) : Partial ρ o :=
  { p with lastarg := arg, args := p.addLast }

/-- `check_type`. -/
def checkType (todo : Class ρ) (args : o) : Bool := todo.isInstance w args

/-- `check_Method`. -/
def checkMethod (todo : List (Class ρ)) (args : List o) : Bool :=
  if todo.length ≠ args.length then false
  else
    -- what `check_type` says of each parameter is not used
    let _ := List.zipWith (checkType w) todo args
    true

/-- `find_Method`. -/
def findMethod (p : Partial ρ o) (foo : ρ) : Option (Method ρ) :=
  (w.getMethods foo).find? fun bar =>
    p.method = bar.name && checkMethod w bar.parameterTypes p.args

/-- `find_Method_Static`. -/
def findMethodStatic (p : Partial ρ o) (foo : ρ) (args : List o) : Option (Method ρ) :=
  (w.getMethods foo).find? fun bar =>
    p.method = bar.name && (bar.isStatic && checkMethod w bar.parameterTypes args)

/-- `RunClass`. A method that is not found is `null`, and is invoked all the same. -/
def runClass (p : Partial ρ o) : Except Exn (Invocation ρ o) :=
  match p.lastarg with
  | none => .error .nullPointer
  | some lastarg =>
    match p.findMethod w (w.getClass lastarg) with
    | none => .error .nullPointer
    | some bar => bar.invoke w (some lastarg) p.args

/-- `RunAsStatic`. -/
def runAsStatic (p : Partial ρ o) (classToRun : ρ) : Except Exn (Invocation ρ o) :=
  match p.findMethodStatic w classToRun p.addLast with
  | none => .error .noSuchMethod
  | some bar => bar.invoke w none p.addLast

/-- `Run`. -/
def run (p : Partial ρ o) : Except Exn (Invocation ρ o) :=
  match p.classToRun with
  | none => p.runClass w
  | some classToRun => p.runAsStatic w classToRun

/-- What can be built by the constructors and `addArg`, from this name, class and arguments. -/
inductive Built (meth : String) : Option ρ → List o → Partial ρ o → Prop
  | new : Built meth none [] (new meth)
  | newClass {classTo : String} {c : ρ} {p : Partial ρ o} (hc : w.forName classTo = some c)
      (hp : newClass w meth classTo = .ok p) : Built meth (some c) [] p
  | addArg {c : Option ρ} {args : List o} {p : Partial ρ o} (h : Built meth c args p) (arg : o) :
      Built meth c (args ++ [arg]) (p.addArg (some arg))

end Partial

/-! ### The call that is meant -/

/-- A name and a class, if one is given, with one argument at least. -/
structure Call (ρ o : Type) where
  method : String
  classToRun : Option ρ
  args : List o
  last : o

namespace Call

/-- The methods of the class that is given, or of the class of the last argument. -/
def table (k : Call ρ o) : List (Method ρ) :=
  w.getMethods (k.classToRun.getD (w.getClass k.last))

/-- Without a class the last argument is the receiver. -/
def receiver (k : Call ρ o) : Option o := if k.classToRun.isSome then none else some k.last

def actual (k : Call ρ o) : List o := if k.classToRun.isSome then k.args ++ [k.last] else k.args

/-- The method has the name and the number of parameters, and is static if a class is given. -/
def Candidate (k : Call ρ o) (m : Method ρ) : Prop :=
  m.name = k.method ∧ (k.classToRun.isSome → m.isStatic) ∧
    m.parameterTypes.length = k.actual.length

instance (k : Call ρ o) : DecidablePred k.Candidate := fun _ =>
  inferInstanceAs (Decidable (_ ∧ _ ∧ _))

/-- The method accepts the arguments. -/
def Accepted (k : Call ρ o) (m : Method ρ) : Prop :=
  List.Forall₂ (fun todo arg => todo.accepts w arg) m.parameterTypes k.actual

/-- The method is one that may be invoked for the call. -/
def Applicable (k : Call ρ o) (m : Method ρ) : Prop :=
  m.name = k.method ∧ (k.classToRun.isSome → m.isStatic) ∧ k.Accepted w m

/-- Such a method has been invoked, or there is none and the exception says so. -/
def Dispatched (k : Call ρ o) (r : Except Exn (Invocation ρ o)) : Prop :=
  (∃ m ∈ k.table w, k.Applicable w m ∧ r = .ok ⟨m,k.receiver,k.actual⟩) ∨
    r = .error .noSuchMethod ∧ ∀ m ∈ k.table w, ¬k.Applicable w m

end Call

/-! ### What `Run` does -/

section Runs
variable {w} {k : Call ρ o} {m : Method ρ} {p : Partial ρ o} {meth : String} {c : Option ρ}
  {args : List o} {last : o} {receiver : Option o}

theorem acceptsAll_iff (todos : List (Class ρ)) (args : List o) : acceptsAll w todos args ↔
    List.Forall₂ (fun todo arg => todo.accepts w arg) todos args := by
  induction todos generalizing args with
  | nil => cases args <;> simp [acceptsAll]
  | cons todo todos ih => cases args <;> simp [acceptsAll,ih]

/-- The check compares the numbers only. -/
theorem checkMethod_eq (todo : List (Class ρ)) (args : List o) :
    Partial.checkMethod w todo args = decide (todo.length = args.length) := by
  by_cases h : todo.length = args.length <;> simp [Partial.checkMethod,h]

theorem invoke_eq_ok {r : Invocation ρ o} : m.invoke w receiver args = .ok r ↔
    r = ⟨m,receiver,args⟩ ∧ m.accessible ∧ (m.isStatic ∨ receiver.isSome) ∧
      acceptsAll w m.parameterTypes args := by
  rw [Method.invoke,eq_comm (a:=r)]
  split_ifs with haccess hnull haccepts
  · simp [haccess]
  · simp [hnull]
  · have hreceiver : m.isStatic ∨ receiver.isSome := by
      rw [not_and_or,Bool.not_eq_false,Bool.not_eq_false] at hnull
      exact hnull
    simp [haccess,hreceiver,haccepts]
  · simp [haccepts]

theorem invoke_ne_noSuchMethod : m.invoke w receiver args ≠ .error .noSuchMethod := by
  rw [Method.invoke]
  split_ifs <;> simp

theorem Partial.Built.addLast_eq (h : p.Built w meth c args) :
    p.method = meth ∧ p.classToRun = c ∧ p.addLast = args := by
  induction h with
  | new => exact ⟨rfl,rfl,rfl⟩
  | newClass hc hp =>
    rw [Partial.newClass,hc] at hp
    cases hp
    exact ⟨rfl,rfl,rfl⟩
  | addArg h arg ih => exact ⟨ih.1,ih.2.1,congrArg (· ++ [arg]) ih.2.2⟩

theorem Partial.Built.eq_mk (h : p.Built w meth c (args ++ [last])) :
    p = ⟨meth,c,some last,args⟩ := by
  generalize hl : args ++ [last] = l at h
  cases h with
  | new => simp at hl
  | newClass hc hp => simp at hl
  | @addArg c args' p h arg =>
    have hfields := h.addLast_eq
    obtain ⟨rfl,heq⟩ := List.append_inj' hl rfl
    cases heq
    simp [Partial.addArg,hfields]

/-- The first method with the name and the number of parameters is the one that is invoked. -/
theorem run_eq (k : Call ρ o) : Partial.run w ⟨k.method,k.classToRun,some k.last,k.args⟩ =
    match (k.table w).find? fun m => k.Candidate m with
    | none => .error (if k.classToRun.isSome then .noSuchMethod else .nullPointer)
    | some m => m.invoke w k.receiver k.actual := by
  obtain ⟨method,classToRun,args,last⟩ := k
  cases classToRun with
  | none =>
    have hp : (fun bar : Method ρ => decide (method = bar.name) &&
        Partial.checkMethod w bar.parameterTypes args) =
        fun m => decide (Call.Candidate ⟨method,none,args,last⟩ m) := by
      funext m
      simp [checkMethod_eq,Call.Candidate,Call.actual,eq_comm (a:=method)]
    simp only [Partial.run,Partial.runClass,Partial.findMethod,hp]
    rfl
  | some c =>
    have hp : (fun bar : Method ρ => decide (method = bar.name) && (bar.isStatic &&
        Partial.checkMethod w bar.parameterTypes (args ++ [last]))) =
        fun m => decide (Call.Candidate ⟨method,some c,args,last⟩ m) := by
      funext m
      simp [checkMethod_eq,Call.Candidate,Call.actual,eq_comm (a:=method)]
    simp only [Partial.run,Partial.runAsStatic,Partial.findMethodStatic,Partial.addLast,hp]
    rfl

theorem Call.Applicable.candidate (h : k.Applicable w m) : k.Candidate m :=
  ⟨h.1,h.2.1,h.2.2.length_eq⟩

theorem Call.Candidate.receives (h : k.Candidate m) : m.isStatic ∨ k.receiver.isSome := by
  cases hc : k.classToRun.isSome with
  | true => exact .inl (h.2.1 hc)
  | false => exact .inr (by simp [receiver,hc])

end Runs

/-- A call is dispatched as it should be if and only if the first method with its name and
number of parameters accepts the arguments and may be accessed, or a class was given and has
no such method. The check of the types is made, but nothing comes of it. -/
theorem dispatch_iff (w : Reflection ρ o) (k : Call ρ o) (p : Partial ρ o)
    (hp : p.Built w k.method k.classToRun (k.args ++ [k.last])) :
    k.Dispatched w (p.run w) ↔
      (∃ m, (k.table w).find? (fun m => k.Candidate m) = some m ∧ m.accessible ∧
        k.Accepted w m) ∨
      k.classToRun.isSome ∧ ∀ m ∈ k.table w, ¬k.Candidate m := by
  rw [hp.eq_mk,run_eq]
  cases hfind : (k.table w).find? fun m => k.Candidate m with
  | none =>
    have hnone : ∀ m ∈ k.table w, ¬k.Candidate m := by simpa using hfind
    cases hc : k.classToRun.isSome with
    | true =>
      have happlicable : ∀ m ∈ k.table w, ¬k.Applicable w m := fun m hm h =>
        hnone m hm h.candidate
      simp only [Call.Dispatched,if_pos]
      constructor
      · intro _
        exact .inr ⟨trivial,hnone⟩
      · intro _
        exact .inr ⟨trivial,happlicable⟩
    | false => simp [Call.Dispatched]
  | some m =>
    have hmem : m ∈ k.table w := List.mem_of_find?_eq_some hfind
    have hcandidate : k.Candidate m := by simpa using List.find?_some hfind
    simp only
    constructor
    · rintro (⟨m',-,happlicable,hrun⟩ | ⟨hrun,-⟩)
      · obtain ⟨heq,haccess,-,haccepts⟩ := invoke_eq_ok.mp hrun
        cases heq
        exact .inl ⟨m,rfl,haccess,happlicable.2.2⟩
      · exact absurd hrun invoke_ne_noSuchMethod
    · rintro (⟨m',heq,haccess,haccepted⟩ | ⟨-,hnone⟩)
      · cases heq
        refine .inl ⟨m,hmem,⟨hcandidate.1,hcandidate.2.1,haccepted⟩,?_⟩
        exact invoke_eq_ok.mpr ⟨rfl,haccess,hcandidate.receives,(acceptsAll_iff _ _).mpr haccepted⟩
      · exact absurd hcandidate (hnone m hmem)

/-! ### `String.valueOf` -/

inductive StringClass
  | string | chars | integer
  deriving DecidableEq

def valueOf (todo : Class StringClass) : Method StringClass := ⟨"valueOf",true,[todo],true⟩

/-- The class `String` with these methods; the objects are integers. -/
def strings (methods : List (Method StringClass)) : Reflection StringClass ℤ where
  forName s := if s = "java.lang.String" then some .string else none
  getClass _ := .integer
  getMethods r := if r = .string then methods else []
  isInstance r _ := r = .integer
  boxed _ := some .int

/-- `new Partial("valueOf","java.lang.String").addArg(5)`. -/
def valueOfFive : Partial StringClass ℤ :=
  Partial.addArg ⟨"valueOf",some .string,none,[]⟩ (some 5)

theorem valueOfFive_built (methods : List (Method StringClass)) :
    valueOfFive.Built (strings methods) "valueOf" (some .string) [5] := by
  have hc : (strings methods).forName "java.lang.String" = some .string := by
    simp [strings]
  exact .addArg (.newClass hc (by rw [Partial.newClass,hc])) 5

/-- The method that takes an `int` is called if it comes first. -/
theorem dispatch_iff_valueOf :
    Call.Dispatched (strings [valueOf (.primitive .int),valueOf (.reference .chars)])
      ⟨"valueOf",some .string,[],5⟩
      (valueOfFive.run (strings [valueOf (.primitive .int),valueOf (.reference .chars)])) :=
  (dispatch_iff _ ⟨"valueOf",some .string,[],5⟩ valueOfFive (valueOfFive_built _)).mpr
    (.inl ⟨valueOf (.primitive .int),rfl,rfl,.cons rfl .nil⟩)

/-- If that for an array of characters comes first, the call fails though there is a method
for it. -/
theorem dispatch_fails : ¬∀ (w : Reflection StringClass ℤ) (k : Call StringClass ℤ)
    (p : Partial StringClass ℤ), p.Built w k.method k.classToRun (k.args ++ [k.last]) →
      k.Dispatched w (p.run w) := by
  intro h
  have hrun : valueOfFive.run (strings [valueOf (.reference .chars),valueOf (.primitive .int)]) =
      .error .illegalArgument := rfl
  have hh := h _ ⟨"valueOf",some .string,[],5⟩ valueOfFive
    (valueOfFive_built [valueOf (.reference .chars),valueOf (.primitive .int)])
  rw [hrun] at hh
  rcases hh with ⟨m,-,-,hinvoked⟩ | ⟨hmissing,-⟩
  · cases hinvoked
  · cases hmissing

/-! ### Which arguments are kept -/

namespace Partial

/-- It has been made by one of the public constructors. -/
def Fresh (p : Partial ρ o) : Prop :=
  ∃ meth, p = new meth ∨ ∃ classTo, newClass w meth classTo = .ok p

/-- `addArg` of one reference after the other; a reference may be `null`. -/
def addArgs (p : Partial ρ o) (as : List (Option o)) : Partial ρ o := as.foldl addArg p

/-- The arguments of the calls that `p` can make are exactly `as`, in this order. -/
structure KeepsArgs (p : Partial ρ o) (as : List (Option o)) : Prop where
  addLast_eq : p.addLast.map some = as
  /-- `RunAsStatic` passes all of them. -/
  static_call : ∀ c bar, p.findMethodStatic w c p.addLast = some bar →
    ∃ args, args.map some = as ∧ p.runAsStatic w c = bar.invoke w none args
  /-- `RunClass` invokes the last one with those before it. -/
  class_call : ∀ front last, as = front ++ [last] → ∃ args x, args.map some = front ∧
    some x = last ∧ ∀ bar, p.findMethod w (w.getClass x) = some bar →
      p.runClass w = bar.invoke w (some x) args

variable {w} {p : Partial ρ o}

theorem Fresh.addLast_eq (h : p.Fresh w) : p.addLast = [] := by
  obtain ⟨meth,rfl | ⟨classTo,hnew⟩⟩ := h
  · rfl
  · unfold newClass at hnew
    split at hnew
    · cases hnew
    · cases hnew
      rfl

theorem addLast_addArg (p : Partial ρ o) (arg : Option o) :
    (p.addArg arg).addLast = p.addLast ++ arg.toList := by
  cases arg with
  | none => exact (List.append_nil _).symm
  | some arg => rfl

/-- What is left of the arguments are those that are not `null`. -/
theorem addLast_addArgs (p : Partial ρ o) (as : List (Option o)) :
    (p.addArgs as).addLast = p.addLast ++ as.reduceOption := by
  induction as generalizing p with
  | nil => exact (List.append_nil _).symm
  | cons a as ih =>
    have hcons : (a::as).reduceOption = a.toList ++ as.reduceOption := by
      rw [← List.reduceOption_singleton,← List.reduceOption_append]
      rfl
    rw [addArgs,List.foldl_cons,← addArgs,ih,addLast_addArg,hcons,List.append_assoc]

theorem map_some_reduceOption_iff {α : Type} (as : List (Option α)) :
    as.reduceOption.map some = as ↔ none ∉ as := by
  induction as with
  | nil => simp
  | cons a as ih =>
    cases a with
    | none =>
      have hne : as.reduceOption.map some ≠ none::as := by
        intro h
        have hmem : none ∈ as.reduceOption.map some := by
          rw [h]
          exact List.mem_cons_self
        simp at hmem
      simp [List.reduceOption_cons_of_none,hne]
    | some a => simp [List.reduceOption_cons_of_some,ih]

theorem runAsStatic_of_find {c : ρ} {bar : Method ρ}
    (h : p.findMethodStatic w c p.addLast = some bar) :
    p.runAsStatic w c = bar.invoke w none p.addLast := by
  rw [runAsStatic,h]

/-- The last argument is the receiver, unless it is `null`. -/
theorem runClass_addArg {x : o} {bar : Method ρ}
    (h : (p.addArg (some x)).findMethod w (w.getClass x) = some bar) :
    (p.addArg (some x)).runClass w = bar.invoke w (some x) p.addLast := by
  simp only [runClass,addArg] at h ⊢
  rw [h]

end Partial

/-- A partial application keeps all its arguments, in order, exactly if none of them is `null`. -/
theorem addArgs_keeps_iff (w : Reflection ρ o) (p : Partial ρ o) (hp : p.Fresh w)
    (as : List (Option o)) : (p.addArgs as).KeepsArgs w as ↔ none ∉ as := by
  have hlast : (p.addArgs as).addLast = as.reduceOption := by
    rw [Partial.addLast_addArgs,hp.addLast_eq,List.nil_append]
  rw [← Partial.map_some_reduceOption_iff]
  constructor
  · intro h
    rw [← hlast]
    exact h.addLast_eq
  · intro has
    refine ⟨by rw [hlast,has],?_,?_⟩
    · intro c bar hbar
      exact ⟨as.reduceOption,has,hlast ▸ Partial.runAsStatic_of_find hbar⟩
    · rintro front last rfl
      rw [Partial.map_some_reduceOption_iff] at has
      obtain ⟨x,rfl⟩ : ∃ x, last = some x := by
        cases last with
        | none => simp at has
        | some x => exact ⟨x,rfl⟩
      have hfront : none ∉ front := fun h => has (List.mem_append_left _ h)
      refine ⟨front.reduceOption,x,(Partial.map_some_reduceOption_iff front).mpr hfront,rfl,?_⟩
      have hsplit : p.addArgs (front ++ [some x]) = (p.addArgs front).addArg (some x) :=
        List.foldl_append
      have hargs : (p.addArgs front).addLast = front.reduceOption := by
        rw [Partial.addLast_addArgs,hp.addLast_eq,List.nil_append]
      intro bar hbar
      rw [hsplit] at hbar ⊢
      rw [Partial.runClass_addArg hbar,hargs]

/-- `new Partial("valueOf","java.lang.String")` keeps three arguments in their order, and loses
one if another is null. -/
theorem addArgs_keeps_three :
    (Partial.addArgs ⟨"valueOf",some .string,none,[]⟩ [some 5,some 6,some 7]).KeepsArgs
      (strings []) [some 5,some 6,some 7] ∧
    ¬(Partial.addArgs ⟨"valueOf",some .string,none,[]⟩ [some 5,none,some 7]).KeepsArgs
      (strings []) [some 5,none,some 7] := by
  have hh := addArgs_keeps_iff (strings []) ⟨"valueOf",some .string,none,[]⟩
    ⟨"valueOf",.inr ⟨"java.lang.String",by simp [Partial.newClass,strings]⟩⟩
  exact ⟨(hh _).mpr (by simp),fun hlost => absurd ((hh _).mp hlost) (by simp)⟩

/-- After `addArg(null)` and `addArg(5)` there is one argument. -/
theorem addArgs_loses_null : ¬∀ (w : Reflection StringClass ℤ) (p : Partial StringClass ℤ),
    p.Fresh w → ∀ as, (p.addArgs as).KeepsArgs w as := by
  intro h
  have hlost := (h (strings []) (Partial.new "compare") ⟨"compare",.inl rfl⟩
    [none,some 5]).addLast_eq
  have hkept : (Partial.addArgs (ρ:=StringClass) (Partial.new "compare") [none,some (5 : ℤ)]).addLast
      = [5] := rfl
  rw [hkept] at hlost
  simp at hlost

end PartialApplication
end MiscUniStuff
