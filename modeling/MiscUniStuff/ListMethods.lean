import Mathlib.Logic.Function.Basic
import MiscUniStuff.PartialApplication

/-! `List.java`: folds over a collection that call a method through `Partial`. A method of
`List` is one that can be called in this way as well, and `map` and `filter` do so. The other
classes, with what their methods do, are parameters. -/
namespace MiscUniStuff
namespace PartialApplication

/-- The classes that `List.java` names, and the others. -/
inductive JClass (κ : Type)
  | list | application | collection | object
  | other (k : κ)

/-- An object: a collection is known by its address, the objects of other classes are `υ`. -/
inductive Obj (κ υ : Type)
  | integer (n : Int32)
  | boolean (b : Bool)
  | application (p : Partial (JClass κ) (Obj κ υ))
  | collection (address : ℕ)
  | other (x : υ)

/-- What a collection holds, in the order of its iterator, and how often it has been changed. -/
structure Cell (κ υ : Type) where
  elements : List (Option (Obj κ υ))
  modCount : ℕ

abbrev Heap (κ υ : Type) := ℕ → Cell κ υ

/-- `Collection.add`, of a list. -/
def Heap.add {κ υ : Type} (heap : Heap κ υ) (bar : ℕ) (x : Option (Obj κ υ)) : Heap κ υ :=
  Function.update heap bar ⟨(heap bar).elements ++ [x],(heap bar).modCount+1⟩

/-- An exception of a method that has been invoked comes back as the target of another one. -/
inductive Thrown
  | raised (e : Exn)
  | classCast | nullPointer | concurrentModification
  | invocationTarget (e : Thrown)
  deriving DecidableEq

/-- The value that a call returns, which may be `null`, and the collections after it; `none` is
a call that has not ended. -/
abbrev Result (κ υ : Type) := Option (Except Thrown (Option (Obj κ υ) × Heap κ υ))

namespace Result
variable {κ υ : Type}

def return' (value : Option (Obj κ υ)) (heap : Heap κ υ) : Result κ υ := some (.ok (value,heap))

def throw' (e : Thrown) : Result κ υ := some (.error e)

/-- Go on with `k` unless there has been an exception. -/
def next (r : Result κ υ) (k : Option (Obj κ υ) → Heap κ υ → Result κ υ) : Result κ υ :=
  match r with
  | some (.ok (value,heap)) => k value heap
  | r => r

/-- What `Method.invoke` makes of the exceptions of the method. -/
def invoked : Result κ υ → Result κ υ
  | some (.error e) => throw' (.invocationTarget e)
  | r => r

end Result

/-- The methods of `List`. -/
inductive ListMethod
  | multiply | product | add | sum | filter | filterSingle | map | mapSingle | foldl
  deriving DecidableEq

namespace ListMethod

def all : List ListMethod :=
  [multiply,product,add,sum,filter,filterSingle,map,mapSingle,foldl]

def name : ListMethod → String
  | multiply => "multiply"
  | product => "product"
  | add => "add"
  | sum => "sum"
  | filter => "filter"
  | filterSingle => "filter_single"
  | map => "map"
  | mapSingle => "map_single"
  | foldl => "foldl"

def parameterTypes {κ : Type} : ListMethod → List (Class (JClass κ))
  | multiply | add => [.primitive .int,.primitive .int]
  | product | sum => [.reference .collection]
  | filter | map => [.reference .collection,.reference .collection,.reference .application]
  | filterSingle | mapSingle => [.reference .application,.reference .object,.reference .object]
  | foldl => [.reference .collection,.reference .object,.reference .application]

def method {κ : Type} (m : ListMethod) : Method (JClass κ) :=
  ⟨m.name,true,m.parameterTypes,true⟩

def ofName (name : String) : Option ListMethod := all.find? fun m => m.name = name

end ListMethod

/-- What there is besides `List`: classes and their methods, and what these do. -/
structure Env (κ υ : Type) where
  forName : String → Option (JClass κ)
  getClass : Obj κ υ → JClass κ
  getMethods : JClass κ → List (Method (JClass κ))
  isInstance : κ → Obj κ υ → Bool
  boxed : υ → Option Primitive
  /-- The value of a `Character`, `Byte` or `Short` as an `int`. -/
  intValue : υ → Option Int32
  call : JClass κ → Invocation (JClass κ) (Obj κ υ) → Heap κ υ →
    Except Thrown (Option (Obj κ υ) × Heap κ υ)

variable {κ υ : Type} (env : Env κ υ)

/-- The classes of the program as reflection shows them. -/
def Env.reflection : Reflection (JClass κ) (Obj κ υ) where
  forName s := if s = "List" then some .list else env.forName s
  getClass := env.getClass
  getMethods
    | .list => ListMethod.all.map ListMethod.method
    | c => env.getMethods c
  isInstance
    | .list,_ => false
    | .application,o => match o with
      | .application _ => true
      | _ => false
    | .collection,o => match o with
      | .collection _ => true
      | _ => false
    | .object,_ => true
    | .other k,o => env.isInstance k o
  boxed
    | .integer _ => some .int
    | .boolean _ => some .boolean
    | .other x => env.boxed x
    | _ => none

/-- The object as an argument for an `int`. -/
def Obj.intValue : Obj κ υ → Option Int32
  | .integer n => some n
  | .other x => env.intValue x
  | _ => none

/-! ### `Partial` and `List` with an `invoke` for the calls -/

/-- How an invocation of a method of the class goes on. -/
abbrev Invoke (κ υ : Type) :=
  JClass κ → Invocation (JClass κ) (Obj κ υ) → Heap κ υ → Result κ υ

variable (invoke : Invoke κ υ)

/-- The class in which `Run` looks the method up. -/
def Partial.target (p : Partial (JClass κ) (Obj κ υ)) : JClass κ :=
  p.classToRun.getD ((p.lastarg.map env.getClass).getD .object)

/-- `Partial.Run`, with the call that it makes. -/
def runNow (p : Partial (JClass κ) (Obj κ υ)) (heap : Heap κ υ) : Result κ υ :=
  match p.run env.reflection with
  | .error e => .throw' (.raised e)
  | .ok call => (invoke (p.target env) call heap).invoked

/-- `addArgAndRun`. -/
def addArgAndRun (p : Partial (JClass κ) (Obj κ υ)) (arg : Option (Obj κ υ)) (heap : Heap κ υ) :
    Result κ υ := runNow env invoke (p.addArg arg) heap

/-- The loop of `foldl`, with what the iterator has not given yet and how much it has. An
iterator goes on until it has given as many elements as there are, and notices a change then. -/
def foldlLoop (in' modCount : ℕ) (f : Partial (JClass κ) (Obj κ υ)) :
    List (Option (Obj κ υ)) → ℕ → Option (Obj κ υ) → Heap κ υ → Result κ υ
  | rest, cursor, out, heap =>
    if cursor = (heap in').elements.length then .return' out heap
    else if (heap in').modCount ≠ modCount then .throw' .concurrentModification
    else
      match rest with
      | [] => .throw' .concurrentModification
      | i::rest =>
        (addArgAndRun env invoke (f.addArg i) out heap).next fun out heap =>
          foldlLoop in' modCount f rest (cursor+1) out heap

def foldl (in' : ℕ) (out : Option (Obj κ υ)) (f : Partial (JClass κ) (Obj κ υ)) (heap : Heap κ υ) :
    Result κ υ :=
  foldlLoop env invoke in' (heap in').modCount f (heap in').elements 0 out heap

/-- `new Partial(meth,"List")`, and on with it. -/
def newPartial (meth : String) (k : Partial (JClass κ) (Obj κ υ) → Result κ υ) : Result κ υ :=
  match Partial.newClass env.reflection meth "List" with
  | .error e => .throw' (.raised e)
  | .ok p => k p

def multiply (a b : Int32) : Int32 := a*b

def add (a b : Int32) : Int32 := a+b

def product (in' : ℕ) (heap : Heap κ υ) : Result κ υ :=
  newPartial env "multiply" fun p => foldl env invoke in' (some (.integer 1)) p heap

/-- The cast to `Integer`, which `null` passes. -/
def castInteger (o : Option (Obj κ υ)) (heap : Heap κ υ) : Result κ υ :=
  match o with
  | none => .return' none heap
  | some (.integer n) => .return' (some (.integer n)) heap
  | some _ => .throw' .classCast

def sum (in' : ℕ) (heap : Heap κ υ) : Result κ υ :=
  newPartial env "add" fun p =>
    (foldl env invoke in' (some (.integer 0)) p heap).next castInteger

/-- The cast to `Collection` of an object that is not `null`. -/
def castCollection (o : Obj κ υ) (k : ℕ → Result κ υ) : Result κ υ :=
  match o with
  | .collection bar => k bar
  | _ => .throw' .classCast

/-- `filter_single`. -/
def filterSingle (f : Partial (JClass κ) (Obj κ υ)) (thisone out : Obj κ υ) (heap : Heap κ υ) :
    Result κ υ :=
  castCollection out fun bar =>
    (addArgAndRun env invoke f (some thisone) heap).next fun k heap =>
      match k with
      | none => .throw' .nullPointer
      | some (.boolean b) =>
        .return' (some out) (if b then heap.add bar (some thisone) else heap)
      | some _ => .throw' .classCast

/-- `map_single`. -/
def mapSingle (f : Partial (JClass κ) (Obj κ υ)) (thisone out : Obj κ υ) (heap : Heap κ υ) :
    Result κ υ :=
  castCollection out fun bar =>
    (addArgAndRun env invoke f (some thisone) heap).next fun k heap =>
      .return' (some out) (heap.add bar k)

/-- The cast of what `foldl` returns to `Collection`, which `null` passes. -/
def castResult (o : Option (Obj κ υ)) (heap : Heap κ υ) : Result κ υ :=
  match o with
  | none => .return' none heap
  | some o => castCollection o fun _ => .return' (some o) heap

def filter (in' out : ℕ) (f : Partial (JClass κ) (Obj κ υ)) (heap : Heap κ υ) : Result κ υ :=
  newPartial env "filter_single" fun current =>
    (foldl env invoke in' (some (.collection out)) (current.addArg (some (.application f)))
      heap).next castResult

def map (in' out : ℕ) (f : Partial (JClass κ) (Obj κ υ)) (heap : Heap κ υ) : Result κ υ :=
  newPartial env "map_single" fun current =>
    (foldl env invoke in' (some (.collection out)) (current.addArg (some (.application f)))
      heap).next castResult

/-- What a method of `List` does with the arguments of an invocation. Their number and types
have been checked. -/
def ListMethod.body : ListMethod → List (Obj κ υ) → Heap κ υ → Result κ υ
  | .multiply, [a,b], heap =>
    match a.intValue env, b.intValue env with
    | some a, some b => .return' (some (.integer (PartialApplication.multiply a b))) heap
    | _, _ => .throw' .classCast
  | .add, [a,b], heap =>
    match a.intValue env, b.intValue env with
    | some a, some b => .return' (some (.integer (PartialApplication.add a b))) heap
    | _, _ => .throw' .classCast
  | .product, [.collection in'], heap => PartialApplication.product env invoke in' heap
  | .sum, [.collection in'], heap => PartialApplication.sum env invoke in' heap
  | .filter, [.collection in',.collection out,.application f], heap =>
    PartialApplication.filter env invoke in' out f heap
  | .map, [.collection in',.collection out,.application f], heap =>
    PartialApplication.map env invoke in' out f heap
  | .filterSingle, [.application f,thisone,out], heap =>
    PartialApplication.filterSingle env invoke f thisone out heap
  | .mapSingle, [.application f,thisone,out], heap =>
    PartialApplication.mapSingle env invoke f thisone out heap
  | .foldl, [.collection in',out,.application f], heap =>
    PartialApplication.foldl env invoke in' (some out) f heap
  | _, _, _ => .throw' .classCast

/-- Carry an invocation out, with a bound on the depth of the calls that go through `Partial`. -/
def perform : ℕ → Invoke κ υ
  | 0, _, _, _ => none
  | n+1, .list, call, heap =>
    match ListMethod.ofName call.method.name with
    | some m => m.body env (perform n) call.args heap
    | none => .throw' (.raised .noSuchMethod)
  | _+1, c, call, heap => some (env.call c call heap)

end PartialApplication
end MiscUniStuff
