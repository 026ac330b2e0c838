import Mathlib.Tactic

/-! The map of the game as `Map.java`, `Country.java`, `Move.java`, `Port.java` and
`LandType.java` keep it. Java's sorted collections are ordered maps; lower case depends on
the locale and is a parameter. -/
namespace MiscUniStuff
namespace Diplomacy
open Std

/-- A Java string: its UTF-16 code units, which `compareTo` compares in turn. -/
abbrev JString := List UInt16

/-- A literal of the source; all of them are ASCII. -/
def lit (s : String) : JString := s.toList.map fun c => UInt16.ofNat c.toNat

/-- What a reference to a string that may be `null` becomes in a concatenation. -/
def orNull (s : Option JString) : JString := s.getD (lit "null")

/-- `String.toLowerCase`. -/
abbrev ToLowerCase := JString → JString

inductive Exn
  | nullPointer
  | badLandtype (landtype : JString)
  deriving DecidableEq

/-- `exception.toString()`. -/
def Exn.toString : Exn → JString
  | nullPointer => lit "java.lang.NullPointerException"
  | badLandtype landtype => lit "java.lang.Exception: Bad landtype " ++ landtype

/-- A port: 1, 2 and 3 of the source. `Port.PortA` is the port of "a", which is lower case
everywhere, and `Port.PortB` that of "b". -/
inductive Port
  | portA | portB | noPort
  deriving DecidableEq

/-- The constructor of `Port`. -/
def Port.new (lower : ToLowerCase) : Option JString → Port
  | none => .noPort
  | some b => if lower b = lit "a" then .portA else if lower b = lit "b" then .portB else .noPort

/-- `Port.equals`: a port that is not given goes with every port. -/
def Port.equals (port gid : Port) : Bool := port = .noPort || gid = .noPort || port = gid

def Port.toString : Port → JString
  | portA => lit "port A"
  | portB => lit "port B"
  | noPort => lit "No Port"

inductive LandType
  | land | coast | sea
  deriving DecidableEq

/-- `LandType.parse`. -/
def LandType.parse (lower : ToLowerCase) : Option JString → Except Exn LandType
  | none => .error .nullPointer
  | some landtype =>
    if lower landtype = lit "land" then .ok .land
    else if lower landtype = lit "coast" then .ok .coast
    else if lower landtype = lit "sea" then .ok .sea
    else .error (.badLandtype landtype)

/-- `Move.java`. -/
structure Move where
  country : JString
  portFrom : Port
  portTo : Port
  deriving DecidableEq

/-- A `TreeSet<Move>`: moves are compared by their country alone. -/
abbrev MoveSet := ExtTreeMap JString (Port × Port)

namespace MoveSet
variable {s t : MoveSet} {a b : Move} {c : JString}

/-- `TreeSet.add`: an equal element stays. -/
def add (s : MoveSet) (a : Move) : MoveSet := s.insertIfNew a.country (a.portFrom,a.portTo)

/-- The elements in the order a loop visits them. -/
def moves (s : MoveSet) : List Move := s.toList.map fun x => ⟨x.1,x.2.1,x.2.2⟩

theorem mem_moves : a ∈ s.moves ↔ s[a.country]? = some (a.portFrom,a.portTo) := by
  rw [moves,List.mem_map,← ExtTreeMap.mem_toList_iff_getElem?_eq_some]
  constructor
  · rintro ⟨x,hx,rfl⟩
    exact hx
  · intro h
    exact ⟨_,h,rfl⟩

theorem moves_nodup (s : MoveSet) : (s.moves.map Move.country).Nodup := by
  have hdistinct := ExtTreeMap.distinct_keys_toList (t:=s)
  rw [moves,List.map_map,List.Nodup,List.pairwise_map]
  refine hdistinct.imp fun h heq => h ?_
  exact Std.compare_eq_iff_eq.mpr heq

theorem mem_iff_moves : c ∈ s ↔ ∃ a ∈ s.moves, a.country = c := by
  rw [ExtTreeMap.mem_iff_isSome_getElem?,Option.isSome_iff_exists]
  constructor
  · rintro ⟨ports,h⟩
    exact ⟨⟨c,ports.1,ports.2⟩,mem_moves.mpr h,rfl⟩
  · rintro ⟨a,ha,rfl⟩
    exact ⟨_,mem_moves.mp ha⟩

@[simp] theorem moves_empty : moves ∅ = [] := by simp [moves]

/-- Adding a move to a new country. -/
theorem mem_moves_add (h : a.country ∉ s) : b ∈ (s.add a).moves ↔ b ∈ s.moves ∨ b = a := by
  have hnone : s[a.country]? = none := ExtTreeMap.getElem?_eq_none h
  rw [mem_moves,mem_moves,add,ExtTreeMap.getElem?_insertIfNew]
  simp only [Std.compare_eq_iff_eq,h,not_false_eq_true,and_true]
  by_cases heq : a.country = b.country
  · rw [if_pos heq,← heq,hnone]
    cases a
    cases b
    simp_all [eq_comm]
  · have hne : b ≠ a := fun hba => heq (by rw [hba])
    simp [heq,hne]

/-- A loop that adds those moves to a new set that pass a test. -/
def collect (p : Move → Bool) (l : List Move) : MoveSet :=
  l.foldl (fun foo x => if p x then foo.add x else foo) ∅

theorem collect_snoc (p : Move → Bool) (l : List Move) (a : Move) :
    collect p (l ++ [a]) = if p a then (collect p l).add a else collect p l := by
  simp [collect]

theorem mem_collect {p : Move → Bool} {l : List Move} (hnodup : (l.map Move.country).Nodup)
    (b : Move) : b ∈ (collect p l).moves ↔ b ∈ l ∧ p b := by
  induction l using List.reverseRecOn generalizing b with
  | nil => simp [collect]
  | append_singleton l a ih =>
    rw [List.map_append,List.nodup_append] at hnodup
    have hold := ih hnodup.1
    rw [collect_snoc]
    split_ifs with ha
    · have hnew : a.country ∉ collect p l := by
        rw [mem_iff_moves]
        rintro ⟨a',ha',heq⟩
        have hmem := ((hold a').mp ha').1
        exact hnodup.2.2 _ (List.mem_map_of_mem hmem) _ (by simp) heq
      rw [mem_moves_add hnew,hold]
      simp only [List.mem_append,List.mem_singleton]
      constructor
      · rintro (⟨h₁,h₂⟩ | rfl)
        · exact ⟨.inl h₁,h₂⟩
        · exact ⟨.inr rfl,ha⟩
      · rintro ⟨h₁ | rfl,h₂⟩
        · exact .inl ⟨h₁,h₂⟩
        · exact .inr rfl
    · rw [hold]
      simp only [List.mem_append,List.mem_singleton]
      constructor
      · rintro ⟨h₁,h₂⟩
        exact ⟨.inl h₁,h₂⟩
      · rintro ⟨h₁ | rfl,h₂⟩
        · exact ⟨h₁,h₂⟩
        · exact absurd h₂ ha

/-- The same loop when it may run into an exception. -/
theorem foldlM_collect {f : MoveSet → Move → Except Exn MoveSet} {p : Move → Bool} {l : List Move}
    (hf : ∀ a ∈ l, ∀ foo, f foo a = .ok (if p a then foo.add a else foo)) :
    l.foldlM f ∅ = .ok (collect p l) := by
  induction l using List.reverseRecOn with
  | nil => rfl
  | append_singleton l a ih =>
    have hold := ih fun b hb foo => hf b (by simp [hb]) foo
    rw [List.foldlM_append,hold,collect_snoc]
    simp only [bind,Except.bind,List.foldlM_cons,hf a (by simp),List.foldlM_nil,pure,Except.pure]

/-- `TreeSet.retainAll`: what is not in the other set is removed. -/
def retainAll (s t : MoveSet) : MoveSet := collect (fun x => x.country ∈ t) s.moves

theorem mem_retainAll : a ∈ (s.retainAll t).moves ↔ a ∈ s.moves ∧ a.country ∈ t := by
  rw [retainAll,mem_collect (moves_nodup s),decide_eq_true_eq]

end MoveSet

/-- `Country.java`. The strings may be `null`. -/
structure Country where
  longname : Option JString
  porta : Option JString
  portb : Option JString
  type : LandType
  supply : Bool
  links : MoveSet
  checked : Bool

/-- `Map.java`. -/
abbrev Map := ExtTreeMap JString Country

variable (lower : ToLowerCase) (map : Map)

/-- `Map.getCountry`. -/
def getCountry (shortname : JString) : Option Country := map[lower shortname]?

/-- The constructor of `Country`. -/
def Country.new (lon pa pb : Option JString) (t : LandType) (sup : Bool) : Country :=
  ⟨lon,pa,pb,t,sup,∅,false⟩

/-- `Map.addCountry`. -/
def addCountry (shortname pa pb longname type : Option JString) (supply : Bool) :
    Except Exn Map := do
  let t ← LandType.parse lower type
  let n := Country.new longname pa pb t supply
  match shortname with
  | none => .error .nullPointer
  | some shortname => .ok (map.insert (lower shortname) n)

/-- `Map.AddLink`, with the constructor of `Move`. -/
def addLink (from' to' : Option JString) (portfrom portto : Option JString) : Except Exn Map :=
  match from',to' with
  | some from',some to' =>
    match getCountry lower map from' with
    | none => .error .nullPointer
    | some _ =>
      let neighbour : Move := ⟨lower to',Port.new lower portfrom,Port.new lower portto⟩
      .ok (map.modify (lower from') fun c => { c with links := c.links.add neighbour })
  | _, _ => .error .nullPointer

/-- `Move.toString`. -/
def Move.toString (a : Move) : Except Exn JString :=
  match getCountry lower map a.country with
  | none => .error .nullPointer
  | some c => .ok (orNull c.longname ++ lit " From:" ++ a.portFrom.toString ++ lit " To:" ++
      a.portTo.toString)

/-- The province that a link leads to is on the map. -/
def Resolves (a : Move) : Prop := getCountry lower map a.country ≠ none

instance (a : Move) : Decidable (Resolves lower map a) :=
  inferInstanceAs (Decidable (¬getCountry lower map a.country = none))

end Diplomacy
end MiscUniStuff
