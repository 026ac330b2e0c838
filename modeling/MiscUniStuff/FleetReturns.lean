import MiscUniStuff.SharedSeas

/-! Whether a fleet may go back the way it came, when no coast is specified. The rule for
a move looks at the type of its target alone, so between a sea and a coast only one of the
two ways needs a common neighbour. -/
namespace MiscUniStuff
namespace Diplomacy
open Std

variable (lower : ToLowerCase) (map : Map)

/-- If a province links to another one, the other one links back. -/
def SymmetricLinks : Prop :=
  ∀ k k' : JString, ∀ c s : Country, map[k]? = some c → map[k']? = some s →
    (c.LinksTo lower k' ↔ s.LinksTo lower k)

/-- The target of some move of the set is the province under this key. -/
def MoveSet.Targets (moves : MoveSet) (k : JString) : Prop :=
  ∃ x ∈ moves.moves, lower x.country = k

section Returns
variable {lower map} {c s : Country} {k k' : JString}

theorem CommonSea.symm (h : CommonSea lower map c s .noPort) :
    CommonSea lower map s c .noPort := by
  obtain ⟨y,hy,-,hafloat,z,hz,-,heq⟩ := h
  exact ⟨z,hz,rfl,(afloat_congr heq).mpr hafloat,y,hy,rfl,heq.symm⟩

/-- Without a port every link to a sea may be followed, and one to a coast if there is a
place on the water next to both. -/
theorem targets_noPort_iff (hres : ∀ k, ∀ a ∈ linksOf map k, Resolves lower map a)
    (hc : map[k]? = some c) (hs : map[k']? = some s) (hland : c.type ≠ .land) :
    ∃ a, c.getFleetMoves lower map .noPort = .ok a ∧ (a.Targets lower k' ↔
      c.LinksTo lower k' ∧ (s.type = .sea ∨ s.type = .coast ∧ CommonSea lower map c s .noPort)) := by
  obtain ⟨a,hget,ha⟩ := fleet_target_iff hres hc hs hland .noPort
  have hany : ∀ port : Port, Port.equals .noPort port := fun _ => rfl
  refine ⟨a,hget,?_⟩
  rw [MoveSet.Targets,ha]
  simp only [hany,and_true,Country.LinksTo]

/-- A fleet may go back the way it came, unless it came from a coast to a sea and the two
have no neighbour on the water in common. -/
theorem fleet_returns_iff (hres : ∀ k, ∀ a ∈ linksOf map k, Resolves lower map a)
    (hsymm : SymmetricLinks lower map) (hc : map[k]? = some c) (hs : map[k']? = some s)
    (hcland : c.type ≠ .land) (hsland : s.type ≠ .land) :
    ∃ a b, c.getFleetMoves lower map .noPort = .ok a ∧
      s.getFleetMoves lower map .noPort = .ok b ∧
      ((a.Targets lower k' ↔ b.Targets lower k) ↔
        c.type = s.type ∨ ¬c.LinksTo lower k' ∨ CommonSea lower map c s .noPort) := by
  obtain ⟨a,hget,ha⟩ := targets_noPort_iff hres hc hs hcland
  obtain ⟨b,hget',hb⟩ := targets_noPort_iff hres hs hc hsland
  refine ⟨a,b,hget,hget',?_⟩
  have hlink := hsymm k k' c s hc hs
  have hcommon : CommonSea lower map s c .noPort ↔ CommonSea lower map c s .noPort :=
    ⟨CommonSea.symm,CommonSea.symm⟩
  rw [ha,hb,hcommon,← hlink]
  cases hctype : c.type with
  | land => exact absurd hctype hcland
  | coast =>
    cases hstype : s.type with
    | land => exact absurd hstype hsland
    | coast => simp
    | sea => by_cases hcs : c.LinksTo lower k' <;> simp [hcs]
  | sea =>
    cases hstype : s.type with
    | land => exact absurd hstype hsland
    | coast => by_cases hcs : c.LinksTo lower k' <;> simp [hcs]
    | sea => simp

end Returns

def naf : Country := coastal "North Africa" ["mid"]

def mid : Country := { coastal "Mid-atlantic ocean" ["naf"] with type := .sea }

/-- A coast and the sea it lies at, which have no other neighbour in common. -/
def gibraltar : Map := ((∅ : Map).insert (lit "naf") naf).insert (lit "mid") mid

theorem gibraltar_provinces {k : JString} {c : Country} (h : gibraltar[k]? = some c) :
    k = lit "naf" ∧ c = naf ∨ k = lit "mid" ∧ c = mid := by
  simp only [gibraltar,ExtTreeMap.getElem?_insert,Std.compare_eq_iff_eq] at h
  split_ifs at h with hmid hnaf
  · exact .inr ⟨hmid.symm,(Option.some.inj h).symm⟩
  · exact .inl ⟨hnaf.symm,(Option.some.inj h).symm⟩
  · simp at h

theorem gibraltar_resolves (k : JString) : ∀ a ∈ linksOf gibraltar k,
    Resolves id gibraltar a ∧ a.portFrom = .noPort ∧ a.portTo = .noPort := by
  cases hk : gibraltar[k]? with
  | none => simp [linksOf,hk]
  | some c =>
    rw [linksOf,hk]
    rcases gibraltar_provinces hk with ⟨-,rfl⟩ | ⟨-,rfl⟩ <;> decide

theorem gibraltar_symmetric : SymmetricLinks id gibraltar := by
  have hlinks : ∀ c : Country, ∀ k, c.LinksTo id k ↔ k ∈ c.links.moves.map Move.country := by
    simp [Country.LinksTo]
  intro k k' c s hc hs
  rw [hlinks,hlinks]
  rcases gibraltar_provinces hc with ⟨rfl,rfl⟩ | ⟨rfl,rfl⟩ <;>
    rcases gibraltar_provinces hs with ⟨rfl,rfl⟩ | ⟨rfl,rfl⟩ <;> decide

/-- Between North Africa and the ocean the two ways differ. -/
theorem fleet_returns_gibraltar : ∃ a b, naf.getFleetMoves id gibraltar .noPort = .ok a ∧
    mid.getFleetMoves id gibraltar .noPort = .ok b ∧
    ¬(a.Targets id (lit "mid") ↔ b.Targets id (lit "naf")) := by
  have hnaf : gibraltar[lit "naf"]? = some naf := rfl
  have hmid : gibraltar[lit "mid"]? = some mid := rfl
  obtain ⟨a,b,ha,hb,hiff⟩ := fleet_returns_iff
    (fun k x hx => (gibraltar_resolves k x hx).1) gibraltar_symmetric hnaf hmid (by decide)
    (by decide)
  refine ⟨a,b,ha,hb,?_⟩
  have hcommon : ¬CommonSea id gibraltar naf mid .noPort := by
    rintro ⟨y,hy,-,-,z,hz,-,heq⟩
    have hne : ∀ y ∈ naf.links.moves, ∀ z ∈ mid.links.moves, z.country ≠ y.country := by decide
    exact hne y hy z hz heq
  have hlink : naf.LinksTo id (lit "mid") := ⟨⟨lit "mid",.noPort,.noPort⟩,by decide,rfl⟩
  rw [hiff]
  rintro (htype | hnot | hcommon')
  · exact absurd htype (by decide)
  · exact hnot hlink
  · exact hcommon hcommon'

/-- A fleet goes out of North Africa to the ocean, and not back. -/
theorem fleet_stranded : ¬∀ (map : Map) (k k' : JString) (c s : Country),
    (∀ k, ∀ a ∈ linksOf map k, Resolves id map a ∧ a.portFrom = .noPort ∧ a.portTo = .noPort) →
    SymmetricLinks id map → map[k]? = some c → map[k']? = some s →
    c.type ≠ .land → s.type ≠ .land →
    ∀ a b, c.getFleetMoves id map .noPort = .ok a → s.getFleetMoves id map .noPort = .ok b →
      (a.Targets id k' ↔ b.Targets id k) := by
  intro h
  have hout : (naf.getFleetMoves id gibraltar .noPort).map
      (fun a => decide (lit "mid" ∈ a.moves.map Move.country)) = .ok true := by decide
  have hback : (mid.getFleetMoves id gibraltar .noPort).map
      (fun b => decide (lit "naf" ∈ b.moves.map Move.country)) = .ok false := by decide
  cases ha : naf.getFleetMoves id gibraltar .noPort with
  | error e => simp [ha,Except.map] at hout
  | ok a =>
    cases hb : mid.getFleetMoves id gibraltar .noPort with
    | error e => simp [hb,Except.map] at hback
    | ok b =>
      have hmid : a.Targets id (lit "mid") := by
        simpa [ha,Except.map,MoveSet.Targets] using hout
      have hnaf : ¬b.Targets id (lit "naf") := by
        simpa [hb,Except.map,MoveSet.Targets] using hback
      exact hnaf ((h gibraltar (lit "naf") (lit "mid") naf mid gibraltar_resolves
        gibraltar_symmetric rfl rfl (by decide) (by decide) a b ha hb).mp hmid)

end Diplomacy
end MiscUniStuff
