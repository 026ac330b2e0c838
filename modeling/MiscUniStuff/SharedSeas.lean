import MiscUniStuff.FleetMoves

/-! Whether a fleet that goes from coast to coast goes along a sea. What `getSeas` and
`getSeasReverse` call seas are seas and coasts. -/
namespace MiscUniStuff
namespace Diplomacy
open Std

variable (lower : ToLowerCase) (map : Map)

/-- The province has a link to the one under this key. -/
def Country.LinksTo (c : Country) (k : JString) : Prop := ∃ x ∈ c.links.moves, lower x.country = k

/-- Both provinces lie at one sea. -/
def SharedSea (c s : Country) : Prop :=
  ∃ k sea, map[k]? = some sea ∧ sea.type = .sea ∧ c.LinksTo lower k ∧ s.LinksTo lower k

/-- Both provinces lie at one other coast, with links that go with the port. -/
def SharedCoast (c s : Country) (g : Port) : Prop :=
  ∃ y ∈ c.links.moves, g.equals y.portFrom ∧
    (∃ p, getCountry lower map y.country = some p ∧ p.type = .coast) ∧
    ∃ z ∈ s.links.moves, g.equals z.portTo ∧ z.country = y.country

section Coasts
variable {lower map} {c s : Country} {k k' : JString} {g : Port}

/-- What the code takes for a common sea is one, or else a common coast. -/
theorem CommonSea.shared (h : CommonSea lower map c s g) :
    SharedSea lower map c s ∨ SharedCoast lower map c s g := by
  obtain ⟨y,hy,hfrom,⟨p,hp,hland⟩,z,hz,hto,heq⟩ := h
  cases htype : p.type with
  | land => exact absurd htype hland
  | coast => exact .inr ⟨y,hy,hfrom,⟨p,hp,htype⟩,z,hz,hto,heq⟩
  | sea => exact .inl ⟨lower y.country,p,hp,htype,⟨y,hy,rfl⟩,⟨z,hz,by rw [heq]⟩⟩

theorem SharedCoast.commonSea (h : SharedCoast lower map c s g) : CommonSea lower map c s g := by
  obtain ⟨y,hy,hfrom,⟨p,hp,htype⟩,z,hz,hto,heq⟩ := h
  have hafloat : Afloat lower map y := ⟨p,hp,by simp [htype]⟩
  exact ⟨y,hy,hfrom,hafloat,z,hz,hto,heq⟩

/-- When a province is among the targets of a fleet. -/
theorem fleet_target_iff (hres : ∀ k, ∀ a ∈ linksOf map k, Resolves lower map a)
    (hc : map[k]? = some c) (hs : map[k']? = some s) (hland : c.type ≠ .land) (g : Port) :
    ∃ a, c.getFleetMoves lower map g = .ok a ∧
      ((∃ x ∈ a.moves, lower x.country = k') ↔
        (∃ x ∈ c.links.moves, lower x.country = k' ∧ g.equals x.portFrom) ∧
          (s.type = .sea ∨ s.type = .coast ∧ CommonSea lower map c s g)) := by
  obtain ⟨a,hget,ha⟩ := mem_getFleetMoves hres hc g
  refine ⟨a,hget,?_⟩
  have hfound : ∀ x : Move, lower x.country = k' → getCountry lower map x.country = some s := by
    intro x hx
    rw [getCountry,hx,hs]
  constructor
  · rintro ⟨x,hx,hk⟩
    obtain ⟨hlink,-,hfrom,s',hs',htype⟩ := (ha x).mp hx
    obtain rfl : s' = s := Option.some.inj (hs'.symm.trans (hfound x hk))
    exact ⟨⟨x,hlink,hk,hfrom⟩,htype⟩
  · rintro ⟨⟨x,hlink,hk,hfrom⟩,htype⟩
    exact ⟨x,(ha x).mpr ⟨hlink,hland,hfrom,s,hfound x hk,htype⟩,hk⟩

/-- When a coast is among the targets of a fleet at another one. -/
theorem target_iff (hres : ∀ k, ∀ a ∈ linksOf map k, Resolves lower map a)
    (hc : map[k]? = some c) (hs : map[k']? = some s) (hcoast : c.type = .coast)
    (hscoast : s.type = .coast) (g : Port) : ∃ a, c.getFleetMoves lower map g = .ok a ∧
      ((∃ x ∈ a.moves, lower x.country = k') ↔
        (∃ x ∈ c.links.moves, lower x.country = k' ∧ g.equals x.portFrom) ∧
          CommonSea lower map c s g) := by
  obtain ⟨a,hget,ha⟩ := fleet_target_iff hres hc hs (by simp [hcoast]) g
  refine ⟨a,hget,?_⟩
  rw [ha]
  simp [hscoast]

/-- A fleet goes along a sea to another coast, unless there is none between the two and the
fleet may take the link because of a third coast. -/
theorem coast_move_shares_sea_iff (hres : ∀ k, ∀ a ∈ linksOf map k, Resolves lower map a)
    (hc : map[k]? = some c) (hs : map[k']? = some s) (hcoast : c.type = .coast)
    (hscoast : s.type = .coast) (g : Port) : ∃ a, c.getFleetMoves lower map g = .ok a ∧
      (((∃ x ∈ a.moves, lower x.country = k') → SharedSea lower map c s) ↔
        SharedSea lower map c s ∨
          (¬∃ x ∈ c.links.moves, lower x.country = k' ∧ g.equals x.portFrom) ∨
          ¬SharedCoast lower map c s g) := by
  obtain ⟨a,hget,ha⟩ := target_iff hres hc hs hcoast hscoast g
  refine ⟨a,hget,?_⟩
  rw [ha]
  constructor
  · intro h
    by_cases hcommon : SharedCoast lower map c s g
    · by_cases hlink : ∃ x ∈ c.links.moves, lower x.country = k' ∧ g.equals x.portFrom
      · exact .inl (h ⟨hlink,hcommon.commonSea⟩)
      · exact .inr (.inl hlink)
    · exact .inr (.inr hcommon)
  · rintro (hsea | hlink | hcommon) htarget
    · exact hsea
    · exact absurd htarget.1 hlink
    · exact htarget.2.shared.resolve_right hcommon

end Coasts

/-- A coast with links to these places, from and to any port. -/
def coastal (name : String) (neighbours : List String) : Country :=
  { Country.new (some (lit name)) none none .coast false with
    links := neighbours.foldl (fun links n => links.add ⟨lit n,.noPort,.noPort⟩) (∅ : MoveSet) }

/-- Three provinces of Italy and the seas at them, as the map of the game has them. -/
def italy : Map :=
  ((((∅ : Map).insert (lit "ven") (coastal "Venice" ["adr","apu","rom"])).insert
    (lit "rom") (coastal "Rome" ["ven","tyn","apu"])).insert
    (lit "apu") (coastal "Apulia" ["ven","rom","adr"])).insert
    (lit "adr") (Country.new (some (lit "Adriatic Sea")) none none .sea false) |>.insert
    (lit "tyn") (Country.new (some (lit "Tyrrhenian Sea")) none none .sea false)

theorem italy_resolves : ∀ k, ∀ a ∈ linksOf italy k, Resolves id italy a := by
  rw [← badLinks_eq_nil]
  decide

theorem coast_move_venice_apulia : ∃ a,
    (coastal "Venice" ["adr","apu","rom"]).getFleetMoves id italy .noPort = .ok a ∧
    ((∃ x ∈ a.moves, x.country = lit "apu") → SharedSea id italy
      (coastal "Venice" ["adr","apu","rom"]) (coastal "Apulia" ["ven","rom","adr"])) := by
  have hvenice : italy[lit "ven"]? = some (coastal "Venice" ["adr","apu","rom"]) := rfl
  have hapulia : italy[lit "apu"]? = some (coastal "Apulia" ["ven","rom","adr"]) := rfl
  obtain ⟨a,hget,hiff⟩ := coast_move_shares_sea_iff italy_resolves hvenice hapulia rfl rfl .noPort
  refine ⟨a,hget,hiff.mpr (.inl ?_)⟩
  refine ⟨lit "adr",_,rfl,rfl,⟨⟨lit "adr",.noPort,.noPort⟩,?_,rfl⟩,⟨lit "adr",.noPort,.noPort⟩,?_,rfl⟩
  · decide
  · decide

/-- From Venice to Rome, by the coast of Apulia. -/
theorem coast_move_overland : ¬∀ (map : Map) (k k' : JString) (c s : Country) (g : Port),
    (∀ k, ∀ a ∈ linksOf map k, Resolves id map a) → map[k]? = some c → map[k']? = some s →
    c.type = .coast → s.type = .coast → ∀ a, c.getFleetMoves id map g = .ok a →
    (∃ x ∈ a.moves, x.country = k') → SharedSea id map c s := by
  intro h
  have hmoves : ((coastal "Venice" ["adr","apu","rom"]).getFleetMoves id italy .noPort).map
      (fun a => decide (lit "rom" ∈ a)) = .ok true := by decide
  cases hget : (coastal "Venice" ["adr","apu","rom"]).getFleetMoves id italy .noPort with
  | error e => simp [hget,Except.map] at hmoves
  | ok a =>
    have hrome : lit "rom" ∈ a := by simpa [hget,Except.map] using hmoves
    obtain ⟨k,sea,hsea,htype,⟨x,hx,hxk⟩,⟨z,hz,hzk⟩⟩ := h italy (lit "ven") (lit "rom") _
      (coastal "Rome" ["ven","tyn","apu"]) .noPort italy_resolves rfl rfl rfl rfl a hget
      (MoveSet.mem_iff_moves.mp hrome)
    have hcommon : ∀ x ∈ (coastal "Venice" ["adr","apu","rom"]).links.moves,
        ∀ z ∈ (coastal "Rome" ["ven","tyn","apu"]).links.moves, x.country = z.country →
          (italy[x.country]?).map Country.type = some .coast := by decide
    have hcoast := hcommon x hx z hz (hxk.trans hzk.symm)
    have hfound : italy[x.country]? = some sea := by
      rw [← hsea,← hxk,id]
    simp [hfound,htype] at hcoast

end Diplomacy
end MiscUniStuff
