import MiscUniStuff.ConsistencyCheck

/-! The moves of a fleet, as `Country.java` looks them up for a coast or for none. -/
namespace MiscUniStuff
namespace Diplomacy
open Std

variable (lower : ToLowerCase) (map : Map)

/-- The loop of `getSeas` and `getSeasReverse`, over the links the port of which goes with
`gool`. -/
def Country.seasBy (port : Move → Port) (c : Country) (gool : Port) : Except Exn MoveSet :=
  c.links.moves.foldlM (fun foo x =>
    if gool.equals (port x) then
      match getCountry lower map x.country with
      | none => .error .nullPointer
      | some s => .ok (if s.type = .sea ∨ s.type = .coast then foo.add x else foo)
    else .ok foo) ∅

/-- `getSeas`: the seas we can move from. -/
def Country.getSeas (c : Country) (gool : Port) : Except Exn MoveSet :=
  c.seasBy lower map Move.portFrom gool

/-- `getSeasReverse`: the seas we can move to. -/
def Country.getSeasReverse (c : Country) (gool : Port) : Except Exn MoveSet :=
  c.seasBy lower map Move.portTo gool

/-- `getFleetMoves`. -/
def Country.getFleetMoves (c : Country) (g : Port) : Except Exn MoveSet :=
  -- a landlocked square has no fleet
  if c.type = .land then .ok ∅
  else do
    let myseas ← c.getSeas lower map g
    myseas.moves.foldlM (fun a x =>
      match getCountry lower map x.country with
      | none => .error .nullPointer
      | some s => do
        let seas ← s.getSeasReverse lower map g
        .ok (if s.type = .coast then
            if (seas.retainAll myseas).size > 0 then a.add x else a
          else if s.type = .sea then a.add x else a)) ∅

/-! ### What the loops find -/

/-- The move leads to a sea or to a coast. -/
def Afloat (x : Move) : Prop := ∃ s, getCountry lower map x.country = some s ∧ s.type ≠ .land

/-- A place on the water next to both provinces, with links that go with the port. -/
def CommonSea (c s : Country) (g : Port) : Prop :=
  ∃ y ∈ c.links.moves, g.equals y.portFrom ∧ Afloat lower map y ∧
    ∃ z ∈ s.links.moves, g.equals z.portTo ∧ z.country = y.country

/-- A fleet with this port may follow this link. -/
def Sails (c : Country) (g : Port) (x : Move) : Prop :=
  g.equals x.portFrom ∧ ∃ s, getCountry lower map x.country = some s ∧
    (s.type = .sea ∨ s.type = .coast ∧ CommonSea lower map c s g)

section Queries
variable {lower map} {c s : Country} {g : Port} {x y : Move} {port : Move → Port}

theorem afloat_congr (h : x.country = y.country) : Afloat lower map x ↔ Afloat lower map y := by
  rw [Afloat,Afloat,h]

theorem size_pos_iff {s : MoveSet} : 0 < s.size ↔ ∃ x, x ∈ s.moves := by
  rw [← ExtTreeMap.length_toList,List.length_pos_iff_exists_mem]
  simp [MoveSet.moves]

/-- The move leads to a province, which is afloat if it is not land. -/
theorem afloat_iff (h : getCountry lower map x.country = some s) :
    Afloat lower map x ↔ s.type = .sea ∨ s.type = .coast := by
  rw [Afloat,h]
  cases hs : s.type <;> simp [hs]

theorem mem_seasBy (hres : ∀ a ∈ c.links.moves, Resolves lower map a) (port : Move → Port)
    (g : Port) : ∃ seas, c.seasBy lower map port g = .ok seas ∧
      ∀ x, x ∈ seas.moves ↔ x ∈ c.links.moves ∧ g.equals (port x) ∧ Afloat lower map x := by
  classical
  let p : Move → Bool := fun x => g.equals (port x) ∧ Afloat lower map x
  refine ⟨.collect p c.links.moves,?_,fun x => ?_⟩
  · apply MoveSet.foldlM_collect
    intro a ha foo
    obtain ⟨s,hs⟩ := Option.ne_none_iff_exists'.mp (hres a ha)
    cases heq : g.equals (port a) <;> simp [p,heq,hs,afloat_iff hs]
  · rw [MoveSet.mem_collect (MoveSet.moves_nodup _)]
    simp [p]

/-- The loop of `getFleetMoves` keeps a coast if there is a sea between the two provinces. -/
theorem size_retainAll {myseas seas : MoveSet}
    (hmyseas : ∀ x, x ∈ myseas.moves ↔
      x ∈ c.links.moves ∧ g.equals x.portFrom ∧ Afloat lower map x)
    (hseas : ∀ x, x ∈ seas.moves ↔
      x ∈ s.links.moves ∧ g.equals x.portTo ∧ Afloat lower map x) :
    0 < (seas.retainAll myseas).size ↔ CommonSea lower map c s g := by
  rw [size_pos_iff]
  simp only [MoveSet.mem_retainAll,MoveSet.mem_iff_moves,hmyseas,hseas]
  constructor
  · rintro ⟨z,⟨hz,hto,-⟩,y,⟨hy,hfrom,hafloat⟩,heq⟩
    exact ⟨y,hy,hfrom,hafloat,z,hz,hto,heq.symm⟩
  · rintro ⟨y,hy,hfrom,hafloat,z,hz,hto,heq⟩
    exact ⟨z,⟨hz,hto,(afloat_congr heq).mpr hafloat⟩,y,⟨hy,hfrom,hafloat⟩,heq.symm⟩

theorem resolves_links {k : JString} (hres : ∀ k, ∀ a ∈ linksOf map k, Resolves lower map a)
    (hc : map[k]? = some c) : ∀ a ∈ c.links.moves, Resolves lower map a := by
  intro a ha
  apply hres k
  simpa [linksOf,hc] using ha

/-- The moves of a fleet are the links that it may follow. -/
theorem mem_getFleetMoves {k : JString} (hres : ∀ k, ∀ a ∈ linksOf map k, Resolves lower map a)
    (hc : map[k]? = some c) (g : Port) : ∃ a, c.getFleetMoves lower map g = .ok a ∧
      ∀ x, x ∈ a.moves ↔ x ∈ c.links.moves ∧ c.type ≠ .land ∧ Sails lower map c g x := by
  by_cases hland : c.type = .land
  · exact ⟨∅,by simp [Country.getFleetMoves,hland],by simp [hland]⟩
  · classical
    obtain ⟨myseas,hget,hmyseas⟩ := mem_seasBy (resolves_links hres hc) Move.portFrom g
    let p : Move → Bool := fun x => Sails lower map c g x
    refine ⟨.collect p myseas.moves,?_,fun x => ?_⟩
    · rw [Country.getFleetMoves,if_neg hland,Country.getSeas,hget]
      apply MoveSet.foldlM_collect
      intro a ha foo
      have hfrom := ((hmyseas a).mp ha).2.1
      obtain ⟨s,hs⟩ := Option.ne_none_iff_exists'.mp (resolves_links hres hc a ((hmyseas a).mp ha).1)
      obtain ⟨seas,hgets,hseas⟩ := mem_seasBy (resolves_links hres hs) Move.portTo g
      have hsize := size_retainAll hmyseas hseas
      simp only [hs,Country.getSeasReverse,hgets,bind,Except.bind,p,Sails,hfrom]
      cases htype : s.type <;> simp [htype,hsize]
    · rw [MoveSet.mem_collect (MoveSet.moves_nodup _),hmyseas]
      simp only [p,decide_eq_true_eq]
      constructor
      · rintro ⟨⟨hx,-⟩,hsails⟩
        exact ⟨hx,hland,hsails⟩
      · rintro ⟨hx,-,hsails⟩
        obtain ⟨hfrom,s,hs,htype⟩ := hsails
        have hafloat : Afloat lower map x := (afloat_iff hs).mpr (htype.imp_right And.left)
        exact ⟨⟨hx,hfrom,hafloat⟩,hfrom,s,hs,htype⟩

/-- There is one link to each province. -/
theorem eq_of_country {links : MoveSet} (hx : x ∈ links.moves) (hy : y ∈ links.moves)
    (h : x.country = y.country) : x = y := by
  have hxports := MoveSet.mem_moves.mp hx
  have hyports := MoveSet.mem_moves.mp hy
  rw [h,hyports] at hxports
  cases x
  cases y
  simp_all

/-- What a fleet may do with a port it may do without. -/
theorem CommonSea.noPort (h : CommonSea lower map c s g) : CommonSea lower map c s .noPort := by
  obtain ⟨y,hy,-,hafloat,z,hz,-,heq⟩ := h
  exact ⟨y,hy,rfl,hafloat,z,hz,rfl,heq⟩

theorem Sails.noPort (h : Sails lower map c g x) : Sails lower map c .noPort x := by
  obtain ⟨-,s,hs,htype⟩ := h
  exact ⟨rfl,s,hs,htype.imp_right fun hh => ⟨hh.1,hh.2.noPort⟩⟩

theorem exists_port (port : Port) : ∃ g, g ≠ .noPort ∧ Port.equals g port := by
  cases port with
  | portA => exact ⟨.portA,by decide,rfl⟩
  | portB => exact ⟨.portB,by decide,rfl⟩
  | noPort => exact ⟨.portA,by decide,rfl⟩

end Queries

/-- If `t` is a coast, one coast of `c` goes with the link to `t`, and with the links of both
to some place on the water. -/
def OneCoast (c : Country) (t : JString) : Prop :=
  ∀ x ∈ c.links.moves, x.country = t → ∀ s, getCountry lower map t = some s → s.type = .coast →
    ∃ g, g ≠ .noPort ∧ g.equals x.portFrom ∧ CommonSea lower map c s g

section Ports
variable {lower map} {c s : Country} {x : Move}

/-- A link that a fleet may follow without a port it may follow with some port, if one coast
will do. -/
theorem sails_port_iff (hx : x ∈ c.links.moves) : (∃ g, g ≠ .noPort ∧ Sails lower map c g x) ↔
    Sails lower map c .noPort x ∧ OneCoast lower map c x.country := by
  constructor
  · rintro ⟨g,hg,hsails⟩
    refine ⟨hsails.noPort,?_⟩
    intro x' hx' heq s hs hcoast
    obtain rfl := eq_of_country hx' hx heq
    obtain ⟨hfrom,s',hs',htype⟩ := hsails
    obtain rfl := Option.some.inj (hs'.symm.trans hs)
    rcases htype with hsea | hcommon
    · rw [hsea] at hcoast
      contradiction
    · exact ⟨g,hg,hfrom,hcommon.2⟩
  · rintro ⟨⟨-,s,hs,htype⟩,hone⟩
    rcases htype with hsea | hcommon
    · obtain ⟨g,hg,hfrom⟩ := exists_port x.portFrom
      exact ⟨g,hg,hfrom,s,hs,.inl hsea⟩
    · obtain ⟨g,hg,hfrom,hsea⟩ := hone x hx rfl s hs hcommon.1
      exact ⟨g,hg,hfrom,s,hs,.inr ⟨hcommon.1,hsea⟩⟩

theorem exists_ne_noPort {p : Port → Prop} : (∃ g, g ≠ .noPort ∧ p g) ↔ p .portA ∨ p .portB := by
  constructor
  · rintro ⟨g,hg,hp⟩
    cases g with
    | portA => exact .inl hp
    | portB => exact .inr hp
    | noPort => exact absurd rfl hg
  · rintro (hp | hp)
    · exact ⟨.portA,by decide,hp⟩
    · exact ⟨.portB,by decide,hp⟩

/-- The targets of a fleet at an unspecified coast are those of the two coasts, and besides
the coasts for which no single one of them will do. -/
theorem fleet_moves_coasts {k : JString}
    (hres : ∀ k, ∀ a ∈ linksOf map k, Resolves lower map a) (hc : map[k]? = some c) :
    ∃ a aA aB, c.getFleetMoves lower map .noPort = .ok a ∧
      c.getFleetMoves lower map .portA = .ok aA ∧ c.getFleetMoves lower map .portB = .ok aB ∧
      (∀ t, t ∈ aA ∨ t ∈ aB ↔ t ∈ a ∧ OneCoast lower map c t) ∧
      ((∀ t, t ∈ a ↔ t ∈ aA ∨ t ∈ aB) ↔ ∀ t ∈ a, OneCoast lower map c t) := by
  obtain ⟨a,hget,ha⟩ := mem_getFleetMoves hres hc .noPort
  obtain ⟨aA,hgetA,haA⟩ := mem_getFleetMoves hres hc .portA
  obtain ⟨aB,hgetB,haB⟩ := mem_getFleetMoves hres hc .portB
  have hunion : ∀ t, t ∈ aA ∨ t ∈ aB ↔ t ∈ a ∧ OneCoast lower map c t := by
    intro t
    simp only [MoveSet.mem_iff_moves,ha,haA,haB]
    constructor
    · intro h
      obtain ⟨x,hx,hland,hsails,rfl⟩ : ∃ x, x ∈ c.links.moves ∧ c.type ≠ .land ∧
          (∃ g, g ≠ .noPort ∧ Sails lower map c g x) ∧ x.country = t := by
        rcases h with ⟨x,⟨hx,hland,hsails⟩,heq⟩ | ⟨x,⟨hx,hland,hsails⟩,heq⟩
        · exact ⟨x,hx,hland,⟨.portA,by decide,hsails⟩,heq⟩
        · exact ⟨x,hx,hland,⟨.portB,by decide,hsails⟩,heq⟩
      have hh := (sails_port_iff hx).mp hsails
      exact ⟨⟨x,⟨hx,hland,hh.1⟩,rfl⟩,hh.2⟩
    · rintro ⟨⟨x,⟨hx,hland,hsails⟩,rfl⟩,hone⟩
      rcases exists_ne_noPort.mp ((sails_port_iff hx).mpr ⟨hsails,hone⟩) with hA | hB
      · exact .inl ⟨x,⟨hx,hland,hA⟩,rfl⟩
      · exact .inr ⟨x,⟨hx,hland,hB⟩,rfl⟩
  refine ⟨a,aA,aB,hget,hgetA,hgetB,hunion,?_⟩
  simp only [hunion,iff_self_and]

end Ports

/-- A province with two coasts: the way to its neighbour is from one of them, the way to the
sea that both lie at from the other one. -/
def peninsula (portFrom : Port) : Country :=
  { Country.new (some (lit "Spain")) (some (lit "North")) (some (lit "South")) .coast true with
    links := ((∅ : MoveSet).add ⟨lit "por",.portA,.noPort⟩).add ⟨lit "mid",portFrom,.noPort⟩ }

def iberia (portFrom : Port) : Map :=
  (((∅ : Map).insert (lit "spa") (peninsula portFrom)).insert (lit "por")
    { Country.new (some (lit "Portugal")) none none .coast true with
      links := (∅ : MoveSet).add ⟨lit "mid",.noPort,.noPort⟩ }).insert (lit "mid")
    (Country.new (some (lit "Mid-Atlantic Ocean")) none none .sea false)

theorem iberia_resolves (portFrom : Port) :
    ∀ k, ∀ a ∈ linksOf (iberia portFrom) k, Resolves id (iberia portFrom) a := by
  rw [← badLinks_eq_nil]
  cases portFrom <;> decide

theorem fleet_moves_coasts_iberia : ∃ a aA aB,
    (peninsula .portA).getFleetMoves id (iberia .portA) .noPort = .ok a ∧
    (peninsula .portA).getFleetMoves id (iberia .portA) .portA = .ok aA ∧
    (peninsula .portA).getFleetMoves id (iberia .portA) .portB = .ok aB ∧
    ∀ t, t ∈ aA ∨ t ∈ aB ↔ t ∈ a ∧ OneCoast id (iberia .portA) (peninsula .portA) t := by
  obtain ⟨a,aA,aB,h,hA,hB,hunion,-⟩ := fleet_moves_coasts (c:=peninsula .portA) (k:=lit "spa")
    (iberia_resolves .portA) rfl
  exact ⟨a,aA,aB,h,hA,hB,hunion⟩

/-- The fleet goes from one coast, but shares a sea with its target at the other one. -/
theorem fleet_moves_mixed : ¬∀ (map : Map) (k : JString) (c : Country),
    (∀ k, ∀ a ∈ linksOf map k, Resolves id map a) → map[k]? = some c →
    ∃ a aA aB, c.getFleetMoves id map .noPort = .ok a ∧ c.getFleetMoves id map .portA = .ok aA ∧
      c.getFleetMoves id map .portB = .ok aB ∧ ∀ t, t ∈ a ↔ t ∈ aA ∨ t ∈ aB := by
  intro h
  obtain ⟨a,aA,aB,hget,hgetA,hgetB,hunion⟩ :=
    h (iberia .portB) (lit "spa") (peninsula .portB) (iberia_resolves .portB) rfl
  have hmoves : ∀ g, ((peninsula .portB).getFleetMoves id (iberia .portB) g).map
      (fun a => decide (lit "por" ∈ a)) = .ok (decide (g = .noPort)) := by
    intro g
    cases g <;> decide
  have hpor : lit "por" ∈ a := by simpa [hget,Except.map] using hmoves .noPort
  have hporA : lit "por" ∉ aA := by simpa [hgetA,Except.map] using hmoves .portA
  have hporB : lit "por" ∉ aB := by simpa [hgetB,Except.map] using hmoves .portB
  exact ((hunion _).mp hpor).elim hporA hporB

end Diplomacy
end MiscUniStuff
