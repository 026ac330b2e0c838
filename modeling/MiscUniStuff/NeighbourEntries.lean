import MiscUniStuff.FleetMoves
import MiscUniStuff.MapLoading

/-! What becomes of the links of one province. They are kept in a set that compares them by
their target alone, so of several links to one target the first one stays. -/
namespace MiscUniStuff
namespace Diplomacy
open Std

variable (lower : ToLowerCase)

/-- A sequence of calls of `Map.AddLink` from one province, each with the target and the ports
of a neighbour element. -/
def addLinks (from' : JString) (calls : List NeighbourElement) (map : Map) : Except Exn Map :=
  calls.foldlM (fun map n => addLink lower map (some from') (some n.target) n.from' n.to') map

namespace MoveSet

theorem getElem?_foldl_add (moves : List Move) (k : JString) :
    (moves.foldl add ∅)[k]? =
      (moves.find? fun b => b.country = k).map fun b => (b.portFrom,b.portTo) := by
  induction moves using List.reverseRecOn with
  | nil => simp
  | append_singleton moves a ih =>
    rw [List.foldl_append,List.foldl_cons,List.foldl_nil,add,ExtTreeMap.getElem?_insertIfNew,
      List.find?_append]
    simp only [Std.compare_eq_iff_eq]
    by_cases ha : a.country = k
    · subst k
      have hmem : a.country ∈ moves.foldl add ∅ ↔
          (moves.find? fun b => b.country = a.country).isSome := by
        rw [ExtTreeMap.mem_iff_isSome_getElem?,ih,Option.isSome_map]
      rw [ih]
      simp only [hmem]
      cases moves.find? fun b => b.country = a.country <;> simp
    · simp [ha,ih]

/-- Of the moves to one country the first one is in the set. -/
theorem mem_foldl_add {moves : List Move} {a : Move} :
    a ∈ (moves.foldl add ∅).moves ↔ (moves.find? fun b => b.country = a.country) = some a := by
  rw [mem_moves,getElem?_foldl_add,Option.map_eq_some_iff]
  constructor
  · rintro ⟨b,hb,hports⟩
    have hcountry : b.country = a.country := by simpa using List.find?_some hb
    have hba : b = a := by
      cases a
      cases b
      simp_all
    rw [hb,hba]
  · intro h
    exact ⟨a,h,rfl⟩

end MoveSet

section Entries
variable {lower} {map : Map} {c : Country} {from' : JString} {calls : List NeighbourElement}
  {k : JString} {x : Move} {links : MoveSet} {g : Port}

theorem insert_self (hc : map[k]? = some c) : map.insert k c = map := by
  refine ExtTreeMap.ext_getElem? fun x => ?_
  rw [ExtTreeMap.getElem?_insert]
  simp only [Std.compare_eq_iff_eq]
  split_ifs with h
  · rw [← h,hc]
  · rfl

/-- All the links are added to the province, whatever the map says of their targets. -/
theorem addLinks_eq (hc : map[lower from']? = some c) (calls : List NeighbourElement) :
    addLinks lower from' calls map = .ok (map.insert (lower from')
      { c with links := (calls.map fun n => n.move lower).foldl MoveSet.add c.links }) := by
  have hone : ∀ (calls : List NeighbourElement) (map : Map), (map[lower from']?).isSome →
      addLinks lower from' calls map = .ok ((calls.map fun n => n.move lower).foldl
        (fun map a => map.modify (lower from') fun c => c.addMove a) map) := by
    intro calls
    induction calls with
    | nil => exact fun map _ => rfl
    | cons n calls ih =>
      intro map hknown
      obtain ⟨c,hc⟩ := Option.isSome_iff_exists.mp hknown
      have hlink : addLink lower map (some from') (some n.target) n.from' n.to' =
          .ok (map.modify (lower from') fun c => c.addMove (n.move lower)) := by
        simp only [addLink,getCountry,hc]
        rfl
      have hrest := ih (map.modify (lower from') fun c => c.addMove (n.move lower))
        (by rwa [getElem?_modify_isSome])
      rw [addLinks,List.foldlM_cons,hlink]
      exact hrest
  rw [hone calls map (by rw [hc]; rfl)]
  conv_lhs => rw [← insert_self hc,foldl_modify]

/-- New links do not change what the map says of a province otherwise. -/
theorem getCountry_insert_links (hc : map[k]? = some c) (y : JString) :
    (getCountry lower (map.insert k { c with links := links }) y).map Country.type =
      (getCountry lower map y).map Country.type := by
  rw [getCountry,getCountry,ExtTreeMap.getElem?_insert]
  simp only [Std.compare_eq_iff_eq]
  split_ifs with h
  · rw [← h,hc]
    rfl
  · rfl

theorem afloat_iff_type :
    Afloat lower map x ↔ ∃ t, (getCountry lower map x.country).map Country.type = some t ∧
      t ≠ .land := by
  simp only [Afloat,Option.map_eq_some_iff]
  constructor
  · rintro ⟨s,hs,hland⟩
    exact ⟨s.type,⟨s,hs,rfl⟩,hland⟩
  · rintro ⟨t,⟨s,hs,rfl⟩,hland⟩
    exact ⟨s,hs,hland⟩

theorem afloat_insert_links (hc : map[k]? = some c) :
    Afloat lower (map.insert k { c with links := links }) x ↔ Afloat lower map x := by
  rw [afloat_iff_type,afloat_iff_type,getCountry_insert_links hc]

theorem resolves_insert_links (hc : map[k]? = some c) (hx : Resolves lower map x) :
    Resolves lower (map.insert k { c with links := links }) x := by
  intro hnone
  have htype : none = (getCountry lower map x.country).map Country.type := by
    rw [← getCountry_insert_links hc,hnone]
    rfl
  exact hx (Option.map_eq_none_iff.mp htype.symm)

/-- Some call adds a link to this place on the water, from a port that goes with `g`. -/
def Linked (lower : ToLowerCase) (map : Map) (calls : List NeighbourElement) (g : Port)
    (y : JString) : Prop :=
  ∃ n ∈ calls, (n.move lower).country = y ∧ Afloat lower map (n.move lower) ∧
    g.equals (n.move lower).portFrom

/-- The first call with this target. -/
def firstTo (lower : ToLowerCase) (calls : List NeighbourElement) (y : JString) :
    Option NeighbourElement :=
  calls.find? fun n => (n.move lower).country = y

/-- If a call adds a link to the water from a port that goes with `g`, so does the first call
with its target. -/
def FirstServes (lower : ToLowerCase) (map : Map) (calls : List NeighbourElement) (g : Port) :
    Prop :=
  ∀ n ∈ calls, Afloat lower map (n.move lower) → g.equals (n.move lower).portFrom →
    ∀ first, firstTo lower calls (n.move lower).country = some first →
      g.equals (first.move lower).portFrom

theorem country_of_firstTo {n : NeighbourElement} {y : JString}
    (h : firstTo lower calls y = some n) : (n.move lower).country = y := by
  simpa using List.find?_some h

/-- The seas of a province are those to which the first of its links goes with the port. -/
theorem mem_seas_addLinks (hc : map[lower from']? = some c) (hempty : c.links = ∅)
    (hres : ∀ n ∈ calls, Resolves lower map (n.move lower)) (g : Port) :
    ∃ map' c' seas, addLinks lower from' calls map = .ok map' ∧
      getCountry lower map' from' = some c' ∧ c'.getSeas lower map' g = .ok seas ∧
      ∀ y, y ∈ seas ↔ ∃ n, firstTo lower calls y = some n ∧ Afloat lower map (n.move lower) ∧
        g.equals (n.move lower).portFrom := by
  let moves := calls.map fun n => n.move lower
  let c' : Country := { c with links := moves.foldl MoveSet.add ∅ }
  let map' := map.insert (lower from') c'
  have hadd : addLinks lower from' calls map = .ok map' := by
    rw [addLinks_eq hc,hempty]
  have hget : getCountry lower map' from' = some c' := ExtTreeMap.getElem?_insert_self
  have hmem : ∀ a, a ∈ c'.links.moves ↔
      (moves.find? fun b => b.country = a.country) = some a := fun a => MoveSet.mem_foldl_add
  have hresolves : ∀ a ∈ c'.links.moves, Resolves lower map' a := by
    intro a ha
    obtain ⟨n,hn,rfl⟩ := List.mem_map.mp (List.mem_of_find?_eq_some ((hmem a).mp ha))
    exact resolves_insert_links hc (hres n hn)
  obtain ⟨seas,hseas,hmoves⟩ := mem_seasBy hresolves Move.portFrom g
  refine ⟨map',c',seas,hadd,hget,hseas,fun y => ?_⟩
  have hfirst : (moves.find? fun b => b.country = y) =
      (firstTo lower calls y).map fun n => n.move lower := by
    rw [List.find?_map]
    rfl
  rw [MoveSet.mem_iff_moves]
  constructor
  · rintro ⟨a,ha,rfl⟩
    obtain ⟨hlink,hfrom,hafloat⟩ := (hmoves a).mp ha
    rw [hmem,hfirst] at hlink
    obtain ⟨n,hn,rfl⟩ := Option.map_eq_some_iff.mp hlink
    exact ⟨n,hn,(afloat_insert_links hc).mp hafloat,hfrom⟩
  · rintro ⟨n,hn,hafloat,hfrom⟩
    have hcountry := country_of_firstTo hn
    refine ⟨n.move lower,(hmoves _).mpr ⟨?_,hfrom,(afloat_insert_links hc).mpr hafloat⟩,hcountry⟩
    rw [hmem,hcountry,hfirst,hn]
    rfl

/-- No neighbour entry is lost for a port exactly if the first entry for each target serves. -/
theorem neighbour_entries_kept_iff (hc : map[lower from']? = some c) (hempty : c.links = ∅)
    (hres : ∀ n ∈ calls, Resolves lower map (n.move lower)) (g : Port) :
    ∃ map' c' seas, addLinks lower from' calls map = .ok map' ∧
      getCountry lower map' from' = some c' ∧ c'.getSeas lower map' g = .ok seas ∧
      ((∀ y, y ∈ seas ↔ Linked lower map calls g y) ↔ FirstServes lower map calls g) := by
  obtain ⟨map',c',seas,hadd,hget,hseas,hmem⟩ := mem_seas_addLinks hc hempty hres g
  refine ⟨map',c',seas,hadd,hget,hseas,?_⟩
  constructor
  · intro h n hn hafloat hfrom first hfirst
    obtain ⟨n',hn',-,hfrom'⟩ := (hmem _).mp ((h _).mpr ⟨n,hn,rfl,hafloat,hfrom⟩)
    obtain rfl : first = n' := Option.some.inj (hfirst.symm.trans hn')
    exact hfrom'
  · intro h y
    rw [hmem]
    constructor
    · rintro ⟨n,hn,hafloat,hfrom⟩
      exact ⟨n,List.mem_of_find?_eq_some hn,country_of_firstTo hn,hafloat,hfrom⟩
    · rintro ⟨n,hn,rfl,hafloat,hfrom⟩
      obtain ⟨first,hfirst⟩ : ∃ first, firstTo lower calls (n.move lower).country = some first :=
        Option.isSome_iff_exists.mp (List.find?_isSome.mpr ⟨n,hn,by simp⟩)
      have hafloat' := (afloat_congr (country_of_firstTo hfirst)).mpr hafloat
      exact ⟨first,hfirst,hafloat',h n hn hafloat hfrom first hfirst⟩

end Entries

/-- Spain before it has links, and the ocean at both of its coasts. -/
def spanish : Map :=
  ((∅ : Map).insert (lit "spa") (Country.new (some (lit "Spain")) none none .coast true)).insert
    (lit "mid") (Country.new (some (lit "Mid-atlantic ocean")) none none .sea false)

theorem spanish_spa : spanish[id (lit "spa")]? =
    some (Country.new (some (lit "Spain")) none none .coast true) :=
  rfl

def toOcean (port : String) : NeighbourElement := ⟨lit "mid",some (lit port),none⟩

theorem spanish_resolves (ports : List String) :
    ∀ n ∈ ports.map toOcean, Resolves id spanish (n.move id) := by
  intro n hn
  obtain ⟨port,-,rfl⟩ := List.mem_map.mp hn
  exact Option.some_ne_none _

/-- Of two entries for the ocean, one from each coast, the first serves its own coast only. -/
theorem neighbour_entries_kept_coasts :
    (∃ map' c' seas, addLinks id (lit "spa") [toOcean "a",toOcean "b"] spanish = .ok map' ∧
      getCountry id map' (lit "spa") = some c' ∧ c'.getSeas id map' .portA = .ok seas ∧
      ∀ y, y ∈ seas ↔ Linked id spanish [toOcean "a",toOcean "b"] .portA y) ∧
    ∃ map' c' seas, addLinks id (lit "spa") [toOcean "a",toOcean "b"] spanish = .ok map' ∧
      getCountry id map' (lit "spa") = some c' ∧ c'.getSeas id map' .portB = .ok seas ∧
      ¬∀ y, y ∈ seas ↔ Linked id spanish [toOcean "a",toOcean "b"] .portB y := by
  have hres := spanish_resolves ["a","b"]
  have hfirst (n : NeighbourElement) (hn : n ∈ [toOcean "a",toOcean "b"]) :
      firstTo id [toOcean "a",toOcean "b"] (n.move id).country = some (toOcean "a") := by
    simp only [List.mem_cons,List.not_mem_nil,or_false] at hn
    rcases hn with rfl | rfl
    · rfl
    · rfl
  constructor
  · obtain ⟨map',c',seas,hadd,hget,hseas,hiff⟩ :=
      neighbour_entries_kept_iff spanish_spa rfl hres .portA
    refine ⟨map',c',seas,hadd,hget,hseas,hiff.mpr fun n hn _ _ first hn' => ?_⟩
    obtain rfl := Option.some.inj ((hfirst n hn).symm.trans hn')
    decide
  · obtain ⟨map',c',seas,hadd,hget,hseas,hiff⟩ :=
      neighbour_entries_kept_iff spanish_spa rfl hres .portB
    refine ⟨map',c',seas,hadd,hget,hseas,fun hkept => ?_⟩
    have hserves := hiff.mp hkept (toOcean "b") (by simp) ⟨_,rfl,by decide⟩ rfl (toOcean "a") rfl
    exact absurd hserves (by decide)

/-- With a link from each coast, that from the second one is lost. -/
theorem neighbour_entry_lost : ¬∀ (map : Map) (from' : JString) (c : Country)
    (calls : List NeighbourElement) (g : Port) (map' : Map) (c' : Country) (seas : MoveSet),
    map[from']? = some c → c.links = ∅ → (∀ n ∈ calls, Resolves id map (n.move id)) →
    addLinks id from' calls map = .ok map' → getCountry id map' from' = some c' →
    c'.getSeas id map' g = .ok seas → ∀ y, y ∈ seas ↔ Linked id map calls g y := by
  intro h
  have hres := spanish_resolves ["a","b"]
  obtain ⟨map',c',seas,hadd,hget,hseas,hmem⟩ := mem_seas_addLinks spanish_spa rfl hres .portB
  have hlinked : Linked id spanish [toOcean "a",toOcean "b"] .portB (lit "mid") :=
    ⟨toOcean "b",by simp,rfl,⟨_,rfl,by decide⟩,rfl⟩
  have hin := (h spanish (lit "spa") _ _ .portB map' c' seas rfl rfl hres hadd hget hseas
    (lit "mid")).mpr hlinked
  obtain ⟨n,hn,-,hfrom⟩ := (hmem _).mp hin
  have hfirst : firstTo id [toOcean "a",toOcean "b"] (lit "mid") = some (toOcean "a") := rfl
  obtain rfl := Option.some.inj (hfirst.symm.trans hn)
  exact absurd hfrom (by decide)

end Diplomacy
end MiscUniStuff
