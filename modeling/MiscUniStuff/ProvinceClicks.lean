import MiscUniStuff.FleetMoves
import MiscUniStuff.MapLoading

/-! The moves of an army, and what a click on a province shows. The check of the map that has
been loaded passes just when no such click runs into a missing province. -/
namespace MiscUniStuff
namespace Diplomacy
open Std

variable (lower : ToLowerCase) (map : Map)

/-- `getArmyMoves`. -/
def Country.getArmyMoves (c : Country) : Except Exn MoveSet :=
  -- there are no armies on the sea
  if c.type = .sea then .ok ∅
  else c.links.moves.foldlM (fun foo x =>
    match getCountry lower map x.country with
    | none => .error .nullPointer
    | some s => .ok (if s.type = .coast ∨ s.type = .land then foo.add x else foo)) ∅

/-- What `DipGui` shows: the label and the two lists. -/
structure Shown where
  info : Option JString
  armyMoves : List Move
  fleetMoves : List Move

/-- `mouseClicked` on the province of this name. The window as it is never gets as far: the cast
in `Map.getValues`, which its constructor calls, throws. -/
def mouseClicked (shortname : JString) : Except Exn Shown :=
  match getCountry lower map shortname with
  | none => .error .nullPointer
  | some n => do
    let armyMoves ← n.getArmyMoves lower map
    let fleetMoves ← n.getFleetMoves lower map .noPort
    return ⟨n.longname,armyMoves.moves,fleetMoves.moves⟩

/-! ### One click -/

/-- The move leads to land or to a coast. -/
def Ashore (x : Move) : Prop := ∃ s, getCountry lower map x.country = some s ∧ s.type ≠ .sea

section Loops
variable {α β ε : Type} {f : β → α → Except ε β} {l : List α}

theorem foldlM_isOk (h : ∀ a ∈ l, ∀ b, (f b a).isOk) (b : β) : (l.foldlM f b).isOk := by
  induction l generalizing b with
  | nil => rfl
  | cons a l ih =>
    have hone := h a List.mem_cons_self b
    rw [List.foldlM_cons]
    cases hf : f b a with
    | error e => simp [hf,Except.isOk,Except.toBool] at hone
    | ok b' => exact ih (fun a' ha' => h a' (List.mem_cons_of_mem a ha')) b'

theorem foldlM_error {a : α} (ha : a ∈ l) (h : ∀ b, ¬(f b a).isOk) (b : β) :
    ¬(l.foldlM f b).isOk := by
  induction l generalizing b with
  | nil => cases ha
  | cons a' l ih =>
    rw [List.foldlM_cons]
    cases hf : f b a' with
    | error e => simp [bind,Except.bind,Except.isOk,Except.toBool]
    | ok b' =>
      rcases List.mem_cons.mp ha with rfl | hmem
      · have hbad := h b
        simp [hf,Except.isOk,Except.toBool] at hbad
      · exact ih hmem b'

end Loops

section Clicks
variable {lower map} {c s : Country} {k name : JString} {x a : Move}

theorem ashore_iff (h : getCountry lower map x.country = some s) :
    Ashore lower map x ↔ s.type = .coast ∨ s.type = .land := by
  rw [Ashore,h]
  cases hs : s.type <;> simp [hs]

/-- The moves of an army are the links that lead ashore. -/
theorem mem_getArmyMoves (hres : ∀ a ∈ c.links.moves, Resolves lower map a) :
    ∃ moves, c.getArmyMoves lower map = .ok moves ∧
      ∀ x, x ∈ moves.moves ↔ x ∈ c.links.moves ∧ c.type ≠ .sea ∧ Ashore lower map x := by
  by_cases hsea : c.type = .sea
  · exact ⟨∅,by simp [Country.getArmyMoves,hsea],by simp [hsea]⟩
  · classical
    let p : Move → Bool := fun x => Ashore lower map x
    refine ⟨.collect p c.links.moves,?_,fun x => ?_⟩
    · rw [Country.getArmyMoves,if_neg hsea]
      apply MoveSet.foldlM_collect
      intro a ha foo
      obtain ⟨s,hs⟩ := Option.ne_none_iff_exists'.mp (hres a ha)
      simp only [hs,p,ashore_iff hs,decide_eq_true_eq]
    · rw [MoveSet.mem_collect (MoveSet.moves_nodup _)]
      simp [p,hsea]

/-- Without a port all links of a province are looked at, in one of the two queries. -/
theorem getMoves_bad (ha : a ∈ c.links.moves) (hbad : ¬Resolves lower map a) :
    ¬(c.getArmyMoves lower map).isOk ∨ ¬(c.getFleetMoves lower map .noPort).isOk := by
  have hnone : getCountry lower map a.country = none := by
    simpa [Resolves] using hbad
  by_cases hsea : c.type = .sea
  · right
    have hseas : ¬(c.getSeas lower map .noPort).isOk := by
      refine foldlM_error ha (fun foo => ?_) ∅
      have hany : Port.equals .noPort a.portFrom = true := rfl
      simp [hany,hnone,Except.isOk,Except.toBool]
    rw [Country.getFleetMoves,if_neg (by simp [hsea])]
    cases hget : c.getSeas lower map .noPort with
    | error e => simp [bind,Except.bind,Except.isOk,Except.toBool]
    | ok seas => simp [hget,Except.isOk,Except.toBool] at hseas
  · left
    rw [Country.getArmyMoves,if_neg hsea]
    exact foldlM_error ha (fun foo => by simp [hnone,Except.isOk,Except.toBool]) ∅

/-- A fleet looks at the links of its province and of those next to it. -/
theorem getFleetMoves_isOk (hres : ∀ a ∈ c.links.moves, Resolves lower map a)
    (hnext : ∀ a ∈ c.links.moves, ∀ s, getCountry lower map a.country = some s →
      ∀ b ∈ s.links.moves, Resolves lower map b) (g : Port) :
    (c.getFleetMoves lower map g).isOk := by
  by_cases hland : c.type = .land
  · rw [Country.getFleetMoves,if_pos hland]
    rfl
  · obtain ⟨myseas,hget,hmyseas⟩ := mem_seasBy hres Move.portFrom g
    rw [Country.getFleetMoves,if_neg hland,Country.getSeas,hget]
    refine foldlM_isOk (fun x hx moves => ?_) ∅
    have hlink := ((hmyseas x).mp hx).1
    obtain ⟨s,hs⟩ := Option.ne_none_iff_exists'.mp (hres x hlink)
    obtain ⟨seas,hgets,-⟩ := mem_seasBy (hnext x hlink s hs) Move.portTo g
    simp only [hs,Country.getSeasReverse,hgets,bind,Except.bind]
    rfl

theorem mouseClicked_isOk_iff (hc : getCountry lower map name = some c) :
    (mouseClicked lower map name).isOk ↔
      (c.getArmyMoves lower map).isOk ∧ (c.getFleetMoves lower map .noPort).isOk := by
  simp only [mouseClicked,hc]
  cases c.getArmyMoves lower map with
  | error e => simp [bind,Except.bind,Except.isOk,Except.toBool]
  | ok moves =>
    cases c.getFleetMoves lower map .noPort with
    | error e => simp [bind,Except.bind,Except.isOk,Except.toBool]
    | ok moves' => simp [bind,Except.bind,pure,Except.pure,Except.isOk,Except.toBool]

/-! ### All clicks -/

theorem linksOf_eq (hc : map[k]? = some c) : linksOf map k = c.links.moves := by
  rw [linksOf,hc]
  rfl

/-- What can be reached from a province of the map is on the map. -/
theorem exists_of_reach {k₀ : JString} (hk₀ : (map[k₀]?).isSome)
    (hpath : Relation.ReflTransGen (Step lower map) k₀ k) : ∃ c, map[k]? = some c := by
  cases hpath with
  | refl => exact Option.isSome_iff_exists.mp hk₀
  | tail _ hstep =>
    obtain ⟨a,-,hres,rfl⟩ := hstep
    exact Option.ne_none_iff_exists'.mp hres

/-- All that can be reached may be clicked if and only if no bad entry can be reached. -/
theorem clicks_isOk_iff (start : JString) (hstart : getCountry lower map start ≠ none) :
    (∀ name, Relation.ReflTransGen (Step lower map) (lower start) (lower name) →
      (mouseClicked lower map name).isOk) ↔ ¬BadBelow lower map (lower start) := by
  have hmem : (map[lower start]?).isSome := Option.isSome_iff_ne_none.mpr hstart
  constructor
  · rintro hall ⟨k,hpath,a,ha,hbad⟩
    obtain ⟨name,rfl⟩ : ∃ name, lower name = k := by
      cases hpath with
      | refl => exact ⟨start,rfl⟩
      | tail _ hstep =>
        obtain ⟨b,-,-,rfl⟩ := hstep
        exact ⟨b.country,rfl⟩
    obtain ⟨c,hc⟩ := exists_of_reach hmem hpath
    rw [linksOf_eq hc] at ha
    have hok := (mouseClicked_isOk_iff (show getCountry lower map name = some c from hc)).mp
      (hall name hpath)
    exact (getMoves_bad ha hbad).elim (fun h => h hok.1) fun h => h hok.2
  · intro hgood name hpath
    obtain ⟨c,hc⟩ := exists_of_reach hmem hpath
    have hres : ∀ k, Relation.ReflTransGen (Step lower map) (lower start) k →
        ∀ a ∈ linksOf map k, Resolves lower map a := by
      intro k hk a ha
      by_contra hbad
      exact hgood ⟨k,hk,a,ha,hbad⟩
    have hlinks : ∀ a ∈ c.links.moves, Resolves lower map a := by
      intro a ha
      exact hres _ hpath a (by rwa [linksOf_eq hc])
    obtain ⟨moves,harmy,-⟩ := mem_getArmyMoves hlinks
    refine (mouseClicked_isOk_iff (show getCountry lower map name = some c from hc)).mpr ⟨?_,?_⟩
    · rw [harmy]
      rfl
    · refine getFleetMoves_isOk hlinks (fun a ha s hs b hb => ?_) .noPort
      have hstep : Step lower map (lower name) (lower a.country) :=
        ⟨a,by rwa [linksOf_eq hc],hlinks a ha,rfl⟩
      have hs' : map[lower a.country]? = some s := hs
      exact hres _ (hpath.tail hstep) b (by rwa [linksOf_eq hs'])

end Clicks

/-- The check of a map that has been loaded comes to an end, and it returns if and only if no
click runs into a missing province, on whatever can be reached from Berlin. -/
theorem check_returns_iff_clicks (lower : ToLowerCase) (map : Map) (h : Loaded lower map) :
    ∃ depth e s', endDocument lower depth ⟨map,[]⟩ = some (e,s') ∧ (e = .ok () ↔
      ∀ name, Relation.ReflTransGen (Step lower s'.map) (lower (lit "ber")) (lower name) →
        (mouseClicked lower s'.map name).isOk) := by
  obtain ⟨depth,e,s',hr,hfol,hend⟩ := check_ber h
  have hber : getCountry lower s'.map (lit "ber") ≠ none := by
    rw [← Option.isSome_iff_ne_none,getCountry,hfol.isSome]
    exact Option.isSome_iff_ne_none.mpr h.ber
  have hbad : BadBelow lower s'.map (lower (lit "ber")) ↔ BadBelow lower map (lower (lit "ber")) :=
    hfol.badBelow_iff _
  have hclicks := clicks_isOk_iff (lit "ber") hber
  cases e with
  | ok u =>
    refine ⟨depth,.ok (),{ s' with out := s'.out ++ [lit "--Complete--"] },?_,?_⟩
    · rw [endDocument_eq,hr]
      rfl
    · rw [hclicks,hbad]
      exact iff_of_true rfl (hend.2.not_badBelow h.unmarked hend.1)
  | error e =>
    refine ⟨depth,.error e,s',?_,?_⟩
    · rw [endDocument_eq,hr]
      rfl
    · rw [hclicks,hbad]
      exact iff_of_false (by simp) fun hgood => hgood hend

theorem check_returns_iff_clicks_berlin :
    ∃ depth e s', endDocument id depth ⟨berlin ["ber","kie"],[]⟩ = some (e,s') ∧ (e = .ok () ↔
      ∀ name, Relation.ReflTransGen (Step id s'.map) (lit "ber") name →
        (mouseClicked id s'.map name).isOk) :=
  check_returns_iff_clicks id (berlin ["ber","kie"]) (berlin_loaded _)

/-! ### From the document to the lists -/

/-- The text of the element names that province; it is put in lower case twice. -/
def NeighbourElement.Names (n : NeighbourElement) (q : ProvinceElement) : Prop :=
  lower q.short = lower (lower n.target)

/-- Every neighbour is a province of the document. -/
def CompleteDocument (doc : List ProvinceElement) : Prop :=
  ∀ p ∈ doc, ∀ n ∈ p.neighbours, ∃ q ∈ doc, n.Names lower q

/-- An army may go from one province that is not sea to another one next to it. -/
def ArmyMove (doc : List ProvinceElement) (p : ProvinceElement) (x : Move) : Prop :=
  p.landType lower ≠ .ok .sea ∧ ∃ n ∈ p.neighbours, n.move lower = x ∧
    ∃ q ∈ doc, n.Names lower q ∧ q.landType lower ≠ .ok .sea

/-- A fleet may go to a sea, and to a coast if both name one place that is not land. -/
def FleetMove (doc : List ProvinceElement) (p : ProvinceElement) (x : Move) : Prop :=
  p.landType lower ≠ .ok .land ∧ ∃ n ∈ p.neighbours, n.move lower = x ∧
    ∃ q ∈ doc, n.Names lower q ∧ (q.landType lower = .ok .sea ∨ q.landType lower = .ok .coast ∧
      ∃ n₁ ∈ p.neighbours, ∃ n₂ ∈ q.neighbours, lower n₂.target = lower n₁.target ∧
        ∃ r ∈ doc, n₁.Names lower r ∧ r.landType lower ≠ .ok .land)

/-- The map has the provinces of the document, marked or not. -/
def HoldsDocument (doc : List ProvinceElement) (map : Map) : Prop :=
  ∀ k c, (map[k]?).map Country.unmarked = some c ↔
    ∃ p ∈ doc, lower p.short = k ∧ p.country lower = c

section Documents
variable {lower map} {doc : List ProvinceElement} {p q : ProvinceElement} {c s : Country}
  {n : NeighbourElement} {x : Move} {name : JString}

theorem HoldsDocument.getCountry (h : HoldsDocument lower doc map) (hp : p ∈ doc)
    (hname : lower name = lower p.short) :
    ∃ c, getCountry lower map name = some c ∧ c.unmarked = p.country lower := by
  have hget := (h (lower name) _).mpr ⟨p,hp,hname.symm,rfl⟩
  exact Option.map_eq_some_iff.mp hget

theorem HoldsDocument.exists_province (h : HoldsDocument lower doc map)
    (hc : Diplomacy.getCountry lower map name = some c) :
    ∃ p ∈ doc, lower p.short = lower name ∧ c.unmarked = p.country lower := by
  have hget : (map[lower name]?).map Country.unmarked = some c.unmarked := by
    rw [show map[lower name]? = some c from hc,Option.map_some]
  obtain ⟨p,hp,hshort,heq⟩ := (h _ _).mp hget
  exact ⟨p,hp,hshort,heq.symm⟩

/-- The type and the links of a province are those of its element. -/
theorem standsFor_unmarked (hdoc : ValidDocument lower doc) (hp : p ∈ doc)
    (hc : c.unmarked = p.country lower) : c.longname = p.name ∧ p.landType lower = .ok c.type ∧
      ∀ a, a ∈ c.links.moves ↔ ∃ n ∈ p.neighbours, n.move lower = a := by
  obtain ⟨t,ht⟩ := hdoc.types p hp
  have hstands := country_standsFor ht (hdoc.targets p hp)
  rw [← hc] at hstands
  exact ⟨hstands.longname,hstands.type,hstands.links⟩

/-- The links of a complete document resolve. -/
theorem resolves_document (hdoc : ValidDocument lower doc) (hcomplete : CompleteDocument lower doc)
    (h : HoldsDocument lower doc map) : ∀ k, ∀ a ∈ linksOf map k, Resolves lower map a := by
  intro k a ha
  cases hc : map[k]? with
  | none => simp [linksOf,hc] at ha
  | some c =>
    rw [linksOf_eq hc] at ha
    obtain ⟨p,hp,-,heq⟩ := (h k c.unmarked).mp (by rw [hc,Option.map_some])
    obtain ⟨n,hn,rfl⟩ := ((standsFor_unmarked hdoc hp heq.symm).2.2 a).mp ha
    obtain ⟨q,hq,hnames⟩ := hcomplete p hp n hn
    obtain ⟨s,hs,-⟩ := h.getCountry hq hnames.symm
    exact Option.ne_none_iff_exists'.mpr ⟨s,hs⟩

/-- A neighbour element leads to a province of another type than `t`. -/
theorem leads_iff (hdoc : ValidDocument lower doc) (h : HoldsDocument lower doc map)
    (t : LandType) :
    (∃ s, Diplomacy.getCountry lower map (n.move lower).country = some s ∧ s.type ≠ t) ↔
      ∃ q ∈ doc, n.Names lower q ∧ q.landType lower ≠ .ok t := by
  constructor
  · rintro ⟨s,hs,hne⟩
    obtain ⟨q,hq,hshort,heq⟩ := h.exists_province hs
    refine ⟨q,hq,hshort,?_⟩
    rw [(standsFor_unmarked hdoc hq heq).2.1]
    simpa using hne
  · rintro ⟨q,hq,hnames,hne⟩
    obtain ⟨s,hs,heq⟩ := h.getCountry hq hnames.symm
    rw [(standsFor_unmarked hdoc hq heq).2.1] at hne
    exact ⟨s,hs,by simpa using hne⟩

/-- The links of a province that lead ashore are the moves of an army in the document. -/
theorem armyMove_iff (hdoc : ValidDocument lower doc) (h : HoldsDocument lower doc map)
    (hp : p ∈ doc) (hc : c.unmarked = p.country lower) :
    x ∈ c.links.moves ∧ c.type ≠ .sea ∧ Ashore lower map x ↔ ArmyMove lower doc p x := by
  obtain ⟨-,htype,hlinks⟩ := standsFor_unmarked hdoc hp hc
  have hsea : c.type ≠ .sea ↔ p.landType lower ≠ .ok .sea := by
    rw [htype]
    simp
  rw [hlinks,hsea,ArmyMove]
  constructor
  · rintro ⟨⟨n,hn,rfl⟩,hp,hx⟩
    exact ⟨hp,n,hn,rfl,(leads_iff hdoc h .sea).mp hx⟩
  · rintro ⟨hp,n,hn,rfl,hx⟩
    exact ⟨⟨n,hn,rfl⟩,hp,(leads_iff hdoc h .sea).mpr hx⟩

theorem commonSea_iff (hdoc : ValidDocument lower doc) (h : HoldsDocument lower doc map)
    (hlinks : ∀ a, a ∈ c.links.moves ↔ ∃ n ∈ p.neighbours, n.move lower = a) (hq : q ∈ doc)
    (hs : s.unmarked = q.country lower) : CommonSea lower map c s .noPort ↔
      ∃ n₁ ∈ p.neighbours, ∃ n₂ ∈ q.neighbours, lower n₂.target = lower n₁.target ∧
        ∃ r ∈ doc, n₁.Names lower r ∧ r.landType lower ≠ .ok .land := by
  have hlinks' := (standsFor_unmarked hdoc hq hs).2.2
  constructor
  · rintro ⟨y,hy,-,hafloat,z,hz,-,heq⟩
    obtain ⟨n₁,hn₁,rfl⟩ := (hlinks y).mp hy
    obtain ⟨n₂,hn₂,rfl⟩ := (hlinks' z).mp hz
    exact ⟨n₁,hn₁,n₂,hn₂,heq,(leads_iff hdoc h .land).mp hafloat⟩
  · rintro ⟨n₁,hn₁,n₂,hn₂,heq,hafloat⟩
    exact ⟨n₁.move lower,(hlinks _).mpr ⟨n₁,hn₁,rfl⟩,rfl,(leads_iff hdoc h .land).mpr hafloat,
      n₂.move lower,(hlinks' _).mpr ⟨n₂,hn₂,rfl⟩,rfl,heq⟩

/-- The links that a fleet may follow without a port are those of the document. -/
theorem fleetMove_iff (hdoc : ValidDocument lower doc) (h : HoldsDocument lower doc map)
    (hp : p ∈ doc) (hc : c.unmarked = p.country lower) :
    x ∈ c.links.moves ∧ c.type ≠ .land ∧ Sails lower map c .noPort x ↔ FleetMove lower doc p x := by
  obtain ⟨-,htype,hlinks⟩ := standsFor_unmarked hdoc hp hc
  have hland : c.type ≠ .land ↔ p.landType lower ≠ .ok .land := by
    rw [htype]
    simp
  rw [hlinks,hland,FleetMove]
  constructor
  · rintro ⟨⟨n,hn,rfl⟩,hp,-,s,hs,hto⟩
    obtain ⟨q,hq,hshort,heq⟩ := h.exists_province hs
    have hqtype := (standsFor_unmarked hdoc hq heq).2.1
    refine ⟨hp,n,hn,rfl,q,hq,hshort,?_⟩
    rw [hqtype,Except.ok.injEq,Except.ok.injEq]
    exact hto.imp_right fun hcoast => ⟨hcoast.1,(commonSea_iff hdoc h hlinks hq heq).mp hcoast.2⟩
  · rintro ⟨hp,n,hn,rfl,q,hq,hnames,hto⟩
    obtain ⟨s,hs,heq⟩ := h.getCountry hq hnames.symm
    have hqtype := (standsFor_unmarked hdoc hq heq).2.1
    rw [hqtype,Except.ok.injEq,Except.ok.injEq] at hto
    exact ⟨⟨n,hn,rfl⟩,hp,rfl,s,hs,hto.imp_right fun hcoast =>
      ⟨hcoast.1,(commonSea_iff hdoc h hlinks hq heq).mpr hcoast.2⟩⟩

theorem holdsDocument_load (hdoc : ValidDocument lower doc) :
    HoldsDocument lower doc (doc.foldl (loadProvince lower) ∅) := by
  intro k c
  rw [Option.map_eq_some_iff]
  simp only [getElem?_loadProvince hdoc.shorts]
  constructor
  · rintro ⟨c',⟨p,hp,hshort,rfl⟩,rfl⟩
    exact ⟨p,hp,hshort,rfl⟩
  · rintro ⟨p,hp,hshort,rfl⟩
    exact ⟨p.country lower,⟨p,hp,hshort,rfl⟩,rfl⟩

theorem HoldsDocument.follows {s s' : Checker} (h : HoldsDocument lower doc s.map)
    (hfol : Follows s s') : HoldsDocument lower doc s'.map := by
  intro k c
  rw [hfol.same,h k c]

end Documents

/-- The lists are those of the document, in the order of the short names. -/
structure Shows (doc : List ProvinceElement) (p : ProvinceElement) (shown : Shown) : Prop where
  info : shown.info = p.name
  army : ∀ x, x ∈ shown.armyMoves ↔ ArmyMove lower doc p x
  fleet : ∀ x, x ∈ shown.fleetMoves ↔ FleetMove lower doc p x
  armySorted : shown.armyMoves.Pairwise fun x y => compare x.country y.country = .lt
  fleetSorted : shown.fleetMoves.Pairwise fun x y => compare x.country y.country = .lt

theorem moves_sorted (s : MoveSet) :
    s.moves.Pairwise fun x y => compare x.country y.country = .lt :=
  List.pairwise_map.mpr ExtTreeMap.ordered_keys_toList

/-- On the map that holds a complete document every click shows what the document says. -/
theorem HoldsDocument.mouseClicked {doc : List ProvinceElement} {p : ProvinceElement} {lower map}
    {name : JString} (h : HoldsDocument lower doc map) (hdoc : ValidDocument lower doc)
    (hcomplete : CompleteDocument lower doc) (hp : p ∈ doc) (hname : lower name = lower p.short) :
    ∃ shown, mouseClicked lower map name = .ok shown ∧ Shows lower doc p shown := by
  have hres := resolves_document hdoc hcomplete h
  obtain ⟨c,hget,hc⟩ := h.getCountry hp hname
  have hkey : map[lower name]? = some c := hget
  have hlinks : ∀ a ∈ c.links.moves, Resolves lower map a := by
    intro a ha
    exact hres (lower name) a (by rwa [linksOf_eq hkey])
  obtain ⟨army,harmy,hinarmy⟩ := mem_getArmyMoves hlinks
  obtain ⟨fleet,hfleet,hinfleet⟩ := mem_getFleetMoves hres hkey .noPort
  refine ⟨⟨c.longname,army.moves,fleet.moves⟩,?_,?_⟩
  · simp only [Diplomacy.mouseClicked,hget,harmy,hfleet]
    rfl
  · exact {
      info := (standsFor_unmarked hdoc hp hc).1
      army := fun x => (hinarmy x).trans (armyMove_iff hdoc h hp hc)
      fleet := fun x => (hinfleet x).trans (fleetMove_iff hdoc h hp hc)
      armySorted := moves_sorted army
      fleetSorted := moves_sorted fleet }

/-- A complete document with Berlin is loaded and checked without a line about a bad entry, and
after that a click on any of its provinces, by a name in any case, shows the moves that the
document allows. -/
theorem document_clicks (lower : ToLowerCase) (doc : List ProvinceElement)
    (hdoc : ValidDocument lower doc) (hcomplete : CompleteDocument lower doc) (events : List Event)
    (hevents : RendersDocument doc events) (p : ProvinceElement) (hp : p ∈ doc)
    (hber : lower p.short = lower (lit "ber")) :
    ∃ h depth s', parse lower Handler.new events = .ok h ∧
      endDocument lower depth ⟨h.map,h.out⟩ = some (.ok (),s') ∧ badEntries s'.out = 0 ∧
      ∀ q ∈ doc, ∀ name, lower name = lower q.short →
        ∃ shown, mouseClicked lower s'.map name = .ok shown ∧ Shows lower doc q shown := by
  obtain ⟨h,hparse,hmap,hout⟩ := parse_document hdoc.types hevents
  obtain ⟨h₁,hparse₁,hloaded⟩ := parse_loaded hdoc hevents hp hber
  obtain rfl : h = h₁ := Except.ok.inj (hparse.symm.trans hparse₁)
  have hholds : HoldsDocument lower doc h.map := hmap ▸ holdsDocument_load hdoc
  obtain ⟨depth,e,s',hr,hfol,hend⟩ := check_ber hloaded
  cases e with
  | error e =>
    obtain ⟨k,-,a,ha,hbad⟩ := hend
    exact absurd (resolves_document hdoc hcomplete hholds k a ha) hbad
  | ok u =>
    refine ⟨h,depth,{ s' with out := s'.out ++ [lit "--Complete--"] },hparse,?_,?_,?_⟩
    · rw [hout,endDocument_eq,hr]
      rfl
    · rw [badEntries_snoc (by decide)]
      exact hfol.quiet
    · intro q hq name hname
      exact (hholds.follows hfol).mouseClicked hdoc hcomplete hq hname

/-- In the first document Kiel names Berlin in another case, and Berlin names Kiel. -/
theorem baltic_complete : CompleteDocument lowerAscii baltic := by
  have hkiel : toKiel.Names lowerAscii baltic[1] := rfl
  have hberlin : toBerlin.Names lowerAscii baltic[0] := rfl
  simp only [CompleteDocument,baltic,List.forall_mem_cons]
  refine ⟨⟨⟨_,?_,hkiel⟩,by simp⟩,⟨⟨_,?_,hberlin⟩,by simp⟩,by simp⟩
  · simp [baltic]
  · simp [baltic]

theorem document_clicks_baltic : ∃ h depth s', parse lowerAscii Handler.new balticEvents = .ok h ∧
    endDocument lowerAscii depth ⟨h.map,h.out⟩ = some (.ok (),s') ∧ badEntries s'.out = 0 ∧
    ∃ shown, mouseClicked lowerAscii s'.map (lit "BER") = .ok shown ∧
      Shows lowerAscii baltic baltic[0] shown := by
  have hber : lowerAscii baltic[0].short = lowerAscii (lit "ber") := by decide
  obtain ⟨h,depth,s',hparse,hend,hquiet,hclicks⟩ := document_clicks lowerAscii baltic baltic_valid
    baltic_complete balticEvents baltic_renders baltic[0] (List.getElem_mem _) hber
  have hshown := hclicks baltic[0] (List.getElem_mem _) (lit "BER") (by decide)
  exact ⟨h,depth,s',hparse,hend,hquiet,hshown⟩

end Diplomacy
end MiscUniStuff
