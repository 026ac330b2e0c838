import MiscUniStuff.NeighbourEntries

/-! Loading a document in which some provinces have no valid type. The exception of such a
province is caught, but the handler has already made it the current one, and a neighbour
element in it is a link from a province that need not be on the map. -/
namespace MiscUniStuff
namespace Diplomacy
open Std

variable (lower : ToLowerCase)

/-! ### Documents with bad provinces -/

/-- A province element the type of which may be missing or not be one. -/
structure AnyProvince where
  short : JString
  name : Option JString
  type : Option JString
  supply : Option JString
  coastA : Option JString
  coastB : Option JString
  neighbours : List NeighbourElement

namespace AnyProvince

def element (p : AnyProvince) (type : JString) : ProvinceElement :=
  ⟨p.short,p.name,type,p.supply,p.coastA,p.coastB,p.neighbours⟩

/-- The element, if its type is valid. -/
def valid (p : AnyProvince) : Option ProvinceElement :=
  match LandType.parse lower p.type with
  | .ok _ => p.type.map p.element
  | .error _ => none

structure HasAttributes (p : AnyProvince) (attrs : Attributes) : Prop where
  short : getValue attrs "short" = some p.short
  name : getValue attrs "name" = p.name
  type : getValue attrs "type" = p.type
  supply : getValue attrs "supply" = p.supply
  coastA : getValue attrs "coastA" = p.coastA
  coastB : getValue attrs "coastB" = p.coastB

inductive Renders (p : AnyProvince) : List Event → Prop
  | mk {attrs : Attributes} (hattrs : p.HasAttributes attrs) {es : List Event}
      (h : Interleaved NeighbourElement.Renders p.neighbours es) :
      p.Renders (.startElement (lit "province") attrs :: es ++ [.endElement (lit "province")])

end AnyProvince

/-- The events of a document with these provinces. -/
inductive RendersAny (doc : List AnyProvince) : List Event → Prop
  | mk (attrs : Attributes) {es : List Event} (h : Interleaved AnyProvince.Renders doc es) :
      RendersAny doc (.startElement (lit "map") attrs :: es ++ [.endElement (lit "map")])

/-- The document without the bad provinces and their neighbour elements. -/
def clean (doc : List AnyProvince) : List ProvinceElement := doc.filterMap (·.valid lower)

/-- What a province element does to the map: a bad one leaves its links to the province of
its name. -/
def loadAny (map : Map) (p : AnyProvince) : Except Exn Map :=
  match p.valid lower with
  | some q => .ok (loadProvince lower map q)
  | none => addLinks lower p.short p.neighbours map

section Runs
variable {lower} {p : AnyProvince} {q : ProvinceElement} {h : Handler} {es : List Event}
  {doc : List AnyProvince}

theorem valid_eq_some (hp : p.valid lower = some q) :
    ∃ type t, p.type = some type ∧ q = p.element type ∧ q.landType lower = .ok t := by
  unfold AnyProvince.valid at hp
  cases ht : LandType.parse lower p.type with
  | error e => simp [ht] at hp
  | ok t =>
    rw [ht] at hp
    obtain ⟨type,htype,rfl⟩ := Option.map_eq_some_iff.mp hp
    rw [htype] at ht
    exact ⟨type,t,htype,rfl,ht⟩

theorem valid_eq_none (hp : p.valid lower = none) :
    ∃ e, LandType.parse lower p.type = .error e := by
  unfold AnyProvince.valid at hp
  cases ht : LandType.parse lower p.type with
  | error e => exact ⟨e,rfl⟩
  | ok t =>
    rw [ht] at hp
    rw [Option.map_eq_none_iff.mp hp] at ht
    cases ht

theorem renders_valid (hp : p.valid lower = some q) (hr : p.Renders es) : q.Renders es := by
  obtain ⟨type,t,htype,rfl,-⟩ := valid_eq_some hp
  obtain ⟨hattrs,hneighbours⟩ := hr
  exact .mk ⟨hattrs.short,hattrs.name,hattrs.type.trans htype,hattrs.supply,hattrs.coastA,
    hattrs.coastB⟩ hneighbours

/-- The neighbour elements between the tags of a province are links from it. -/
theorem parse_neighbours {short : JString} {l : List NeighbourElement}
    (hr : Interleaved NeighbourElement.Renders l es) (hcurrent : h.current ≠ none)
    (hcountry : h.currentcountry = some short) :
    Gives (fun h => h.current ≠ none ∧ h.currentcountry = some short) (parse lower h es)
      (addLinks lower short l h.map) := by
  refine parse_interleaved_map (fun h hI => hI.1) (fun h name hI => hI) ?_ hr ⟨hcurrent,hcountry⟩
  intro n _ es h hn hI
  rw [parse_neighbour_eq hn,hI.2]
  cases addLink lower h.map (some short) (some n.target) n.from' n.to' with
  | error e => exact ⟨rfl,fun _ h => nomatch h⟩
  | ok map =>
    refine ⟨rfl,fun h' hh => ?_⟩
    cases hh
    exact ⟨nofun,rfl⟩

/-- The exception of a bad province goes to the output, its name into the handler. -/
theorem startElement_bad {attrs : Attributes} (hp : p.valid lower = none)
    (hattrs : p.HasAttributes attrs) (h : Handler) : ∃ out,
    startElement lower (lit "province") attrs h =
      { h with current := some (lit "province"), currentcountry := some p.short, out := out } := by
  obtain ⟨e,he⟩ := valid_eq_none hp
  have hne : lit "province" ≠ lit "neighbour" := by decide
  refine ⟨h.out ++ [e.toString],?_⟩
  simp [startElement,hne,startProvince,addCountry,hattrs.short,hattrs.type,he,bind,Except.bind]

theorem parse_any (hr : p.Renders es) :
    Gives (fun h => h.current ≠ none) (parse lower h es) (loadAny lower h.map p) := by
  cases hp : p.valid lower with
  | some q =>
    obtain ⟨type,t,-,-,ht⟩ := valid_eq_some hp
    obtain ⟨h',hparse,hmap,hcurrent,-⟩ := parse_province (h:=h) ht (renders_valid hp hr)
    rw [hparse,loadAny,hp]
    exact ⟨congrArg Except.ok hmap,fun _ hh => Except.ok.inj hh ▸ hcurrent⟩
  | none =>
    obtain ⟨hattrs,hneighbours⟩ := hr
    have hne : lit "province" ≠ lit "neighbour" := by decide
    obtain ⟨out,hstart⟩ := startElement_bad hp hattrs h
    let h' : Handler :=
      { h with current := some (lit "province"), currentcountry := some p.short, out := out }
    have hlinks : Gives _ (parse lower h' _) _ := parse_neighbours hneighbours nofun rfl
    have hstep : Event.step lower h (.startElement (lit "province") _) = .ok _ :=
      congrArg Except.ok hstart
    rw [parse_close hne,parse_cons hstep,loadAny,hp]
    exact ⟨hlinks.map_eq,fun h' hh => (hlinks.keeps h' hh).1⟩

/-- The handler goes through the provinces one after the other, until it fails. -/
theorem parse_any_document {events : List Event} (hr : RendersAny doc events) :
    (parse lower Handler.new events).map Handler.map = doc.foldlM (loadAny lower) ∅ := by
  obtain ⟨attrs,hprovinces⟩ := hr
  rename_i es
  have hgives : Gives (fun h => h.current ≠ none)
      (parse lower { Handler.new with current := some (lit "map") } es)
      (doc.foldlM (loadAny lower) ∅) :=
    parse_interleaved_map (fun h hI => hI) (fun h name hI => hI)
      (fun p _ es h hpr _ => parse_any hpr) hprovinces (Option.some_ne_none _)
  rw [parse_map]
  exact hgives.map_eq

end Runs

/-! ### Which documents lose nothing by it -/

/-- The last of the provinces with this name. -/
def lastNamed (k : JString) (l : List ProvinceElement) : Option ProvinceElement :=
  l.reverse.find? fun q => lower q.short = k

/-- A bad province with neighbour elements stands behind a valid one of the same name. -/
def Known (doc : List AnyProvince) : Prop :=
  ∀ pre p post, doc = pre ++ p::post → p.valid lower = none → p.neighbours ≠ [] →
    ∃ q ∈ clean lower pre, lower q.short = lower p.short

/-- Behind the last valid province of the name, the bad ones have only neighbours of it. -/
def RepeatedAt (k : JString) (doc : List AnyProvince) : Prop :=
  ∀ pre p post, doc = pre ++ p::post → p.valid lower = none → lower p.short = k →
    (∀ q ∈ clean lower post, lower q.short ≠ k) →
    ∀ v, lastNamed lower k (clean lower pre) = some v →
      ∀ n ∈ p.neighbours, ∃ m ∈ v.neighbours, lower m.target = lower n.target

structure Harmless (doc : List AnyProvince) : Prop where
  known : Known lower doc
  repeated : ∀ k, RepeatedAt lower k doc

theorem forall_split_snoc {α : Type} {P : List α → α → List α → Prop} {l : List α} {a : α} :
    (∀ pre b post, l ++ [a] = pre ++ b::post → P pre b post) ↔
      (∀ pre b post, l = pre ++ b::post → P pre b (post ++ [a])) ∧ P l a [] := by
  constructor
  · intro h
    exact ⟨fun pre b post hl => h pre b (post ++ [a]) (by rw [hl]; simp),h l a [] rfl⟩
  · rintro ⟨h,hlast⟩ pre b post hl
    rcases List.eq_nil_or_concat post with rfl | ⟨post,a',rfl⟩
    · obtain ⟨rfl,heq⟩ := List.append_inj' hl rfl
      cases heq
      exact hlast
    · rw [List.concat_eq_append] at hl ⊢
      rw [← List.cons_append,← List.append_assoc] at hl
      obtain ⟨rfl,heq⟩ := List.append_inj' hl rfl
      cases heq
      exact h pre b post rfl

namespace MoveSet
variable {s : MoveSet} {a : Move} {k : JString}

theorem mem_foldl_add_iff {moves : List Move} :
    k ∈ moves.foldl add s ↔ k ∈ s ∨ ∃ a ∈ moves, a.country = k := by
  induction moves generalizing s with
  | nil => simp
  | cons a moves ih =>
    rw [List.foldl_cons,ih,add,ExtTreeMap.mem_insertIfNew]
    simp only [Std.compare_eq_iff_eq,List.mem_cons]
    grind

theorem add_eq_self (h : a.country ∈ s) : s.add a = s := by
  refine ExtTreeMap.ext_getElem? fun x => ?_
  rw [add,ExtTreeMap.getElem?_insertIfNew]
  simp [h]

/-- Adding moves changes nothing if there are moves to their countries already. -/
theorem foldl_add_eq_self_iff {moves : List Move} :
    moves.foldl add s = s ↔ ∀ a ∈ moves, a.country ∈ s := by
  constructor
  · intro h a ha
    rw [← h]
    exact mem_foldl_add_iff.mpr (.inr ⟨a,ha,rfl⟩)
  · intro h
    induction moves with
    | nil => rfl
    | cons a moves ih =>
      rw [List.foldl_cons,add_eq_self (h a List.mem_cons_self)]
      exact ih fun b hb => h b (List.mem_cons_of_mem a hb)

end MoveSet

def Country.addMoves (c : Country) (moves : List Move) : Country :=
  { c with links := moves.foldl MoveSet.add c.links }

theorem addMoves_eq_self_iff {c : Country} {moves : List Move} :
    c.addMoves moves = c ↔ ∀ a ∈ moves, a.country ∈ c.links := by
  rw [← MoveSet.foldl_add_eq_self_iff]
  constructor
  · exact fun h => congrArg Country.links h
  · intro h
    rw [Country.addMoves,h]

theorem addMoves_append (c : Country) (l l' : List Move) :
    (c.addMoves l).addMoves l' = c.addMoves (l ++ l') := by
  simp [Country.addMoves]

section Cleaning
variable {lower} {p : AnyProvince} {q v : ProvinceElement} {doc : List AnyProvince}
  {l : List ProvinceElement} {map map' : Map} {k : JString}

theorem clean_snoc (doc : List AnyProvince) (p : AnyProvince) :
    clean lower (doc ++ [p]) = clean lower doc ++ (p.valid lower).toList := by
  rw [clean,List.filterMap_append,clean]
  cases hp : p.valid lower <;> simp [hp]

theorem lastNamed_snoc (k : JString) (l : List ProvinceElement) (q : ProvinceElement) :
    lastNamed lower k (l ++ [q]) = if lower q.short = k then some q else lastNamed lower k l := by
  rw [lastNamed,List.reverse_append]
  split_ifs with h <;> simp [h,lastNamed]

/-- The last province of a name is the one on the map. -/
theorem getElem?_foldl_loadProvince (l : List ProvinceElement) (k : JString) :
    (l.foldl (loadProvince lower) ∅)[k]? = (lastNamed lower k l).map (·.country lower) := by
  induction l using List.reverseRecOn with
  | nil => simp [lastNamed]
  | append_singleton l q ih =>
    rw [loadProvince_snoc,loadProvince,ExtTreeMap.getElem?_insert,lastNamed_snoc,ih]
    simp only [Std.compare_eq_iff_eq]
    split_ifs <;> rfl

theorem mem_country_links : k ∈ (v.country lower).links ↔ ∃ m ∈ v.neighbours, lower m.target = k := by
  simp only [ProvinceElement.country,MoveSet.mem_foldl_add_iff,ExtTreeMap.not_mem_empty,false_or,
    List.mem_map,NeighbourElement.move]
  grind

/-- Links from a province that is not on the map are an exception. -/
theorem addLinks_unknown {from' : JString} (hc : map[lower from']? = none)
    (calls : List NeighbourElement) :
    (∃ map', addLinks lower from' calls map = .ok map') ↔ calls = [] := by
  cases calls with
  | nil => exact ⟨fun _ => rfl,fun _ => ⟨map,rfl⟩⟩
  | cons n calls =>
    have hfail : addLinks lower from' (n::calls) map = .error .nullPointer := by
      rw [addLinks,List.foldlM_cons,addLink,getCountry,hc]
      rfl
    simp [hfail]

theorem getElem?_addLinks {from' : JString} {calls : List NeighbourElement}
    (h : addLinks lower from' calls map = .ok map') (k : JString) : map'[k]? =
      if lower from' = k then map[k]?.map (·.addMoves (calls.map fun n => n.move lower))
      else map[k]? := by
  cases hc : map[lower from']? with
  | some c =>
    rw [addLinks_eq hc] at h
    cases h
    rw [ExtTreeMap.getElem?_insert]
    simp only [Std.compare_eq_iff_eq]
    split_ifs with hk
    · rw [← hk,hc]
      rfl
    · rfl
  | none =>
    obtain rfl := (addLinks_unknown hc calls).mp ⟨map',h⟩
    cases h
    split_ifs with hk
    · rw [← hk,hc]
      rfl
    · rfl

/-- The map of the document without its bad provinces. -/
def cleanMap (lower : ToLowerCase) (doc : List AnyProvince) : Map :=
  (clean lower doc).foldl (loadProvince lower) ∅

theorem getElem?_cleanMap (doc : List AnyProvince) (k : JString) :
    (cleanMap lower doc)[k]? = (lastNamed lower k (clean lower doc)).map (·.country lower) :=
  getElem?_foldl_loadProvince _ k

theorem lastNamed_eq_none : lastNamed lower k l = none ↔ ∀ q ∈ l, lower q.short ≠ k := by
  simp [lastNamed]

/-- A valid province of the name makes up for what came before it. -/
theorem repeatedAt_snoc_valid (hp : p.valid lower = some q) (hk : lower q.short = k) :
    RepeatedAt lower k (doc ++ [p]) := by
  rw [RepeatedAt,forall_split_snoc]
  constructor
  · intro pre b post hdoc hb hname hpost
    have hq : q ∈ clean lower (post ++ [p]) := by simp [clean_snoc,hp]
    exact absurd hk (hpost q hq)
  · intro hb
    simp [hp] at hb

/-- A province of another name makes no difference. -/
theorem repeatedAt_snoc_other (hk : lower p.short ≠ k) :
    RepeatedAt lower k (doc ++ [p]) ↔ RepeatedAt lower k doc := by
  have hclean : ∀ post, (∀ q ∈ clean lower (post ++ [p]), lower q.short ≠ k) ↔
      ∀ q ∈ clean lower post, lower q.short ≠ k := by
    intro post
    rw [clean_snoc,List.forall_mem_append]
    cases hp : p.valid lower with
    | none => simp
    | some q =>
      obtain ⟨type,t,-,rfl,-⟩ := valid_eq_some hp
      have hname : lower (p.element type).short ≠ k := hk
      simp [hname]
  rw [RepeatedAt,forall_split_snoc]
  simp only [hclean]
  constructor
  · exact fun h => h.1
  · exact fun h => ⟨h,fun _ hname => absurd hname hk⟩

theorem repeatedAt_snoc_bad (hp : p.valid lower = none) (hk : lower p.short = k) :
    RepeatedAt lower k (doc ++ [p]) ↔ RepeatedAt lower k doc ∧
      ∀ v, lastNamed lower k (clean lower doc) = some v →
        ∀ n ∈ p.neighbours, ∃ m ∈ v.neighbours, lower m.target = lower n.target := by
  have hclean : ∀ post, clean lower (post ++ [p]) = clean lower post := by
    intro post
    simp [clean_snoc,hp]
  rw [RepeatedAt,forall_split_snoc]
  simp only [hclean]
  apply and_congr_right'
  constructor
  · exact fun h => h hp hk (by simp [clean])
  · exact fun h _ _ _ => h

theorem known_snoc : Known lower (doc ++ [p]) ↔ Known lower doc ∧
    (p.valid lower = none → p.neighbours ≠ [] →
      ∃ q ∈ clean lower doc, lower q.short = lower p.short) := by
  rw [Known,forall_split_snoc]
  rfl

theorem foldlM_snoc : (doc ++ [p]).foldlM (loadAny lower) ∅ =
    doc.foldlM (loadAny lower) ∅ >>= fun map => loadAny lower map p := by
  rw [List.foldlM_append]
  congr 1
  funext map
  simp

theorem exists_of_bind_ok {m : Except Exn Map} {f : Map → Except Exn Map}
    (h : (m >>= f) = .ok map) : ∃ map₀, m = .ok map₀ ∧ f map₀ = .ok map := by
  cases m with
  | error e => cases h
  | ok map₀ => exact ⟨map₀,rfl,h⟩

/-- `extra` is what bad provinces have added to the links of `k`. It repeats what is there
exactly if they have repeated it. -/
structure Extra (lower : ToLowerCase) (doc : List AnyProvince) (map : Map) (k : JString)
    (extra : List Move) : Prop where
  map_eq : map[k]? = (lastNamed lower k (clean lower doc)).map fun v =>
    (v.country lower).addMoves extra
  repeats_iff : (∀ v, lastNamed lower k (clean lower doc) = some v →
    ∀ a ∈ extra, a.country ∈ (v.country lower).links) ↔ RepeatedAt lower k doc

theorem Extra.nil (k : JString) : Extra lower [] ∅ k [] := by
  constructor
  · simp [clean,lastNamed]
  · simp [RepeatedAt]

/-- A valid province takes the place of an earlier one of its name. -/
theorem Extra.snoc_valid {extra : List Move} (h : Extra lower doc map k extra)
    (hp : p.valid lower = some q) :
    ∃ extra', Extra lower (doc ++ [p]) (loadProvince lower map q) k extra' := by
  have hlast : lastNamed lower k (clean lower (doc ++ [p])) =
      if lower q.short = k then some q else lastNamed lower k (clean lower doc) := by
    rw [clean_snoc,hp]
    exact lastNamed_snoc k _ q
  have hload : (loadProvince lower map q)[k]? =
      if lower q.short = k then some (q.country lower) else map[k]? := by
    rw [loadProvince,ExtTreeMap.getElem?_insert]
    simp only [Std.compare_eq_iff_eq]
  by_cases hk : lower q.short = k
  · rw [if_pos hk] at hlast hload
    refine ⟨[],⟨?_,iff_of_true (by simp) (repeatedAt_snoc_valid hp hk)⟩⟩
    rw [hload,hlast]
    rfl
  · rw [if_neg hk] at hlast hload
    have hname : lower p.short ≠ k := by
      obtain ⟨type,t,-,rfl,-⟩ := valid_eq_some hp
      exact hk
    refine ⟨extra,⟨?_,?_⟩⟩
    · rw [hload,hlast,h.map_eq]
    · rw [hlast,h.repeats_iff,repeatedAt_snoc_other hname]

/-- A bad province adds its links to the ones of its name. -/
theorem Extra.snoc_bad {extra : List Move} (h : Extra lower doc map k extra)
    (hp : p.valid lower = none) (hlinks : addLinks lower p.short p.neighbours map = .ok map') :
    ∃ extra', Extra lower (doc ++ [p]) map' k extra' := by
  have hclean : clean lower (doc ++ [p]) = clean lower doc := by simp [clean_snoc,hp]
  have hget := getElem?_addLinks hlinks k
  by_cases hk : lower p.short = k
  · rw [if_pos hk] at hget
    refine ⟨extra ++ p.neighbours.map fun n => n.move lower,⟨?_,?_⟩⟩
    · rw [hget,h.map_eq,hclean]
      simp only [Option.map_map,Function.comp_def,addMoves_append]
    · rw [hclean,repeatedAt_snoc_bad hp hk,← h.repeats_iff,← forall₂_and]
      simp only [List.forall_mem_append,List.forall_mem_map,mem_country_links,
        NeighbourElement.move]
  · rw [if_neg hk] at hget
    refine ⟨extra,⟨?_,?_⟩⟩
    · rw [hget,hclean,h.map_eq]
    · rw [hclean,h.repeats_iff,repeatedAt_snoc_other hk]

/-- The map has what it should have, but for links that bad provinces have added. -/
theorem exists_extra (hmap : doc.foldlM (loadAny lower) ∅ = .ok map) (k : JString) :
    ∃ extra, Extra lower doc map k extra := by
  induction doc using List.reverseRecOn generalizing map with
  | nil =>
    cases hmap
    exact ⟨[],.nil k⟩
  | append_singleton doc p ih =>
    rw [foldlM_snoc] at hmap
    obtain ⟨map₀,hmap₀,hlast⟩ := exists_of_bind_ok hmap
    obtain ⟨extra,hextra⟩ := ih hmap₀
    cases hp : p.valid lower with
    | some q =>
      rw [loadAny,hp] at hlast
      cases hlast
      exact hextra.snoc_valid hp
    | none =>
      rw [loadAny,hp] at hlast
      exact hextra.snoc_bad hp hlast

/-- The names on the map are those of the valid provinces. -/
theorem known_name_iff (hmap : doc.foldlM (loadAny lower) ∅ = .ok map) (k : JString) :
    map[k]?.isSome ↔ ∃ q ∈ clean lower doc, lower q.short = k := by
  obtain ⟨extra,hextra⟩ := exists_extra hmap k
  rw [hextra.map_eq,Option.isSome_map,Option.isSome_iff_ne_none,ne_eq,lastNamed_eq_none]
  simp

/-- The document is read to its end if no link is from an unknown province. -/
theorem exists_map_iff : (∃ map, doc.foldlM (loadAny lower) ∅ = .ok map) ↔ Known lower doc := by
  induction doc using List.reverseRecOn with
  | nil => exact ⟨fun _ => by simp [Known],fun _ => ⟨∅,rfl⟩⟩
  | append_singleton doc p ih =>
    rw [foldlM_snoc,known_snoc,← ih]
    cases hmap : doc.foldlM (loadAny lower) ∅ with
    | error e => simp [bind,Except.bind]
    | ok map₀ =>
      have hname := known_name_iff hmap (lower p.short)
      have hload : ((.ok map₀ : Except Exn Map) >>= fun map => loadAny lower map p) =
          loadAny lower map₀ p := rfl
      rw [hload,loadAny,← hname]
      cases hp : p.valid lower with
      | some q => simp
      | none =>
        cases hc : map₀[lower p.short]? with
        | some c => simp [addLinks_eq hc]
        | none =>
          rw [addLinks_unknown hc]
          simp

/-- The bad provinces leave no trace exactly if they are harmless. -/
theorem foldlM_loadAny_iff :
    doc.foldlM (loadAny lower) ∅ = .ok (cleanMap lower doc) ↔ Harmless lower doc := by
  constructor
  · intro h
    refine ⟨exists_map_iff.mp ⟨_,h⟩,fun k => ?_⟩
    obtain ⟨extra,hextra⟩ := exists_extra h k
    rw [← hextra.repeats_iff]
    intro v hv
    have hmap := hextra.map_eq
    rw [getElem?_cleanMap,hv] at hmap
    exact addMoves_eq_self_iff.mp (Option.some.inj hmap).symm
  · intro h
    obtain ⟨map,hmap⟩ := exists_map_iff.mpr h.known
    rw [hmap]
    refine congrArg Except.ok (ExtTreeMap.ext_getElem? fun k => ?_)
    obtain ⟨extra,hextra⟩ := exists_extra hmap k
    rw [hextra.map_eq,getElem?_cleanMap]
    cases hv : lastNamed lower k (clean lower doc) with
    | none => rfl
    | some v =>
      have hrepeats := hextra.repeats_iff.mpr (h.repeated k) v hv
      exact congrArg some (addMoves_eq_self_iff.mpr hrepeats)

theorem clean_types (doc : List AnyProvince) :
    ∀ q ∈ clean lower doc, ∃ t, q.landType lower = .ok t := by
  intro q hq
  obtain ⟨p,-,hp⟩ := List.mem_filterMap.mp hq
  obtain ⟨type,t,-,-,ht⟩ := valid_eq_some hp
  exact ⟨t,ht⟩

/-- If the names are distinct, a bad province must have no neighbour elements at all. -/
theorem harmless_iff_of_nodup (hnodup : (doc.map fun p => lower p.short).Nodup) :
    Harmless lower doc ↔ ∀ p ∈ doc, p.valid lower = none → p.neighbours = [] := by
  constructor
  · intro h p hp hbad
    by_contra hne
    obtain ⟨pre,post,rfl⟩ := List.append_of_mem hp
    obtain ⟨q,hq,hname⟩ := h.known pre p post rfl hbad hne
    obtain ⟨p',hp',hvalid⟩ := List.mem_filterMap.mp hq
    obtain ⟨type,t,-,rfl,-⟩ := valid_eq_some hvalid
    rw [List.map_append,List.nodup_append] at hnodup
    exact hnodup.2.2 _ (List.mem_map_of_mem hp') _ (by simp) hname
  · intro h
    constructor
    · rintro pre p post rfl hbad hne
      exact absurd (h p (by simp) hbad) hne
    · rintro k pre p post rfl hbad - - v - n hn
      rw [h p (by simp) hbad] at hn
      cases hn

/-- A document with bad provinces is read to its end and gives the map of the document without
them exactly if they are harmless. -/
theorem bad_provinces_removed_iff {events events' : List Event} (hr : RendersAny doc events)
    (hr' : RendersDocument (clean lower doc) events') :
    ((∃ h h', parse lower Handler.new events = .ok h ∧ parse lower Handler.new events' = .ok h' ∧
      h.map = h'.map) ↔ Harmless lower doc) ∧
    ((doc.map fun p => lower p.short).Nodup →
      (Harmless lower doc ↔ ∀ p ∈ doc, p.valid lower = none → p.neighbours = [])) := by
  refine ⟨?_,harmless_iff_of_nodup⟩
  have hmap : (parse lower Handler.new events).map Handler.map = _ := parse_any_document hr
  obtain ⟨h',hparse',hclean,-⟩ := parse_document (clean_types doc) hr'
  rw [← foldlM_loadAny_iff,← hmap,hparse',cleanMap,← hclean]
  cases hparse : parse lower Handler.new events with
  | error e => simp [Except.map]
  | ok h => simp [Except.map]

end Cleaning

/-- Berlin without a type. -/
def untypedBerlin (neighbours : List NeighbourElement) : AnyProvince :=
  ⟨lit "Ber",some (lit "Berlin"),none,some (lit "yes"),none,none,neighbours⟩

def anyKiel : AnyProvince :=
  ⟨lit "kie",some (lit "Kiel"),some (lit "coast"),none,some (lit "East"),none,[toBerlin]⟩

def untypedEvents (es : List Event) : List Event :=
  .startElement (lit "province")
    [(lit "name",lit "Berlin"),(lit "short",lit "Ber"),(lit "supply",lit "yes")] :: es ++
    [.endElement (lit "province")]

theorem untypedBerlin_renders {neighbours : List NeighbourElement} {es : List Event}
    (h : Interleaved NeighbourElement.Renders neighbours es) :
    (untypedBerlin neighbours).Renders (untypedEvents es) :=
  .mk ⟨rfl,rfl,rfl,rfl,rfl,rfl⟩ h

theorem anyKiel_renders : anyKiel.Renders kielEvents := by
  have htoBerlin : toBerlin.Renders toBerlinEvents := .mk _ rfl rfl [lit "ber"] rfl
  exact .mk ⟨rfl,rfl,rfl,rfl,rfl,rfl⟩ (.cons [] htoBerlin (.nil []))

theorem renders_map {doc : List ProvinceElement} {es : List Event}
    (h : Interleaved ProvinceElement.Renders doc es) :
    RendersDocument doc (.startElement (lit "map") [] :: es ++ [.endElement (lit "map")]) :=
  .mk [] h

/-- Without its neighbours the untyped Berlin is passed over. -/
theorem bad_provinces_removed_berlin : ∃ h h',
    parse lowerAscii Handler.new (.startElement (lit "map") [] ::
      (untypedEvents [] ++ (kielEvents ++ [])) ++ [.endElement (lit "map")]) = .ok h ∧
    parse lowerAscii Handler.new (.startElement (lit "map") [] ::
      (kielEvents ++ []) ++ [.endElement (lit "map")]) = .ok h' ∧ h.map = h'.map := by
  have hclean : clean lowerAscii [untypedBerlin [],anyKiel] = [anyKiel.element (lit "coast")] := rfl
  have hberlin : (untypedBerlin []).Renders _ := untypedBerlin_renders (.nil [])
  have hdoc : RendersAny [untypedBerlin [],anyKiel] _ :=
    .mk [] (.cons [] hberlin (.cons [] anyKiel_renders (.nil [])))
  have hvalid : anyKiel.valid lowerAscii = some (anyKiel.element (lit "coast")) := rfl
  have hkiel := renders_valid hvalid anyKiel_renders
  have hremoved : RendersDocument (clean lowerAscii [untypedBerlin [],anyKiel]) _ :=
    hclean ▸ renders_map (.cons [] hkiel (.nil []))
  have hiff := bad_provinces_removed_iff hdoc hremoved
  refine hiff.1.mpr ((hiff.2 (by decide)).mpr ?_)
  intro p hp hbad
  rcases List.mem_pair.mp hp with rfl | rfl
  · rfl
  · cases hbad

/-- With a neighbour element in it, it ends the load. -/
theorem bad_province_stops : ¬∀ (doc : List AnyProvince) (events events' : List Event),
    (doc.map fun p => lowerAscii p.short).Nodup → RendersAny doc events →
    RendersDocument (clean lowerAscii doc) events' →
    ∃ h h', parse lowerAscii Handler.new events = .ok h ∧
      parse lowerAscii Handler.new events' = .ok h' ∧ h.map = h'.map := by
  intro h
  have htoKiel : toKiel.Renders toKielEvents := .mk _ rfl rfl [lit "K",lit "IE"] rfl
  have hberlin := untypedBerlin_renders (.cons [] htoKiel (.nil []))
  have hdoc : RendersAny [untypedBerlin [toKiel]] _ := .mk [] (.cons [] hberlin (.nil []))
  have hremoved : RendersDocument (clean lowerAscii [untypedBerlin [toKiel]]) _ :=
    renders_map (.nil [])
  obtain ⟨h₁,h₂,hparse,-,-⟩ := h _ _ _ (by decide) hdoc hremoved
  have hmap : (parse lowerAscii Handler.new _).map Handler.map = _ := parse_any_document hdoc
  rw [hparse] at hmap
  cases hmap

end Diplomacy
end MiscUniStuff
