import MiscUniStuff.ConsistencyCheck

/-! Loading the map: the handler of `Diplomacy.java` between the events of a SAX parser and
the provinces of a document. -/
namespace MiscUniStuff
namespace Diplomacy
open Std

abbrev Attributes := List (JString × JString)

/-- `attrs.getValue`. -/
def getValue (attrs : Attributes) (qName : String) : Option JString := attrs.lookup (lit qName)

inductive Event
  | startElement (qName : JString) (attrs : Attributes)
  | characters (text : JString)
  | endElement (qName : JString)

/-- The fields of `Diplomacy`, which are `null` at first, with the map and the lines that
have been printed. -/
structure Handler where
  current : Option JString
  neighbourname : Option JString
  neighbourfrom : Option JString
  neighbourto : Option JString
  currentcountry : Option JString
  map : Map
  out : List JString

def Handler.new : Handler := ⟨none,none,none,none,none,∅,[]⟩

variable (lower : ToLowerCase)

/-- `startElement` for a province. Any exception is caught and printed. -/
def startProvince (attrs : Attributes) (h : Handler) : Handler :=
  let foo := decide (getValue attrs "supply" = some (lit "yes"))
  let pa := getValue attrs "coastA"
  let pb := getValue attrs "coastB"
  let currentcountry := getValue attrs "short"
  match addCountry lower h.map currentcountry pa pb (getValue attrs "name")
      (getValue attrs "type") foo with
  | .ok map => { h with currentcountry := currentcountry, map := map }
  | .error e => { h with currentcountry := currentcountry, out := h.out ++ [e.toString] }

/-- `startElement`. -/
def startElement (qName : JString) (attrs : Attributes) (h : Handler) : Handler :=
  let h := if qName = lit "province" then startProvince lower attrs h else h
  let h := if qName = lit "neighbour" then
    { h with
      neighbourname := some []
      neighbourfrom := getValue attrs "from"
      neighbourto := getValue attrs "to" } else h
  { h with current := some qName }

/-- `characters`. -/
def characters (text : JString) (h : Handler) : Except Exn Handler :=
  match h.current with
  | none => .error .nullPointer
  | some current =>
    .ok (if current = lit "neighbour" then
      { h with neighbourname := some (orNull h.neighbourname ++ text) } else h)

/-- `endElement`. -/
def endElement (qName : JString) (h : Handler) : Except Exn Handler :=
  if qName = lit "neighbour" then
    (addLink lower h.map h.currentcountry h.neighbourname h.neighbourfrom h.neighbourto).map
      fun map => { h with map := map }
  else .ok h

def Event.step (h : Handler) : Event → Except Exn Handler
  | startElement qName attrs => .ok (Diplomacy.startElement lower qName attrs h)
  | characters text => Diplomacy.characters text h
  | endElement qName => Diplomacy.endElement lower qName h

/-- The handler after the events of a parser; an exception ends it. -/
def parse (h : Handler) (events : List Event) : Except Exn Handler :=
  events.foldlM (Event.step lower) h

/-! ### Documents and their events -/

structure NeighbourElement where
  target : JString
  from' : Option JString
  to' : Option JString

structure ProvinceElement where
  short : JString
  name : Option JString
  type : JString
  supply : Option JString
  coastA : Option JString
  coastB : Option JString
  neighbours : List NeighbourElement

/-- Character data between two tags, in any number of pieces. -/
def gap (pieces : List JString) : List Event := pieces.map .characters

/-- The events of a sequence of elements, with character data around them. -/
inductive Interleaved {α : Type} (renders : α → List Event → Prop) : List α → List Event → Prop
  | nil (pieces : List JString) : Interleaved renders [] (gap pieces)
  | cons (pieces : List JString) {a : α} {es : List Event} (h : renders a es) {l : List α}
      {rest : List Event} (hrest : Interleaved renders l rest) :
      Interleaved renders (a::l) (gap pieces ++ es ++ rest)

/-- The events of a neighbour element, the text of which may come in several pieces. -/
inductive NeighbourElement.Renders (n : NeighbourElement) : List Event → Prop
  | mk (attrs : Attributes) (hfrom : getValue attrs "from" = n.from')
      (hto : getValue attrs "to" = n.to') (pieces : List JString) (h : pieces.flatten = n.target) :
      n.Renders (.startElement (lit "neighbour") attrs :: gap pieces ++
        [.endElement (lit "neighbour")])

/-- The attributes are those of the province; there may be others. -/
structure ProvinceElement.HasAttributes (p : ProvinceElement) (attrs : Attributes) : Prop where
  short : getValue attrs "short" = some p.short
  name : getValue attrs "name" = p.name
  type : getValue attrs "type" = some p.type
  supply : getValue attrs "supply" = p.supply
  coastA : getValue attrs "coastA" = p.coastA
  coastB : getValue attrs "coastB" = p.coastB

inductive ProvinceElement.Renders (p : ProvinceElement) : List Event → Prop
  | mk {attrs : Attributes} (hattrs : p.HasAttributes attrs) {es : List Event}
      (h : Interleaved NeighbourElement.Renders p.neighbours es) :
      p.Renders (.startElement (lit "province") attrs :: es ++ [.endElement (lit "province")])

/-- The events of a document with these provinces. -/
inductive RendersDocument (doc : List ProvinceElement) : List Event → Prop
  | mk (attrs : Attributes) {es : List Event} (h : Interleaved ProvinceElement.Renders doc es) :
      RendersDocument doc (.startElement (lit "map") attrs :: es ++ [.endElement (lit "map")])

/-! ### What the elements stand for -/

/-- The link that a neighbour element stands for. -/
def NeighbourElement.move (n : NeighbourElement) : Move :=
  ⟨lower n.target,Port.new lower n.from',Port.new lower n.to'⟩

/-- The type that a province element stands for, if it has a valid one. -/
def ProvinceElement.landType (p : ProvinceElement) : Except Exn LandType :=
  LandType.parse lower (some p.type)

/-- Short names, and the targets of each province, are distinct in lower case, and the types
are valid. -/
structure ValidDocument (doc : List ProvinceElement) : Prop where
  shorts : (doc.map fun p => lower p.short).Nodup
  types : ∀ p ∈ doc, ∃ t, p.landType lower = .ok t
  targets : ∀ p ∈ doc, (p.neighbours.map fun n => lower n.target).Nodup

/-- The province of the map that an element stands for. -/
structure StandsFor (p : ProvinceElement) (c : Country) : Prop where
  longname : c.longname = p.name
  porta : c.porta = p.coastA
  portb : c.portb = p.coastB
  type : p.landType lower = .ok c.type
  supply : c.supply = decide (p.supply = some (lit "yes"))
  links : ∀ a, a ∈ c.links.moves ↔ ∃ n ∈ p.neighbours, n.move lower = a
  checked : c.checked = false

/-- That province as the handler builds it. -/
def ProvinceElement.country (p : ProvinceElement) : Country where
  longname := p.name
  porta := p.coastA
  portb := p.coastB
  type := match p.landType lower with
    | .ok t => t
    | .error _ => .land
  supply := decide (p.supply = some (lit "yes"))
  links := (p.neighbours.map fun n => n.move lower).foldl MoveSet.add ∅
  checked := false

def loadProvince (map : Map) (p : ProvinceElement) : Map :=
  map.insert (lower p.short) (p.country lower)

/-! ### The handler on the events of an element -/

section Runs
variable {lower} {h h' : Handler} {es es' : List Event} {map : Map} {k : JString} {c : Country}

theorem parse_append_bind (lower : ToLowerCase) (h : Handler) (es es' : List Event) :
    parse lower h (es ++ es') = parse lower h es >>= fun h' => parse lower h' es' :=
  List.foldlM_append

theorem parse_append (hh : parse lower h es = .ok h') :
    parse lower h (es ++ es') = parse lower h' es' := by
  rw [parse_append_bind,hh]
  rfl

theorem parse_cons {e : Event} (hh : Event.step lower h e = .ok h') :
    parse lower h (e::es) = parse lower h' es := by
  rw [parse,List.foldlM_cons,hh]
  rfl

/-- Only the end of a neighbour does anything. -/
theorem parse_endElement {qName : JString} (hne : qName ≠ lit "neighbour") :
    parse lower h [.endElement qName] = .ok h := by
  have hstep : Event.step lower h (.endElement qName) = .ok h := if_neg hne
  exact parse_cons hstep

/-- The end tag of a province or of the map changes nothing. -/
theorem parse_close {qName : JString} (hne : qName ≠ lit "neighbour") (h : Handler)
    (es : List Event) : parse lower h (es ++ [.endElement qName]) = parse lower h es := by
  have hend : (fun h' => parse lower h' [.endElement qName]) = pure := by
    funext h'
    exact parse_endElement hne
  rw [parse_append_bind,hend,bind_pure]

/-- The tags of the map only say where the parser is. -/
theorem parse_map (lower : ToLowerCase) (attrs : Attributes) (es : List Event) :
    parse lower Handler.new (.startElement (lit "map") attrs :: es ++ [.endElement (lit "map")]) =
      parse lower { Handler.new with current := some (lit "map") } es := by
  have hne : lit "map" ≠ lit "province" := by decide
  have hne' : lit "map" ≠ lit "neighbour" := by decide
  have hstart : Event.step lower Handler.new (.startElement (lit "map") attrs) = .ok
      { Handler.new with current := some (lit "map") } := by
    simp [Event.step,startElement,hne,hne']
  rw [parse_close hne',parse_cons hstart]

/-- Character data between elements goes nowhere, or to a text that is not used. -/
theorem parse_gap (lower : ToLowerCase) (hcurrent : h.current ≠ none) (pieces : List JString) :
    ∃ name, parse lower h (gap pieces) = .ok { h with neighbourname := name } := by
  obtain ⟨current,hc⟩ := Option.ne_none_iff_exists'.mp hcurrent
  induction pieces generalizing h with
  | nil => exact ⟨h.neighbourname,rfl⟩
  | cons piece pieces ih =>
    by_cases hn : current = lit "neighbour"
    · have hstep : Event.step lower h (.characters piece) =
          .ok { h with neighbourname := some (orNull h.neighbourname ++ piece) } := by
        simp [Event.step,characters,hc,hn]
      obtain ⟨name,hname⟩ := ih
        (h:={ h with neighbourname := some (orNull h.neighbourname ++ piece) }) hcurrent hc
      exact ⟨name,(parse_cons hstep).trans hname⟩
    · have hstep : Event.step lower h (.characters piece) = .ok h := by
        simp [Event.step,characters,hc,hn]
      obtain ⟨name,hname⟩ := ih hcurrent hc
      exact ⟨name,(parse_cons hstep).trans hname⟩

/-- The pieces of a text are put together again. -/
theorem parse_text (lower : ToLowerCase) (text : JString) (hc : h.current = some (lit "neighbour"))
    (hn : h.neighbourname = some text) (pieces : List JString) :
    parse lower h (gap pieces) = .ok { h with neighbourname := some (text ++ pieces.flatten) } := by
  induction pieces generalizing h text with
  | nil =>
    have hsame : { h with neighbourname := some (text ++ [].flatten) } = h := by
      simp [← hn]
    rw [hsame]
    rfl
  | cons piece pieces ih =>
    have hstep : Event.step lower h (.characters piece) =
        .ok { h with neighbourname := some (text ++ piece) } := by
      simp [Event.step,characters,hc,hn,orNull]
    have hrest := ih (h:={ h with neighbourname := some (text ++ piece) }) (text ++ piece) hc rfl
    rw [gap,List.map_cons,parse_cons hstep]
    simpa [gap] using hrest

/-- A part of the parse makes `m` of the map, or fails with it, and keeps `I`. -/
structure Gives (I : Handler → Prop) (r : Except Exn Handler) (m : Except Exn Map) : Prop where
  map_eq : r.map Handler.map = m
  keeps : ∀ h, r = .ok h → I h

/-- Gap, element, rest: the rest goes on from the map that the element leaves. -/
theorem Gives.append {I J : Handler → Prop} {m : Except Exn Map} {f : Map → Except Exn Map}
    (hes : Gives I (parse lower h es) m)
    (hrest : ∀ h', I h' → Gives J (parse lower h' es') (f h'.map)) :
    Gives J (parse lower h (es ++ es')) (m >>= f) := by
  rw [parse_append_bind,← hes.map_eq]
  cases hr : parse lower h es with
  | error e => exact ⟨rfl,fun _ h => nomatch h⟩
  | ok h' => exact hrest h' (hes.keeps h' hr)

/-- The steps of a list of elements make up that of the list; the steps keep `I`. -/
theorem parse_interleaved_map {α : Type} {renders : α → List Event → Prop} {I : Handler → Prop}
    {f : Map → α → Except Exn Map} {l : List α} (hcurrent : ∀ h, I h → h.current ≠ none)
    (hname : ∀ h name, I h → I { h with neighbourname := name })
    (hone : ∀ a ∈ l, ∀ es h, renders a es → I h → Gives I (parse lower h es) (f h.map a))
    (hr : Interleaved renders l es) (hI : I h) :
    Gives I (parse lower h es) (l.foldlM f h.map) := by
  induction hr generalizing h with
  | nil pieces =>
    obtain ⟨name,hgap⟩ := parse_gap lower (hcurrent h hI) pieces
    rw [hgap]
    refine ⟨rfl,fun h' hh => ?_⟩
    cases hh
    exact hname h name hI
  | @cons pieces a es ha l rest hrest ih =>
    obtain ⟨name,hgap⟩ := parse_gap lower (hcurrent h hI) pieces
    have helement := hone a (by simp) es _ ha (hname h name hI)
    rw [List.append_assoc,parse_append hgap,List.foldlM_cons]
    exact helement.append fun h' hI' => ih (fun b hb => hone b (by simp [hb])) hI'

/-- The same for elements that do not fail. -/
theorem parse_interleaved {α : Type} {renders : α → List Event → Prop} {I : Handler → Prop}
    {f : Map → α → Map} {l : List α} (hcurrent : ∀ h, I h → h.current ≠ none)
    (hname : ∀ h name, I h → I { h with neighbourname := name })
    (hone : ∀ a ∈ l, ∀ es h, renders a es → I h →
      ∃ h', parse lower h es = .ok h' ∧ h'.map = f h.map a ∧ I h')
    (hr : Interleaved renders l es) (hI : I h) :
    ∃ h', parse lower h es = .ok h' ∧ h'.map = l.foldl f h.map ∧ I h' := by
  have hgives := parse_interleaved_map (f:=fun map a => .ok (f map a)) hcurrent hname
    (fun a ha es h hes hI => by
      obtain ⟨h',hparse,hmap,hI'⟩ := hone a ha es h hes hI
      rw [hparse,← hmap]
      exact ⟨rfl,fun _ hh => Except.ok.inj hh ▸ hI'⟩) hr hI
  have hpure : l.foldlM (fun map a => .ok (f map a)) h.map = (.ok (l.foldl f h.map) : Except Exn Map) :=
    List.foldlM_pure
  have hmap := hgives.map_eq
  rw [hpure] at hmap
  cases hparse : parse lower h es with
  | error e => simp [hparse,Except.map] at hmap
  | ok h' =>
    rw [hparse] at hmap
    exact ⟨h',rfl,Except.ok.inj hmap,hgives.keeps h' hparse⟩

def Country.addMove (c : Country) (a : Move) : Country := { c with links := c.links.add a }

/-- Between the tags of a province with this short name. -/
structure InProvince (short : JString) (out : List JString) (lower : ToLowerCase) (h : Handler) :
    Prop where
  current : h.current ≠ none
  currentcountry : h.currentcountry = some short
  out_eq : h.out = out
  known : (h.map[lower short]?).isSome

theorem getElem?_modify_isSome {f : Country → Country} {x : JString} :
    ((map.modify k f)[x]?).isSome = (map[x]?).isSome := by
  rw [ExtTreeMap.getElem?_modify]
  simp only [Std.compare_eq_iff_eq]
  split_ifs with heq
  · rw [Option.isSome_map,heq]
  · rfl

/-- A neighbour element ends in a call of `AddLink` for the province that is set. -/
theorem parse_neighbour_eq {n : NeighbourElement} (hr : n.Renders es) :
    parse lower h es =
      (addLink lower h.map h.currentcountry (some n.target) n.from' n.to').map fun map =>
        { h with
          current := some (lit "neighbour")
          neighbourname := some n.target
          neighbourfrom := n.from'
          neighbourto := n.to'
          map := map } := by
  obtain ⟨attrs,hfrom,hto,pieces,htext⟩ := hr
  have hne : lit "neighbour" ≠ lit "province" := by decide
  -- the start tag empties the text and takes the two ports
  have hstart : Event.step lower h (.startElement (lit "neighbour") attrs) = .ok
      { h with
        current := some (lit "neighbour")
        neighbourname := some []
        neighbourfrom := n.from'
        neighbourto := n.to' } := by
    simp [Event.step,startElement,hne,hfrom,hto]
  have hpieces := parse_text lower [] (h:=
    { h with
      current := some (lit "neighbour")
      neighbourname := some []
      neighbourfrom := n.from'
      neighbourto := n.to' }) rfl rfl pieces
  rw [htext,List.nil_append] at hpieces
  rw [List.cons_append,parse_cons hstart,parse_append hpieces]
  simp only [parse,List.foldlM_cons,List.foldlM_nil,Event.step,endElement,if_pos,bind_pure]

/-- A neighbour element adds its link to the province around it. -/
theorem parse_neighbour {n : NeighbourElement} {short : JString} {out : List JString}
    (hr : n.Renders es) (hI : InProvince short out lower h) :
    ∃ h', parse lower h es = .ok h' ∧
      h'.map = h.map.modify (lower short) (fun c => c.addMove (n.move lower)) ∧
      InProvince short out lower h' := by
  obtain ⟨c,hc⟩ := Option.isSome_iff_exists.mp hI.known
  have hadd : addLink lower h.map h.currentcountry (some n.target) n.from' n.to' =
      .ok (h.map.modify (lower short) fun c => c.addMove (n.move lower)) := by
    simp only [addLink,hI.currentcountry,getCountry,hc]
    rfl
  refine ⟨{ h with
      current := some (lit "neighbour")
      neighbourname := some n.target
      neighbourfrom := n.from'
      neighbourto := n.to'
      map := h.map.modify (lower short) (fun c => c.addMove (n.move lower)) },?_,rfl,
    ⟨by simp,hI.currentcountry,hI.out_eq,?_⟩⟩
  · rw [parse_neighbour_eq hr,hadd]
    rfl
  · rw [getElem?_modify_isSome]
    exact hI.known

theorem foldl_modify (k : JString) (moves : List Move) (map : Map) (c : Country) :
    moves.foldl (fun map a => map.modify k fun c => c.addMove a) (map.insert k c) =
      map.insert k { c with links := moves.foldl MoveSet.add c.links } := by
  induction moves generalizing c with
  | nil => rfl
  | cons a moves ih =>
    have hone : (map.insert k c).modify k (fun c => c.addMove a) = map.insert k (c.addMove a) := by
      refine ExtTreeMap.ext_getElem? fun x => ?_
      rw [ExtTreeMap.getElem?_modify,ExtTreeMap.getElem?_insert,ExtTreeMap.getElem?_insert,
        ExtTreeMap.getElem?_insert]
      simp only [Std.compare_eq_iff_eq]
      split_ifs <;> simp_all
    rw [List.foldl_cons,hone,ih]
    rfl

/-- The start tag of a province puts it on the map, without its links. -/
theorem step_province {p : ProvinceElement} {t : LandType} (ht : p.landType lower = .ok t)
    {attrs : Attributes} (hattrs : p.HasAttributes attrs) (h : Handler) :
    Event.step lower h (.startElement (lit "province") attrs) = .ok
      { h with
        current := some (lit "province")
        currentcountry := some p.short
        map := h.map.insert (lower p.short) { p.country lower with links := ∅ } } := by
  have hne : lit "province" ≠ lit "neighbour" := by decide
  have hadd : addCountry lower h.map (some p.short) p.coastA p.coastB p.name (some p.type)
      (decide (p.supply = some (lit "yes"))) =
      .ok (h.map.insert (lower p.short) { p.country lower with links := ∅ }) := by
    rw [ProvinceElement.landType] at ht
    simp [addCountry,ht,bind,Except.bind,ProvinceElement.country,ProvinceElement.landType,
      Country.new]
  simp [Event.step,startElement,hne,startProvince,hattrs.short,hattrs.name,hattrs.type,
    hattrs.supply,hattrs.coastA,hattrs.coastB,hadd]

/-- A province element puts its province on the map. -/
theorem parse_province {p : ProvinceElement} {t : LandType} (ht : p.landType lower = .ok t)
    (hr : p.Renders es) :
    ∃ h', parse lower h es = .ok h' ∧ h'.map = loadProvince lower h.map p ∧
      h'.current ≠ none ∧ h'.out = h.out := by
  obtain ⟨hattrs,hneighbours⟩ := hr
  have hne : lit "province" ≠ lit "neighbour" := by decide
  let c : Country := { p.country lower with links := ∅ }
  have hone : ∀ n ∈ p.neighbours, ∀ es h', NeighbourElement.Renders n es →
      InProvince p.short h.out lower h' → ∃ h'', parse lower h' es = .ok h'' ∧
        h''.map = h'.map.modify (lower p.short) (fun c => c.addMove (n.move lower)) ∧
        InProvince p.short h.out lower h'' :=
    fun n _ es h' hn hI => parse_neighbour hn hI
  obtain ⟨h₁,hp₁,hmap₁,hI₁⟩ := parse_interleaved
    (I:=InProvince p.short h.out lower)
    (f:=fun map (n : NeighbourElement) =>
      map.modify (lower p.short) fun c => c.addMove (n.move lower)) (l:=p.neighbours)
    (h:={ h with
      current := some (lit "province")
      currentcountry := some p.short
      map := h.map.insert (lower p.short) c })
    (fun h hI => hI.current)
    (fun h name hI => ⟨hI.current,hI.currentcountry,hI.out_eq,hI.known⟩)
    hone hneighbours
    ⟨by simp,rfl,rfl,by simp⟩
  refine ⟨h₁,?_,?_,hI₁.current,hI₁.out_eq⟩
  · rw [parse_close hne,parse_cons (step_province ht hattrs h),hp₁]
  · have hfold := foldl_modify (lower p.short) (p.neighbours.map fun n => n.move lower) h.map c
    rw [List.foldl_map] at hfold
    rw [hmap₁,hfold,loadProvince]
    rfl

/-- A document puts one province after the other on the map. -/
theorem parse_document {doc : List ProvinceElement}
    (htypes : ∀ p ∈ doc, ∃ t, p.landType lower = .ok t) (hr : RendersDocument doc es) :
    ∃ h, parse lower Handler.new es = .ok h ∧
      h.map = doc.foldl (loadProvince lower) ∅ ∧ h.out = [] := by
  obtain ⟨attrs,hprovinces⟩ := hr
  rw [parse_map]
  obtain ⟨h₁,hp₁,hmap₁,hI₁⟩ := parse_interleaved
    (I:=fun h => h.current ≠ none ∧ h.out = []) (f:=loadProvince lower)
    (h:={ Handler.new with current := some (lit "map") })
    (fun h hI => hI.1) (fun h name hI => hI)
    (fun p hp es h hpr hI => by
      obtain ⟨t,ht⟩ := htypes p hp
      obtain ⟨h',hparse,hmap,hcurrent,hout⟩ := parse_province (h:=h) ht hpr
      exact ⟨h',hparse,hmap,hcurrent,hout.trans hI.2⟩)
    hprovinces ⟨by simp,rfl⟩
  exact ⟨h₁,hp₁,hmap₁,hI₁.2⟩

end Runs

/-! ### The map of a document -/

section Documents
variable {lower} {doc doc' : List ProvinceElement} {p q : ProvinceElement} {n n' : NeighbourElement}
  {events events' : List Event} {k : JString} {c : Country}

theorem loadProvince_snoc (doc : List ProvinceElement) (p : ProvinceElement) :
    (doc ++ [p]).foldl (loadProvince lower) ∅ =
      loadProvince lower (doc.foldl (loadProvince lower) ∅) p := by
  simp

/-- No province replaces another one, since their short names differ. -/
theorem getElem?_loadProvince (hnodup : (doc.map fun p => lower p.short).Nodup) :
    (doc.foldl (loadProvince lower) ∅)[k]? = some c ↔
      ∃ p ∈ doc, lower p.short = k ∧ p.country lower = c := by
  induction doc using List.reverseRecOn with
  | nil => simp
  | append_singleton doc q ih =>
    rw [List.map_append,List.nodup_append] at hnodup
    have hnew : ∀ p ∈ doc, lower p.short ≠ lower q.short := fun p hp =>
      hnodup.2.2 _ (List.mem_map_of_mem hp) _ (by simp)
    rw [loadProvince_snoc,loadProvince,ExtTreeMap.getElem?_insert]
    simp only [Std.compare_eq_iff_eq,List.mem_append,List.mem_singleton]
    split_ifs with hk
    · constructor
      · intro h
        exact ⟨q,.inr rfl,hk,Option.some.inj h⟩
      · rintro ⟨p,hp | rfl,hpk,rfl⟩
        · exact absurd (hpk.trans hk.symm) (hnew p hp)
        · rfl
    · rw [ih hnodup.1]
      constructor
      · rintro ⟨p,hp,hh⟩
        exact ⟨p,.inl hp,hh⟩
      · rintro ⟨p,hp | rfl,hpk,hc⟩
        · exact ⟨p,hp,hpk,hc⟩
        · exact absurd hpk hk

theorem size_loadProvince (hnodup : (doc.map fun p => lower p.short).Nodup) :
    (doc.foldl (loadProvince lower) ∅).size = doc.length := by
  induction doc using List.reverseRecOn with
  | nil => rfl
  | append_singleton doc q ih =>
    have hsplit := hnodup
    rw [List.map_append,List.nodup_append] at hsplit
    have hnew : lower q.short ∉ doc.foldl (loadProvince lower) ∅ := by
      rw [ExtTreeMap.mem_iff_isSome_getElem?,Option.isSome_iff_exists]
      rintro ⟨c,hc⟩
      obtain ⟨p,hp,hpq,-⟩ := (getElem?_loadProvince hsplit.1).mp hc
      exact hsplit.2.2 _ (List.mem_map_of_mem hp) _ (by simp) hpq
    rw [loadProvince_snoc,loadProvince,ExtTreeMap.size_insert]
    simp [hnew,ih hsplit.1]

theorem foldl_add_eq_collect (l : List Move) :
    l.foldl MoveSet.add ∅ = MoveSet.collect (fun _ => true) l := by
  simp [MoveSet.collect]

theorem country_standsFor {t : LandType} (ht : p.landType lower = .ok t)
    (htargets : (p.neighbours.map fun n => lower n.target).Nodup) :
    StandsFor lower p (p.country lower) where
  longname := rfl
  porta := rfl
  portb := rfl
  type := by simp only [ProvinceElement.country,ht]
  supply := rfl
  links a := by
    have hnodup : ((p.neighbours.map fun n => n.move lower).map Move.country).Nodup := by
      rw [List.map_map]
      exact htargets
    simp only [ProvinceElement.country]
    rw [foldl_add_eq_collect,MoveSet.mem_collect hnodup]
    simp
  checked := rfl

/-- The map of a document with Berlin is one that the check may start on. -/
theorem parse_loaded (hdoc : ValidDocument lower doc) (hevents : RendersDocument doc events)
    (hp : p ∈ doc) (hber : lower p.short = lower (lit "ber")) :
    ∃ h, parse lower Handler.new events = .ok h ∧ Loaded lower h.map := by
  obtain ⟨h,hparse,hmap,-⟩ := parse_document hdoc.types hevents
  refine ⟨h,hparse,?_,fun k => ?_⟩
  · have hget : getCountry lower h.map (lit "ber") = some (p.country lower) := by
      rw [getCountry,hmap,getElem?_loadProvince hdoc.shorts]
      exact ⟨p,hp,hber,rfl⟩
    simp [hget]
  · rw [checkedAt,hmap]
    cases hk : (doc.foldl (loadProvince lower) ∅)[k]? with
    | none => rfl
    | some c =>
      obtain ⟨q,-,-,rfl⟩ := (getElem?_loadProvince hdoc.shorts).mp hk
      rfl

/-- The same neighbour but for letter case. -/
structure NeighbourElement.SameLower (lower : ToLowerCase) (n n' : NeighbourElement) : Prop where
  target : lower n.target = lower n'.target
  from' : n.from'.map lower = n'.from'.map lower
  to' : n.to'.map lower = n'.to'.map lower

/-- The same province but for letter case. -/
structure ProvinceElement.SameLower (lower : ToLowerCase) (p p' : ProvinceElement) : Prop where
  short : lower p.short = lower p'.short
  type : lower p.type = lower p'.type
  name : p.name = p'.name
  supply : p.supply = p'.supply
  coastA : p.coastA = p'.coastA
  coastB : p.coastB = p'.coastB
  neighbours : List.Forall₂ (NeighbourElement.SameLower lower) p.neighbours p'.neighbours

theorem Port.new_congr {b b' : Option JString} (h : b.map lower = b'.map lower) :
    Port.new lower b = Port.new lower b' := by
  cases b <;> cases b' <;> simp_all [Port.new]

theorem NeighbourElement.SameLower.move_eq (h : n.SameLower lower n') :
    n.move lower = n'.move lower := by
  rw [move,move,h.target,Port.new_congr h.from',Port.new_congr h.to']

theorem ProvinceElement.SameLower.landType_ok {t : LandType} (h : p.SameLower lower q)
    (ht : p.landType lower = .ok t) : q.landType lower = .ok t := by
  rw [ProvinceElement.landType,LandType.parse] at ht ⊢
  rw [← h.type]
  split_ifs at ht ⊢ <;> exact ht

theorem ProvinceElement.SameLower.country_eq {t : LandType} (h : p.SameLower lower q)
    (ht : p.landType lower = .ok t) : p.country lower = q.country lower := by
  have hmoves : p.neighbours.map (fun n => n.move lower) =
      q.neighbours.map fun n => n.move lower := by
    rw [← List.forall₂_eq_eq_eq,List.forall₂_map_left_iff,List.forall₂_map_right_iff]
    exact h.neighbours.imp fun _ _ hn => hn.move_eq
  simp only [ProvinceElement.country,ht,h.landType_ok ht,hmoves,h.name,h.supply,h.coastA,
    h.coastB]

/-- Documents that are the same but for letter case give the same map. -/
theorem foldl_loadProvince_congr (hsame : List.Forall₂ (ProvinceElement.SameLower lower) doc doc')
    (htypes : ∀ p ∈ doc, ∃ t, p.landType lower = .ok t) (map : Map) :
    doc.foldl (loadProvince lower) map = doc'.foldl (loadProvince lower) map := by
  induction hsame generalizing map with
  | nil => rfl
  | cons hp hrest ih =>
    obtain ⟨t,ht⟩ := htypes _ List.mem_cons_self
    have hrest' := ih fun q hq => htypes q (List.mem_cons_of_mem _ hq)
    rw [List.foldl_cons,List.foldl_cons,loadProvince,loadProvince,hp.country_eq ht,hp.short,
      hrest']

theorem types_congr (hsame : List.Forall₂ (ProvinceElement.SameLower lower) doc doc')
    (htypes : ∀ p ∈ doc, ∃ t, p.landType lower = .ok t) :
    ∀ p ∈ doc', ∃ t, p.landType lower = .ok t := by
  induction hsame with
  | nil => exact htypes
  | cons hp hrest ih =>
    obtain ⟨t,ht⟩ := htypes _ List.mem_cons_self
    rw [List.forall_mem_cons] at htypes ⊢
    exact ⟨⟨t,hp.landType_ok ht⟩,ih htypes.2⟩

/-- What the handler makes of a document: one province for each of its elements, with the
links that the element has. Neither letter case nor the way the text is split matters. -/
theorem map_loaded (hdoc : ValidDocument lower doc) (hevents : RendersDocument doc events) :
    ∃ h, parse lower Handler.new events = .ok h ∧ h.out = [] ∧ h.map.size = doc.length ∧
      (∀ p ∈ doc, ∃ c, getCountry lower h.map p.short = some c ∧ StandsFor lower p c) ∧
      ∀ doc' events', List.Forall₂ (ProvinceElement.SameLower lower) doc doc' →
        RendersDocument doc' events' →
        ∃ h', parse lower Handler.new events' = .ok h' ∧ h'.map = h.map := by
  obtain ⟨h,hparse,hmap,hout⟩ := parse_document hdoc.types hevents
  refine ⟨h,hparse,hout,?_,?_,?_⟩
  · rw [hmap,size_loadProvince hdoc.shorts]
  · intro p hp
    obtain ⟨t,ht⟩ := hdoc.types p hp
    refine ⟨p.country lower,?_,country_standsFor ht (hdoc.targets p hp)⟩
    rw [getCountry,hmap,getElem?_loadProvince hdoc.shorts]
    exact ⟨p,hp,rfl,rfl⟩
  · intro doc' events' hsame hevents'
    obtain ⟨h',hparse',hmap',-⟩ := parse_document (types_congr hsame hdoc.types) hevents'
    refine ⟨h',hparse',?_⟩
    rw [hmap',hmap,foldl_loadProvince_congr hsame hdoc.types]

end Documents

/-- `toLowerCase` on ASCII. -/
def lowerAscii : ToLowerCase := List.map fun c => if 65 ≤ c ∧ c ≤ 90 then c + 32 else c

def toKiel : NeighbourElement := ⟨lit "KIE",none,some (lit "A")⟩

def toBerlin : NeighbourElement := ⟨lit "ber",some (lit "a"),none⟩

/-- Two provinces, the first of which leads to the second before that is known. -/
def baltic : List ProvinceElement :=
  [⟨lit "Ber",some (lit "Berlin"),lit "Coast",some (lit "yes"),none,none,[toKiel]⟩,
   ⟨lit "kie",some (lit "Kiel"),lit "coast",none,some (lit "East"),none,[toBerlin]⟩]

/-- The text of the first neighbour comes in two pieces. -/
def toKielEvents : List Event :=
  [.startElement (lit "neighbour") [(lit "to",lit "A")],.characters (lit "K"),
   .characters (lit "IE"),.endElement (lit "neighbour")]

def toBerlinEvents : List Event :=
  [.startElement (lit "neighbour") [(lit "from",lit "a")],.characters (lit "ber"),
   .endElement (lit "neighbour")]

def berlinAttributes : Attributes :=
  [(lit "name",lit "Berlin"),(lit "short",lit "Ber"),(lit "supply",lit "yes"),
   (lit "type",lit "Coast")]

def kielAttributes : Attributes :=
  [(lit "name",lit "Kiel"),(lit "short",lit "kie"),(lit "coastA",lit "East"),
   (lit "type",lit "coast")]

def berlinEvents : List Event :=
  .startElement (lit "province") berlinAttributes :: .characters (lit " ") ::
    (toKielEvents ++ [.characters (lit " "),.endElement (lit "province")])

def kielEvents : List Event :=
  .startElement (lit "province") kielAttributes ::
    (toBerlinEvents ++ [.endElement (lit "province")])

def balticEvents : List Event :=
  .startElement (lit "map") [] :: .characters (lit " ") :: (berlinEvents ++
    (kielEvents ++ [.characters (lit " "),.endElement (lit "map")]))

theorem baltic_valid : ValidDocument lowerAscii baltic where
  shorts := by decide
  types := by
    have hcoast : ∀ p ∈ baltic, p.landType lowerAscii = .ok .coast := by
      simp only [baltic,List.forall_mem_cons]
      exact ⟨rfl,rfl,by simp⟩
    exact fun p hp => ⟨.coast,hcoast p hp⟩
  targets := by decide

theorem baltic_renders : RendersDocument baltic balticEvents := by
  have htoKiel : toKiel.Renders toKielEvents := .mk _ rfl rfl [lit "K",lit "IE"] rfl
  have htoBerlin : toBerlin.Renders toBerlinEvents := .mk _ rfl rfl [lit "ber"] rfl
  have hberlin : baltic[0].HasAttributes berlinAttributes := ⟨rfl,rfl,rfl,rfl,rfl,rfl⟩
  have hkiel : baltic[1].HasAttributes kielAttributes := ⟨rfl,rfl,rfl,rfl,rfl,rfl⟩
  have hfirst := ProvinceElement.Renders.mk hberlin
    (.cons [lit " "] htoKiel (.nil [lit " "]))
  have hsecond := ProvinceElement.Renders.mk hkiel (.cons [] htoBerlin (.nil []))
  exact .mk [] (.cons [lit " "] hfirst (.cons [] hsecond (.nil [lit " "])))

theorem map_loaded_baltic : ∃ h, parse lowerAscii Handler.new balticEvents = .ok h ∧
    h.out = [] ∧ h.map.size = 2 := by
  obtain ⟨h,hparse,hout,hsize,-⟩ := map_loaded baltic_valid baltic_renders
  exact ⟨h,hparse,hout,hsize⟩

end Diplomacy
end MiscUniStuff
