import MiscUniStuff.DiplomacyMap

/-! The consistency check that runs once the map is loaded: from Berlin on it goes to every
province that is not marked yet. -/
namespace MiscUniStuff
namespace Diplomacy
open Std

/-- The map, and the lines that have been printed. -/
structure Checker where
  map : Map
  out : List JString

/-- How a call ends, and the state it leaves; `none` is one that has not ended. -/
abbrev Ending := Option (Except Exn Unit × Checker)

variable (lower : ToLowerCase)

/-- The loop of `Country.check`, with the check of the other provinces given. -/
def checkLinks (check : JString → Checker → Ending) (longname : Option JString) :
    List Move → Checker → Ending
  | [], s => some (.ok (),s)
  | a::links, s =>
    match getCountry lower s.map a.country with
    | none =>
      match a.toString lower s.map with
      | .error e => some (.error e,s)
      | .ok text =>
        checkLinks check longname links
          { s with out := s.out ++ [lit "Bad Entry in " ++ orNull longname ++ text] }
    | some bar =>
      if bar.checked = false then
        match check (lower a.country) s with
        | some (.ok (),s') => checkLinks check longname links s'
        | r => r
      else checkLinks check longname links s

def Country.mark (c : Country) : Country := { c with checked := true }

/-- `Country.check` of the province under a key. The first argument bounds the depth of
the recursion. -/
def check : ℕ → JString → Checker → Ending
  | 0, _, _ => none
  | n+1, k, s =>
    match s.map[k]? with
    | none => some (.error .nullPointer,s)
    | some this =>
      checkLinks lower (check n) this.longname this.links.moves
        { s with map := s.map.modify k Country.mark }

/-- `Diplomacy.endDocument`. -/
def endDocument (depth : ℕ) (s : Checker) : Ending :=
  match check lower depth (lower (lit "ber"))
      { s with out := s.out ++ [lit "--Running Consistancy Checker--"] } with
  | some (.ok (),s') => some (.ok (),{ s' with out := s'.out ++ [lit "--Complete--"] })
  | r => r

/-- The number of lines about bad entries. -/
def badEntries (out : List JString) : ℕ :=
  (out.filter fun line => (lit "Bad Entry").isPrefixOf line).length

/-- The links that lead to a province that is not on the map. -/
def badLinks (map : Map) : List Move :=
  map.toList.flatMap fun x => x.2.links.moves.filter fun a => ¬Resolves lower map a

/-! ### What a check keeps -/

/-- The links of the province under a key. -/
def linksOf (map : Map) (k : JString) : List Move :=
  (map[k]?).elim [] fun c => c.links.moves

def checkedAt (map : Map) (k : JString) : Bool := (map[k]?).any Country.checked

def Country.unmarked (c : Country) : Country := { c with checked := false }

/-- The map is the same but for the marks, of which there are not fewer, and no bad entry
has been printed. -/
structure Follows (s s' : Checker) : Prop where
  same : ∀ k : JString, (s'.map[k]?).map Country.unmarked = (s.map[k]?).map Country.unmarked
  marks : ∀ k : JString, checkedAt s.map k → checkedAt s'.map k
  quiet : badEntries s'.out = badEntries s.out

section Follows
variable {s s' s'' : Checker} {k : JString} {a : Move} {lower}

theorem Follows.refl (s : Checker) : Follows s s := ⟨fun _ => rfl,fun _ h => h,rfl⟩

theorem Follows.trans (h : Follows s s') (h' : Follows s' s'') : Follows s s'' where
  same k := (h'.same k).trans (h.same k)
  marks k hk := h'.marks k (h.marks k hk)
  quiet := h'.quiet.trans h.quiet

theorem Follows.isSome (h : Follows s s') (k : JString) :
    (s'.map[k]?).isSome = (s.map[k]?).isSome := by
  have hh := congrArg Option.isSome (h.same k)
  simpa using hh

theorem Follows.resolves_iff (h : Follows s s') :
    Resolves lower s'.map a ↔ Resolves lower s.map a := by
  have hh := h.isSome (lower a.country)
  simp only [Resolves,getCountry,← Option.isSome_iff_ne_none,hh]

theorem Follows.linksOf_eq (h : Follows s s') (k : JString) : linksOf s'.map k = linksOf s.map k := by
  have hh := congrArg (fun o => Option.elim o [] fun c => Country.links c |>.moves) (h.same k)
  simp only [Option.elim_map] at hh
  exact hh

theorem checkedAt_mark {x : JString} (hk : (s.map[k]?).isSome) :
    checkedAt (s.map.modify k Country.mark) x = (decide (k = x) || checkedAt s.map x) := by
  rw [checkedAt,ExtTreeMap.getElem?_modify]
  simp only [Std.compare_eq_iff_eq]
  by_cases heq : k = x
  · subst x
    obtain ⟨c,hc⟩ := Option.isSome_iff_exists.mp hk
    simp [hc,Country.mark]
  · simp [heq,checkedAt]

theorem follows_mark (hk : (s.map[k]?).isSome) :
    Follows s { s with map := s.map.modify k Country.mark } where
  same x := by
    rw [ExtTreeMap.getElem?_modify]
    simp only [Std.compare_eq_iff_eq]
    split_ifs with heq
    · subst x
      cases s.map[k]? <;> simp [Country.mark,Country.unmarked]
    · rfl
  marks x hx := by
    rw [checkedAt_mark hk,hx,Bool.or_true]
  quiet := rfl

end Follows

/-! ### The walk -/

section Walk
variable (K : Finset JString) {s s' : Checker} {lower}

/-- The provinces that have not been marked. -/
def remaining (map : Map) : ℕ := (K.filter fun k => checkedAt map k = false).card

theorem remaining_le (h : Follows s s') : remaining K s'.map ≤ remaining K s.map := by
  refine Finset.card_le_card fun k hk => ?_
  simp only [Finset.mem_filter] at hk ⊢
  refine ⟨hk.1,?_⟩
  by_contra hne
  have hmark := h.marks k (by simpa using hne)
  simp [hmark] at hk

theorem remaining_mark {k : JString} (hk : k ∈ K) (hmem : (s.map[k]?).isSome)
    (hnew : checkedAt s.map k = false) :
    remaining K (s.map.modify k Country.mark) < remaining K s.map := by
  refine Finset.card_lt_card (Finset.ssubset_iff_of_subset ?_ |>.mpr ⟨k,by simp [hk,hnew],?_⟩)
  · intro x hx
    simp only [Finset.mem_filter,checkedAt_mark hmem,Bool.or_eq_false_iff] at hx ⊢
    exact ⟨hx.1,hx.2.2⟩
  · simp [checkedAt_mark hmem]

/-- A link from one province of the map to another. -/
def Step (lower : ToLowerCase) (map : Map) (k x : JString) : Prop :=
  ∃ a ∈ linksOf map k, Resolves lower map a ∧ lower a.country = x

/-- A province with a bad entry that can be reached. -/
def BadBelow (lower : ToLowerCase) (map : Map) (k : JString) : Prop :=
  ∃ x, Relation.ReflTransGen (Step lower map) k x ∧ ∃ a ∈ linksOf map x, ¬Resolves lower map a

/-- The links of all provinces marked in between lead to marked provinces. -/
def Closed (lower : ToLowerCase) (s s' : Checker) : Prop :=
  ∀ x, checkedAt s'.map x → checkedAt s.map x = false → ∀ a ∈ linksOf s.map x,
    Resolves lower s.map a ∧ checkedAt s'.map (lower a.country)

/-- What a check of the province `k` comes to. -/
def Explored (lower : ToLowerCase) (k : JString) (s : Checker) (r : Ending) : Prop :=
  ∃ e s', r = some (e,s') ∧ Follows s s' ∧
    match e with
    | .ok () => checkedAt s'.map k ∧ Closed lower s s'
    | .error _ => BadBelow lower s.map k

/-- What the loop over some links comes to. -/
def LinksExplored (lower : ToLowerCase) (links : List Move) (s : Checker) (r : Ending) : Prop :=
  ∃ e s', r = some (e,s') ∧ Follows s s' ∧
    match e with
    | .ok () => (∀ a ∈ links, Resolves lower s.map a ∧ checkedAt s'.map (lower a.country)) ∧
        Closed lower s s'
    | .error _ => ∃ a ∈ links, ¬Resolves lower s.map a ∨
        Resolves lower s.map a ∧ BadBelow lower s.map (lower a.country)

theorem Follows.step_eq (h : Follows s s') : Step lower s'.map = Step lower s.map := by
  funext x y
  simp only [Step,h.linksOf_eq,h.resolves_iff]

theorem Follows.badBelow_iff (h : Follows s s') (k : JString) :
    BadBelow lower s'.map k ↔ BadBelow lower s.map k := by
  simp only [BadBelow,h.step_eq,h.linksOf_eq,h.resolves_iff]

theorem Closed.trans {s'' : Checker} (h : Closed lower s s') (h' : Closed lower s' s'')
    (hf : Follows s s') (hf' : Follows s' s'') : Closed lower s s'' := by
  intro x hx hnew a ha
  by_cases hmid : checkedAt s'.map x
  · have hh := h x hmid hnew a ha
    exact ⟨hh.1,hf'.marks _ hh.2⟩
  · have hh := h' x hx (by simpa using hmid) a (by rwa [hf.linksOf_eq])
    exact ⟨hf.resolves_iff.mp hh.1,hh.2⟩

theorem Closed.refl (s : Checker) : Closed lower s s := by
  intro x hx hnew
  simp [hx] at hnew

theorem checkedAt_getCountry {map : Map} {a : Move} {bar : Country}
    (h : getCountry lower map a.country = some bar) :
    checkedAt map (lower a.country) = bar.checked := by
  rw [getCountry] at h
  simp [checkedAt,h]

theorem checkLinks_cons_bad {f : JString → Checker → Ending} {longname : Option JString}
    {a : Move} {links : List Move} (h : getCountry lower s.map a.country = none) :
    checkLinks lower f longname (a::links) s = some (.error .nullPointer,s) := by
  simp [checkLinks,Move.toString,h]

/-- When the target of the first link is marked and done, the loop goes on from there. -/
theorem LinksExplored.cons {s₁ : Checker} {a : Move} {links : List Move} {r : Ending}
    (hres : Resolves lower s.map a) (hfol : Follows s s₁)
    (hmark : checkedAt s₁.map (lower a.country)) (hclosed : Closed lower s s₁)
    (h : LinksExplored lower links s₁ r) : LinksExplored lower (a::links) s r := by
  obtain ⟨e,s₂,hr,hfol₂,hend⟩ := h
  refine ⟨e,s₂,hr,hfol.trans hfol₂,?_⟩
  cases e with
  | error e =>
    obtain ⟨b,hb,hbad⟩ := hend
    simp only [hfol.resolves_iff,hfol.badBelow_iff] at hbad
    exact ⟨b,List.mem_cons_of_mem a hb,hbad⟩
  | ok u =>
    refine ⟨fun b hb => ?_,hclosed.trans hend.2 hfol hfol₂⟩
    rcases List.mem_cons.mp hb with rfl | hb
    · exact ⟨hres,hfol₂.marks _ hmark⟩
    · have hrest := hend.1 b hb
      exact ⟨hfol.resolves_iff.mp hrest.1,hrest.2⟩

variable {K} {n : ℕ}

/-- The loop, if the check of every province that is not marked is as it should be. -/
theorem checkLinks_explored {f : JString → Checker → Ending}
    (hf : ∀ k s, (s.map[k]?).isSome → checkedAt s.map k = false →
      (∀ x : JString, (s.map[x]?).isSome → x ∈ K) → remaining K s.map ≤ n →
      Explored lower k s (f k s))
    (longname : Option JString) (links : List Move) (s : Checker)
    (hK : ∀ x : JString, (s.map[x]?).isSome → x ∈ K) (hn : remaining K s.map ≤ n) :
    LinksExplored lower links s (checkLinks lower f longname links s) := by
  induction links generalizing s with
  | nil => exact ⟨.ok (),s,rfl,.refl s,by simp,.refl s⟩
  | cons a links ih =>
    cases hget : getCountry lower s.map a.country with
    | none =>
      rw [checkLinks_cons_bad hget]
      exact ⟨_,s,rfl,.refl s,a,by simp,.inl (by simp [Resolves,hget])⟩
    | some bar =>
      have hres : Resolves lower s.map a := by simp [Resolves,hget]
      have hmark := checkedAt_getCountry hget
      simp only [checkLinks,hget]
      by_cases hbar : bar.checked = false
      · have hsome : (s.map[lower a.country]?).isSome := by
          rw [getCountry] at hget
          simp [hget]
        obtain ⟨e,s₁,hr,hfol,hend⟩ := hf _ s hsome (hmark.trans hbar) hK hn
        rw [if_pos hbar,hr]
        cases e with
        | error e => exact ⟨_,s₁,rfl,hfol,a,by simp,.inr ⟨hres,hend⟩⟩
        | ok u =>
          have hK₁ : ∀ x : JString, (s₁.map[x]?).isSome → x ∈ K := fun x hx =>
            hK x (by rwa [← hfol.isSome])
          have hrest := ih s₁ hK₁ ((remaining_le K hfol).trans hn)
          exact hrest.cons hres hfol hend.1 hend.2
      · rw [if_neg hbar]
        have hdone : checkedAt s.map (lower a.country) := by
          rw [hmark]
          simpa using hbar
        exact (ih s hK hn).cons hres (.refl s) hdone (.refl s)

/-- With enough depth for the provinces that are left, a check ends: all that can be reached
is marked and sound, or there is a bad entry below. -/
theorem check_explored (k : JString) (s : Checker) (hk : (s.map[k]?).isSome)
    (hnew : checkedAt s.map k = false) (hK : ∀ x : JString, (s.map[x]?).isSome → x ∈ K)
    (hn : remaining K s.map ≤ n) : Explored lower k s (check lower n k s) := by
  induction n generalizing k s with
  | zero =>
    have hlt := remaining_mark K (hK k hk) hk hnew
    omega
  | succ n ih =>
    obtain ⟨this,hthis⟩ := Option.isSome_iff_exists.mp hk
    have hlt := remaining_mark K (hK k hk) hk hnew
    have hfol := follows_mark (s:=s) hk
    have hlinks : this.links.moves = linksOf s.map k := by simp [linksOf,hthis]
    simp only [check,hthis]
    obtain ⟨e,s',hr,hfol',hend⟩ := checkLinks_explored (n:=n) (K:=K)
      (fun k s h₁ h₂ h₃ h₄ => ih k s h₁ h₂ h₃ h₄) this.longname this.links.moves
      { s with map := s.map.modify k Country.mark } (fun x hx => hK x (by rwa [← hfol.isSome]))
      (by simp only; omega)
    refine ⟨e,s',hr,hfol.trans hfol',?_⟩
    cases e with
    | error e =>
      obtain ⟨a,ha,hbad⟩ := hend
      rw [hlinks] at ha
      simp only [hfol.resolves_iff,hfol.badBelow_iff] at hbad
      rcases hbad with hbad | ⟨hres,x,hpath,hbad⟩
      · exact ⟨k,.refl,a,ha,hbad⟩
      · exact ⟨x,.head ⟨a,ha,hres,rfl⟩ hpath,hbad⟩
    | ok u =>
      refine ⟨hfol'.marks k (by simp [checkedAt_mark hk]),?_⟩
      intro x hx hxnew a ha
      by_cases hxk : k = x
      · subst x
        rw [← hlinks] at ha
        have hh := hend.1 a ha
        exact ⟨hfol.resolves_iff.mp hh.1,hh.2⟩
      · have hmid : checkedAt (s.map.modify k Country.mark) x = false := by
          simp [checkedAt_mark hk,hxk,hxnew]
        have hh := hend.2 x hx hmid a (by rwa [hfol.linksOf_eq])
        exact ⟨hfol.resolves_iff.mp hh.1,hh.2⟩

end Walk

/-! ### More depth changes nothing -/

section Depth
variable {lower} {k : JString} {s : Checker} {r r' : Except Exn Unit × Checker} {n m : ℕ}

theorem checkLinks_mono {f g : JString → Checker → Ending}
    (hfg : ∀ k s r, f k s = some r → g k s = some r) {longname : Option JString}
    {links : List Move} (h : checkLinks lower f longname links s = some r) :
    checkLinks lower g longname links s = some r := by
  induction links generalizing s with
  | nil => exact h
  | cons a links ih =>
    cases hget : getCountry lower s.map a.country with
    | none => rwa [checkLinks_cons_bad hget] at h ⊢
    | some bar =>
      simp only [checkLinks,hget] at h ⊢
      by_cases hbar : bar.checked = false
      · rw [if_pos hbar] at h ⊢
        cases hf : f (lower a.country) s with
        | none => simp [hf] at h
        | some q =>
          rw [hfg _ _ _ hf]
          rw [hf] at h
          rcases q with ⟨_ | _,s'⟩
          · exact h
          · exact ih h
      · rw [if_neg hbar] at h ⊢
        exact ih h

theorem check_succ (h : check lower n k s = some r) : check lower (n+1) k s = some r := by
  induction n generalizing k s r with
  | zero => simp [check] at h
  | succ n ih =>
    rw [check] at h ⊢
    split at h
    · simpa using h
    · exact checkLinks_mono (fun k s r hr => ih hr) h

theorem check_mono (hnm : n ≤ m) (h : check lower n k s = some r) : check lower m k s = some r := by
  induction m, hnm using Nat.le_induction with
  | base => exact h
  | succ m _ ih => exact check_succ ih

theorem check_unique (h : check lower n k s = some r) (h' : check lower m k s = some r') : r = r' := by
  have h₁ := check_mono (Nat.le_max_left n m) h
  have h₂ := check_mono (Nat.le_max_right n m) h'
  simpa [h₁] using h₂

end Depth

/-! ### The whole check -/

section Document
variable {lower} {map : Map}

/-- The state in which the check of Berlin starts. -/
def started (map : Map) : Checker := ⟨map,[lit "--Running Consistancy Checker--"]⟩

/-- Nothing is marked on a map that has just been loaded, and Berlin is on it. -/
structure Loaded (lower : ToLowerCase) (map : Map) : Prop where
  ber : getCountry lower map (lit "ber") ≠ none
  unmarked : ∀ k, checkedAt map k = false

/-- With enough depth the check of any province comes to an end. -/
theorem exists_explored {s : Checker} {k : JString} (hk : (s.map[k]?).isSome)
    (hunmarked : ∀ k, checkedAt s.map k = false) :
    ∃ depth, Explored lower k s (check lower depth k s) := by
  refine ⟨_,check_explored (K:=s.map.keys.toFinset) _ _ hk (hunmarked _) (fun x hx => ?_) le_rfl⟩
  rw [List.mem_toFinset,ExtTreeMap.mem_keys,ExtTreeMap.mem_iff_isSome_getElem?]
  exact hx

theorem check_ber (h : Loaded lower map) : ∃ depth,
    Explored lower (lower (lit "ber")) (started map)
      (check lower depth (lower (lit "ber")) (started map)) :=
  exists_explored (s:=started map) (Option.isSome_iff_ne_none.mpr h.ber) h.unmarked

/-- All provinces that can be reached are marked in the end. -/
theorem Closed.reached {s s' : Checker} {k x : JString} (hclosed : Closed lower s s')
    (hunmarked : ∀ x, checkedAt s.map x = false) (hk : checkedAt s'.map k)
    (hpath : Relation.ReflTransGen (Step lower s.map) k x) : checkedAt s'.map x := by
  induction hpath with
  | refl => exact hk
  | tail _ hstep ih =>
    obtain ⟨b,hb,-,rfl⟩ := hstep
    exact (hclosed _ ih (hunmarked _) b hb).2

/-- None of them has a bad entry. -/
theorem Closed.not_badBelow {s s' : Checker} {k : JString} (hclosed : Closed lower s s')
    (hunmarked : ∀ x, checkedAt s.map x = false) (hk : checkedAt s'.map k) :
    ¬BadBelow lower s.map k := by
  rintro ⟨x,hpath,a,ha,hbad⟩
  exact hbad (hclosed x (hclosed.reached hunmarked hk hpath) (hunmarked x) a ha).1

theorem badEntries_snoc {out : List JString} {line : JString}
    (h : (lit "Bad Entry").isPrefixOf line = false) :
    badEntries (out ++ [line]) = badEntries out := by
  simp [badEntries,h]

/-- What `endDocument` adds to the end of the check. -/
def completed : Except Exn Unit × Checker → Except Exn Unit × Checker
  | (.ok (),s) => (.ok (),{ s with out := s.out ++ [lit "--Complete--"] })
  | r => r

theorem endDocument_eq (depth : ℕ) (map : Map) : endDocument lower depth ⟨map,[]⟩ =
    (check lower depth (lower (lit "ber")) (started map)).map completed := by
  change ((match check lower depth (lower (lit "ber")) (started map) with
    | some (.ok (),s') => some (.ok (),{ s' with out := s'.out ++ [lit "--Complete--"] })
    | r => r) : Ending) = _
  rcases check lower depth (lower (lit "ber")) (started map) with _ | ⟨_ | _,s'⟩ <;> rfl

/-- The check comes to an end, and has never reported a bad entry then. It returns unless
there is one that can be reached from Berlin. -/
theorem endDocument_ends (h : Loaded lower map) : ∃ depth e s',
    endDocument lower depth ⟨map,[]⟩ = some (e,s') ∧ badEntries s'.out = 0 ∧
      (e = .ok () ↔ ¬BadBelow lower map (lower (lit "ber"))) := by
  obtain ⟨depth,e,s',hr,hfol,hend⟩ := check_ber h
  have hquiet : badEntries s'.out = 0 := hfol.quiet
  cases e with
  | error e =>
    refine ⟨depth,.error e,s',?_,hquiet,?_⟩
    · rw [endDocument_eq,hr]
      rfl
    · have hbad : BadBelow lower map (lower (lit "ber")) := hend
      simp [hbad]
  | ok u =>
    refine ⟨depth,.ok u,{ s' with out := s'.out ++ [lit "--Complete--"] },?_,?_,?_⟩
    · rw [endDocument_eq,hr]
      rfl
    · rw [badEntries_snoc (by decide),hquiet]
    · have hsound : ¬BadBelow lower map (lower (lit "ber")) :=
        hend.2.not_badBelow h.unmarked hend.1
      simp [hsound]

theorem endDocument_unique {n m : ℕ} {r r' : Except Exn Unit × Checker}
    (h : endDocument lower n ⟨map,[]⟩ = some r) (h' : endDocument lower m ⟨map,[]⟩ = some r') :
    r = r' := by
  rw [endDocument_eq,Option.map_eq_some_iff] at h h'
  obtain ⟨q,hq,rfl⟩ := h
  obtain ⟨q',hq',rfl⟩ := h'
  rw [check_unique hq hq']

/-- The check returns if and only if no bad entry can be reached from Berlin. -/
theorem endDocument_returns_iff (h : Loaded lower map) :
    (∃ depth s', endDocument lower depth ⟨map,[]⟩ = some (.ok (),s')) ↔
      ¬BadBelow lower map (lower (lit "ber")) := by
  obtain ⟨depth,e,s',hr,-,hiff⟩ := endDocument_ends h
  rw [← hiff]
  constructor
  · rintro ⟨depth',s'',hr'⟩
    exact congrArg Prod.fst (endDocument_unique hr hr')
  · rintro rfl
    exact ⟨depth,s',hr⟩

theorem badLinks_eq_nil : badLinks lower map = [] ↔
    ∀ k, ∀ a ∈ linksOf map k, Resolves lower map a := by
  simp only [badLinks,List.flatMap_eq_nil_iff,List.filter_eq_nil_iff,decide_not,
    Bool.not_eq_true',decide_eq_false_iff_not,not_not,Prod.forall,
    ExtTreeMap.mem_toList_iff_getElem?_eq_some]
  constructor
  · intro h k a ha
    cases hk : map[k]? with
    | none => simp [linksOf,hk] at ha
    | some c => exact h k c hk a (by simpa [linksOf,hk] using ha)
  · intro h k c hk a ha
    exact h k a (by simpa [linksOf,hk] using ha)

/-- The check returns, and has printed one line for each link that leads nowhere. -/
def Exact (lower : ToLowerCase) (map : Map) : Prop :=
  ∃ depth s', endDocument lower depth ⟨map,[]⟩ = some (.ok (),s') ∧
    badEntries s'.out = (badLinks lower map).length

/-- The check is exact on the maps without such links only: reporting one looks up the
name of the missing province. -/
theorem check_exact_iff (lower : ToLowerCase) (map : Map) (h : Loaded lower map) :
    Exact lower map ↔ ∀ k, ∀ a ∈ linksOf map k, Resolves lower map a := by
  obtain ⟨depth,e,s',hr,hquiet,hiff⟩ := endDocument_ends h
  rw [← badLinks_eq_nil]
  constructor
  · rintro ⟨depth',s'',hr',hcount⟩
    have heq := congrArg Prod.snd (endDocument_unique hr hr')
    simp only at heq
    rw [← heq,hquiet] at hcount
    exact List.length_eq_zero_iff.mp hcount.symm
  · intro hnil
    have hsound : ¬BadBelow lower map (lower (lit "ber")) := by
      rintro ⟨x,-,a,ha,hbad⟩
      exact hbad (badLinks_eq_nil.mp hnil x a ha)
    rw [hiff.mpr hsound] at hr
    exact ⟨depth,s',hr,by rw [hquiet,hnil]; rfl⟩

end Document

/-- Berlin alone, with links to these places. -/
def berlin (names : List String) : Map :=
  (∅ : Map).insert (lit "ber") { Country.new (some (lit "Berlin")) none none .coast true with
    links := names.foldl (fun s name => s.add ⟨lit name,.noPort,.noPort⟩) ∅ }

theorem berlin_loaded (names : List String) : Loaded id (berlin names) where
  ber := by simp [berlin,getCountry]
  unmarked k := by
    simp only [berlin,checkedAt,ExtTreeMap.getElem?_insert]
    split_ifs <;> rfl

/-- Berlin with a link to Kiel, and Kiel with links to these places. -/
def berlinKiel (names : List String) : Map :=
  (berlin ["kie"]).insert (lit "kie") { Country.new (some (lit "Kiel")) none none .coast true with
    links := names.foldl (fun s name => s.add ⟨lit name,.noPort,.noPort⟩) ∅ }

theorem berlinKiel_loaded (names : List String) : Loaded id (berlinKiel names) where
  ber := by
    have hne : lit "kie" ≠ lit "ber" := by decide
    simp [berlinKiel,berlin,getCountry,hne]
  unmarked k := by
    simp only [berlinKiel,berlin,checkedAt,ExtTreeMap.getElem?_insert]
    split_ifs <;> rfl

/-- A link back is fine, and one more from Kiel to a place that is not on the map is too much. -/
theorem check_exact_iff_kiel :
    Exact id (berlinKiel ["ber"]) ∧ ¬Exact id (berlinKiel ["ber","mun"]) := by
  have hh (names : List String) := check_exact_iff id (berlinKiel names) (berlinKiel_loaded names)
  rw [hh,hh,← badLinks_eq_nil,← badLinks_eq_nil]
  exact ⟨by decide,by decide⟩

/-- A link from Berlin to a place that is not on the map. -/
theorem check_inexact : ¬Exact id (berlin ["kie"]) := by
  rintro ⟨depth,s',hr,-⟩
  have hsound := (endDocument_returns_iff (berlin_loaded ["kie"])).mp ⟨depth,s',hr⟩
  exact hsound ⟨lit "ber",.refl,⟨lit "kie",.noPort,.noPort⟩,by decide,by decide⟩

end Diplomacy
end MiscUniStuff
