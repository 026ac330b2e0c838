import MiscUniStuff.ConsistencyCheck

/-! The walk of the consistency check as a depth-first search: which provinces it marks, and
how often it looks at their links. -/
namespace MiscUniStuff
namespace Diplomacy
open Std

/-- The checker with a record of the links it has looked at, each with the province that it
is a link of. -/
structure Walker where
  checker : Checker
  scanned : List (JString × Move)

variable (lower : ToLowerCase)

/-- The loop of `Country.check` over the links of the province `k`, with the record. -/
def walkLinks (walk : JString → Walker → Option (Except Exn Unit × Walker)) (k : JString)
    (longname : Option JString) : List Move → Walker → Option (Except Exn Unit × Walker)
  | [], w => some (.ok (),w)
  | a::links, w =>
    let w := { w with scanned := w.scanned ++ [(k,a)] }
    match getCountry lower w.checker.map a.country with
    | none =>
      match a.toString lower w.checker.map with
      | .error e => some (.error e,w)
      | .ok text =>
        walkLinks walk k longname links
          { w with
            checker := { w.checker with
              out := w.checker.out ++ [lit "Bad Entry in " ++ orNull longname ++ text] } }
    | some bar =>
      if bar.checked = false then
        match walk (lower a.country) w with
        | some (.ok (),w') => walkLinks walk k longname links w'
        | r => r
      else walkLinks walk k longname links w

/-- `Country.check` with the record. -/
def walk : ℕ → JString → Walker → Option (Except Exn Unit × Walker)
  | 0, _, _ => none
  | n+1, k, w =>
    match w.checker.map[k]? with
    | none => some (.error .nullPointer,w)
    | some this =>
      walkLinks lower (walk n) k this.longname this.links.moves
        { w with checker := { w.checker with map := w.checker.map.modify k Country.mark } }

/-- The result without the record. -/
def Walker.forget (r : Except Exn Unit × Walker) : Except Exn Unit × Checker := (r.1,r.2.checker)

/-- The links of a province in the record, in the order in which they were looked at. -/
def logged (log : List (JString × Move)) (k : JString) : List Move :=
  (log.filter fun x => x.1 = k).map Prod.snd

/-- The links of the province, if it has been marked in between. -/
def newLinks (s s' : Checker) (k : JString) : List Move :=
  if checkedAt s.map k then [] else if checkedAt s'.map k then linksOf s.map k else []

section Walks
variable {lower} {k x : JString} {w w' : Walker} {s s' s'' : Checker} {n : ℕ}
  {log log' : List (JString × Move)} {a : Move} {links : List Move}

/-! ### The record changes nothing -/

theorem walkLinks_forget {f : JString → Walker → Option (Except Exn Unit × Walker)}
    {g : JString → Checker → Ending} (hfg : ∀ k w, (f k w).map Walker.forget = g k w.checker)
    (k : JString) (longname : Option JString) (links : List Move) (w : Walker) :
    (walkLinks lower f k longname links w).map Walker.forget =
      checkLinks lower g longname links w.checker := by
  induction links generalizing w with
  | nil => rfl
  | cons a links ih =>
    simp only [walkLinks,checkLinks]
    cases getCountry lower w.checker.map a.country with
    | none =>
      simp only
      cases a.toString lower w.checker.map with
      | error e => rfl
      | ok text => exact ih _
    | some bar =>
      simp only
      split_ifs
      · rw [← hfg (lower a.country) { w with scanned := w.scanned ++ [(k,a)] }]
        rcases f (lower a.country) { w with scanned := w.scanned ++ [(k,a)] } with _ | ⟨_ | _,w'⟩
        · rfl
        · rfl
        · exact ih w'
      · exact ih _

theorem walk_forget (n : ℕ) (k : JString) (w : Walker) :
    (walk lower n k w).map Walker.forget = check lower n k w.checker := by
  induction n generalizing k w with
  | zero => rfl
  | succ n ih =>
    rw [walk,check]
    cases w.checker.map[k]? with
    | none => rfl
    | some this => exact walkLinks_forget ih k _ _ _

/-! ### What the record says -/

@[simp] theorem logged_nil : logged [] k = [] := rfl

@[simp] theorem logged_append : logged (log ++ log') k = logged log k ++ logged log' k := by
  simp [logged]

theorem logged_singleton : logged [(k,a)] x = if x = k then [a] else [] := by
  by_cases h : k = x
  · simp [logged,h]
  · simp [logged,h,Ne.symm h]

@[simp] theorem newLinks_self : newLinks s s k = [] := by
  unfold newLinks
  split_ifs <;> rfl

theorem newLinks_trans (h : Follows s s') (h' : Follows s' s'') :
    newLinks s s'' k = newLinks s s' k ++ newLinks s' s'' k := by
  have hmark := h.marks k
  have hmark' := h'.marks k
  rw [newLinks,newLinks,newLinks,h.linksOf_eq]
  cases h₀ : checkedAt s.map k <;> cases h₁ : checkedAt s'.map k <;>
    cases h₂ : checkedAt s''.map k <;> simp_all

theorem newLinks_mark (hk : (s.map[k]?).isSome) (hnew : checkedAt s.map k = false) :
    newLinks s { s with map := s.map.modify k Country.mark } x =
      if x = k then linksOf s.map k else [] := by
  rw [newLinks,checkedAt_mark hk]
  by_cases h : k = x
  · simp [← h,hnew]
  · simp only [h,decide_false,Bool.false_or,Ne.symm h,if_false]
    split_ifs <;> rfl

theorem newLinks_eq_nil (hk : checkedAt s.map k) : newLinks s s' k = [] := by
  rw [newLinks,if_pos hk]

/-- The map of the second state is the same but for marks on provinces that can be reached from
`sources`; the record has grown by `log`. -/
structure Visits (lower : ToLowerCase) (sources : JString → Prop) (w w' : Walker)
    (log : List (JString × Move)) : Prop where
  follows : Follows w.checker w'.checker
  scanned : w'.scanned = w.scanned ++ log
  reached : ∀ x, checkedAt w'.checker.map x → checkedAt w.checker.map x = false →
    ∃ y, sources y ∧ Relation.ReflTransGen (Step lower w.checker.map) y x

theorem Visits.record (sources : JString → Prop) (w : Walker) (log : List (JString × Move)) :
    Visits lower sources w { w with scanned := w.scanned ++ log } log where
  follows := .refl _
  scanned := rfl
  reached x hx hnew := by simp [hx] at hnew

theorem Visits.none (sources : JString → Prop) (w : Walker) : Visits lower sources w w [] where
  follows := .refl _
  scanned := (List.append_nil _).symm
  reached x hx hnew := by simp [hx] at hnew

theorem Visits.mono {sources sources' : JString → Prop} (h : Visits lower sources w w' log)
    (hsub : ∀ y, sources y → sources' y) : Visits lower sources' w w' log where
  follows := h.follows
  scanned := h.scanned
  reached x hx hnew := by
    obtain ⟨y,hy,hpath⟩ := h.reached x hx hnew
    exact ⟨y,hsub y hy,hpath⟩

theorem Visits.trans {sources : JString → Prop} {w₁ : Walker} (h : Visits lower sources w w₁ log)
    (h' : Visits lower sources w₁ w' log') : Visits lower sources w w' (log ++ log') where
  follows := h.follows.trans h'.follows
  scanned := by rw [h'.scanned,h.scanned,List.append_assoc]
  reached x hx hnew := by
    by_cases hmid : checkedAt w₁.checker.map x
    · exact h.reached x hmid hnew
    · rw [← h.follows.step_eq]
      exact h'.reached x hx (by simpa using hmid)

/-- A walk from `k` records the links of the provinces that it marks, each once. -/
def WalksOnce (lower : ToLowerCase) (k : JString) (w w' : Walker) : Prop :=
  ∃ log, Visits lower (· = k) w w' log ∧ ∀ x, logged log x = newLinks w.checker w'.checker x

/-- The link leads from its province to `y`. -/
def Leads (lower : ToLowerCase) (links : List Move) (map : Map) (y : JString) : Prop :=
  ∃ a ∈ links, Resolves lower map a ∧ lower a.country = y

/-- The loop at `k` does the same, and records the links it goes through for `k`. -/
def LoopsOnce (lower : ToLowerCase) (k : JString) (links : List Move) (w w' : Walker) : Prop :=
  ∃ log, Visits lower (Leads lower links w.checker.map) w w' log ∧
    ∀ x, logged log x = (if x = k then links else []) ++ newLinks w.checker w'.checker x

/-- The first link is recorded, and followed by a walk that goes from `w` on to `w₁`. -/
theorem LoopsOnce.cons {w₁ : Walker} (hk : checkedAt w.checker.map k)
    (hvisits : Visits lower (Leads lower [a] w.checker.map)
      { w with scanned := w.scanned ++ [(k,a)] } w₁ log)
    (hlog : ∀ x, logged log x = newLinks w.checker w₁.checker x)
    (hrest : LoopsOnce lower k links w₁ w') : LoopsOnce lower k (a::links) w w' := by
  obtain ⟨log',hvisits',hlog'⟩ := hrest
  have hfollows : Follows w.checker w₁.checker := hvisits.follows
  have hfirst : ∀ y, Leads lower [a] w.checker.map y → Leads lower (a::links) w.checker.map y := by
    rintro y ⟨b,hb,hlead⟩
    exact ⟨b,by simp [List.mem_singleton.mp hb],hlead⟩
  have hothers : ∀ y, Leads lower links w₁.checker.map y →
      Leads lower (a::links) w.checker.map y := by
    rintro y ⟨b,hb,hres,hy⟩
    exact ⟨b,List.mem_cons_of_mem a hb,hfollows.resolves_iff.mp hres,hy⟩
  refine ⟨[(k,a)] ++ log ++ log',?_,fun x => ?_⟩
  · exact ((Visits.record _ w _).trans (hvisits.mono hfirst)).trans (hvisits'.mono hothers)
  · rw [logged_append,logged_append,logged_singleton,hlog,hlog',
      newLinks_trans hfollows hvisits'.follows]
    by_cases hx : x = k
    · subst x
      simp [newLinks_eq_nil hk]
    · simp [hx]

theorem walkLinks_once {f : JString → Walker → Option (Except Exn Unit × Walker)}
    (hf : ∀ k w w', (w.checker.map[k]?).isSome → checkedAt w.checker.map k = false →
      f k w = some (.ok (),w') → WalksOnce lower k w w')
    (k : JString) (longname : Option JString) (links : List Move) (w : Walker)
    (hk : checkedAt w.checker.map k)
    (h : walkLinks lower f k longname links w = some (.ok (),w')) :
    LoopsOnce lower k links w w' := by
  induction links generalizing w with
  | nil =>
    cases h
    exact ⟨[],.none _ w',by simp⟩
  | cons a links ih =>
    cases hget : getCountry lower w.checker.map a.country with
    | none => simp [walkLinks,Move.toString,hget] at h
    | some bar =>
      have hres : Resolves lower w.checker.map a := by simp [Resolves,hget]
      have hmark := checkedAt_getCountry hget
      simp only [walkLinks,hget] at h
      split_ifs at h with hbar
      · have hsome : (w.checker.map[lower a.country]?).isSome := by
          rw [getCountry] at hget
          simp [hget]
        split at h
        · rename_i w₁ hwalk
          obtain ⟨log,hvisits,hlog⟩ := hf _ { w with scanned := w.scanned ++ [(k,a)] } w₁ hsome
            (hmark.trans hbar) hwalk
          refine .cons hk (hvisits.mono ?_) hlog (ih w₁ (hvisits.follows.marks k hk) h)
          rintro y rfl
          exact ⟨a,by simp,hres,rfl⟩
        · rename_i hne
          exact absurd h (hne w')
      · have hrest := ih { w with scanned := w.scanned ++ [(k,a)] } hk h
        exact .cons hk (.none _ _) (by simp) hrest

theorem walk_once (hk : (w.checker.map[k]?).isSome) (hnew : checkedAt w.checker.map k = false)
    (h : walk lower n k w = some (.ok (),w')) : WalksOnce lower k w w' := by
  induction n generalizing k w w' with
  | zero => cases h
  | succ n ih =>
    obtain ⟨this,hthis⟩ := Option.isSome_iff_exists.mp hk
    have hlinks : this.links.moves = linksOf w.checker.map k := by simp [linksOf,hthis]
    have hfollows := follows_mark (s:=w.checker) hk
    simp only [walk,hthis] at h
    obtain ⟨log,hvisits,hlog⟩ := walkLinks_once (fun k w w' h₁ h₂ h₃ => ih h₁ h₂ h₃) k
      this.longname this.links.moves _ (by simp [checkedAt_mark hk]) h
    refine ⟨log,⟨hfollows.trans hvisits.follows,hvisits.scanned,?_⟩,fun x => ?_⟩
    · intro x hx hxnew
      by_cases hxk : k = x
      · exact ⟨k,rfl,hxk ▸ .refl⟩
      · have hmid : checkedAt (w.checker.map.modify k Country.mark) x = false := by
          simp [checkedAt_mark hk,hxk,hxnew]
        obtain ⟨y,⟨a,ha,hres,rfl⟩,hpath⟩ := hvisits.reached x hx hmid
        rw [hfollows.step_eq] at hpath
        rw [hlinks] at ha
        exact ⟨k,rfl,.head ⟨a,ha,hfollows.resolves_iff.mp hres,rfl⟩ hpath⟩
    · rw [hlog,hlinks,newLinks_trans hfollows hvisits.follows,newLinks_mark hk hnew]

/-- On a map whose links all resolve, with no mark on it, the check of a province ends, marks
what can be reached from it and nothing else, and goes once through the links of each of
these. -/
theorem check_walks_once {map : Map} (hres : ∀ k, ∀ a ∈ linksOf map k, Resolves lower map a)
    (hunmarked : ∀ k, checkedAt map k = false) (hk : (map[k]?).isSome) (out : List JString) :
    ∃ depth, ∀ d ≥ depth, ∃ w, walk lower d k ⟨⟨map,out⟩,[]⟩ = some (.ok (),w) ∧
      check lower d k ⟨map,out⟩ = some (.ok (),w.checker) ∧
      (∀ x, checkedAt w.checker.map x ↔ Relation.ReflTransGen (Step lower map) k x) ∧
      ∀ x, (Relation.ReflTransGen (Step lower map) k x → logged w.scanned x = linksOf map x) ∧
        (¬Relation.ReflTransGen (Step lower map) k x → logged w.scanned x = []) := by
  obtain ⟨depth,hexplored⟩ : ∃ depth, Explored lower k ⟨map,out⟩ (check lower depth k ⟨map,out⟩) :=
    exists_explored hk hunmarked
  obtain ⟨e,s',hcheck,-,hend⟩ := hexplored
  cases e with
  | error e =>
    obtain ⟨x,-,a,ha,hbad⟩ := hend
    exact absurd (hres x a ha) hbad
  | ok u =>
    obtain ⟨hmarked,hclosed⟩ := hend
    refine ⟨depth,fun d hd => ?_⟩
    have hcheck' := check_mono hd hcheck
    obtain ⟨⟨e,w⟩,hwalk,hforget⟩ : ∃ r, walk lower d k ⟨⟨map,out⟩,[]⟩ = some r ∧
        Walker.forget r = (.ok (),s') :=
      Option.map_eq_some_iff.mp ((walk_forget d k _).trans hcheck')
    obtain ⟨rfl,rfl⟩ := Prod.mk.inj hforget
    obtain ⟨log,hvisits,hlog⟩ := walk_once hk (hunmarked k) hwalk
    have hreached : ∀ x, checkedAt w.checker.map x ↔ Relation.ReflTransGen (Step lower map) k x := by
      intro x
      constructor
      · intro hx
        obtain ⟨y,rfl,hpath⟩ := hvisits.reached x hx (hunmarked x)
        exact hpath
      · exact hclosed.reached hunmarked hmarked
    have hscanned : w.scanned = log := hvisits.scanned
    refine ⟨w,hwalk,hcheck',hreached,fun x => ?_⟩
    have hnew : ¬checkedAt map x := by simp [hunmarked x]
    rw [hscanned,hlog,newLinks,if_neg hnew,← hreached]
    exact ⟨fun hx => if_pos hx,fun hx => if_neg hx⟩

end Walks

/-- Berlin and Kiel with a link to each other are both marked, and each of the two links is
looked at once. -/
theorem check_walks_once_kiel : ∃ depth, ∀ d ≥ depth, ∃ w,
    walk id d (lit "ber") ⟨⟨berlinKiel ["ber"],[]⟩,[]⟩ = some (.ok (),w) ∧
      checkedAt w.checker.map (lit "ber") ∧ checkedAt w.checker.map (lit "kie") ∧
      logged w.scanned (lit "ber") = [⟨lit "kie",.noPort,.noPort⟩] ∧
      logged w.scanned (lit "kie") = [⟨lit "ber",.noPort,.noPort⟩] := by
  have hres : ∀ k, ∀ a ∈ linksOf (berlinKiel ["ber"]) k, Resolves id (berlinKiel ["ber"]) a := by
    rw [← badLinks_eq_nil]
    decide
  have hkiel : Relation.ReflTransGen (Step id (berlinKiel ["ber"])) (lit "ber") (lit "kie") :=
    .single ⟨⟨lit "kie",.noPort,.noPort⟩,by decide,by decide,rfl⟩
  obtain ⟨depth,h⟩ := check_walks_once (k:=lit "ber") hres (berlinKiel_loaded ["ber"]).unmarked
    rfl []
  refine ⟨depth,fun d hd => ?_⟩
  obtain ⟨w,hwalk,-,hmarks,hlog⟩ := h d hd
  exact ⟨w,hwalk,(hmarks _).mpr .refl,(hmarks _).mpr hkiel,(hlog _).1 .refl,(hlog _).1 hkiel⟩

end Diplomacy
end MiscUniStuff
