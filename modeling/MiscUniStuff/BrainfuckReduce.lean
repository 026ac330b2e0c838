import MiscUniStuff.BrainfuckEval

/-! The optimiser preserves behaviour. Merging a run of pointer moves replaces
several range checks by one, which is sound as long as the counts are not
negative and their sum stays within a machine word. -/
namespace MiscUniStuff
namespace Brainfuck

/-- Total count of the run of `IncP`s a block begins with. -/
def incRun : BF → ℤ
  | .incP x g => x.toInt + incRun g
  | _ => 0

def decRun : BF → ℤ
  | .decP x g => x.toInt + decRun g
  | _ => 0

/-- No instruction of the tree has a negative count. -/
def BF.NonNegative : BF → Prop
  | .nil => True
  | .add n g | .sub n g | .incP n g | .decP n g => 0 ≤ n.toInt ∧ g.NonNegative
  | .put g | .get g => g.NonNegative
  | .start x y => x.NonNegative ∧ y.NonNegative

/-- The counts of every run of equal pointer moves add up without leaving the
64-bit word, also when added to (or taken from) a pointer in range. -/
def BF.RunsFit : BF → Prop
  | .nil => True
  | .incP n g => incRun (.incP n g) ≤ 2^63-1-50000 ∧ g.RunsFit
  | .decP n g => decRun (.decP n g) ≤ 2^63-1 ∧ g.RunsFit
  | .add _ g | .sub _ g | .put g | .get g => g.RunsFit
  | .start x y => x.RunsFit ∧ y.RunsFit

def State.InRange (s : State) : Prop := 0 ≤ s.pointer.toInt ∧ s.pointer.toInt ≤ 50000

/-- What merging needs of the pointer moves; arithmetic on cells may wrap. -/
def BF.MovesFit : BF → Prop
  | .nil => True
  | .incP n g => 0 ≤ n.toInt ∧ incRun (.incP n g) ≤ 2^63-1-50000 ∧ g.MovesFit
  | .decP n g => 0 ≤ n.toInt ∧ decRun (.decP n g) ≤ 2^63-1 ∧ g.MovesFit
  | .add _ g | .sub _ g | .put g | .get g => g.MovesFit
  | .start x y => x.MovesFit ∧ y.MovesFit

theorem movesFit_of {t : BF} (hpos : t.NonNegative) (hfit : t.RunsFit) : t.MovesFit := by
  induction t with
  | nil => trivial
  | add n g ih => exact ih hpos.2 hfit
  | sub n g ih => exact ih hpos.2 hfit
  | incP n g ih => exact ⟨hpos.1,hfit.1,ih hpos.2 hfit.2⟩
  | decP n g ih => exact ⟨hpos.1,hfit.1,ih hpos.2 hfit.2⟩
  | put g ih => exact ih hpos hfit
  | get g ih => exact ih hpos hfit
  | start x y ihx ihy => exact ⟨ihx hpos.1 hfit.1,ihy hpos.2 hfit.2⟩

theorem incRun_nonneg {t : BF} (h : t.MovesFit) : 0 ≤ incRun t := by
  induction t with
  | incP n g ih =>
    have hg := ih h.2.2
    have hn := h.1
    simp only [incRun]
    omega
  | _ => simp [incRun]

theorem decRun_nonneg {t : BF} (h : t.MovesFit) : 0 ≤ decRun t := by
  induction t with
  | decP n g ih =>
    have hg := ih h.2.2
    have hn := h.1
    simp only [decRun]
    omega
  | _ => simp [decRun]

/-! ### Word arithmetic without overflow -/

theorem toInt_add_of_fits {a b : Int64} (h : -2^63 ≤ a.toInt+b.toInt)
    (h' : a.toInt+b.toInt < 2^63) : (a+b).toInt = a.toInt+b.toInt := by
  rw [Int64.toInt_add]
  exact Int.bmod_eq_of_le (by omega) (by omega)

theorem toInt_sub_of_fits {a b : Int64} (h : -2^63 ≤ a.toInt-b.toInt)
    (h' : a.toInt-b.toInt < 2^63) : (a-b).toInt = a.toInt-b.toInt := by
  rw [Int64.toInt_sub]
  exact Int.bmod_eq_of_le (by omega) (by omega)

theorem lt_iff_of_toInt {a : Int64} {n : ℤ} (h : a.toInt = n) : a > 50000 ↔ 50000 < n := by
  rw [← h,gt_iff_lt,Int64.lt_iff_toInt_lt]
  rfl

theorem neg_iff_of_toInt {a : Int64} {n : ℤ} (h : a.toInt = n) : a < 0 ↔ n < 0 := by
  rw [← h,Int64.lt_iff_toInt_lt]
  rfl

/-! ### The single actions -/

/-- `f` moves the pointer from the range only to the range. -/
def KeepsRange (f : State → Outcome) : Prop :=
  ∀ s s', s.InRange → f s = .ok s' → s'.InRange

theorem writeIOArray_pointer {s s' : State} {a : Int64} (h : s.writeIOArray a = .ok s') :
    s'.pointer = s.pointer := by
  unfold State.writeIOArray at h
  split at h
  · cases h
    rfl
  · cases h

theorem modifyCell_keeps (f : Int64 → Int64) : KeepsRange (modifyCell f) := by
  intro s s' hs h
  unfold modifyCell at h
  cases hr : s.readIOArray with
  | error e => simp [hr,bind,Except.bind] at h
  | ok a =>
    simp only [hr,bind,Except.bind] at h
    simpa only [State.InRange,writeIOArray_pointer h] using hs

theorem putCell_keeps : KeepsRange putCell := by
  intro s s' hs h
  unfold putCell at h
  cases hr : s.readIOArray with
  | error e => simp [hr,bind,Except.bind] at h
  | ok a =>
    simp only [hr,bind,Except.bind,pure,Except.pure,Except.ok.injEq] at h
    subst s'
    exact hs

@[simp] theorem getChar_pointer (s : State) : (getChar s).2.pointer = s.pointer := by
  unfold getChar
  split <;> rfl

theorem getCell_keeps : KeepsRange getCell := by
  intro s s' hs h
  simpa only [State.InRange,writeIOArray_pointer h,getChar_pointer] using hs

theorem moveUnless_ok {outside : Prop} [Decidable outside] {p : Int64} {s s' : State}
    (h : moveUnless outside p s = .ok s') : ¬outside ∧ s' = { s with pointer := p } := by
  unfold moveUnless at h
  split_ifs at h with ho
  cases h
  exact ⟨ho,rfl⟩

theorem incPointer_keeps {x : Int64} (hx : 0 ≤ x.toInt) (hfit : x.toInt ≤ 2^63-1-50000) :
    KeepsRange (incPointer x) := by
  intro s s' hs h
  obtain ⟨hover,rfl⟩ := moveUnless_ok h
  obtain ⟨h₀,h₁⟩ := hs
  have hp : (s.pointer+x).toInt = s.pointer.toInt+x.toInt :=
    toInt_add_of_fits (by omega) (by omega)
  rw [lt_iff_of_toInt hp] at hover
  simp only [State.InRange,hp]
  omega

theorem decPointer_keeps {x : Int64} (hx : 0 ≤ x.toInt) : KeepsRange (decPointer x) := by
  intro s s' hs h
  obtain ⟨hover,rfl⟩ := moveUnless_ok h
  obtain ⟨h₀,h₁⟩ := hs
  have hb := x.toInt_lt
  have hp : (s.pointer-x).toInt = s.pointer.toInt-x.toInt :=
    toInt_sub_of_fits (by omega) (by omega)
  rw [neg_iff_of_toInt hp] at hover
  simp only [State.InRange,hp]
  omega

/-! ### Merging two equal actions -/

theorem modifyCell_merge (f g : Int64 → Int64) (s : State) :
    (modifyCell f s >>= modifyCell g) = modifyCell (g ∘ f) s := by
  cases hc : s.cell with
  | none => simp [modifyCell,State.readIOArray,hc,bind,Except.bind]
  | some i =>
    have hc' (a : Int64) : State.cell { s with tape := Function.update s.tape i a } = some i := hc
    simp [modifyCell,State.readIOArray,State.writeIOArray,hc,hc',bind,Except.bind]

theorem addCell_merge (x y : Int64) (s : State) :
    (addCell x s >>= addCell y) = addCell (x+y) s := by
  have hf : (·+y) ∘ (·+x) = fun h : Int64 => h+(x+y) := by
    funext h
    exact Int64.add_assoc h x y
  exact (modifyCell_merge (·+x) (·+y) s).trans (congrArg (modifyCell · s) hf)

theorem sub_sub_word (a x y : Int64) : a-x-y = a-(x+y) := by
  simp only [Int64.sub_eq_add_neg,Int64.neg_add,Int64.add_assoc]

theorem subCell_merge (x y : Int64) (s : State) :
    (subCell x s >>= subCell y) = subCell (x+y) s := by
  have hf : (·-y) ∘ (·-x) = fun h : Int64 => h-(x+y) := by
    funext h
    exact sub_sub_word h x y
  exact (modifyCell_merge (·-x) (·-y) s).trans (congrArg (modifyCell · s) hf)

/-- Two moves with their own checks are one move with the last check, when the
first check fails only if the last one does. -/
theorem moveUnless_merge {a b : Prop} [Decidable a] [Decidable b] {p q : Int64} {s : State}
    {f : State → Outcome} (hab : a → b)
    (hf : f { s with pointer := p } = moveUnless b q { s with pointer := p }) :
    (moveUnless a p s >>= f) = moveUnless b q s := by
  by_cases ha : a
  · simp [moveUnless,ha,hab ha,bind,Except.bind]
  · have hbind : (moveUnless a p s >>= f) = f { s with pointer := p } := by
      simp [moveUnless,ha,bind,Except.bind]
    rw [hbind,hf]
    rfl

theorem incPointer_merge {x y : Int64} {s : State} (hs : s.InRange) (hx : 0 ≤ x.toInt)
    (hy : 0 ≤ y.toInt) (hfit : x.toInt+y.toInt ≤ 2^63-1-50000) :
    (incPointer x s >>= incPointer y) = incPointer (x+y) s := by
  obtain ⟨h₀,h₁⟩ := hs
  have hp : (s.pointer+x).toInt = s.pointer.toInt+x.toInt :=
    toInt_add_of_fits (by omega) (by omega)
  have hq : (s.pointer+x+y).toInt = s.pointer.toInt+x.toInt+y.toInt := by
    rw [toInt_add_of_fits (by omega) (by omega),hp]
  have hab : s.pointer+x > 50000 → s.pointer+x+y > 50000 := by
    rw [lt_iff_of_toInt hp,lt_iff_of_toInt hq]
    omega
  have hmerge : (incPointer x s >>= incPointer y) =
      moveUnless (s.pointer+x+y > 50000) (s.pointer+x+y) s := moveUnless_merge hab rfl
  rw [hmerge]
  simp only [incPointer,Int64.add_assoc]

theorem decPointer_merge {x y : Int64} {s : State} (hs : s.InRange) (hx : 0 ≤ x.toInt)
    (hy : 0 ≤ y.toInt) (hfit : x.toInt+y.toInt ≤ 2^63-1) :
    (decPointer x s >>= decPointer y) = decPointer (x+y) s := by
  obtain ⟨h₀,h₁⟩ := hs
  have hp : (s.pointer-x).toInt = s.pointer.toInt-x.toInt :=
    toInt_sub_of_fits (by omega) (by omega)
  have hq : (s.pointer-x-y).toInt = s.pointer.toInt-x.toInt-y.toInt := by
    rw [toInt_sub_of_fits (by omega) (by omega),hp]
  have hab : s.pointer-x < 0 → s.pointer-x-y < 0 := by
    rw [neg_iff_of_toInt hp,neg_iff_of_toInt hq]
    omega
  have hmerge : (decPointer x s >>= decPointer y) =
      moveUnless (s.pointer-x-y < 0) (s.pointer-x-y) s := moveUnless_merge hab rfl
  rw [hmerge]
  simp only [decPointer,sub_sub_word]

/-! ### Trees with the same outcomes -/

/-- Started in range, the two trees have the same outcomes (or both none). -/
def Same (t u : BF) : Prop := ∀ s r, s.InRange → (Eval t s r ↔ Eval u s r)

/-- The tree leaves the pointer in range if it finds it there. -/
def Within (t : BF) : Prop := ∀ s s', s.InRange → Eval t s (.ok s') → s'.InRange

theorem Same.refl (t : BF) : Same t t := fun _ _ _ => Iff.rfl

theorem Same.symm {t u : BF} (h : Same t u) : Same u t := fun s r hs => (h s r hs).symm

theorem Same.trans {t u v : BF} (h : Same t u) (h' : Same u v) : Same t v :=
  fun s r hs => (h s r hs).trans (h' s r hs)

theorem Same.within {t u : BF} (h : Same t u) (ht : Within t) : Within u :=
  fun s s' hs hu => ht s s' hs ((h s _ hs).mpr hu)

/-- A block that begins with an action, by the result of that action. -/
theorem eval_act_iff {t g : BF} {f : State → Outcome} (ht : t.shape = .act f g) {s : State}
    {r : Outcome} : Eval t s r ↔
      (∃ s', f s = .ok s' ∧ Eval g s' r) ∨ ∃ e, f s = .error e ∧ r = .error e := by
  constructor
  · intro h
    cases h with
    | halt h => simp [ht] at h
    | act h hf hg =>
      cases ht.symm.trans h
      exact .inl ⟨_,hf,hg⟩
    | actError h hf =>
      cases ht.symm.trans h
      exact .inr ⟨_,hf,rfl⟩
    | guardError h | exit h | again h | bodyError h => simp [ht] at h
  · rintro (⟨s',hf,hg⟩ | ⟨e,hf,rfl⟩)
    · exact .act ht hf hg
    · exact .actError ht hf

theorem same_act {t u g g' : BF} {f : State → Outcome} (ht : t.shape = .act f g)
    (hu : u.shape = .act f g') (hf : KeepsRange f) (hg : Same g g') : Same t u := by
  intro s r hs
  rw [eval_act_iff ht,eval_act_iff hu]
  apply or_congr_left
  apply exists_congr
  intro s'
  constructor
  · rintro ⟨hok,h⟩
    exact ⟨hok,(hg s' r (hf s s' hs hok)).mp h⟩
  · rintro ⟨hok,h⟩
    exact ⟨hok,(hg s' r (hf s s' hs hok)).mpr h⟩

/-- Two actions in a row may be replaced by one that does the same in range. -/
theorem same_merge {t t' u g : BF} {f f' k : State → Outcome} (ht : t.shape = .act f t')
    (ht' : t'.shape = .act f' g) (hu : u.shape = .act k g)
    (hk : ∀ s, s.InRange → (f s >>= f') = k s) : Same t u := by
  intro s r hs
  rw [eval_act_iff ht,eval_act_iff hu,← hk s hs]
  cases hf : f s with
  | error e => simp [bind,Except.bind]
  | ok s' => simp [bind,Except.bind,eval_act_iff ht']

theorem eval_loop_mono {x x' y y' : BF} (hx : Same x x') (hy : Same y y') (hw : Within x)
    {s : State} {r : Outcome} (hs : s.InRange) (h : Eval (.start x y) s r) :
    Eval (.start x' y') s r := by
  generalize ht : BF.start x y = t at h
  induction h with
  | halt h => subst ht; cases h
  | act h => subst ht; cases h
  | actError h => subst ht; cases h
  | guardError h hr =>
    subst ht; cases h
    exact .guardError rfl hr
  | exit h hr ha hrest =>
    subst ht; cases h
    exact .exit rfl hr ha ((hy _ _ hs).mp hrest)
  | again h hr ha hbody _ _ ih =>
    subst ht; cases h
    exact .again rfl hr ha ((hx _ _ hs).mp hbody) (ih (hw _ _ hs hbody) rfl)
  | bodyError h hr ha hbody =>
    subst ht; cases h
    exact .bodyError rfl hr ha ((hx _ _ hs).mp hbody)

theorem same_loop {x x' y y' : BF} (hx : Same x x') (hy : Same y y') (hw : Within x) :
    Same (.start x y) (.start x' y') := fun _ _ hs =>
  ⟨eval_loop_mono hx hy hw hs,eval_loop_mono hx.symm hy.symm (hx.within hw) hs⟩

/-- What the counts of a tree say about the action it begins with. -/
theorem movesFit_act {t g : BF} {f : State → Outcome} (ht : t.shape = .act f g)
    (h : t.MovesFit) : KeepsRange f ∧ g.MovesFit := by
  cases t with
  | nil => cases ht
  | add x g => cases ht; exact ⟨modifyCell_keeps _,h⟩
  | sub x g => cases ht; exact ⟨modifyCell_keeps _,h⟩
  | incP x g =>
    cases ht
    have hrun := incRun_nonneg h.2.2
    have hfit := h.2.1
    simp only [incRun] at hfit
    exact ⟨incPointer_keeps h.1 (by omega),h.2.2⟩
  | decP x g => cases ht; exact ⟨decPointer_keeps h.1,h.2.2⟩
  | put g => cases ht; exact ⟨putCell_keeps,h⟩
  | get g => cases ht; exact ⟨getCell_keeps,h⟩
  | start x y => cases ht

theorem movesFit_loop {t x y : BF} (ht : t.shape = .loop x y) (h : t.MovesFit) :
    x.MovesFit ∧ y.MovesFit := by
  cases t <;> cases ht
  exact h

/-- No run of a tree with fitting counts takes the pointer out of range. -/
theorem within_of_movesFit {t : BF} (h : t.MovesFit) : Within t := by
  intro s s' hs hrun
  generalize hr : Except.ok s' = r at hrun
  induction hrun generalizing s' with
  | halt => cases hr; exact hs
  | act ht hf _ ih =>
    obtain ⟨hkeep,hg⟩ := movesFit_act ht h
    exact ih hg _ (hkeep _ _ hs hf) hr
  | actError => cases hr
  | guardError => cases hr
  | exit ht _ _ _ ih => exact ih (movesFit_loop ht h).2 _ hs hr
  | again ht _ _ _ _ ihx iht => exact iht h _ (ihx (movesFit_loop ht h).1 _ hs rfl) hr
  | bodyError => cases hr

section Merging
variable {x y : Int64} {g : BF}

theorem incRun_merge (h : (BF.incP x (.incP y g)).MovesFit) :
    (x+y).toInt = x.toInt+y.toInt ∧ incRun (.incP (x+y) g) = incRun (.incP x (.incP y g)) := by
  obtain ⟨hx,hfit,hy,_,hg⟩ := h
  have hrun := incRun_nonneg hg
  simp only [incRun] at hfit
  have hxy : (x+y).toInt = x.toInt+y.toInt := toInt_add_of_fits (by omega) (by omega)
  refine ⟨hxy,?_⟩
  simp only [incRun,hxy]
  omega

theorem movesFit_incP_merge (h : (BF.incP x (.incP y g)).MovesFit) :
    x.toInt+y.toInt ≤ 2^63-1-50000 ∧ (BF.incP (x+y) g).MovesFit := by
  obtain ⟨hxy,hsame⟩ := incRun_merge h
  obtain ⟨hx,hfit,hy,_,hg⟩ := h
  have hrun := incRun_nonneg hg
  refine ⟨?_,by omega,hsame ▸ hfit,hg⟩
  simp only [incRun] at hfit
  omega

theorem decRun_merge (h : (BF.decP x (.decP y g)).MovesFit) :
    (x+y).toInt = x.toInt+y.toInt ∧ decRun (.decP (x+y) g) = decRun (.decP x (.decP y g)) := by
  obtain ⟨hx,hfit,hy,_,hg⟩ := h
  have hrun := decRun_nonneg hg
  simp only [decRun] at hfit
  have hxy : (x+y).toInt = x.toInt+y.toInt := toInt_add_of_fits (by omega) (by omega)
  refine ⟨hxy,?_⟩
  simp only [decRun,hxy]
  omega

theorem movesFit_decP_merge (h : (BF.decP x (.decP y g)).MovesFit) :
    x.toInt+y.toInt ≤ 2^63-1 ∧ (BF.decP (x+y) g).MovesFit := by
  obtain ⟨hxy,hsame⟩ := decRun_merge h
  obtain ⟨hx,hfit,hy,_,hg⟩ := h
  have hrun := decRun_nonneg hg
  refine ⟨?_,by omega,hsame ▸ hfit,hg⟩
  simp only [decRun] at hfit
  omega

end Merging

/-- The optimised tree has the outcomes of the tree, in every state in range. -/
theorem same_reduce {t : BF} (h : t.MovesFit) : Same (reduce t) t := by
  induction t using reduce.induct with
  | case1 x y g ih =>
    rw [reduce]
    exact (ih h).trans (same_merge rfl rfl rfl fun s _ => addCell_merge x y s).symm
  | case2 x y g ih =>
    rw [reduce]
    exact (ih h).trans (same_merge rfl rfl rfl fun s _ => subCell_merge x y s).symm
  | case3 x y hne ih =>
    rw [reduce.eq_3 _ _ hne]
    exact same_act rfl rfl (modifyCell_keeps _) (ih h)
  | case4 x y hne ih =>
    rw [reduce.eq_4 _ _ hne]
    exact same_act rfl rfl (modifyCell_keeps _) (ih h)
  | case5 x y g ih =>
    obtain ⟨hsum,hfit⟩ := movesFit_incP_merge h
    rw [reduce]
    exact (ih hfit).trans (same_merge rfl rfl rfl fun s hs =>
      incPointer_merge hs h.1 h.2.2.1 hsum).symm
  | case6 x y g ih =>
    obtain ⟨hsum,hfit⟩ := movesFit_decP_merge h
    rw [reduce]
    exact (ih hfit).trans (same_merge rfl rfl rfl fun s hs =>
      decPointer_merge hs h.1 h.2.2.1 hsum).symm
  | case7 x y hne ih =>
    rw [reduce.eq_7 _ _ hne]
    exact same_act rfl rfl (movesFit_act rfl h).1 (ih h.2.2)
  | case8 x y hne ih =>
    rw [reduce.eq_8 _ _ hne]
    exact same_act rfl rfl (movesFit_act rfl h).1 (ih h.2.2)
  | case9 y ih =>
    rw [reduce]
    exact same_act rfl rfl putCell_keeps (ih h)
  | case10 y ih =>
    rw [reduce]
    exact same_act rfl rfl getCell_keeps (ih h)
  | case11 x y ihx ihy =>
    have hx := ihx h.1
    rw [reduce]
    exact same_loop hx (ihy h.2) (hx.symm.within (within_of_movesFit h.1))
  | case12 =>
    rw [reduce]
    exact Same.refl _

/-- The parser makes counts of one, and no run is longer than the text. -/
theorem compile_counts {text : List Char} (h : text.length ≤ 2^63-1-50000) :
    (compile text).NonNegative ∧ (compile text).RunsFit ∧
      incRun (compile text) ≤ text.length ∧ decRun (compile text) ≤ text.length := by
  induction text using text_induction with
  | nil => simp [BF.NonNegative,BF.RunsFit,incRun,decRun]
  | cons x y hy hbody hrest =>
    simp only [List.length_cons,Nat.cast_succ] at h ⊢
    have h1 : (1 : Int64).toInt = 1 := rfl
    obtain ⟨hpos,hfit,hinc,hdec⟩ := hy (by omega)
    rw [compile]
    split_ifs
    · exact ⟨⟨by omega,hpos⟩,hfit,by simp only [incRun]; omega,by simp only [decRun]; omega⟩
    · exact ⟨⟨by omega,hpos⟩,hfit,by simp only [incRun]; omega,by simp only [decRun]; omega⟩
    · refine ⟨⟨by omega,hpos⟩,⟨?_,hfit⟩,?_,?_⟩ <;> simp only [incRun,decRun] <;> omega
    · refine ⟨⟨by omega,hpos⟩,⟨?_,hfit⟩,?_,?_⟩ <;> simp only [incRun,decRun] <;> omega
    · have hg := findend_body_length y 1
      have hf := findend_rest_length y 1
      obtain ⟨hbodyPos,hbodyFit,-⟩ := hbody (by omega)
      obtain ⟨hrestPos,hrestFit,-⟩ := hrest (by omega)
      rw [doStart]
      exact ⟨⟨hbodyPos,hrestPos⟩,⟨hbodyFit,hrestFit⟩,by simp only [incRun]; omega,
        by simp only [decRun]; omega⟩
    · exact ⟨hpos,hfit,by simp only [incRun]; omega,by simp only [decRun]; omega⟩
    · exact ⟨hpos,hfit,by simp only [incRun]; omega,by simp only [decRun]; omega⟩
    · exact ⟨hpos,hfit,by omega,by omega⟩

/-- Running the optimised tree and running the tree have exactly the same
outcomes: the same final state, or the same error after the same output and
input; in particular one stops if and only if the other does. -/
theorem reduce_correct (t : BF) (hpos : t.NonNegative) (hfit : t.RunsFit) (s : State)
    (hs : s.InRange) (r : Outcome) :
    (∃ n, proc n (reduce t) s = some r) ↔ ∃ n, proc n t s = some r := by
  rw [← eval_iff_proc,← eval_iff_proc]
  exact same_reduce (movesFit_of hpos hfit) s r hs

/-- A merged run on a blank tape: both runs stop behind cell 3 with its value printed. -/
theorem reduce_correct_moves :
    (∃ n, proc n (reduce (.incP 1 (.incP 2 (.put .nil)))) ⟨0,start,.nil,[]⟩ =
        some (.ok ⟨3,start,.nil,[Char.ofNat 0]⟩)) ↔
      ∃ n, proc n (.incP 1 (.incP 2 (.put .nil))) ⟨0,start,.nil,[]⟩ =
        some (.ok ⟨3,start,.nil,[Char.ofNat 0]⟩) :=
  reduce_correct _ (by simp [BF.NonNegative]) (by simp [BF.RunsFit,incRun]) _
    (by simp [State.InRange]) _

/-- Without a bound on the counts, a merged run can overflow the word and slip
below the range check that stops the run it replaces. -/
theorem reduce_overflows : ¬ ∀ t : BF, t.NonNegative → ∀ s : State, s.InRange → ∀ r,
    (∃ n, proc n (reduce t) s = some r) ↔ ∃ n, proc n t s = some r := by
  intro h
  have hbad := h (.incP 9223372036854775807 (.incP 1 .nil)) (by simp [BF.NonNegative])
    ⟨0,start,.nil,[]⟩ (by simp [State.InRange]) (.error ⟨.overRange,.nil,[]⟩)
  obtain ⟨n,hn⟩ := hbad.mpr ⟨1,rfl⟩
  have hok : proc 2 (reduce (.incP 9223372036854775807 (.incP 1 .nil))) ⟨0,start,.nil,[]⟩ =
      some (.ok ⟨-9223372036854775808,start,.nil,[]⟩) := by
    simp only [reduce]
    rfl
  have h₁ := proc_mono (le_max_left n 2) hn
  have h₂ := proc_mono (le_max_right n 2) hok
  cases h₁.symm.trans h₂

end Brainfuck
end MiscUniStuff
