import MiscUniStuff.BlockMachine

/-! Total correctness of structured programs: the rules for blocks that end, act or loop,
with a proof system that is sound and complete for the runs of the machine. -/
namespace BlockMachine

variable {P σ ε : Type*} {view : P → View P σ ε} {b g x y : P} {s s' s₁ : σ}
  {f : σ → Except ε σ} {test : σ → Except ε Bool}

/-! ### Blocks above others -/

/-- The configuration with more blocks below its own. -/
def Config.above (ys : List P) (c : Config P σ) : Config P σ := ⟨c.blocks ++ ys,c.state⟩

theorem step_above (b : P) (xs ys : List P) (s : σ) :
    step view ⟨b::xs ++ ys,s⟩ = (step view ⟨b::xs,s⟩).map (Config.above ys) := by
  cases hv : view b with
  | halt => simp [step,hv,Except.map,Config.above]
  | act f g => cases hf : f s <;> simp [step,hv,hf,Except.map,Config.above]
  | loop test x y =>
    cases ht : test s with
    | error e => simp [step,hv,ht,Except.map]
    | ok again => cases again <;> simp [step,hv,ht,Except.map,Config.above]

/-- Blocks run the same whatever is below them. -/
theorem Reaches.above {xs : List P} (h : Reaches view ⟨xs,s⟩ (.ok ⟨[],s'⟩)) (ys : List P) :
    Reaches view ⟨xs ++ ys,s⟩ (.ok ⟨ys,s'⟩) := by
  obtain ⟨n,hn⟩ := h
  induction n generalizing xs s with
  | zero =>
    cases hn
    exact Reaches.refl _
  | succ n ih =>
    cases xs with
    | nil =>
      rw [after] at hn
      exact ih hn
    | cons b xs =>
      rw [after] at hn
      cases hstep : step view ⟨b::xs,s⟩ with
      | error e => simp [hstep,Except.bind] at hn
      | ok c =>
        rw [hstep] at hn
        have habove : step view ⟨b::(xs ++ ys),s⟩ = _ := step_above b xs ys s
        rw [hstep] at habove
        exact Reaches.head habove (ih hn)

/-- A run that gets through two stacks gets through the upper one first. -/
theorem after_above {n : ℕ} {xs ys : List P} (h : after view n ⟨xs ++ ys,s⟩ = .ok ⟨[],s'⟩) :
    ∃ m k s₁, m + k = n ∧ after view m ⟨xs,s⟩ = .ok ⟨[],s₁⟩ ∧
      after view k ⟨ys,s₁⟩ = .ok ⟨[],s'⟩ := by
  induction n generalizing xs s with
  | zero =>
    rw [after,Except.ok.injEq,Config.mk.injEq,List.append_eq_nil_iff] at h
    exact ⟨0,0,s,rfl,by rw [after,h.1.1],by rw [after,h.1.2,h.2]⟩
  | succ n ih =>
    cases xs with
    | nil => exact ⟨0,n+1,s,Nat.zero_add _,rfl,h⟩
    | cons b xs =>
      rw [after,step_above] at h
      cases hstep : step view ⟨b::xs,s⟩ with
      | error e =>
        rw [hstep] at h
        cases h
      | ok c =>
        rw [hstep] at h
        obtain ⟨m,k,s₁,hsum,hupper,hlower⟩ := ih h
        refine ⟨m+1,k,s₁,by omega,?_,hlower⟩
        rw [after,hstep]
        exact hupper

/-! ### Blocks that come to their end -/

/-- The block started in `s` comes to its end in `s'`. -/
def Ends (view : P → View P σ ε) (b : P) (s s' : σ) : Prop :=
  Reaches view ⟨[b],s⟩ (.ok ⟨[],s'⟩)

theorem Ends.halt (hb : view b = .halt) (s : σ) : Ends view b s s :=
  ⟨1,by simp [after,step,hb,Except.bind]⟩

theorem Ends.act (hb : view b = .act f g) (hf : f s = .ok s₁) (h : Ends view g s₁ s') :
    Ends view b s s' := by
  refine Reaches.head ?_ h
  simp only [step,hb,hf,Except.map]

theorem Ends.exit (hb : view b = .loop test x y) (ht : test s = .ok false)
    (h : Ends view y s s') : Ends view b s s' := by
  refine Reaches.head ?_ h
  simp [step,hb,ht,Except.map]

theorem Ends.again (hb : view b = .loop test x y) (ht : test s = .ok true)
    (hx : Ends view x s s₁) (h : Ends view b s₁ s') : Ends view b s s' := by
  have hstep : step view ⟨[b],s⟩ = .ok ⟨[x] ++ [b],s⟩ := by simp [step,hb,ht,Except.map]
  exact Reaches.head hstep ((hx.above [b]).trans h)

/-- From every state of `A` the block comes to its end in a state of `B`. -/
def Total (view : P → View P σ ε) (A : σ → Prop) (b : P) (B : σ → Prop) : Prop :=
  ∀ s, A s → ∃ s', Ends view b s s' ∧ B s'

section Rules
variable {A B C I : σ → Prop}

theorem Total.halt (hb : view b = .halt) (h : ∀ s, A s → B s) : Total view A b B :=
  fun s hs => ⟨s,Ends.halt hb s,h s hs⟩

theorem Total.act (hb : view b = .act f g) (hf : ∀ s, A s → ∃ s₁, f s = .ok s₁ ∧ C s₁)
    (hg : Total view C g B) : Total view A b B := by
  intro s hs
  obtain ⟨s₁,hact,hC⟩ := hf s hs
  obtain ⟨s',hends,hB⟩ := hg s₁ hC
  exact ⟨s',Ends.act hb hact hends,hB⟩

/-- The rule for loops: the body keeps `I` and lowers `v`. -/
theorem Total.loop (hb : view b = .loop test x y) (v : σ → ℕ) (hA : ∀ s, A s → I s)
    (htest : ∀ s, I s → ∃ again, test s = .ok again)
    (hx : ∀ k, Total view (fun s => I s ∧ test s = .ok true ∧ v s = k) x
      fun s => I s ∧ v s < k)
    (hy : Total view (fun s => I s ∧ test s = .ok false) y B) : Total view A b B := by
  have hloop : ∀ n s, v s = n → I s → ∃ s', Ends view b s s' ∧ B s' := by
    intro n
    induction n using Nat.strong_induction_on with
    | _ n ih =>
      intro s hn hs
      obtain ⟨again,ht⟩ := htest s hs
      cases again with
      | false =>
        obtain ⟨s',hends,hB⟩ := hy s ⟨hs,ht⟩
        exact ⟨s',Ends.exit hb ht hends,hB⟩
      | true =>
        obtain ⟨s₁,hbody,hs₁,hless⟩ := hx n s ⟨hs,ht,hn⟩
        obtain ⟨s',hends,hB⟩ := ih (v s₁) hless s₁ rfl hs₁
        exact ⟨s',Ends.again hb ht hbody hends,hB⟩
  intro s hs
  exact hloop (v s) s rfl (hA s hs)

end Rules

/-! ### The proof system -/

/-- Triples that can be proved with the rules. -/
inductive Proves (view : P → View P σ ε) : (σ → Prop) → P → (σ → Prop) → Prop
  | halt {A B : σ → Prop} {b : P} : view b = .halt → (∀ s, A s → B s) → Proves view A b B
  | act {A B C : σ → Prop} {b g : P} {f : σ → Except ε σ} :
      view b = .act f g → (∀ s, A s → ∃ s₁, f s = .ok s₁ ∧ C s₁) →
      Proves view C g B → Proves view A b B
  | loop {A B I : σ → Prop} {b x y : P} {test : σ → Except ε Bool} (v : σ → ℕ) :
      view b = .loop test x y → (∀ s, A s → I s) →
      (∀ s, I s → ∃ again, test s = .ok again) →
      (∀ k, Proves view (fun s => I s ∧ test s = .ok true ∧ v s = k) x fun s => I s ∧ v s < k) →
      Proves view (fun s => I s ∧ test s = .ok false) y B → Proves view A b B

theorem Proves.sound {A B : σ → Prop} (h : Proves view A b B) : Total view A b B := by
  induction h with
  | halt hb hAB => exact Total.halt hb hAB
  | act hb hf _ ih => exact Total.act hb hf ih
  | loop v hb hA htest _ _ ihx ihy => exact Total.loop hb v hA htest ihx ihy

/-- The block is the rest or the body at the beginning of the other. -/
def Part (view : P → View P σ ε) (c b : P) : Prop :=
  (∃ f, view b = .act f c) ∨ ∃ test x y, view b = .loop test x y ∧ (c = x ∨ c = y)

/-- A block that comes to its end has made a first step. -/
theorem after_block {n : ℕ} (h : after view n ⟨[b],s⟩ = .ok ⟨[],s'⟩) :
    ∃ k c, n = k+1 ∧ step view ⟨[b],s⟩ = .ok c ∧ after view k c = .ok ⟨[],s'⟩ := by
  cases n with
  | zero =>
    rw [after,Except.ok.injEq,Config.mk.injEq] at h
    exact absurd h.1 (List.cons_ne_nil b [])
  | succ k =>
    rw [after] at h
    cases hstep : step view ⟨[b],s⟩ with
    | error e =>
      rw [hstep] at h
      cases h
    | ok c =>
      rw [hstep] at h
      exact ⟨k,c,rfl,rfl,h⟩

theorem Ends.halt_eq (hb : view b = .halt) (h : Ends view b s s') : s' = s := by
  obtain ⟨n,hn⟩ := h
  obtain ⟨k,c,-,hstep,hrest⟩ := after_block hn
  simp only [step,hb,Except.ok.injEq] at hstep
  rw [← hstep,after_nothing,Except.ok.injEq,Config.mk.injEq] at hrest
  exact hrest.2.symm

theorem Ends.act_split (hb : view b = .act f g) (h : Ends view b s s') :
    ∃ s₁, f s = .ok s₁ ∧ Ends view g s₁ s' := by
  obtain ⟨n,hn⟩ := h
  obtain ⟨k,c,-,hstep,hrest⟩ := after_block hn
  cases hf : f s with
  | error e =>
    simp only [step,hb,hf,Except.map] at hstep
    cases hstep
  | ok s₁ =>
    simp only [step,hb,hf,Except.map,Except.ok.injEq] at hstep
    exact ⟨s₁,rfl,k,hstep ▸ hrest⟩

/-- A loop that comes to its end leaves at once, or after a round with fewer steps to make. -/
theorem after_loop (hb : view b = .loop test x y) {n : ℕ}
    (h : after view n ⟨[b],s⟩ = .ok ⟨[],s'⟩) :
    (test s = .ok false ∧ Ends view y s s') ∨
      ∃ k s₁, test s = .ok true ∧ Ends view x s s₁ ∧ k < n ∧
        after view k ⟨[b],s₁⟩ = .ok ⟨[],s'⟩ := by
  obtain ⟨k,c,hn,hstep,hrest⟩ := after_block h
  cases ht : test s with
  | error e =>
    simp only [step,hb,ht,Except.map] at hstep
    cases hstep
  | ok again =>
    simp only [step,hb,ht,Except.map,Except.ok.injEq] at hstep
    cases again with
    | false => exact Or.inl ⟨rfl,k,hstep ▸ hrest⟩
    | true =>
      have hc : (⟨[x] ++ [b],s⟩ : Config P σ) = c := hstep
      rw [← hc] at hrest
      obtain ⟨m,j,s₁,hsum,hbody,hback⟩ := after_above hrest
      exact Or.inr ⟨j,s₁,rfl,⟨m,hbody⟩,by omega,hback⟩

/-- Every triple that holds can be proved: the invariant of a loop is that it ends as it
should, and what decreases is the number of steps that this takes. -/
theorem Proves.complete (hwf : WellFounded (Part view)) {A B : σ → Prop} (b : P)
    (h : Total view A b B) : Proves view A b B := by
  induction b using hwf.induction generalizing A B with
  | _ b ih =>
    cases hb : view b with
    | halt =>
      refine Proves.halt hb ?_
      intro s hs
      obtain ⟨s',hends,hB⟩ := h s hs
      exact hends.halt_eq hb ▸ hB
    | act f g =>
      have hg : Total view (fun s => ∃ s', Ends view g s s' ∧ B s') g B := fun s hs => hs
      refine Proves.act hb ?_ (ih g (Or.inl ⟨f,hb⟩) hg)
      intro s hs
      obtain ⟨s',hends,hB⟩ := h s hs
      obtain ⟨s₁,hact,hrest⟩ := hends.act_split hb
      exact ⟨s₁,hact,s',hrest,hB⟩
    | loop test x y =>
      have steps (s : σ) (hs : ∃ s', Ends view b s s' ∧ B s') :
          ∃ s', after view (sInf { n | ∃ s', after view n ⟨[b],s⟩ = .ok ⟨[],s'⟩ ∧ B s' }) ⟨[b],s⟩ =
            .ok ⟨[],s'⟩ ∧ B s' := by
        obtain ⟨s',⟨n,hn⟩,hB⟩ := hs
        exact Nat.sInf_mem (s:={ n | ∃ s', after view n ⟨[b],s⟩ = .ok ⟨[],s'⟩ ∧ B s' })
          ⟨n,s',hn,hB⟩
      refine Proves.loop
        (fun s => sInf { n | ∃ s', after view n ⟨[b],s⟩ = .ok ⟨[],s'⟩ ∧ B s' }) hb h ?_ ?_ ?_
      · intro s hs
        obtain ⟨s',hn,-⟩ := steps s hs
        rcases after_loop hb hn with ⟨ht,-⟩ | ⟨k,s₁,ht,-⟩
        · exact ⟨false,ht⟩
        · exact ⟨true,ht⟩
      · intro k
        refine ih x (Or.inr ⟨test,x,y,hb,Or.inl rfl⟩) ?_
        rintro s ⟨hs,ht,rfl⟩
        obtain ⟨s',hn,hB⟩ := steps s hs
        rcases after_loop hb hn with ⟨hf,-⟩ | ⟨k,s₁,-,hbody,hless,hback⟩
        · rw [ht] at hf
          cases hf
        · have hmem : k ∈ { n | ∃ s', after view n ⟨[b],s₁⟩ = .ok ⟨[],s'⟩ ∧ B s' } := ⟨s',hback,hB⟩
          exact ⟨s₁,hbody,⟨s',⟨k,hback⟩,hB⟩,(Nat.sInf_le hmem).trans_lt hless⟩
      · refine ih y (Or.inr ⟨test,x,y,hb,Or.inr rfl⟩) ?_
        rintro s ⟨hs,ht⟩
        obtain ⟨s',hn,hB⟩ := steps s hs
        rcases after_loop hb hn with ⟨-,hrest⟩ | ⟨k,s₁,hf,-⟩
        · exact ⟨s',hrest,hB⟩
        · rw [ht] at hf
          cases hf

theorem proves_iff (hwf : WellFounded (Part view)) (A : σ → Prop) (b : P) (B : σ → Prop) :
    Proves view A b B ↔ Total view A b B :=
  ⟨Proves.sound,Proves.complete hwf b⟩

end BlockMachine
