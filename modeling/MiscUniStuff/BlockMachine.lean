import Mathlib.Tactic

/-! Structured programs, one step at a time. A block begins with its end, with an
action on the state or with a loop; a configuration is the stack of the blocks
still to run. The library has the composition of runs, the invariant rule and the
rule that carries a map of the states through every run. -/
namespace BlockMachine

/-- How a block can begin. While its test holds, a loop runs its body and comes back. -/
inductive View (P σ ε : Type*)
  | halt
  | act (f : σ → Except ε σ) (rest : P)
  | loop (test : σ → Except ε Bool) (body rest : P)

/-- The blocks still to run, the innermost first, and the state. -/
structure Config (P σ : Type*) where
  blocks : List P
  state : σ

variable {P σ τ ε : Type*}

/-- One step; a configuration with nothing left to run stays as it is. -/
def step (view : P → View P σ ε) : Config P σ → Except ε (Config P σ)
  | ⟨[],s⟩ => .ok ⟨[],s⟩
  | ⟨b::bs,s⟩ =>
    match view b with
    | .halt => .ok ⟨bs,s⟩
    | .act f g => (f s).map fun s' => ⟨g::bs,s'⟩
    | .loop test x y => (test s).map fun again => ⟨if again then x::b::bs else y::bs,s⟩

/-- The configuration after `n` steps, or the error met on the way. -/
def after (view : P → View P σ ε) : ℕ → Config P σ → Except ε (Config P σ)
  | 0, c => .ok c
  | n+1, c => (step view c).bind (after view n)

/-- What a result promises: `I` of a value, `E` of an error. -/
def Post {α : Type*} (I : α → Prop) (E : ε → Prop) : Except ε α → Prop
  | .ok a => I a
  | .error e => E e

theorem Post.map {α β : Type*} {I : α → Prop} {J : β → Prop} {E : ε → Prop} {f : α → β}
    (hf : ∀ a, I a → J (f a)) {r : Except ε α} (h : Post I E r) : Post J E (r.map f) := by
  cases r with
  | ok a => exact hf a h
  | error e => exact h

theorem Post.bind {α β : Type*} {I : α → Prop} {J : β → Prop} {E : ε → Prop}
    {f : α → Except ε β} (hf : ∀ a, I a → Post J E (f a)) {r : Except ε α} (h : Post I E r) :
    Post J E (r.bind f) := by
  cases r with
  | ok a => exact hf a h
  | error e => exact h

variable {view : P → View P σ ε}

/-! ### Runs -/

theorem after_nothing (n : ℕ) (s : σ) : after view n ⟨[],s⟩ = .ok ⟨[],s⟩ := by
  induction n with
  | zero => rfl
  | succ n ih => exact ih

/-- Some number of steps leads from `c` to the result. -/
def Reaches (view : P → View P σ ε) (c : Config P σ) (r : Except ε (Config P σ)) : Prop :=
  ∃ n, after view n c = r

theorem Reaches.refl (c : Config P σ) : Reaches view c (.ok c) := ⟨0,rfl⟩

theorem Reaches.head {c c' : Config P σ} {r : Except ε (Config P σ)}
    (hc : step view c = .ok c') (h : Reaches view c' r) : Reaches view c r := by
  obtain ⟨n,hn⟩ := h
  refine ⟨n+1,?_⟩
  rw [after,hc]
  exact hn

theorem Reaches.error {c : Config P σ} {e : ε} (hc : step view c = .error e) :
    Reaches view c (.error e) :=
  ⟨1,by rw [after,hc]; rfl⟩

theorem Reaches.trans {c c' : Config P σ} {r : Except ε (Config P σ)}
    (h : Reaches view c (.ok c')) (h' : Reaches view c' r) : Reaches view c r := by
  obtain ⟨n,hn⟩ := h
  induction n generalizing c with
  | zero =>
    cases hn
    exact h'
  | succ n ih =>
    rw [after] at hn
    cases hc : step view c with
    | error e => simp [hc,Except.bind] at hn
    | ok d =>
      simp only [hc,Except.bind] at hn
      exact Reaches.head hc (ih hn)

/-! ### Invariants -/

theorem after_post {I : Config P σ → Prop} {E : ε → Prop}
    (hstep : ∀ c, I c → Post I E (step view c)) {c : Config P σ} (hc : I c) (n : ℕ) :
    Post I E (after view n c) := by
  induction n generalizing c with
  | zero => exact hc
  | succ n ih =>
    rw [after]
    exact Post.bind (fun d hd => ih hd) (hstep c hc)

/-- The block leads from the states of `S` to states of `S` and to blocks of `G`. -/
def View.Keeps (G : P → Prop) (S : σ → Prop) (E : ε → Prop) : View P σ ε → Prop
  | .halt => True
  | .act f g => G g ∧ ∀ s, S s → Post S E (f s)
  | .loop test x y => G x ∧ G y ∧ ∀ s, S s → Post (fun _ => True) E (test s)

def Config.All (G : P → Prop) (S : σ → Prop) (c : Config P σ) : Prop :=
  (∀ b ∈ c.blocks, G b) ∧ S c.state

variable {G : P → Prop} {S : σ → Prop} {E : ε → Prop}

theorem step_keeps (hG : ∀ b, G b → (view b).Keeps G S E) (c : Config P σ) (hc : c.All G S) :
    Post (Config.All G S) E (step view c) := by
  obtain ⟨blocks,s⟩ := c
  cases blocks with
  | nil => exact hc
  | cons b bs =>
    obtain ⟨hblocks,hs⟩ := hc
    obtain ⟨hb,hbs⟩ := List.forall_mem_cons.mp hblocks
    have hkeep := hG b hb
    cases hv : view b with
    | halt =>
      simp only [step,hv]
      exact ⟨hbs,hs⟩
    | act f g =>
      simp only [hv,View.Keeps] at hkeep
      simp only [step,hv]
      apply Post.map _ (hkeep.2 s hs)
      intro s' hs'
      exact ⟨List.forall_mem_cons.mpr ⟨hkeep.1,hbs⟩,hs'⟩
    | loop test x y =>
      simp only [hv,View.Keeps] at hkeep
      simp only [step,hv]
      apply Post.map _ (hkeep.2.2 s hs)
      intro again _
      refine ⟨?_,hs⟩
      cases again with
      | true => exact List.forall_mem_cons.mpr ⟨hkeep.1,hblocks⟩
      | false => exact List.forall_mem_cons.mpr ⟨hkeep.2.1,hbs⟩

/-- The invariant rule, block by block. -/
theorem after_keeps (hG : ∀ b, G b → (view b).Keeps G S E) {c : Config P σ} (hc : c.All G S)
    (n : ℕ) : Post (Config.All G S) E (after view n c) :=
  after_post (step_keeps hG) hc n

/-! ### Lock-step -/

def Config.map (φ : σ → τ) (c : Config P σ) : Config P τ := ⟨c.blocks,φ c.state⟩

/-- The second view does on the images of `φ` what the first does on the states. -/
def View.Maps (φ : σ → τ) : View P σ ε → View P τ ε → Prop
  | .halt, .halt => True
  | .act f g, .act f' g' => g' = g ∧ ∀ s, f' (φ s) = (f s).map φ
  | .loop test x y, .loop test' x' y' => x' = x ∧ y' = y ∧ ∀ s, test' (φ s) = test s
  | _, _ => False

theorem map_map {α β γ : Type*} (f : α → β) (g : β → γ) (r : Except ε α) :
    (r.map f).map g = r.map fun a => g (f a) := by
  cases r <;> rfl

theorem step_map {φ : σ → τ} {view' : P → View P τ ε} (h : ∀ b, (view b).Maps φ (view' b))
    (c : Config P σ) : step view' (c.map φ) = (step view c).map (Config.map φ) := by
  obtain ⟨blocks,s⟩ := c
  cases blocks with
  | nil => rfl
  | cons b bs =>
    have hb := h b
    cases hv : view b with
    | halt =>
      cases hv' : view' b with
      | halt => simp only [Config.map,step,hv,hv',Except.map]
      | act | loop => simp only [hv,hv',View.Maps] at hb
    | act f g =>
      cases hv' : view' b with
      | act f' g' =>
        simp only [hv,hv',View.Maps] at hb
        simp only [Config.map,step,hv,hv',hb.1,hb.2,map_map]
      | halt | loop => simp only [hv,hv',View.Maps] at hb
    | loop test x y =>
      cases hv' : view' b with
      | loop test' x' y' =>
        simp only [hv,hv',View.Maps] at hb
        simp only [Config.map,step,hv,hv',hb.1,hb.2.1,hb.2.2,map_map]
      | halt | act => simp only [hv,hv',View.Maps] at hb

/-- Every run goes in lock-step with the run of its image. -/
theorem after_map {φ : σ → τ} {view' : P → View P τ ε} (h : ∀ b, (view b).Maps φ (view' b))
    (n : ℕ) (c : Config P σ) :
    after view' n (c.map φ) = (after view n c).map (Config.map φ) := by
  induction n generalizing c with
  | zero => rfl
  | succ n ih =>
    rw [after,after,step_map h]
    cases hc : step view c with
    | error e => rfl
    | ok d => exact ih d

end BlockMachine
