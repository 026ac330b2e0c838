import MiscUniStuff.Brainfuck

/-! What a run of the evaluator means: `Eval t s r` is the big-step judgment
that the tree `t` started in `s` stops with the outcome `r`. The bounded
evaluator computes exactly this relation, so a tree that never stops is one
with no outcome. -/
namespace MiscUniStuff
namespace Brainfuck

/-- The three ways a block can begin: its end, an action, a loop. -/
inductive Shape
  | halt
  | act (f : State → Outcome) (rest : BF)
  | loop (body rest : BF)

def BF.shape : BF → Shape
  | .nil => .halt
  | .add x g => .act (addCell x) g
  | .sub x g => .act (subCell x) g
  | .incP x g => .act (incPointer x) g
  | .decP x g => .act (decPointer x) g
  | .put g => .act putCell g
  | .get g => .act getCell g
  | .start x y => .loop x y

theorem proc_succ (n : ℕ) (t : BF) (s : State) :
    proc (n+1) t s =
      match t.shape with
      | .halt => some (.ok s)
      | .act f g => Outcome.next (f s) (proc n g)
      | .loop x y => procWhile n x y s := by
  cases t <;> simp only [proc,BF.shape]

inductive Eval : BF → State → Outcome → Prop
  | halt {t s} : t.shape = .halt → Eval t s (.ok s)
  | act {t s f g s' r} : t.shape = .act f g → f s = .ok s' → Eval g s' r → Eval t s r
  | actError {t s f g e} : t.shape = .act f g → f s = .error e → Eval t s (.error e)
  | guardError {t s x y e} : t.shape = .loop x y → s.readIOArray = .error e →
      Eval t s (.error e)
  | exit {t s x y h r} : t.shape = .loop x y → s.readIOArray = .ok h → wraper h = 0 →
      Eval y s r → Eval t s r
  | again {t s x y h s' r} : t.shape = .loop x y → s.readIOArray = .ok h → wraper h ≠ 0 →
      Eval x s (.ok s') → Eval t s' r → Eval t s r
  | bodyError {t s x y h e} : t.shape = .loop x y → s.readIOArray = .ok h → wraper h ≠ 0 →
      Eval x s (.error e) → Eval t s (.error e)

/-- A call that did not use up its bound answers the same under the next one. -/
theorem proc_step (n : ℕ) :
    (∀ t s r, proc n t s = some r → proc (n+1) t s = some r) ∧
    (∀ x y s r, procWhile n x y s = some r → procWhile (n+1) x y s = some r) ∧
    (∀ x y s r, procNext n x y s = some r → procNext (n+1) x y s = some r) := by
  induction n with
  | zero => simp [proc,procWhile,procNext]
  | succ n ih =>
    obtain ⟨ihp,ihw,ihn⟩ := ih
    refine ⟨?_,?_,?_⟩
    · intro t s r h
      rw [proc_succ] at h ⊢
      cases hs : t.shape with
      | halt => simpa only [hs] using h
      | act f g =>
        simp only [hs] at h ⊢
        cases hf : f s with
        | error e => rw [hf] at h; exact h
        | ok s' =>
          rw [hf] at h
          exact ihp g s' r h
      | loop x y =>
        simp only [hs] at h ⊢
        exact ihw x y s r h
    · intro x y s r h
      rw [procWhile] at h ⊢
      cases hr : s.readIOArray with
      | error e => simpa only [hr] using h
      | ok a =>
        simp only [hr] at h ⊢
        split_ifs at h ⊢
        · exact ihp y s r h
        · exact ihn x y s r h
    · intro x y s r h
      rw [procNext] at h ⊢
      cases hx : proc n x s with
      | none => simp [hx] at h
      | some o =>
        rw [ihp x s o hx]
        simp only [hx] at h ⊢
        cases o with
        | error e => exact h
        | ok s' => exact ihw x y s' r h

theorem proc_mono {n m : ℕ} (hnm : n ≤ m) {t : BF} {s : State} {r : Outcome}
    (h : proc n t s = some r) : proc m t s = some r := by
  induction hnm with
  | refl => exact h
  | step _ ih => exact (proc_step _).1 _ _ _ ih

theorem procWhile_mono {n m : ℕ} (hnm : n ≤ m) {x y : BF} {s : State} {r : Outcome}
    (h : procWhile n x y s = some r) : procWhile m x y s = some r := by
  induction hnm with
  | refl => exact h
  | step _ ih => exact (proc_step _).2.1 _ _ _ _ ih

/-- Soundness of the evaluator, for all three of its functions at once. -/
theorem eval_of_proc (n : ℕ) :
    (∀ t s r, proc n t s = some r → Eval t s r) ∧
    (∀ x y s r, procWhile n x y s = some r → Eval (.start x y) s r) ∧
    (∀ x y s h r, s.readIOArray = .ok h → wraper h ≠ 0 → procNext n x y s = some r →
      Eval (.start x y) s r) := by
  induction n with
  | zero => simp [proc,procWhile,procNext]
  | succ n ih =>
    obtain ⟨ihp,ihw,ihn⟩ := ih
    refine ⟨?_,?_,?_⟩
    · intro t s r h
      rw [proc_succ] at h
      cases hs : t.shape with
      | halt =>
        simp only [hs,Option.some.injEq] at h
        subst r
        exact .halt hs
      | act f g =>
        simp only [hs] at h
        cases hf : f s with
        | error e =>
          simp only [hf,Outcome.next,Option.some.injEq] at h
          subst r
          exact .actError hs hf
        | ok s' =>
          rw [hf] at h
          exact .act hs hf (ihp g s' r h)
      | loop x y =>
        have ht : t = .start x y := by cases t <;> simp_all [BF.shape]
        simp only [hs] at h
        rw [ht]
        exact ihw x y s r h
    · intro x y s r h
      rw [procWhile] at h
      cases hr : s.readIOArray with
      | error e =>
        simp only [hr,Option.some.injEq] at h
        subst r
        exact .guardError rfl hr
      | ok a =>
        simp only [hr] at h
        split_ifs at h with ha
        · exact .exit rfl hr ha (ihp y s r h)
        · exact ihn x y s a r hr ha h
    · intro x y s a r hr ha h
      rw [procNext] at h
      cases hx : proc n x s with
      | none => simp [hx] at h
      | some o =>
        simp only [hx] at h
        cases o with
        | error e =>
          simp only [Outcome.next,Option.some.injEq] at h
          subst r
          exact .bodyError rfl hr ha (ihp x s _ hx)
        | ok s' => exact .again rfl hr ha (ihp x s _ hx) (ihw x y s' r h)

/-- A loop is evaluated by a call of `proc_while`. -/
theorem proc_loop {t x y : BF} (ht : t.shape = .loop x y) {s : State} {r : Outcome}
    (h : ∃ n, procWhile n x y s = some r) : ∃ n, proc n t s = some r := by
  obtain ⟨n,hn⟩ := h
  refine ⟨n+1,?_⟩
  rw [proc_succ,ht]
  exact hn

theorem proc_of_eval {t : BF} {s : State} {r : Outcome} (h : Eval t s r) :
    ∃ n, proc n t s = some r := by
  induction h with
  | halt ht => exact ⟨1,by rw [proc_succ,ht]⟩
  | act ht hf _ ih =>
    obtain ⟨n,hn⟩ := ih
    refine ⟨n+1,?_⟩
    rw [proc_succ,ht]
    simp only [hf,Outcome.next,hn]
  | actError ht hf => exact ⟨1,by rw [proc_succ,ht]; simp only [hf,Outcome.next]⟩
  | guardError ht hr => exact proc_loop ht ⟨1,by rw [procWhile,hr]⟩
  | exit ht hr ha _ ih =>
    obtain ⟨n,hn⟩ := ih
    exact proc_loop ht ⟨n+1,by rw [procWhile,hr]; simp only [if_pos ha,hn]⟩
  | @again t s x y a s' r ht hr ha _ _ ihx iht =>
    obtain ⟨n,hn⟩ := ihx
    obtain ⟨m,hm⟩ := iht
    -- the repeated test is itself a call of `proc` on the same loop
    have hw : ∃ m, procWhile m x y s' = some r := by
      cases m with
      | zero => simp [proc] at hm
      | succ m => exact ⟨m,by simpa only [proc_succ,ht] using hm⟩
    obtain ⟨m,hm⟩ := hw
    refine proc_loop ht ⟨max n m+2,?_⟩
    rw [procWhile,hr]
    simp only [if_neg ha,procNext,proc_mono (le_max_left n m) hn,Outcome.next]
    exact procWhile_mono (le_max_right n m) hm
  | bodyError ht hr ha _ ih =>
    obtain ⟨n,hn⟩ := ih
    refine proc_loop ht ⟨n+2,?_⟩
    rw [procWhile,hr]
    simp only [if_neg ha,procNext,hn,Outcome.next]

/-- The judgment is what the evaluator computes under a large enough bound. -/
theorem eval_iff_proc {t : BF} {s : State} {r : Outcome} :
    Eval t s r ↔ ∃ n, proc n t s = some r :=
  ⟨proc_of_eval,fun ⟨n,hn⟩ => (eval_of_proc n).1 t s r hn⟩

/-- A tree has at most one outcome. -/
theorem eval_deterministic {t : BF} {s : State} {r r' : Outcome}
    (h : Eval t s r) (h' : Eval t s r') : r = r' := by
  obtain ⟨n,hn⟩ := proc_of_eval h
  obtain ⟨m,hm⟩ := proc_of_eval h'
  have h₁ := proc_mono (le_max_left n m) hn
  have h₂ := proc_mono (le_max_right n m) hm
  exact Option.some.inj (h₁.symm.trans h₂)

end Brainfuck
end MiscUniStuff
