import Mathlib.Data.List.Induction

/-! Runs of a deterministic system: a list of operations is performed one after the
other, and every operation may emit events. -/
namespace Runs
variable {σ ο ε : Type*} (step : ο → σ → σ × List ε) (s : σ)

/-- The state after a list of operations, and the events emitted on the way. -/
def run (ops : List ο) : σ × List ε :=
  ops.foldl (fun p o => ((step o p.1).1,p.2 ++ (step o p.1).2)) (s,[])

@[simp] theorem run_nil : run step s [] = (s,[]) := rfl

theorem run_snoc (ops : List ο) (o : ο) : run step s (ops ++ [o]) =
    ((step o (run step s ops).1).1,(run step s ops).2 ++ (step o (run step s ops).1).2) := by
  simp [run]

variable {step s}

/-- What holds at the start and is kept by one more operation holds of every run;
the property may speak of the operations performed and of the events. -/
theorem invariant {P : List ο → σ → List ε → Prop} (init : P [] s [])
    (next : ∀ ops o, P ops (run step s ops).1 (run step s ops).2 →
      P (ops ++ [o]) (step o (run step s ops).1).1
        ((run step s ops).2 ++ (step o (run step s ops).1).2)) (ops : List ο) :
    P ops (run step s ops).1 (run step s ops).2 := by
  induction ops using List.reverseRecOn with
  | nil => exact init
  | append_singleton ops o ih =>
    rw [run_snoc]
    exact next ops o ih

/-- An invariant of the states alone. -/
theorem state_invariant {P : σ → Prop} (init : P s) (next : ∀ o s, P s → P (step o s).1)
    (ops : List ο) : P (run step s ops).1 :=
  invariant (P:=fun _ s _ => P s) init (fun _ o h => next o _ h) ops

/-- All events of a run have a property if and only if those of every single step do. -/
theorem forall_events_iff {Q : ε → Prop} (ops : List ο) : (∀ e ∈ (run step s ops).2, Q e) ↔
    ∀ before o, before ++ [o] <+: ops → ∀ e ∈ (step o (run step s before).1).2, Q e := by
  induction ops using List.reverseRecOn with
  | nil => simp
  | append_singleton ops o ih =>
    rw [run_snoc]
    simp only [List.mem_append,or_imp,forall_and,ih]
    constructor
    · intro ⟨hbefore,hlast⟩ before o' hpre
      obtain heq | hpre := List.prefix_concat_iff.mp hpre
      · obtain ⟨rfl,rfl⟩ := List.append_singleton_inj.mp heq
        exact hlast
      · exact hbefore before o' hpre
    · intro hall
      exact ⟨fun before o' hpre => hall before o' (hpre.trans (List.prefix_append ops [o])),
        hall ops o (List.prefix_refl _)⟩

/-- If an operation keeps a property just when it meets a condition, then the property holds
after every beginning of a list of operations if and only if all of them meet the condition. -/
theorem prefixes_iff {P : List ο → Prop} {C : List ο → ο → Prop} (init : P [])
    (next : ∀ before o, P before → (P (before ++ [o]) ↔ C before o)) (ops : List ο) :
    (∀ before, before <+: ops → P before) ↔ ∀ before o, before ++ [o] <+: ops → C before o := by
  constructor
  · intro hall before o hpre
    have hbefore := hall before ((List.prefix_append before [o]).trans hpre)
    exact (next before o hbefore).mp (hall _ hpre)
  · intro hall before
    induction before using List.reverseRecOn with
    | nil => exact fun _ => init
    | append_singleton before o ih =>
      intro hpre
      have hbefore := ih ((List.prefix_append before [o]).trans hpre)
      exact (next before o hbefore).mpr (hall before o hpre)

end Runs
