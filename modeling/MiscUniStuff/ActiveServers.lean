import MiscUniStuff.Pingers

/-! When the list of active servers holds an address twice. Only `check_add_server` looks
for the address before it adds a server. -/
namespace MiscUniStuff
namespace Pingu
open ByteOrder

/-- What holds of the lists in every run: they hold allocated servlets, and no address is
possible twice. -/
structure Servers.Listed (s : Servers) : Prop where
  allocated : s.Allocated
  possible : s.possible.Nodup

namespace Pingers
variable {o : Order} {now : ℤ} {s : Pingers}

theorem listed_hear {source : SockAddr} {news : News} (h : s.servers.Listed) :
    (s.hear o source now news).1.servers.Listed := by
  rw [servers_hear]
  have hall : (s.servers.checkAddServer o source now).Allocated :=
    Servers.allocated_checkAddServer h.allocated
  have hposs : (s.servers.checkAddServer o source now).possible.Nodup := by
    rw [Servers.possible_checkAddServer h.allocated]
    exact h.possible
  cases news with
  | nothing => exact h
  | heard => exact ⟨hall,hposs⟩
  | announced i => exact ⟨Servers.allocated_addUpstream hall,Servers.nodup_addUpstream hall hposs⟩

theorem servers_newServlet {i : SockAddr} :
    (s.newServlet i now).1.servers = (s.servers.newServlet i now).1 := rfl

theorem listed_doConnection {host : InAddr} (h : s.servers.Listed) :
    (s.doConnection host now).1.servers.Listed := by
  rw [doConnection,servers_newServlet]
  exact ⟨Servers.allocated_newServlet h.allocated,
    by rw [Servers.possible_newServlet h.allocated]; exact h.possible⟩

theorem listed_lookForNewServers (h : s.servers.Listed) :
    (s.lookForNewServers now).1.servers.Listed := by
  refine ⟨?_,by rw [possible_lookForNewServers]; exact h.possible⟩
  rw [lookForNewServers_eq]
  refine ⟨?_,h.allocated.possibleServers⟩
  intro j hj
  obtain hj | hj := List.mem_append.mp hj
  · exact h.allocated.sockets j hj
  · exact h.allocated.possibleServers j (List.mem_of_mem_take hj)

theorem listed_idlePinger (k : ℕ) (h : s.servers.Listed) :
    (s.idlePinger k now).1.servers.Listed :=
  ⟨allocated_idlePinger k h.allocated,by rw [possible_idlePinger]; exact h.possible⟩

end Pingers

theorem PingerOp.listed_step (o : Order) (x : PingerOp × ℤ) (s : Pingers)
    (h : s.servers.Listed) : (PingerOp.step o x s).1.servers.Listed := by
  obtain ⟨op,now⟩ := x
  cases op with
  | hear source news => exact Pingers.listed_hear h
  | doConnection host => exact Pingers.listed_doConnection h
  | lookForNewServers => exact Pingers.listed_lookForNewServers h
  | idlePinger i =>
    simp only [PingerOp.step]
    cases s.queue[i]? with
    | none => exact h
    | some k => exact Pingers.listed_idlePinger (s:={ s with queue := s.queue.eraseIdx i }) k h

theorem listed_run (o : Order) (ops : List (PingerOp × ℤ)) :
    (pingerRun o ops).1.servers.Listed := by
  apply Runs.state_invariant (P:=fun s : Pingers => s.servers.Listed) _ (PingerOp.listed_step o)
  exact ⟨⟨by simp [Pingers.initial],by simp [Pingers.initial]⟩,
    by simp [Pingers.initial,Servers.possible]⟩

/-- The operation brings no address into the list that is already there: the host of
`do_connection` is not active, nor is one of the first six possible servers when new ones
are looked for. A packet, or a turn of the pool, never does. -/
def PingerOp.Unlisted (s : Servers) : PingerOp → Prop
  | .doConnection host => ⟨host,connectionPort⟩ ∉ s.active
  | .lookForNewServers => ∀ i ∈ s.possible.take 6, i ∉ s.active
  | _ => True

theorem nodup_append_singleton {α : Type} {l : List α} {a : α} :
    (l ++ [a]).Nodup ↔ l.Nodup ∧ a ∉ l := by
  rw [← List.concat_eq_append,List.nodup_concat]
  tauto

theorem Servers.nodup_hear {o : Order} {source : SockAddr} {now : ℤ} {news : News}
    {s : Servers} (h : s.Listed) (hnd : s.active.Nodup) :
    (s.hear o source now news).active.Nodup := by
  have hcheck : (s.checkAddServer o source now).active.Nodup := by
    rw [Servers.active_checkAddServer h.allocated]
    split_ifs with hmem
    · exact hnd
    · exact nodup_append_singleton.mpr ⟨hnd,hmem⟩
  cases news with
  | nothing => exact hnd
  | heard => exact hcheck
  | announced i =>
    rw [Servers.hear,Servers.active_addUpstream (Servers.allocated_checkAddServer h.allocated)]
    exact hcheck

/-- One operation keeps the addresses apart exactly when it brings none that is there. -/
theorem PingerOp.nodup_step_iff {o : Order} {op : PingerOp} {now : ℤ} {s : Pingers}
    (h : s.servers.Listed) (hnd : s.servers.active.Nodup) :
    (PingerOp.step o (op,now) s).1.servers.active.Nodup ↔ op.Unlisted s.servers := by
  cases op with
  | hear source news =>
    simp only [PingerOp.step,PingerOp.Unlisted,iff_true,Pingers.servers_hear]
    exact Servers.nodup_hear h hnd
  | doConnection host =>
    simp only [PingerOp.step,PingerOp.Unlisted,Pingers.doConnection,Pingers.servers_newServlet]
    rw [Servers.active_newServlet h.allocated,nodup_append_singleton]
    simp [hnd]
  | lookForNewServers =>
    simp only [PingerOp.step,PingerOp.Unlisted]
    rw [Pingers.active_lookForNewServers,List.nodup_append']
    have hnew : (s.servers.possible.take 6).Nodup := h.possible.sublist (List.take_sublist 6 _)
    simp only [hnd,hnew,true_and]
    exact List.disjoint_comm
  | idlePinger i =>
    simp only [PingerOp.step,PingerOp.Unlisted,iff_true]
    cases s.queue[i]? with
    | none => exact hnd
    | some k =>
      obtain hsub | hnew := Pingers.active_idlePinger (f:=now)
        (s:={ s with queue := s.queue.eraseIdx i }) k
      · exact hsub.nodup hnd
      · rw [hnew]
        exact h.possible.sublist (List.take_sublist 6 _)

/-- In every run the active addresses are distinct after every operation if and only if no
operation has brought one that was already there. -/
theorem one_servlet_per_address_iff (o : Order) (ops : List (PingerOp × ℤ)) :
    (∀ before, before <+: ops → (pingerRun o before).1.servers.active.Nodup) ↔
      ∀ before op now, before ++ [(op,now)] <+: ops →
        op.Unlisted (pingerRun o before).1.servers := by
  have hstep (before : List (PingerOp × ℤ)) (x : PingerOp × ℤ)
      (hbefore : (pingerRun o before).1.servers.active.Nodup) :
      (pingerRun o (before ++ [x])).1.servers.active.Nodup ↔
        x.1.Unlisted (pingerRun o before).1.servers := by
    rw [pingerRun_snoc]
    exact PingerOp.nodup_step_iff (listed_run o before) hbefore
  rw [Runs.prefixes_iff (by simp [pingerRun,Pingers.initial,Servers.active]) hstep]
  simp only [Prod.forall]

/-- The user connects to the same host twice. -/
theorem two_servlets_one_address : ¬∀ o ops, (pingerRun o ops).1.servers.active.Nodup := by
  intro h
  have hnd := h .little [(.doConnection ⟨10,0,0,2⟩,0),(.doConnection ⟨10,0,0,2⟩,1)]
  revert hnd
  decide

end Pingu
end MiscUniStuff
