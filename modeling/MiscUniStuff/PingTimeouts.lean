import MiscUniStuff.ActiveServers

/-! When a servlet is taken out of the active list: whether that is fair depends on the time
stamp it has been given when it was put there. -/
namespace MiscUniStuff
namespace Pingu
open ByteOrder

/-- A sign of life at time `t`: the servlet was put into the active list, or a packet from
its address was handled. -/
def Sign (log : List PingEvent) (serv : ℕ) (client : SockAddr) (t : ℤ) : Prop :=
  .started serv t ∈ log ∨ .heard client t ∈ log

/-- The last sign of life is more than `PONG_TIME` seconds ago. -/
def Overdue (log : List PingEvent) (serv : ℕ) (client : SockAddr) (now : ℤ) : Prop :=
  ∀ t, Sign log serv client t → t+pongTime < now

/-- Every servlet that was taken out was overdue at that moment. -/
def Fair (log : List PingEvent) : Prop :=
  ∀ before serv client now, before ++ [.removed serv client now] <+: log →
    Overdue before serv client now

namespace Servers

/-- The possible servers that are to be activated have been stamped in this second. -/
def Fresh (now : ℤ) (s : Servers) : Prop :=
  ∀ j ∈ s.possibleServers.take 6, now ≤ (s.servlet j).lastponged

/-- A packet is noticed by every active servlet of its address: it is the first one, or has
been stamped in this second. -/
def Notices (o : Order) (source : SockAddr) (now : ℤ) (s : Servers) : Prop :=
  ∀ j ∈ s.sockets, (s.servlet j).client = source →
    s.findServlet o source = some j ∨ now ≤ (s.servlet j).lastponged

end Servers

/-- The operation leaves no active servlet with a stamp that is older than its last sign
of life. -/
def PingerOp.Stamps (o : Order) (s : Pingers) : PingerOp × ℤ → Prop
  | (.hear source news,now) => news = .nothing ∨ s.servers.Notices o source now
  | (.doConnection _,_) => True
  | (.lookForNewServers,now) => s.servers.Fresh now
  | (.idlePinger i,now) => ∀ k, s.queue[i]? = some k →
      (s.servers.servlet k).lastponged+pongTime < now → s.servers.sockets.erase k = [] →
      s.servers.Fresh now

/-! ### Signs and removals in a log -/

section Log
variable {log new : List PingEvent} {serv : ℕ} {client : SockAddr} {t : ℤ}

theorem sign_append : Sign (log ++ new) serv client t ↔
    Sign log serv client t ∨ Sign new serv client t := by
  simp only [Sign,List.mem_append]
  tauto

theorem fair_concat {e : PingEvent} : Fair (log ++ [e]) ↔
    Fair log ∧ ∀ serv client now, e = .removed serv client now → Overdue log serv client now := by
  constructor
  · intro h
    constructor
    · intro before serv client now hpre
      exact h before serv client now (hpre.trans (List.prefix_append log [e]))
    · intro serv client now he
      subst e
      exact h log serv client now (List.prefix_refl _)
  · intro ⟨hlog,he⟩ before serv client now hpre
    obtain heq | hpre := List.prefix_concat_iff.mp hpre
    · have hh := List.append_inj' heq rfl
      rw [hh.1]
      exact he serv client now (List.singleton_inj.mp hh.2).symm
    · exact hlog before serv client now hpre

/-- Events that take nothing out. -/
theorem Fair.quiet (h : Fair log) (hnew : ∀ serv client now, .removed serv client now ∉ new) :
    Fair (log ++ new) := by
  induction new using List.reverseRecOn with
  | nil => simpa using h
  | append_singleton new e ih =>
    rw [← List.append_assoc,fair_concat]
    constructor
    · apply ih
      intro serv client now hmem
      exact hnew serv client now (List.mem_append_left _ hmem)
    · intro serv client now he
      exact absurd (by simp [he]) (hnew serv client now)

end Log

/-! ### Stamps -/

/-- No active servlet has a sign of life that is later than its stamp. -/
def Stamped (s : Servers) (log : List PingEvent) : Prop :=
  ∀ j ∈ s.sockets, ∀ t, Sign log j (s.servlet j).client t → t ≤ (s.servlet j).lastponged

/-- An active servlet that an operation has left as it was. -/
structure Untouched (s s' : Servers) (new : List PingEvent) (j : ℕ) : Prop where
  active : j ∈ s.sockets
  client : (s'.servlet j).client = (s.servlet j).client
  lastponged : (s'.servlet j).lastponged = (s.servlet j).lastponged
  sign : ∀ t, ¬Sign new j (s.servlet j).client t

/-- What one operation does to the stamps: every servlet that is active after it has been
stamped, or was active before and is untouched. -/
def Restamps (s s' : Servers) (new : List PingEvent) (now : ℤ) : Prop :=
  ∀ j ∈ s'.sockets, now ≤ (s'.servlet j).lastponged ∨ Untouched s s' new j

theorem Stamped.step {s s' : Servers} {log new : List PingEvent} {now : ℤ} (h : Stamped s log)
    (hnow : ∀ serv client t, Sign (log ++ new) serv client t → t ≤ now)
    (hnew : Restamps s s' new now) : Stamped s' (log ++ new) := by
  intro j hj t ht
  obtain hj | hj := hnew j hj
  · exact (hnow j _ t ht).trans hj
  · rw [hj.client,sign_append] at ht
    rw [hj.lastponged]
    obtain ht | ht := ht
    · exact h j hj.active t ht
    · exact absurd ht (hj.sign t)

namespace Pingers
variable {o : Order} {now f : ℤ} {s : Pingers}

theorem sendPing_events (k : ℕ) (s : Servers) :
    (sendPing k f s).2 = [] ∨ (sendPing k f s).2 = [.pinged (s.servlet k).client] := by
  unfold sendPing
  simp only
  split_ifs
  · exact .inr rfl
  · exact .inl rfl

theorem sendPing_sign (k : ℕ) (s : Servers) (serv : ℕ) (client : SockAddr) (t : ℤ) :
    ¬Sign (sendPing k f s).2 serv client t := by
  obtain h | h := sendPing_events (f:=f) k s <;> simp [h,Sign]

theorem removal_sign (k : ℕ) (s : Servers) (serv : ℕ) (client : SockAddr) (t : ℤ) :
    ¬Sign (removal k f s) serv client t := by
  rw [removal]
  split_ifs <;> simp [Sign]

/-- The servlets that `look_for_new_servers` starts are the only ones it notes. -/
theorem look_sign {l : List ℕ} {p : Prop} [Decidable p] {serv : ℕ} {client : SockAddr} {t : ℤ} :
    Sign (l.map (fun j => .started j now) ++ if p then [.asked] else []) serv client t ↔
      serv ∈ l ∧ t = now := by
  split_ifs <;> simp [Sign,eq_comm]

theorem look_quiet {l : List ℕ} {p : Prop} [Decidable p] (serv : ℕ) (client : SockAddr) (t : ℤ) :
    PingEvent.removed serv client t ∉
      l.map (fun j => .started j now) ++ if p then [.asked] else [] := by
  split_ifs <;> simp

theorem restamps_newServlet {i : SockAddr} :
    Restamps s.servers (s.newServlet i now).1.servers (s.newServlet i now).2 now := by
  intro j hj
  rw [servers_newServlet] at hj ⊢
  simp only [Servers.newServlet,Servers.newServletReal,Servers.newServletStartup,
    List.mem_append,List.mem_singleton] at hj ⊢
  by_cases hnext : j = s.servers.next
  · left
    simp [hnext]
  · right
    have hactive : j ∈ s.servers.sockets := by simpa [hnext] using hj
    refine ⟨hactive,by simp [hnext],by simp [hnext],fun t => ?_⟩
    simp [newServlet,newServletStartup,Servers.newServletReal,Sign,hnext]

theorem restamps_heard {source : SockAddr}
    (hnotice : s.servers.Notices o source now) :
    Restamps s.servers (s.hear o source now .heard).1.servers
      (s.hear o source now .heard).2 now := by
  cases hf : s.servers.findServlet o source with
  | none =>
    intro j hj
    have hother (hj : j ∈ s.servers.sockets) : source ≠ (s.servers.servlet j).client := by
      intro heq
      exact Servers.findServlet_none hf (List.mem_map.mpr ⟨j,hj,heq.symm⟩)
    rw [servers_hear,Servers.hear,Servers.checkAddServer_none hf] at hj ⊢
    have hnew : Restamps s.servers (s.newServlet source now).1.servers (s.newServlet source now).2
        now := restamps_newServlet
    obtain hstamp | hsame := hnew j hj
    · exact .inl hstamp
    · refine .inr ⟨hsame.active,hsame.client,hsame.lastponged,fun t => ?_⟩
      have hsign := hsame.sign t
      simp only [newServlet,newServletStartup,Servers.newServletReal,Sign] at hsign
      simpa [hear,hf,Sign,(hother hsame.active).symm] using hsign
  | some k =>
    intro j hj
    rw [servers_hear,Servers.hear,Servers.checkAddServer_some hf] at hj ⊢
    by_cases hjk : j = k
    · left
      simp [hjk]
    · by_cases hsource : (s.servers.servlet j).client = source
      · left
        obtain hfirst | hstamp := hnotice j hj hsource
        · rw [hf,Option.some.injEq] at hfirst
          exact absurd hfirst.symm hjk
        · simpa [hjk] using hstamp
      · right
        refine ⟨hj,by simp [hjk],by simp [hjk],fun t => ?_⟩
        simp [hear,hf,Sign,hsource]

theorem hear_announced {source i : SockAddr} :
    (s.hear o source now (.announced i)).2 = (s.hear o source now .heard).2 := by
  unfold hear
  cases s.servers.findServlet o source <;> rfl

theorem restamps_hear {source : SockAddr} {news : News} (h : s.servers.Allocated)
    (hnews : news = .nothing ∨ s.servers.Notices o source now) :
    Restamps s.servers (s.hear o source now news).1.servers (s.hear o source now news).2 now := by
  cases news with
  | nothing => exact fun j hj => .inr ⟨hj,rfl,rfl,fun t => by simp [hear,Sign]⟩
  | heard => exact restamps_heard (hnews.resolve_left (by simp))
  | announced i =>
    have hheard := restamps_heard (hnews.resolve_left (by simp))
    have hall : (s.servers.checkAddServer o source now).Allocated :=
      Servers.allocated_checkAddServer h
    intro j hj
    rw [hear_announced]
    simp only [servers_hear,Servers.hear] at hheard hj ⊢
    rw [Servers.sockets_addUpstream] at hj
    have hservlet : ((s.servers.checkAddServer o source now).addUpstream o i now).servlet j =
        (s.servers.checkAddServer o source now).servlet j :=
      Servers.servlet_addUpstream (hall.sockets j hj)
    obtain hstamp | hsame := hheard j hj
    · exact .inl (by rwa [hservlet])
    · exact .inr ⟨hsame.active,by rw [hservlet,hsame.client],by rw [hservlet,hsame.lastponged],
        hsame.sign⟩

theorem restamps_lookForNewServers (hfresh : s.servers.Fresh now) :
    Restamps s.servers (s.lookForNewServers now).1.servers (s.lookForNewServers now).2 now := by
  intro j hj
  rw [lookForNewServers_eq] at hj ⊢
  by_cases hnew : j ∈ s.servers.possibleServers.take 6
  · exact .inl (hfresh j hnew)
  · have hactive : j ∈ s.servers.sockets := (List.mem_append.mp hj).resolve_right hnew
    refine .inr ⟨hactive,rfl,rfl,fun t => ?_⟩
    rw [look_sign]
    simp [hnew]

theorem restamps_idlePinger (k : ℕ)
    (hfresh : (s.servers.servlet k).lastponged+pongTime < now →
      s.servers.sockets.erase k = [] → s.servers.Fresh now) :
    Restamps s.servers (s.idlePinger k now).1.servers (s.idlePinger k now).2 now := by
  have hsent := sendPing_servlet (f:=now) k s.servers
  by_cases hout : (s.servers.servlet k).lastponged+pongTime < now
  · by_cases hlast : s.servers.sockets.erase k = []
    · intro j hj
      rw [idlePinger_last k now s hout hlast] at hj ⊢
      left
      simp only [(hsent j).2]
      exact hfresh hout hlast j hj
    · intro j hj
      rw [idlePinger_removes k now s hout hlast] at hj ⊢
      refine .inr ⟨List.mem_of_mem_erase hj,(hsent j).1,(hsent j).2,fun t => ?_⟩
      simp [sign_append,sendPing_sign,removal_sign]
  · intro j hj
    rw [idlePinger_waits k now s hout] at hj ⊢
    rw [(sendPing_lists k s.servers).1] at hj
    exact .inr ⟨hj,(hsent j).1,(hsent j).2,sendPing_sign k s.servers j _⟩

end Pingers

theorem PingerOp.restamps_step {o : Order} {x : PingerOp × ℤ} {s : Pingers}
    (h : s.servers.Allocated) (hstamps : PingerOp.Stamps o s x) :
    Restamps s.servers (PingerOp.step o x s).1.servers (PingerOp.step o x s).2 x.2 := by
  obtain ⟨op,now⟩ := x
  cases op with
  | hear source news => exact Pingers.restamps_hear h hstamps
  | doConnection host => exact Pingers.restamps_newServlet
  | lookForNewServers => exact Pingers.restamps_lookForNewServers hstamps
  | idlePinger i =>
    simp only [PingerOp.step]
    cases hk : s.queue[i]? with
    | none => exact fun j hj => .inr ⟨hj,rfl,rfl,fun t => by simp [Sign]⟩
    | some k => exact Pingers.restamps_idlePinger k (hstamps k hk)

/-! ### One operation -/

namespace Pingers
variable {o : Order} {now t : ℤ} {s : Pingers} {serv : ℕ} {client : SockAddr}

theorem idlePinger_sign (k : ℕ) (h : Sign (s.idlePinger k now).2 serv client t) : t = now := by
  by_cases hout : (s.servers.servlet k).lastponged+pongTime < now
  · by_cases hlast : s.servers.sockets.erase k = []
    · rw [idlePinger_last k now s hout hlast,sign_append,sign_append] at h
      simp only [sendPing_sign,removal_sign,false_or,look_sign] at h
      exact h.2
    · rw [idlePinger_removes k now s hout hlast,sign_append] at h
      simp [sendPing_sign,removal_sign] at h
  · rw [idlePinger_waits k now s hout] at h
    exact absurd h (sendPing_sign k s.servers serv client t)

theorem hear_sign {source : SockAddr} {news : News}
    (h : Sign (s.hear o source now news).2 serv client t) : t = now := by
  cases news <;> cases hf : s.servers.findServlet o source <;> simp [hear,hf,Sign] at h
  all_goals tauto

/-- A turn takes out only a servlet whose stamp is more than `PONG_TIME` seconds old. -/
theorem idlePinger_fair (k : ℕ) {log : List PingEvent} (hlog : Fair log)
    (hstamped : Stamped s.servers log) : Fair (log ++ (s.idlePinger k now).2) := by
  have hping : Fair (log ++ (sendPing k now s.servers).2) := by
    apply hlog.quiet
    obtain hh | hh := sendPing_events (f:=now) k s.servers <;> simp [hh]
  by_cases hout : (s.servers.servlet k).lastponged+pongTime < now
  · have hremoved : Fair (log ++ ((sendPing k now s.servers).2 ++ removal k now s.servers)) := by
      rw [← List.append_assoc,removal]
      split_ifs with hk
      · refine fair_concat.mpr ⟨hping,?_⟩
        rintro _ _ _ ⟨rfl,rfl,rfl⟩ t ht
        have hold := hstamped k hk t ((sign_append.mp ht).resolve_right (sendPing_sign k _ _ _ t))
        omega
      · simpa using hping
    by_cases hlast : s.servers.sockets.erase k = []
    · rw [idlePinger_last k now s hout hlast,← List.append_assoc]
      exact hremoved.quiet look_quiet
    · rwa [idlePinger_removes k now s hout hlast]
  · rwa [idlePinger_waits k now s hout]

end Pingers

/-- All signs of life in the notes of an operation are of the time it happens at. -/
theorem PingerOp.sign_step {o : Order} {x : PingerOp × ℤ} {s : Pingers} {serv : ℕ}
    {client : SockAddr} {t : ℤ} (h : Sign (PingerOp.step o x s).2 serv client t) : t = x.2 := by
  obtain ⟨op,now⟩ := x
  cases op with
  | hear source news => exact Pingers.hear_sign h
  | doConnection host =>
    simp [PingerOp.step,Pingers.doConnection,Pingers.newServlet,Pingers.newServletStartup,
      Sign] at h
    exact h.2
  | lookForNewServers =>
    simp only [PingerOp.step,Pingers.lookForNewServers_eq,Pingers.look_sign] at h
    exact h.2
  | idlePinger i =>
    simp only [PingerOp.step] at h
    cases hk : s.queue[i]? with
    | none => simp [hk,Sign] at h
    | some k =>
      simp only [hk] at h
      exact Pingers.idlePinger_sign k h

theorem PingerOp.fair_step {o : Order} {x : PingerOp × ℤ} {s : Pingers} {log : List PingEvent}
    (hlog : Fair log) (hstamped : Stamped s.servers log) :
    Fair (log ++ (PingerOp.step o x s).2) := by
  obtain ⟨op,now⟩ := x
  cases op with
  | hear source news =>
    apply hlog.quiet
    cases news <;> cases hf : s.servers.findServlet o source <;>
      simp [PingerOp.step,Pingers.hear,hf]
  | doConnection host =>
    apply hlog.quiet
    simp [PingerOp.step,Pingers.doConnection,Pingers.newServlet,Pingers.newServletStartup]
  | lookForNewServers =>
    simp only [PingerOp.step,Pingers.lookForNewServers_eq]
    exact hlog.quiet Pingers.look_quiet
  | idlePinger i =>
    simp only [PingerOp.step]
    cases s.queue[i]? with
    | none => simpa using hlog
    | some k =>
      exact Pingers.idlePinger_fair (s:={ s with queue := s.queue.eraseIdx i }) k hlog hstamped

/-! ### Runs -/

section Run
variable {o : Order}

theorem sign_run {ops : List (PingerOp × ℤ)} {serv : ℕ} {client : SockAddr} {t : ℤ}
    (h : Sign (pingerRun o ops).2 serv client t) : t ∈ ops.map Prod.snd := by
  induction ops using List.reverseRecOn with
  | nil => simp [pingerRun,Sign] at h
  | append_singleton ops x ih =>
    rw [pingerRun_snoc,sign_append] at h
    rw [List.map_append,List.mem_append]
    obtain h | h := h
    · exact .inl (ih h)
    · right
      simp [PingerOp.sign_step h]

/-- If the clock does not go back and every operation stamps what it should, then only
servlets that have been silent for more than `PONG_TIME` seconds are taken out. -/
theorem timeouts_fair (o : Order) (ops : List (PingerOp × ℤ))
    (hclock : ops.Pairwise fun x y => x.2 ≤ y.2)
    (hstamps : ∀ before x, before ++ [x] <+: ops → PingerOp.Stamps o (pingerRun o before).1 x) :
    Fair (pingerRun o ops).2 := by
  -- the stamps carry the induction
  have hboth (before : List (PingerOp × ℤ)) (hpre : before <+: ops) :
      Fair (pingerRun o before).2 ∧
        Stamped (pingerRun o before).1.servers (pingerRun o before).2 := by
    induction before using List.reverseRecOn with
    | nil => simp [pingerRun,Fair,Stamped,Pingers.initial]
    | append_singleton before x ih =>
      obtain ⟨hfair,hstamped⟩ := ih ((List.prefix_append before _).trans hpre)
      have hnow (serv : ℕ) (client : SockAddr) (t : ℤ)
          (ht : Sign (pingerRun o (before ++ [x])).2 serv client t) : t ≤ x.2 := by
        have hlater := (hclock.sublist hpre.sublist)
        obtain ⟨y,hy,rfl⟩ := List.mem_map.mp (sign_run ht)
        obtain hy | hy := List.mem_append.mp hy
        · exact (List.pairwise_append.mp hlater).2.2 y hy x (by simp)
        · rw [List.mem_singleton.mp hy]
      rw [pingerRun_snoc] at hnow ⊢
      exact ⟨PingerOp.fair_step hfair hstamped,hstamped.step hnow
        (PingerOp.restamps_step (listed_run o before).allocated (hstamps before x hpre))⟩
  exact (hboth ops (List.prefix_refl ops)).1

/-- A server that is heard of once, and taken out half a minute later. -/
theorem timeouts_fair_silent :
    Fair (pingerRun .little [(.hear ⟨⟨10,0,0,2⟩,connectionPort⟩ .heard,0),(.idlePinger 0,31)]).2 := by
  apply timeouts_fair
  · decide
  · intro before x hpre
    cases before with
    | nil =>
      obtain rfl := (List.cons_prefix_cons.mp hpre).1
      right
      intro j hj
      simp [pingerRun,Pingers.initial] at hj
    | cons y before =>
      cases before with
      | nil =>
        simp only [List.cons_append,List.nil_append,List.cons_prefix_cons] at hpre
        obtain ⟨rfl,rfl,-⟩ := hpre
        -- there is no other server to look for
        intro k hk hout hlast j hj
        cases hj
      | cons z before =>
        have hlen := hpre.length_le
        simp at hlen

/-- A server that has been announced at time 0 is put into the list at time 40, when the one
that announced it is taken out, and is itself taken out one second later. -/
theorem timeout_unfair : ¬∀ o ops, ops.Pairwise (fun x y : PingerOp × ℤ => x.2 ≤ y.2) →
    Fair (pingerRun o ops).2 := by
  intro h
  have hfair := h .little
    [(.hear ⟨⟨10,0,0,2⟩,connectionPort⟩ (.announced ⟨⟨10,0,0,3⟩,connectionPort⟩),0),
      (.idlePinger 0,40),(.idlePinger 0,41)] (by decide)
  have hearly := hfair [.heard ⟨⟨10,0,0,2⟩,connectionPort⟩ 0,.started 0 0,
    .pinged ⟨⟨10,0,0,2⟩,connectionPort⟩,.removed 0 ⟨⟨10,0,0,2⟩,connectionPort⟩ 40,.started 1 40,
    .pinged ⟨⟨10,0,0,3⟩,connectionPort⟩] 1 ⟨⟨10,0,0,3⟩,connectionPort⟩ 41 (by decide) 40
    (.inl (by decide))
  revert hearly
  decide

end Run

end Pingu
end MiscUniStuff
