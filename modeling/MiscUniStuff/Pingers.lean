import MiscUniStuff.ServletLists
import MiscUniStuff.Runs

/-! The pool of `socket.c` that pings the active servers, with every operation that puts
a server into the active list or takes one out. -/
namespace MiscUniStuff
namespace Pingu
open ByteOrder

/-- `PING_TIME` and `PONG_TIME`. -/
def pingTime : ℤ := 5
def pongTime : ℤ := 30

/-- The port of `do_connection`, as `htons(3773)` lies in memory. -/
def connectionPort : InPort := ⟨0x0E,0xBD⟩

/-- The lists, and the servlets that wait in the pool `pingers` for their next turn. -/
structure Pingers where
  servers : Servers
  queue : List ℕ

/-- What is noted of a run: a packet from an address, a servlet put into the active list,
a ping sent, a servlet taken out, and the user asked for another server. -/
inductive PingEvent
  | heard (source : SockAddr) (now : ℤ)
  | started (serv : ℕ) (now : ℤ)
  | pinged (client : SockAddr)
  | removed (serv : ℕ) (client : SockAddr) (now : ℤ)
  | asked
  deriving DecidableEq

namespace Pingers

/-- `new_servlet_startup`. -/
def newServletStartup (serv : ℕ) (now : ℤ) (s : Pingers) : Pingers × List PingEvent :=
  ({ servers := s.servers.newServletStartup serv, queue := s.queue ++ [serv] },[.started serv now])

/-- `new_servlet`. -/
def newServlet (i : SockAddr) (now : ℤ) (s : Pingers) : Pingers × List PingEvent :=
  let (servers,moo) := s.servers.newServletReal i now
  newServletStartup moo now { s with servers := servers }

/-- `do_connection`, for the address the name is resolved to. -/
def doConnection (host : InAddr) (now : ℤ) (s : Pingers) : Pingers × List PingEvent :=
  s.newServlet ⟨host,connectionPort⟩ now

/-- `check_add_server`, and for a reply that announces another server `add_upstream_server`. -/
def hear (o : Order) (source : SockAddr) (now : ℤ) (news : News) (s : Pingers) :
    Pingers × List PingEvent :=
  let servers := s.servers.hear o source now news
  match news,s.servers.findServlet o source with
  | .nothing,_ => (s,[])
  | _,some _ => ({ s with servers := servers },[.heard source now])
  | _,none => ({ servers := servers, queue := s.queue ++ [s.servers.next] },
      [.heard source now,.started s.servers.next now])

/-- The loop of `look_for_new_servers` over the rest `moo` of the list. -/
def lookLoop (now : ℤ) : ℕ → List ℕ → Pingers → (Pingers × List PingEvent) × ℕ
  | i, [], s => ((s,[]),i)
  | i, j::moo, s =>
    let started := s.newServletStartup j now
    if i = 5 then (started,i)
    else
      let rest := lookLoop now (i+1) moo started.1
      ((rest.1.1,started.2 ++ rest.1.2),rest.2)

/-- `look_for_new_servers`. The list of possible servers stays as it is: what is taken out
of it is its own address, which is not among the servlets it holds. -/
def lookForNewServers (now : ℤ) (s : Pingers) : Pingers × List PingEvent :=
  let started := lookLoop now 0 s.servers.possibleServers s
  (started.1.1,started.1.2 ++ if started.2 = 0 then [.asked] else [])

/-- The first half of `idle_pinger`: a ping, when it is time for one. -/
def sendPing (servlet : ℕ) (f : ℤ) (s : Servers) : Servers × List PingEvent :=
  let serv := s.servlet servlet
  if serv.lastpinged = 0 ∨ serv.lastpinged+pingTime < f then
    ({ s with servlet := Function.update s.servlet servlet { serv with lastpinged := f } },
      [.pinged serv.client])
  else (s,[])

/-- `idle_pinger` for a servlet that has its turn. -/
def idlePinger (servlet : ℕ) (f : ℤ) (s : Pingers) : Pingers × List PingEvent :=
  let ping := sendPing servlet f s.servers
  let serv := ping.1.servlet servlet
  if serv.lastponged+pongTime < f then
    let s₁ : Pingers :=
      { s with servers := { ping.1 with sockets := ping.1.sockets.erase servlet } }
    let removed : List PingEvent :=
      if servlet ∈ ping.1.sockets then [.removed servlet serv.client f] else []
    if s₁.servers.sockets = [] then
      let found := s₁.lookForNewServers f
      (found.1,ping.2 ++ removed ++ found.2)
    else (s₁,ping.2 ++ removed)
  else ({ servers := ping.1, queue := s.queue ++ [servlet] },ping.2)

end Pingers

/-- A step of the program that concerns its servers: a packet is handled, the user connects
to a host, new servers are looked for, or a servlet of the pool has its turn. -/
inductive PingerOp
  | hear (source : SockAddr) (news : News)
  | doConnection (host : InAddr)
  | lookForNewServers
  | idlePinger (i : ℕ)

namespace PingerOp

def step (o : Order) : PingerOp × ℤ → Pingers → Pingers × List PingEvent
  | (.hear source news,now), s => s.hear o source now news
  | (.doConnection host,now), s => s.doConnection host now
  | (.lookForNewServers,now), s => s.lookForNewServers now
  | (.idlePinger i,now), s =>
    match s.queue[i]? with
    | some servlet => Pingers.idlePinger servlet now { s with queue := s.queue.eraseIdx i }
    | none => (s,[])

end PingerOp

/-- A program that has just started. -/
def Pingers.initial : Pingers :=
  ⟨⟨fun _ => ⟨⟨.zero,⟨0,0⟩⟩,0,0⟩,0,[],[]⟩,[]⟩

/-- The state and the notes after a list of operations, each with the time it happens at. -/
def pingerRun (o : Order) (ops : List (PingerOp × ℤ)) : Pingers × List PingEvent :=
  Runs.run (PingerOp.step o) .initial ops

theorem pingerRun_snoc {o : Order} (ops : List (PingerOp × ℤ)) (x : PingerOp × ℤ) :
    pingerRun o (ops ++ [x]) = ((PingerOp.step o x (pingerRun o ops).1).1,
      (pingerRun o ops).2 ++ (PingerOp.step o x (pingerRun o ops).1).2) :=
  Runs.run_snoc _ _ _ _

/-! ### What the operations do -/

namespace Pingers
variable {o : Order} {now f : ℤ} {s : Pingers}

/-- The loop starts as many servlets as are left until its counter has gone from 0 to 5. -/
theorem lookLoop_fst {i : ℕ} (hi : i ≤ 5) (moo : List ℕ) (s : Pingers) :
    (lookLoop now i moo s).1 =
      ({ servers := { s.servers with sockets := s.servers.sockets ++ moo.take (6-i) }
         queue := s.queue ++ moo.take (6-i) },(moo.take (6-i)).map fun j => .started j now) := by
  induction moo generalizing i s with
  | nil => simp [lookLoop]
  | cons j moo ih =>
    have htake : 6-i = (6-(i+1))+1 := by omega
    by_cases h5 : i = 5
    · simp [lookLoop,h5,newServletStartup,Servers.newServletStartup]
    · simp only [lookLoop,if_neg h5]
      have hh := ih (i:=i+1) (by omega) (s.newServletStartup j now).1
      simp only [hh]
      rw [htake]
      simp [newServletStartup,Servers.newServletStartup]

theorem lookLoop_snd {i : ℕ} (hi : i ≤ 5) (moo : List ℕ) (s : Pingers) :
    (lookLoop now i moo s).2 = min 5 (i+moo.length) := by
  induction moo generalizing i s with
  | nil => simp [lookLoop,hi]
  | cons j moo ih =>
    by_cases h5 : i = 5
    · simp [lookLoop,h5]
    · simp only [lookLoop,if_neg h5]
      have hh := ih (i:=i+1) (by omega) (s.newServletStartup j now).1
      simp only [hh,List.length_cons]
      congr 1
      omega

/-- At most the first six possible servers become active, and stay possible. -/
theorem lookForNewServers_eq : s.lookForNewServers now =
    ({ servers := { s.servers with
         sockets := s.servers.sockets ++ s.servers.possibleServers.take 6 }
       queue := s.queue ++ s.servers.possibleServers.take 6 },
      (s.servers.possibleServers.take 6).map (fun j => .started j now) ++
        if s.servers.possibleServers = [] then [.asked] else []) := by
  have hcount : min 5 (0+s.servers.possibleServers.length) = 0 ↔ s.servers.possibleServers = [] := by
    rw [← List.length_eq_zero_iff]
    omega
  rw [lookForNewServers]
  simp only [lookLoop_fst (Nat.zero_le 5),lookLoop_snd (Nat.zero_le 5),hcount]

theorem active_lookForNewServers : (s.lookForNewServers now).1.servers.active =
    s.servers.active ++ s.servers.possible.take 6 := by
  rw [lookForNewServers_eq]
  simp [Servers.active,Servers.possible,List.map_take]

theorem possible_lookForNewServers :
    (s.lookForNewServers now).1.servers.possible = s.servers.possible := by
  rw [lookForNewServers_eq]
  rfl

theorem servers_hear {source : SockAddr} {news : News} :
    (s.hear o source now news).1.servers = s.servers.hear o source now news := by
  unfold hear
  cases news <;> cases s.servers.findServlet o source <;> rfl

/-- The lists after `apply_packet` are those after this operation. -/
theorem applyPacket_hear {g : PatternMatch} {c : Calls} {p : FullPacket} {h h' : Host}
    {acts : List Action} (hs : h.servers = s.servers)
    (hr : applyPacket g c p h = .ok (h',acts)) :
    h'.servers = (s.hear h.order p.addr c.time (p.news h.order)).1.servers := by
  rw [servers_hear,← hs]
  exact applyPacket_servers hr

/-- A ping changes nothing but the time of the last ping. -/
theorem sendPing_servlet (k : ℕ) (s : Servers) (j : ℕ) :
    ((sendPing k f s).1.servlet j).client = (s.servlet j).client ∧
      ((sendPing k f s).1.servlet j).lastponged = (s.servlet j).lastponged := by
  unfold sendPing
  simp only
  split_ifs
  · by_cases hj : j = k
    · subst j
      simp
    · simp [hj]
  · exact ⟨rfl,rfl⟩

theorem clients_sendPing (k : ℕ) (s : Servers) :
    (fun j => ((sendPing k f s).1.servlet j).client) = fun j => (s.servlet j).client := by
  funext j
  exact (sendPing_servlet k s j).1

theorem sendPing_lists (k : ℕ) (s : Servers) : (sendPing k f s).1.sockets = s.sockets ∧
    (sendPing k f s).1.possibleServers = s.possibleServers ∧ (sendPing k f s).1.next = s.next := by
  unfold sendPing
  simp only
  split_ifs <;> exact ⟨rfl,rfl,rfl⟩

/-- What is noted when `k` is taken out of the list at time `f`; nothing if it is not in it. -/
def removal (k : ℕ) (f : ℤ) (s : Servers) : List PingEvent :=
  if k ∈ s.sockets then [.removed k (s.servlet k).client f] else []

section Turn
variable (k : ℕ) (f : ℤ) (s : Pingers)

/-- A servlet that has been heard of waits for its next turn. -/
theorem idlePinger_waits (h : ¬(s.servers.servlet k).lastponged+pongTime < f) :
    s.idlePinger k f = ({ servers := (sendPing k f s.servers).1, queue := s.queue ++ [k] },
      (sendPing k f s.servers).2) := by
  simp [idlePinger,(sendPing_servlet k s.servers k).2,h]

/-- One that has not is taken out. -/
theorem idlePinger_removes (h : (s.servers.servlet k).lastponged+pongTime < f)
    (hne : s.servers.sockets.erase k ≠ []) : s.idlePinger k f =
      ({ s with servers :=
          { (sendPing k f s.servers).1 with sockets := s.servers.sockets.erase k } },
        (sendPing k f s.servers).2 ++ removal k f s.servers) := by
  simp [idlePinger,removal,sendPing_servlet,sendPing_lists,h,hne]

/-- If it was the last one, new servers are looked for. -/
theorem idlePinger_last (h : (s.servers.servlet k).lastponged+pongTime < f)
    (hlast : s.servers.sockets.erase k = []) : s.idlePinger k f =
      ({ servers :=
           { (sendPing k f s.servers).1 with sockets := s.servers.possibleServers.take 6 }
         queue := s.queue ++ s.servers.possibleServers.take 6 },
        (sendPing k f s.servers).2 ++ removal k f s.servers ++
          ((s.servers.possibleServers.take 6).map (fun j => .started j f) ++
            if s.servers.possibleServers = [] then [.asked] else [])) := by
  simp [idlePinger,removal,sendPing_servlet,sendPing_lists,h,hlast,lookForNewServers_eq]

end Turn

/-- What a turn in the pool does to the lists. -/
theorem idlePinger_cases (k : ℕ) (f : ℤ) (s : Pingers) :
    (s.idlePinger k f).1.servers = (sendPing k f s.servers).1 ∨
    (s.idlePinger k f).1.servers =
      { (sendPing k f s.servers).1 with sockets := s.servers.sockets.erase k } ∨
    (s.idlePinger k f).1.servers =
      { (sendPing k f s.servers).1 with sockets := s.servers.possibleServers.take 6 } := by
  by_cases hout : (s.servers.servlet k).lastponged+pongTime < f
  · by_cases hlast : s.servers.sockets.erase k = []
    · exact .inr (.inr (by rw [idlePinger_last k f s hout hlast]))
    · exact .inr (.inl (by rw [idlePinger_removes k f s hout hlast]))
  · exact .inl (by rw [idlePinger_waits k f s hout])

theorem possible_idlePinger (k : ℕ) :
    (s.idlePinger k f).1.servers.possible = s.servers.possible := by
  have hlists := sendPing_lists (f:=f) k s.servers
  have hclient := clients_sendPing (f:=f) k s.servers
  obtain h | h | h := idlePinger_cases k f s
  all_goals simp only [h,Servers.possible,hlists.2.1,hclient]

/-- A turn takes servers out of the list, or fills an empty list. -/
theorem active_idlePinger (k : ℕ) :
    (s.idlePinger k f).1.servers.active.Sublist s.servers.active ∨
      (s.idlePinger k f).1.servers.active = s.servers.possible.take 6 := by
  have hlists := sendPing_lists (f:=f) k s.servers
  have hclient := clients_sendPing (f:=f) k s.servers
  obtain h | h | h := idlePinger_cases k f s
  · left
    simp only [h,Servers.active,hlists.1,hclient]
    exact List.Sublist.refl _
  · left
    simp only [h,Servers.active,hclient]
    exact List.Sublist.map _ List.erase_sublist
  · right
    simp only [h,Servers.active,Servers.possible,hclient,List.map_take]

theorem allocated_idlePinger (k : ℕ) (h : s.servers.Allocated) :
    (s.idlePinger k f).1.servers.Allocated := by
  obtain ⟨hsockets,hpossible,hnext⟩ := sendPing_lists (f:=f) k s.servers
  obtain heq | heq | heq := idlePinger_cases k f s
  · rw [heq]
    exact ⟨by rw [hsockets,hnext]; exact h.sockets,
      by rw [hpossible,hnext]; exact h.possibleServers⟩
  · rw [heq]
    exact ⟨fun j hj => hnext ▸ h.sockets j (List.mem_of_mem_erase hj),
      by simp only [hpossible,hnext]; exact h.possibleServers⟩
  · rw [heq]
    exact ⟨fun j hj => hnext ▸ h.possibleServers j (List.mem_of_mem_take hj),
      by simp only [hpossible,hnext]; exact h.possibleServers⟩

end Pingers

end Pingu
end MiscUniStuff
