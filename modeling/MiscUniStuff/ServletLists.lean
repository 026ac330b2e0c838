import MiscUniStuff.ApplyPacket

/-! What the operations of `socket.c` do to the lists of active and of possible
servers, and what a packet makes of them. -/
namespace MiscUniStuff
namespace Pingu
open ByteOrder

namespace Servers

/-- The addresses of the active servers. -/
def active (s : Servers) : List SockAddr := s.sockets.map fun j => (s.servlet j).client

/-- The addresses of the possible servers. -/
def possible (s : Servers) : List SockAddr := s.possibleServers.map fun j => (s.servlet j).client

/-- Both lists hold servlets that have been allocated. -/
structure Allocated (s : Servers) : Prop where
  sockets : ∀ j ∈ s.sockets, j < s.next
  possibleServers : ∀ j ∈ s.possibleServers, j < s.next

/-- `add_upstream_server`, once the address has been read. -/
def addUpstream (o : Order) (i : SockAddr) (now : ℤ) (s : Servers) : Servers :=
  if s.possibleServers.any fun j => cmpSockaddr o (s.servlet j).client i = 0 then s
  else
    let (s₁,l) := s.newServletReal i now
    { s₁ with possibleServers := s₁.possibleServers ++ [l] }

variable {o : Order} {i source : SockAddr} {now : ℤ} {s : Servers}

/-! ### Looking up an address -/

theorem findServlet_isSome : (s.findServlet o i).isSome ↔ i ∈ s.active := by
  simp [findServlet,cmpSockaddr_eq_zero,active]

theorem findServlet_none (h : s.findServlet o i = none) : i ∉ s.active := by
  rw [← findServlet_isSome (o:=o),h]
  exact Bool.false_ne_true

theorem any_possible : (s.possibleServers.any fun j => cmpSockaddr o (s.servlet j).client i = 0) ↔
    i ∈ s.possible := by
  simp [cmpSockaddr_eq_zero,possible]

/-! ### Writing to the servlets -/

/-- Neither address list sees a servlet that is in neither list. -/
theorem map_client_update {l : List ℕ} {k : ℕ} {t : Servlet} (hk : k ∉ l) (f : ℕ → Servlet) :
    (l.map fun j => (Function.update f k t j).client) = l.map fun j => (f j).client := by
  apply List.map_congr_left
  intro j hj
  have hne : j ≠ k := by
    rintro rfl
    exact hk hj
  rw [Function.update_of_ne hne]

/-- Nor a change that leaves the address alone. -/
theorem client_update {k : ℕ} {t : Servlet} {f : ℕ → Servlet} (hk : t.client = (f k).client)
    (j : ℕ) : (Function.update f k t j).client = (f j).client := by
  by_cases hj : j = k
  · subst j
    rw [Function.update_self,hk]
  · rw [Function.update_of_ne hj]

theorem Allocated.next_notMem (h : s.Allocated) :
    s.next ∉ s.sockets ∧ s.next ∉ s.possibleServers :=
  ⟨fun hj => lt_irrefl _ (h.sockets _ hj),fun hj => lt_irrefl _ (h.possibleServers _ hj)⟩

/-! ### `new_servlet` -/

theorem active_newServlet (h : s.Allocated) : (s.newServlet i now).1.active = s.active ++ [i] := by
  simp [active,newServlet,newServletReal,newServletStartup,map_client_update h.next_notMem.1]

theorem possible_newServlet (h : s.Allocated) : (s.newServlet i now).1.possible = s.possible := by
  simp [possible,newServlet,newServletReal,newServletStartup,map_client_update h.next_notMem.2]

theorem allocated_newServlet (h : s.Allocated) : (s.newServlet i now).1.Allocated := by
  constructor
  · intro j hj
    simp only [newServlet,newServletReal,newServletStartup,List.mem_append,
      List.mem_singleton] at hj ⊢
    obtain hj | rfl := hj
    · exact (h.sockets j hj).trans (Nat.lt_succ_self _)
    · exact Nat.lt_succ_self _
  · intro j hj
    exact (h.possibleServers j hj).trans (Nat.lt_succ_self _)

/-! ### `check_add_server` -/

theorem checkAddServer_some {j : ℕ} (h : s.findServlet o source = some j) :
    s.checkAddServer o source now = { s with
      servlet := Function.update s.servlet j { s.servlet j with lastponged := now } } := by
  simp only [checkAddServer,h]

theorem checkAddServer_none (h : s.findServlet o source = none) :
    s.checkAddServer o source now = (s.newServlet source now).1 := by
  simp [checkAddServer,h,newServlet,newServletReal,newServletStartup]

theorem active_checkAddServer (h : s.Allocated) : (s.checkAddServer o source now).active =
    if source ∈ s.active then s.active else s.active ++ [source] := by
  cases hf : s.findServlet o source with
  | none =>
    rw [checkAddServer_none hf,active_newServlet h,if_neg (findServlet_none hf)]
  | some j =>
    have hmem : source ∈ s.active := findServlet_isSome.mp (Option.isSome_of_eq_some hf)
    rw [checkAddServer_some hf,if_pos hmem]
    simp only [active]
    exact List.map_congr_left fun k _ =>
      client_update (t:={ s.servlet j with lastponged := now }) rfl k

theorem possible_checkAddServer (h : s.Allocated) :
    (s.checkAddServer o source now).possible = s.possible := by
  cases hf : s.findServlet o source with
  | none => rw [checkAddServer_none hf,possible_newServlet h]
  | some j =>
    rw [checkAddServer_some hf]
    simp only [possible]
    exact List.map_congr_left fun k _ =>
      client_update (t:={ s.servlet j with lastponged := now }) rfl k

theorem allocated_checkAddServer (h : s.Allocated) :
    (s.checkAddServer o source now).Allocated := by
  cases hf : s.findServlet o source with
  | none =>
    rw [checkAddServer_none hf]
    exact allocated_newServlet h
  | some j =>
    rw [checkAddServer_some hf]
    exact ⟨h.sockets,h.possibleServers⟩

/-! ### `add_upstream_server` -/

theorem addUpstream_known (h : i ∈ s.possible) : s.addUpstream o i now = s := by
  rw [addUpstream,if_pos (any_possible.mpr h)]

theorem addUpstream_new (h : i ∉ s.possible) : s.addUpstream o i now =
    { s with
      servlet := Function.update s.servlet s.next ⟨i,0,now⟩
      next := s.next+1
      possibleServers := s.possibleServers ++ [s.next] } := by
  rw [addUpstream,if_neg (any_possible.not.mpr h)]
  rfl

theorem sockets_addUpstream : (s.addUpstream o i now).sockets = s.sockets := by
  by_cases hi : i ∈ s.possible
  · rw [addUpstream_known hi]
  · rw [addUpstream_new hi]

/-- A servlet that is there stays as it is. -/
theorem servlet_addUpstream {j : ℕ} (hj : j < s.next) :
    (s.addUpstream o i now).servlet j = s.servlet j := by
  by_cases hi : i ∈ s.possible
  · rw [addUpstream_known hi]
  · rw [addUpstream_new hi]
    exact Function.update_of_ne hj.ne _ _

theorem possible_addUpstream (h : s.Allocated) : (s.addUpstream o i now).possible =
    if i ∈ s.possible then s.possible else s.possible ++ [i] := by
  by_cases hi : i ∈ s.possible
  · rw [addUpstream_known hi,if_pos hi]
  · rw [addUpstream_new hi,if_neg hi]
    simp [possible,map_client_update h.next_notMem.2]

theorem active_addUpstream (h : s.Allocated) : (s.addUpstream o i now).active = s.active := by
  by_cases hi : i ∈ s.possible
  · rw [addUpstream_known hi]
  · rw [addUpstream_new hi]
    simp [active,map_client_update h.next_notMem.1]

theorem allocated_addUpstream (h : s.Allocated) : (s.addUpstream o i now).Allocated := by
  by_cases hi : i ∈ s.possible
  · rwa [addUpstream_known hi]
  · rw [addUpstream_new hi]
    constructor
    · intro j hj
      exact (h.sockets j hj).trans (Nat.lt_succ_self _)
    · intro j hj
      simp only [List.mem_append,List.mem_singleton] at hj
      obtain hj | rfl := hj
      · exact (h.possibleServers j hj).trans (Nat.lt_succ_self _)
      · exact Nat.lt_succ_self _

/-- No address twice among the possible servers, and none is added twice. -/
theorem nodup_addUpstream (h : s.Allocated) (hnd : s.possible.Nodup) :
    (s.addUpstream o i now).possible.Nodup := by
  rw [possible_addUpstream h]
  split_ifs with hi
  · exact hnd
  · refine List.nodup_append.mpr ⟨hnd,List.nodup_singleton i,?_⟩
    simpa using fun a ha => ne_of_mem_of_not_mem ha hi

end Servers

/-! ### Packets -/

/-- What a packet says about servers: nothing, that its sender is there, or moreover the
address of another one. -/
inductive News
  | nothing
  | heard
  | announced (i : SockAddr)
  deriving DecidableEq

def FullPacket.news (o : Order) (p : FullPacket) : News :=
  if ¬Accepted o p then .nothing
  else if p.packet.operation = requestPing ∨ p.packet.operation = replyNoservers then .heard
  else if p.packet.operation = replyServers then .announced ⟨p.address,p.port⟩
  else .nothing

/-- What the handler of such a packet does to the lists. -/
def Servers.hear (o : Order) (source : SockAddr) (now : ℤ) (s : Servers) : News → Servers
  | .nothing => s
  | .heard => s.checkAddServer o source now
  | .announced i => (s.checkAddServer o source now).addUpstream o i now

theorem addUpstreamServer_eq {now : ℤ} {p : FullPacket} {h : Host} (hp : 6 ≤ p.data.length) :
    addUpstreamServer now p h =
      .ok { h with servers := h.servers.addUpstream h.order ⟨p.address,p.port⟩ now } := by
  simp only [addUpstreamServer,FullPacket.readPort_four hp,
    FullPacket.readAddr_zero (p:=p) (by omega),bind,Except.bind,Servers.addUpstream]
  split_ifs <;> rfl

section Packets
variable {g : PatternMatch} {c : Calls} {p : FullPacket} {h h' : Host} {acts : List Action}

/-- The lists after a packet has been handled. -/
theorem applyPacket_servers (hr : applyPacket g c p h = .ok (h',acts)) :
    h'.servers = h.servers.hear h.order p.addr c.time (p.news h.order) := by
  by_cases hacc : Accepted h.order p
  · have hrun := hr
    simp only [applyPacket,if_pos hacc,applyOperation] at hrun
    simp only [FullPacket.news,hacc,not_true_eq_false,if_false]
    split_ifs at hrun with h₁ h₂ h₃ h₄ h₅ h₆ h₇
    · cases hrun
      simp [h₁,Servers.hear]
    · obtain ⟨found,-,heq⟩ := map_eq_ok.mp hrun
      cases heq
      simp [h₂,Servers.hear,requestFilesearch,requestPing,replyNoservers,replyServers]
    · obtain ⟨sent,-,heq⟩ := map_eq_ok.mp hrun
      cases heq
      simp [h₃,Servers.hear,requestWantfile,requestPing,replyNoservers,replyServers]
    · obtain ⟨made,-,heq⟩ := map_eq_ok.mp hrun
      cases heq
      simp [h₄,Servers.hear,replyTransferwaiting,requestPing,replyNoservers,replyServers]
    · have hsame : h'.servers = h.servers := by
        obtain ⟨-,rfl | ⟨b,l,model,-,-,rfl⟩⟩ := applyPacket_reply h₅ hr
        · rfl
        · rfl
      simp [h₅,hsame,Servers.hear,replyFilesearch,requestPing,replyNoservers,replyServers]
    · obtain ⟨k,hk,heq⟩ := map_eq_ok.mp hrun
      cases heq
      have hp : 6 ≤ p.data.length := by
        by_contra hlt
        rw [addUpstreamServer_short (not_le.mp hlt)] at hk
        cases hk
      rw [addUpstreamServer_eq hp] at hk
      cases hk
      simp [h₆,Servers.hear,requestPing,replyNoservers,replyServers]
    · cases hrun
      simp [h₇,Servers.hear]
    · cases hrun
      simp [h₁,h₆,h₇,Servers.hear]
  · simp only [applyPacket,if_neg hacc,Except.ok.injEq,Prod.mk.injEq] at hr
    simp [← hr.1,FullPacket.news,hacc,Servers.hear]

end Packets

end Pingu
end MiscUniStuff
