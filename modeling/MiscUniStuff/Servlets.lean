import MiscUniStuff.Host

/-! The lists of servers of `socket.c`, and the packets that are about them. -/
namespace MiscUniStuff
namespace Pingu
open ByteOrder

namespace Servers

/-- `find_servlet`. -/
def findServlet (o : Order) (i : SockAddr) (s : Servers) : Option ℕ :=
  s.sockets.find? fun j => cmpSockaddr o (s.servlet j).client i = 0

/-- `new_servlet_real` at time `now`. -/
def newServletReal (i : SockAddr) (now : ℤ) (s : Servers) : Servers × ℕ :=
  ({ s with servlet := Function.update s.servlet s.next ⟨i,0,now⟩, next := s.next+1 },s.next)

/-- `new_servlet_startup`, without the view and the thread that are told of it. -/
def newServletStartup (serv : ℕ) (s : Servers) : Servers :=
  { s with sockets := s.sockets ++ [serv] }

/-- `new_servlet`. -/
def newServlet (i : SockAddr) (now : ℤ) (s : Servers) : Servers × ℕ :=
  let (s₁,moo) := s.newServletReal i now
  (s₁.newServletStartup moo,moo)

/-- `check_add_server`. -/
def checkAddServer (o : Order) (source : SockAddr) (now : ℤ) (s : Servers) : Servers :=
  let (s₁,serv) := match s.findServlet o source with
    | some serv => (s,serv)
    | none => s.newServlet source now
  { s₁ with
    servlet := Function.update s₁.servlet serv { s₁.servlet serv with lastponged := now } }

end Servers

/-- `generate_reply_servers`: an answer for every server but the one that asks, or one
that says there are none, which carries the socket descriptor. -/
def generateReplyServers (h : Host) (p : FullPacket) : List Action :=
  let others := h.known.filter fun client => cmpSockaddr h.order client p.addr ≠ 0
  if others = [] then
    [.sendto p.addr (sendPacket h.order
      (fillinPacket h.order replyNoservers 4 p.packet.requestHandle)
      (store h.order 4 h.listening.toNat))]
  else
    others.map fun client => .sendto p.addr (sendPacket h.order
      (fillinPacket h.order replyServers 6 p.packet.requestHandle)
      (client.addr.bytes ++ client.port.bytes))

/-- `add_upstream_server`. -/
def addUpstreamServer (now : ℤ) (p : FullPacket) (h : Host) : Except Fault Host := do
  let f ← p.readAddr 0
  let k ← p.readPort 4
  let i : SockAddr := ⟨f,k⟩
  if h.servers.possibleServers.any fun j =>
      cmpSockaddr h.order (h.servers.servlet j).client i = 0 then
    return h
  else
    let (s,l) := h.servers.newServletReal i now
    return { h with servers := { s with possibleServers := s.possibleServers ++ [l] } }

theorem addUpstreamServer_isOk {now : ℤ} {p : FullPacket} {h : Host} (hp : 6 ≤ p.data.length) :
    (addUpstreamServer now p h).isOk := by
  simp only [addUpstreamServer,FullPacket.readPort_four hp,
    FullPacket.readAddr_zero (p:=p) (by omega),bind,Except.bind]
  split <;> rfl

theorem addUpstreamServer_short {now : ℤ} {p : FullPacket} {h : Host} (hp : p.data.length < 6) :
    addUpstreamServer now p h = .error .payloadIndex := by
  by_cases h₄ : p.data.length < 4
  · simp [addUpstreamServer,FullPacket.readAddr_error (p:=p) (i:=0) (by omega),bind,Except.bind]
  · simp [addUpstreamServer,FullPacket.readAddr_zero (p:=p) (by omega),
      FullPacket.readPort_error (p:=p) (i:=4) (by omega),bind,Except.bind]

end Pingu
end MiscUniStuff
