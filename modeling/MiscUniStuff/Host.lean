import MiscUniStuff.Payload
import MiscUniStuff.RequestHandler

/-! One running program: the global variables of its C files, and what the outside
world answers to its calls. -/
namespace MiscUniStuff
namespace Pingu
open ByteOrder

/-- `struct _Servlet`: a machine this one knows. -/
structure Servlet where
  client : SockAddr
  lastpinged : ℤ
  lastponged : ℤ
  deriving DecidableEq

/-- The lists of active and of possible servers hold addresses of servlets; a servlet is
never freed. -/
structure Servers where
  servlet : ℕ → Servlet
  next : ℕ
  sockets : List ℕ
  possibleServers : List ℕ

/-- `struct filedata`: an entry of the file database. -/
structure FileData where
  fullfilename : CString
  filename : CString
  md5sum : List UInt8
  filesize : ℕ
  md5_length : md5sum.length = 16
  deriving DecidableEq

/-- `struct filedata_response`: a row of a result list. The field `port` is never set. -/
structure FiledataResponse where
  filename : List UInt8
  md5sum : List UInt8
  size : Int32
  addr : SockAddr
  hostname : String
  deriving DecidableEq

/-- The byte order and `sizeof(size_t)` of the machine, the socket it listens on, and
the program's variables. `models` are the result lists made so far, by number; the tab
of a result list goes by the same number. -/
structure Host where
  order : Order
  sizeofSizeT : ℕ
  four_le : 4 ≤ sizeofSizeT
  listening : UInt32
  servers : Servers
  database : List FileData
  requests : RequestTable
  models : ℕ → List FiledataResponse
  nextModel : ℕ

/-- A program that has just started, with the files it serves. -/
def Host.initial (o : Order) (database : List FileData) : Host where
  order := o
  sizeofSizeT := 4
  four_le := le_rfl
  listening := 3
  servers := ⟨fun _ => ⟨⟨.zero,⟨0,0⟩⟩,0,0⟩,0,[],[]⟩
  database := database
  requests := requestInit
  models := fun _ => []
  nextModel := 0

/-- What a program does to the outside world while it handles a packet or a click. -/
inductive Action
  | sendto (addr : SockAddr) (data : List UInt8)
  | connect (addr : SockAddr)
  | creat (path : List UInt8)
  | downloadPool (fullfilename : Option CString)
  | uploadPool
  deriving DecidableEq

/-- What the calls made on the way return: `time`, the calls that open a file and a
listening socket for it, the calls that connect and create a file, and the contents of
fresh memory. -/
structure Calls where
  time : ℤ
  opened : Bool
  listenport : Option InPort
  socketed : Bool
  connected : Bool
  created : Bool
  junk : ℕ → UInt8

/-- No call succeeds, and the clock and fresh memory read 0. -/
def noCalls : Calls := ⟨0,false,none,false,false,false,fun _ => 0⟩

/-- The addresses of the active servers. -/
def Host.known (h : Host) : List SockAddr :=
  h.servers.sockets.map fun j => (h.servers.servlet j).client

/-- `send_to_all_except`. -/
def Host.sendToAllExcept (h : Host) (addr : SockAddr) (p : Packet) (d : List UInt8) :
    List Action :=
  (h.known.filter fun client => cmpSockaddr h.order client addr ≠ 0).map
    fun client => .sendto client (sendPacket h.order p d)

/-- `send_to_all`. -/
def Host.sendToAll (h : Host) (p : Packet) (d : List UInt8) : List Action :=
  h.known.map fun client => .sendto client (sendPacket h.order p d)

/-- `set_destination_ip`. -/
def setDestinationIp (local' current : InAddr) : InAddr :=
  if local' = .zero then current else local'

end Pingu
end MiscUniStuff
