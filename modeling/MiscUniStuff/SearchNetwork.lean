import MiscUniStuff.ApplyPacket
import MiscUniStuff.Bags
import MiscUniStuff.Runs

/-! A network of programs that send each other datagrams. A datagram in flight may be
delivered at any time, or be lost; it is neither duplicated nor made up. -/
namespace MiscUniStuff
namespace Pingu
open ByteOrder

/-- How the network connects the programs `ι`: whom an address reaches, and which source
address the receiver at an address sees on the datagrams of a sender. -/
structure Wiring (ι : Type) where
  route : SockAddr → Option ι
  seen : ι → SockAddr → SockAddr
  seen_ne_zero : ∀ i a, (seen i a).addr ≠ .zero

/-- Where a datagram comes from, noted for the proofs and unknown to the programs: a copy
of the search under watch with the addresses it has been sent to so far, a reply to such a
copy, or anything else. -/
inductive Trace
  | search (hops : List SockAddr)
  | reply (hops : List SockAddr) (f : FileData)
  | other
  deriving DecidableEq

structure Flight where
  source : SockAddr
  dest : SockAddr
  datagram : Datagram
  trace : Trace
  deriving DecidableEq

/-- The programs (`none` for one that has crashed), their receive buffers, and the
datagrams in flight. -/
structure Net (ι : Type) where
  host : ι → Option Host
  buffer : ι → ℕ → UInt8
  flights : List Flight

/-- The traces of what a program sends while it handles a datagram: for a copy of the
search first the replies for the files found and then the copies it passes on. -/
def follow (t : Trace) (found : List FileData) : List Action → List (Action × Trace)
  | [] => []
  | a::acts =>
    match t,found,a with
    | .search hops,f::rest,a => (a,.reply hops f) :: follow t rest acts
    | .search hops,[],.sendto dest data =>
      (.sendto dest data,.search (hops ++ [dest])) :: follow t [] acts
    | _,_,a => (a,.other) :: follow t found acts

/-- `sendto` puts a datagram on the network unless it is too long for UDP. -/
def launch {ι : Type} (w : Wiring ι) (j : ι) : List (Action × Trace) → List Flight :=
  List.filterMap fun
    | (.sendto dest data,t) =>
      if h : data.length ≤ maxDatagram then some ⟨w.seen j dest,dest,⟨data,h⟩,t⟩ else none
    | _ => none

/-- The packet that a host reads from a flight. -/
def Flight.packet (f : Flight) (h : Host) (buffer : ℕ → UInt8) : FullPacket :=
  readPacket h.order (recvfrom f.datagram buffer) f.source

theorem Flight.packet_ttl {f : Flight} {b : UInt8} (hb : f.datagram.bytes[6]? = some b)
    (h : Host) (buffer : ℕ → UInt8) : (f.packet h buffer).packet.ttl = b := by
  simp [Flight.packet,readPacket,Packet.ofImage,recvfrom_eq,hb]

theorem Flight.packet_operation {f : Flight} {b : UInt8} (hb : f.datagram.bytes[7]? = some b)
    (h : Host) (buffer : ℕ → UInt8) : (f.packet h buffer).packet.operation = b := by
  simp [Flight.packet,readPacket,Packet.ofImage,recvfrom_eq,hb]

variable {ι : Type} [DecidableEq ι]

/-- A program receives a flight that has been taken off the network. -/
def Net.receive (w : Wiring ι) (g : PatternMatch) (calls : Calls) (f : Flight) (j : ι) (h : Host)
    (s : Net ι) : Net ι :=
  let p := f.packet h (s.buffer j)
  let buffer := Function.update s.buffer j (recvfrom f.datagram (s.buffer j))
  match applyPacket g calls p h with
  | .error _ => { s with host := Function.update s.host j none, buffer := buffer }
  | .ok (h',acts) =>
    { host := Function.update s.host j (some h')
      buffer := buffer
      flights := s.flights ++ launch w j (follow f.trace (matching g h p) acts) }

/-- The program a flight reaches, if there is one that still runs. -/
def Net.receiver (w : Wiring ι) (f : Flight) (s : Net ι) : Option (ι × Host) :=
  (w.route f.dest).bind fun j => (s.host j).map (j,·)

inductive NetOp
  | deliver (i : ℕ) (calls : Calls)
  | lose (i : ℕ)

/-- One step of the network, and the flight that a program has received in it. -/
def NetOp.step (w : Wiring ι) (g : PatternMatch) : NetOp → Net ι → Net ι × List Flight
  | deliver i calls, s =>
    match s.flights[i]? with
    | none => (s,[])
    | some f =>
      let rest := { s with flights := s.flights.eraseIdx i }
      match s.receiver w f with
      | none => (rest,[])
      | some (j,h) => (rest.receive w g calls f j h,[f])
  | lose i, s => ({ s with flights := s.flights.eraseIdx i },[])

/-- The network after a list of steps, and the flights received on the way. -/
def Net.run (w : Wiring ι) (g : PatternMatch) (s : Net ι) (ops : List NetOp) :
    Net ι × List Flight := Runs.run (NetOp.step w g) s ops

/-- The user of program `j` starts the search under watch. -/
def Net.search (w : Wiring ι) (calls : Calls) (search : CString) (j : ι) (s : Net ι) : Net ι :=
  match s.host j with
  | none => s
  | some h =>
    { s with
      host := Function.update s.host j (some (searchfile calls search h).1)
      flights := s.flights ++
        launch w j (follow (.search []) [] (searchfile calls search h).2) }

/-! A network of three: the first knows the other two, the second knows the third, and
only the third has a file. -/

/-- The addresses are 10.0.0.1 to 10.0.0.3, port 3773. -/
def addressOf (i : Fin 3) : SockAddr := ⟨⟨10,0,0,UInt8.ofNat (i.val+1)⟩,⟨0x0E,0xBD⟩⟩

def triangleWiring : Wiring (Fin 3) where
  route a := [0,1,2].find? fun i => addressOf i = a
  seen i _ := addressOf i
  seen_ne_zero i _ := by
    revert i
    decide

/-- A program that has been connected to the given machines. -/
def Host.connected (h : Host) (l : List SockAddr) : Host :=
  { h with servers := l.foldl (fun s i => (s.newServlet i 0).1) h.servers }

def someFile : FileData where
  fullfilename := ⟨[0x2F,0x66],by decide⟩
  filename := ⟨[0x66],by decide⟩
  md5sum := List.replicate 16 7
  filesize := 1
  md5_length := rfl

def triangle : Net (Fin 3) where
  host
    | 0 => some ((Host.initial .little []).connected [addressOf 1,addressOf 2])
    | 1 => some ((Host.initial .little []).connected [addressOf 2])
    | 2 => some (Host.initial .little [someFile])
  buffer _ _ := 0
  flights := []

/-- Only equal names match. -/
def sameName : PatternMatch := fun patt name => decide (patt = name)

/-- The first program has started a search for the file. -/
def triangleSearched : Net (Fin 3) := triangle.search triangleWiring noCalls someFile.filename 0

/-! What one step can do. -/

/-- The three things that happen: a flight is lost, its handling crashes the receiver, or
the receiver handles it. -/
inductive Happens (w : Wiring ι) (g : PatternMatch) (s : Net ι) : Net ι → List Flight → Prop
  | lost (i : ℕ) : Happens w g s { s with flights := Bags.exchange s.flights i [] } []
  | crashed {i : ℕ} {f : Flight} {j : ι} {h : Host} {calls : Calls} {e : Fault}
      (hf : s.flights[i]? = some f) (hj : w.route f.dest = some j) (hh : s.host j = some h)
      (he : applyPacket g calls (f.packet h (s.buffer j)) h = .error e) :
      Happens w g s
        { host := Function.update s.host j none
          buffer := Function.update s.buffer j (recvfrom f.datagram (s.buffer j))
          flights := Bags.exchange s.flights i [] } [f]
  | handled {i : ℕ} {f : Flight} {j : ι} {h h' : Host} {calls : Calls} {acts : List Action}
      (hf : s.flights[i]? = some f) (hj : w.route f.dest = some j) (hh : s.host j = some h)
      (ha : applyPacket g calls (f.packet h (s.buffer j)) h = .ok (h',acts)) :
      Happens w g s
        { host := Function.update s.host j (some h')
          buffer := Function.update s.buffer j (recvfrom f.datagram (s.buffer j))
          flights := Bags.exchange s.flights i (launch w j
            (follow f.trace (matching g h (f.packet h (s.buffer j))) acts)) } [f]

theorem lost_happens {w : Wiring ι} {g : PatternMatch} {s : Net ι} (i : ℕ) :
    Happens w g s { s with flights := s.flights.eraseIdx i } [] := by
  simpa [Bags.exchange] using Happens.lost (w:=w) (g:=g) (s:=s) i

theorem step_happens (w : Wiring ι) (g : PatternMatch) (o : NetOp) (s : Net ι) :
    Happens w g s (o.step w g s).1 (o.step w g s).2 := by
  cases o with
  | lose i => exact lost_happens i
  | deliver i calls =>
    cases hf : s.flights[i]? with
    | none =>
      have hlen := List.getElem?_eq_none_iff.mp hf
      have hh := lost_happens (w:=w) (g:=g) (s:=s) i
      rw [List.eraseIdx_of_length_le hlen] at hh
      simpa [NetOp.step,hf] using hh
    | some f =>
      rcases hr : s.receiver w f with _ | ⟨j,h⟩
      · simpa [NetOp.step,hf,hr] using lost_happens (w:=w) (g:=g) (s:=s) i
      · have hto := hr
        simp only [Net.receiver,Option.bind_eq_some_iff,Option.map_eq_some_iff,
          Prod.mk.injEq] at hto
        rcases hto with ⟨j',hj,h',hh,rfl,rfl⟩
        simp only [NetOp.step,hf,hr,Net.receive]
        cases ha : applyPacket g calls (f.packet h' (s.buffer j')) h' with
        | error e => simpa [Bags.exchange] using Happens.crashed (w:=w) hf hj hh ha
        | ok r => exact Happens.handled (w:=w) hf hj hh ha

theorem update_none {host : ι → Option Host} {j k : ι} {h : Host}
    (hk : Function.update host j none k = some h) : host k = some h := by
  by_cases hkj : k = j
  · simp [hkj] at hk
  · simpa [hkj] using hk

theorem update_some {host : ι → Option Host} {j k : ι} {h h' : Host}
    (hk : Function.update host j (some h') k = some h) : k = j ∧ h = h' ∨ host k = some h := by
  by_cases hkj : k = j
  · exact .inl ⟨hkj,by simpa [hkj,eq_comm] using hk⟩
  · exact .inr (by simpa [hkj] using hk)

/-- What holds at the start and is kept by whatever happens holds after every run. -/
theorem Net.run_invariant {w : Wiring ι} {g : PatternMatch} {s : Net ι}
    {P : Net ι → List Flight → Prop} (init : P s [])
    (next : ∀ s log s' new, P s log → Happens w g s s' new → P s' (log ++ new))
    (ops : List NetOp) : P (s.run w g ops).1 (s.run w g ops).2 :=
  Runs.invariant (P:=fun _ s log => P s log) init
    (fun _ o h => next _ _ _ _ h (step_happens w g o _)) ops

/-! Traces and launched datagrams. -/

omit [DecidableEq ι] in
theorem mem_launch {w : Wiring ι} {j : ι} {l : List (Action × Trace)} {f : Flight} :
    f ∈ launch w j l ↔ f.source = w.seen j f.dest ∧
      (.sendto f.dest f.datagram.bytes,f.trace) ∈ l := by
  simp only [launch,List.mem_filterMap,Prod.exists]
  constructor
  · rintro ⟨a,t,hmem,hf⟩
    cases a with
    | sendto dest data =>
      simp only [Option.dite_none_right_eq_some,Option.some.injEq] at hf
      rcases hf with ⟨hlen,rfl⟩
      exact ⟨rfl,hmem⟩
    | _ => simp at hf
  · rintro ⟨hsource,hmem⟩
    refine ⟨_,_,hmem,?_⟩
    simp [f.datagram.bounded,← hsource]

@[simp] theorem follow_map_fst (t : Trace) (found : List FileData) (acts : List Action) :
    (follow t found acts).map Prod.fst = acts := by
  induction acts generalizing found with
  | nil => rfl
  | cons a acts ih =>
    unfold follow
    split <;> simp [ih]

theorem follow_copies (hops dests : List SockAddr) (data : List UInt8) :
    follow (.search hops) [] (dests.map fun dest => .sendto dest data) =
      dests.map fun dest => (.sendto dest data,.search (hops ++ [dest])) := by
  induction dests with
  | nil => rfl
  | cons dest dests ih => simpa [follow] using ih

theorem follow_search (hops : List SockAddr) (found : List FileData) (k : FileData → Action)
    (dests : List SockAddr) (data : List UInt8) :
    follow (.search hops) found (found.map k ++ dests.map fun dest => .sendto dest data) =
      found.map (fun f => (k f,.reply hops f)) ++
        dests.map fun dest => (.sendto dest data,.search (hops ++ [dest])) := by
  induction found with
  | nil => exact follow_copies hops dests data
  | cons f found ih => simpa [follow] using ih

theorem follow_unwatched {t : Trace} (ht : ∀ hops, t ≠ .search hops) (found : List FileData)
    (acts : List Action) : follow t found acts = acts.map (·,.other) := by
  induction acts with
  | nil => rfl
  | cons a acts ih =>
    cases t with
    | search hops => exact absurd rfl (ht hops)
    | reply hops f => simpa [follow] using ih
    | other => simpa [follow] using ih

omit [DecidableEq ι] in
/-- What a program sends while it handles a flight: replies and copies of the search, if
the flight is a copy of it. -/
theorem launched_cases {w : Wiring ι} {g : PatternMatch} {calls : Calls} {f f' : Flight} {j : ι}
    {h h' : Host} {p : FullPacket} {acts : List Action}
    (hop : ∀ hops, f.trace = .search hops → p.packet.operation = requestFilesearch)
    (ha : applyPacket g calls p h = .ok (h',acts))
    (hf' : f' ∈ launch w j (follow f.trace (matching g h p) acts)) :
    f'.trace = .other ∧ (∀ hops, f.trace ≠ .search hops) ∨
      ∃ hops, f.trace = .search hops ∧ 8 ≤ p.data.length ∧
      ((∃ file ∈ matching g h p, f'.trace = .reply hops file ∧
        .sendto f'.dest f'.datagram.bytes = reply h p file) ∨
      (f'.dest ∈ forwardDests h p ∧ f'.trace = .search (hops ++ [f'.dest]) ∧
        f'.datagram.bytes = sendPacket h.order p.forwardHeader p.forwardData)) := by
  have hmem := (mem_launch.mp hf').2
  by_cases ht : ∃ hops, f.trace = .search hops
  · rcases ht with ⟨hops,ht⟩
    rcases applyPacket_search (hop hops ht) ha with ⟨-,rfl | ⟨hp,rfl⟩⟩
    · simp [follow] at hmem
    · rw [forwards_eq,ht,follow_search] at hmem
      refine .inr ⟨hops,ht,hp,?_⟩
      rcases List.mem_append.mp hmem with hm | hm
      · obtain ⟨file,hfile,heq⟩ := List.mem_map.mp hm
        simp only [Prod.mk.injEq] at heq
        exact .inl ⟨file,hfile,heq.2.symm,heq.1.symm⟩
      · obtain ⟨dest,hdest,heq⟩ := List.mem_map.mp hm
        simp only [Prod.mk.injEq,Action.sendto.injEq] at heq
        rcases heq with ⟨⟨rfl,hdata⟩,htrace⟩
        exact .inr ⟨hdest,htrace.symm,hdata.symm⟩
  · push Not at ht
    rw [follow_unwatched ht] at hmem
    obtain ⟨a,-,heq⟩ := List.mem_map.mp hmem
    simp only [Prod.mk.injEq] at heq
    exact .inl ⟨heq.2.symm,ht⟩

/-- What the network holds right after the search has been started. -/
theorem search_flights {w : Wiring ι} {calls : Calls} {search : CString} {o : ι} {s : Net ι}
    {f : Flight} (hf : f ∈ (s.search w calls search o).flights) : f ∈ s.flights ∨
      ∃ h, s.host o = some h ∧ f.source = w.seen o f.dest ∧ f.dest ∈ h.known ∧
        f.trace = .search [f.dest] ∧ f.datagram.bytes = sendPacket h.order
          (fillinPacket h.order requestFilesearch (UInt16.ofNat (8+search.strlen))
            h.requests.found) (searchPayload h.order calls.junk search) := by
  unfold Net.search at hf
  cases hh : s.host o with
  | none => exact .inl (by simpa [hh] using hf)
  | some h =>
    simp only [hh] at hf
    rcases List.mem_append.mp hf with hm | hm
    · exact .inl hm
    · have hl := mem_launch.mp hm
      rw [searchfile_snd,follow_copies] at hl
      obtain ⟨dest,hdest,heq⟩ := List.mem_map.mp hl.2
      simp only [Prod.mk.injEq,Action.sendto.injEq] at heq
      rcases heq with ⟨⟨rfl,hdata⟩,htrace⟩
      exact .inr ⟨h,rfl,hl.1,hdest,htrace.symm,hdata.symm⟩

end Pingu
end MiscUniStuff
