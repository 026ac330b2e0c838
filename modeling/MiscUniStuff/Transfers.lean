import MiscUniStuff.Descriptors
import MiscUniStuff.PayloadCodecs

/-! The transfers of `download.c` call by call: an upload is `download_send_file` with
the worker `download_send_accept`, a download is `download_reply_transferwaiting` with the
worker `download_recv_fetch`. -/
namespace MiscUniStuff
namespace Pingu
namespace Transfers
open Descriptors

/-- The calls that these functions make. -/
inductive Call
  | openFile (filename : CString)
  | socket
  | setsockopt (fd : ℕ)
  | listen (fd : ℕ)
  | getsockname (fd : ℕ)
  | sendto (reply : Action)
  | accept (fd : ℕ)
  | connect (fd : ℕ) (addr : SockAddr)
  | creat (fullfile : List UInt8)
  | read (fd : ℕ) (count : ℕ)
  | write (fd : ℕ) (count : ℤ)
  | close (fd : ℕ)

def Call.effect : Call → Effect
  | openFile _ | socket | accept _ | creat _ => .opens
  | close fd => .closes fd
  | _ => .keeps

theorem effect_close (fd : ℕ) : Call.effect (.close fd) = .closes fd := rfl

/-- What the calls of one transfer return, `none` for -1, the reads and writes by their
number; the port that `getsockname` stores and the contents of fresh memory. -/
structure Outcomes where
  openFile : Option ℕ
  socket : Option ℕ
  setsockopt : Option ℕ
  listen : Option ℕ
  getsockname : Option ℕ
  sendto : Option ℕ
  accept : Option ℕ
  connect : Option ℕ
  creat : Option ℕ
  read : ℕ → Option ℕ
  write : ℕ → Option ℕ
  close : ℕ → Option ℕ
  port : InPort
  junk : ℕ → UInt8

/-- A result as the `int` it is. -/
def ret (r : Option ℕ) : ℤ := r.elim (-1) Nat.cast

abbrev Performed := List (Call × Option ℕ)

/-- `struct download_data`. -/
structure DownloadData where
  listenport : InPort
  listenid : ℕ
  fileid : ℕ

variable (c : Outcomes)

/-- `download_create_socket`. -/
def downloadCreateSocket : Option ℕ × Performed :=
  match c.socket with
  | none => (none,[(.socket,none)])
  | some listening =>
    let done : Performed := [(.socket,some listening),(.setsockopt listening,c.setsockopt)]
    if ret c.setsockopt < 0 then (none,done)
    else
      let done := done ++ [(.listen listening,c.listen)]
      if ret c.listen < 0 then (none,done) else (some listening,done)

/-- `download_send_file`; `download_send_filenotfound` does nothing. -/
def downloadSendFile (h : Host) (p : FullPacket) (filename : CString) (md5sum : List UInt8)
    (sfilename : CString) : Option DownloadData × Performed :=
  match c.openFile with
  | none => (none,[(.openFile filename,none)])
  | some fileid =>
    let done := (.openFile filename,some fileid)::(downloadCreateSocket c).2
    match (downloadCreateSocket c).1 with
    | none => (none,done)
    | some listenid =>
      let done := done ++ [(.getsockname listenid,c.getsockname)]
      if ret c.getsockname < 0 then (none,done)
      else
        let reply := downloadSendFileReply h p c.port c.junk sfilename md5sum
        (some ⟨c.port,listenid,fileid⟩,done ++ [(.sendto reply,c.sendto)])

/-- The inner loop of `download_send_accept`, from write `w` on, with `k` bytes left to
write. The first argument bounds the number of rounds. -/
def writeLoop (sockid : ℕ) : ℕ → ℕ → ℤ → Option (ℕ × Performed)
  | 0, w, k => if k > 0 then none else some (w,[])
  | n+1, w, k =>
    if k > 0 then
      let h := ret (c.write w)
      (writeLoop sockid n (w+1) (if h > 0 then k-h else k)).map fun r =>
        (r.1,(.write sockid k,c.write w)::r.2)
    else some (w,[])

/-- The read-write loop of `download_send_accept`, from read `r` and write `w` on. -/
def sendLoop (fileid sockid : ℕ) : ℕ → ℕ → ℕ → Option Performed
  | 0, _, _ => none
  | n+1, r, w =>
    let retcode := ret (c.read r)
    if retcode > 0 then do
      let written ← writeLoop c sockid n w retcode
      let rest ← sendLoop fileid sockid n (r+1) written.1
      return (.read fileid 1024,c.read r)::(written.2 ++ rest)
    else some [(.read fileid 1024,c.read r)]

/-- `download_send_accept`. -/
def downloadSendAccept (rounds : ℕ) (k : DownloadData) : Option Performed :=
  match c.accept with
  | none => some [(.accept k.listenid,none)]
  | some sockid => do
    let copied ← sendLoop c k.fileid sockid rounds 0 0
    return [(.accept k.listenid,some sockid),(.close k.listenid,c.close k.listenid)] ++ copied ++
      [(.close k.fileid,c.close k.fileid),(.close sockid,c.close sockid)]

/-- An upload: `get_request_wantfile` pushes what `download_send_file` returns to the pool,
and no worker starts for `NULL`. -/
def upload (rounds : ℕ) (h : Host) (p : FullPacket) (filename : CString) (md5sum : List UInt8)
    (sfilename : CString) : Option Performed :=
  let sent := downloadSendFile c h p filename md5sum sfilename
  match sent.1 with
  | none => some sent.2
  | some k => (downloadSendAccept c rounds k).map fun worker => sent.2 ++ worker

/-- The read-write loop of `download_recv_fetch`, from round `i` on; the first component
is false when a write has failed. -/
def fetchLoop (d : DownloadData) : ℕ → ℕ → Option (Bool × Performed)
  | 0, _ => none
  | n+1, i =>
    let r := ret (c.read i)
    let done : Performed := [(.read d.listenid 4096,c.read i)]
    if r > 0 then
      let w := ret (c.write i)
      let done := done ++ [(.write d.fileid r,c.write i)]
      if w = -1 then some (false,done)
      else (fetchLoop d n (i+1)).map fun rest => (rest.1,done ++ rest.2)
    else some (true,done)

/-- `download_recv_fetch`. -/
def downloadRecvFetch (rounds : ℕ) (d : DownloadData) : Option Performed := do
  let copied ← fetchLoop c d rounds 0
  if copied.1 then
    return copied.2 ++ [(.close d.fileid,c.close d.fileid),(.close d.listenid,c.close d.listenid)]
  else return copied.2

/-- `download_reply_transferwaiting`, once it has the address and the path. The port in the
structure is not set. -/
def downloadReplyTransferwaiting (ad : SockAddr) (fullfile : List UInt8) :
    Option DownloadData × Performed :=
  match c.socket with
  | none => (none,[(.socket,none)])
  | some sockfd =>
    let done : Performed := [(.socket,some sockfd),(.connect sockfd ad,c.connect)]
    if ret c.connect ≠ 0 then (none,done)
    else
      let done := done ++ [(.creat fullfile,c.creat)]
      match c.creat with
      | none => (none,done)
      | some filefd =>
        if filefd < 1 then (none,done)
        else (some ⟨⟨c.junk 0,c.junk 1⟩,sockfd,filefd⟩,done)

/-- A download. -/
def download (rounds : ℕ) (ad : SockAddr) (fullfile : List UInt8) : Option Performed :=
  let waiting := downloadReplyTransferwaiting c ad fullfile
  match waiting.1 with
  | none => some waiting.2
  | some d => (downloadRecvFetch c rounds d).map fun worker => waiting.2 ++ worker

/-! ### Descriptors -/

@[simp] theorem ret_neg_iff {r : Option ℕ} : ret r < 0 ↔ r = none := by
  cases r with
  | none => simp [ret]
  | some n =>
    simp only [ret,Option.elim_some,reduceCtorEq,iff_false]
    omega

@[simp] theorem ret_eq_neg_one_iff {r : Option ℕ} : ret r = -1 ↔ r = none := by
  cases r <;> simp [ret]

@[simp] theorem ret_eq_zero_iff {r : Option ℕ} : ret r = 0 ↔ r = some 0 := by
  cases r <;> simp [ret]

theorem writeLoop_idle {sockid n w : ℕ} {k : ℤ} {r : ℕ × Performed}
    (h : writeLoop c sockid n w k = some r) : Idle Call.effect r.2 := by
  induction n generalizing w k r with
  | zero =>
    simp only [writeLoop] at h
    split_ifs at h
    cases h
    simp [Idle]
  | succ n ih =>
    by_cases hk : k > 0
    · simp only [writeLoop,if_pos hk,Option.map_eq_some_iff] at h
      rcases h with ⟨r',hr,rfl⟩
      have htail := ih hr
      simp only [Idle,List.forall_mem_cons]
      exact ⟨rfl,htail⟩
    · simp only [writeLoop,if_neg hk] at h
      cases h
      simp [Idle]

theorem sendLoop_idle {fileid sockid n r w : ℕ} {t : Performed}
    (h : sendLoop c fileid sockid n r w = some t) : Idle Call.effect t := by
  induction n generalizing r w t with
  | zero => simp [sendLoop] at h
  | succ n ih =>
    simp only [sendLoop] at h
    split_ifs at h with hr
    · simp only [bind,pure,Option.bind_eq_some_iff,Option.some.injEq] at h
      rcases h with ⟨written,hwritten,rest,hrest,rfl⟩
      have hhead := writeLoop_idle c hwritten
      have htail := ih hrest
      simp only [Idle,List.forall_mem_cons,List.forall_mem_append]
      exact ⟨rfl,hhead,htail⟩
    · cases h
      simp [Idle,Call.effect]

theorem fetchLoop_idle {d : DownloadData} {n i : ℕ} {r : Bool × Performed}
    (h : fetchLoop c d n i = some r) : Idle Call.effect r.2 := by
  induction n generalizing i r with
  | zero => simp [fetchLoop] at h
  | succ n ih =>
    simp only [fetchLoop] at h
    split_ifs at h with hr hw
    · cases h
      simp [Idle,Call.effect]
    · rw [Option.map_eq_some_iff] at h
      rcases h with ⟨rest,hrest,rfl⟩
      have htail := ih hrest
      simp only [Idle,List.forall_mem_cons,List.cons_append,List.nil_append]
      exact ⟨rfl,rfl,htail⟩
    · cases h
      simp [Idle,Call.effect]

/-- No write that `download_recv_fetch` comes to fails: one comes after each read that
returns data. -/
def WritesSucceed (i : ℕ) : Prop :=
  ∀ j, i ≤ j → (∀ k, i ≤ k → k ≤ j → 0 < ret (c.read k)) → c.write j ≠ none

theorem writesSucceed_step (i : ℕ) : WritesSucceed c i ↔
    (0 < ret (c.read i) → c.write i ≠ none ∧ WritesSucceed c (i+1)) := by
  constructor
  · intro h hread
    refine ⟨h i le_rfl fun k h₁ h₂ => ?_,fun j hj hk => h j (by omega) fun k h₁ h₂ => ?_⟩
    · obtain rfl : k = i := by omega
      exact hread
    · by_cases hki : k = i
      · rwa [hki]
      · exact hk k (by omega) h₂
  · intro h j hj hk
    have hhere := h (hk i le_rfl hj)
    by_cases hji : j = i
    · rw [hji]
      exact hhere.1
    · exact hhere.2 j (by omega) fun k h₁ h₂ => hk k (by omega) h₂

theorem fetchLoop_fst {d : DownloadData} {n i : ℕ} {r : Bool × Performed}
    (h : fetchLoop c d n i = some r) : r.1 = true ↔ WritesSucceed c i := by
  rw [writesSucceed_step]
  induction n generalizing i r with
  | zero => simp [fetchLoop] at h
  | succ n ih =>
    simp only [fetchLoop] at h
    split_ifs at h with hr hw
    · cases h
      simp only [ret_eq_neg_one_iff] at hw
      simp [hr,hw]
    · rw [Option.map_eq_some_iff] at h
      rcases h with ⟨rest,hrest,rfl⟩
      have htail := ih hrest
      rw [← writesSucceed_step] at htail
      simp only [ret_eq_neg_one_iff] at hw
      simp [hr,hw,htail]
    · cases h
      simp [hr]

/-- A socket is opened, listens, and its port is known. -/
def Listening : Prop :=
  c.socket ≠ none ∧ c.setsockopt ≠ none ∧ c.listen ≠ none ∧ c.getsockname ≠ none

section Uploads
variable {fileid sockid : ℕ} {c} (h : Host) (p : FullPacket) (filename : CString)
  (md5sum : List UInt8) (sfilename : CString)

theorem downloadCreateSocket_open (own : Multiset ℕ) :
    openAfter Call.effect (downloadCreateSocket c).2 own =
      some (c.socket.elim own fun sockfd => sockfd ::ₘ own) := by
  unfold downloadCreateSocket
  cases hs : c.socket with
  | none => rfl
  | some sockfd =>
    simp only [List.cons_append,List.nil_append,Option.elim_some]
    split_ifs <;> rfl

theorem downloadCreateSocket_append (t : Performed) (own : Multiset ℕ) :
    openAfter Call.effect ((downloadCreateSocket c).2 ++ t) own =
      openAfter Call.effect t (c.socket.elim own fun sockfd => sockfd ::ₘ own) := by
  rw [openAfter_append,downloadCreateSocket_open]
  rfl

theorem downloadCreateSocket_some (hs : c.socket = some sockid) (hopt : c.setsockopt ≠ none)
    (hlisten : c.listen ≠ none) : (downloadCreateSocket c).1 = some sockid := by
  simp [downloadCreateSocket,hs,hopt,hlisten]

theorem downloadCreateSocket_none
    (hfail : c.socket = none ∨ c.setsockopt = none ∨ c.listen = none) :
    (downloadCreateSocket c).1 = none := by
  unfold downloadCreateSocket
  cases hs : c.socket with
  | none => rfl
  | some sockfd =>
    simp only [ret_neg_iff]
    split_ifs <;> simp_all

theorem downloadSendFile_noFile (hopen : c.openFile = none) :
    downloadSendFile c h p filename md5sum sfilename = (none,[(.openFile filename,none)]) := by
  simp [downloadSendFile,hopen]

/-- The worker is handed both descriptors, and nothing else is open. -/
theorem downloadSendFile_listening (hopen : c.openFile = some fileid) (hs : c.socket = some sockid)
    (hl : Listening c) :
    (downloadSendFile c h p filename md5sum sfilename).1 = some ⟨c.port,sockid,fileid⟩ ∧
      openAfter Call.effect (downloadSendFile c h p filename md5sum sfilename).2 0 =
        some (sockid ::ₘ {fileid}) := by
  have hsocket := downloadCreateSocket_some hs hl.2.1 hl.2.2.1
  have hname : ¬ret c.getsockname < 0 := by simpa using hl.2.2.2
  simp only [downloadSendFile,hopen,hsocket,if_neg hname]
  refine ⟨trivial,?_⟩
  rw [List.append_assoc,List.cons_append,openAfter_opens rfl]
  refine (downloadCreateSocket_append _ {fileid}).trans ?_
  rw [hs]
  rfl

/-- A failure in between leaves at least the file open. -/
theorem downloadSendFile_fails (hopen : c.openFile = some fileid) (hl : ¬Listening c) :
    (downloadSendFile c h p filename md5sum sfilename).1 = none ∧
      ∃ own, openAfter Call.effect (downloadSendFile c h p filename md5sum sfilename).2 0 =
        some own ∧ own ≠ 0 := by
  have hleft : c.socket.elim {fileid} (fun sockfd => sockfd ::ₘ {fileid}) ≠ 0 := by
    cases c.socket <;> simp
  by_cases hsocket : c.socket = none ∨ c.setsockopt = none ∨ c.listen = none
  · have hnone := downloadCreateSocket_none hsocket
    simp only [downloadSendFile,hopen,hnone]
    refine ⟨trivial,_,?_,hleft⟩
    rw [openAfter_opens rfl]
    exact downloadCreateSocket_open {fileid}
  · simp only [not_or] at hsocket
    have hname : c.getsockname = none := by
      by_contra hne
      exact hl ⟨hsocket.1,hsocket.2.1,hsocket.2.2,hne⟩
    obtain ⟨sockfd,hs⟩ := Option.ne_none_iff_exists'.mp hsocket.1
    have hsome := downloadCreateSocket_some hs hsocket.2.1 hsocket.2.2
    have hneg : ret c.getsockname < 0 := by simpa using hname
    simp only [downloadSendFile,hopen,hsome,if_pos hneg]
    refine ⟨trivial,_,?_,hleft⟩
    rw [List.cons_append,openAfter_opens rfl]
    exact downloadCreateSocket_append _ {fileid}

/-- The worker closes what it was handed unless nobody connects. -/
theorem downloadSendAccept_open {rounds : ℕ} {k : DownloadData} {t : Performed}
    (ht : downloadSendAccept c rounds k = some t) :
    openAfter Call.effect t (k.listenid ::ₘ {k.fileid}) =
      some (if c.accept = none then k.listenid ::ₘ {k.fileid} else 0) := by
  cases ha : c.accept with
  | none =>
    simp only [downloadSendAccept,ha,Option.some.injEq] at ht
    subst t
    rfl
  | some sockid =>
    simp only [downloadSendAccept,ha,bind,pure,Option.bind_eq_some_iff,Option.some.injEq] at ht
    rcases ht with ⟨copied,hcopied,rfl⟩
    have hidle := sendLoop_idle c hcopied
    rw [List.append_assoc,List.cons_append,openAfter_opens rfl,List.cons_append,List.nil_append,
      Multiset.cons_swap,openAfter_closes (effect_close _),hidle.openAfter_append,
      ← Multiset.cons_zero k.fileid,Multiset.cons_swap,openAfter_closes (effect_close _),openAfter_closes (effect_close _)]
    rfl

/-- The outcomes for which an upload gives back what it opens. -/
def UploadClean (c : Outcomes) : Prop := c.openFile = none ∨ Listening c ∧ c.accept ≠ none

theorem upload_released_iff {rounds : ℕ} {t : Performed}
    (ht : upload c rounds h p filename md5sum sfilename = some t) :
    Released Call.effect t ↔ UploadClean c := by
  cases hopen : c.openFile with
  | none =>
    simp only [upload,downloadSendFile_noFile _ _ _ _ _ hopen,Option.some.injEq] at ht
    subst t
    simp only [UploadClean,hopen,true_or,iff_true]
    rfl
  | some fileid =>
    simp only [UploadClean,hopen,reduceCtorEq,false_or]
    by_cases hl : Listening c
    · obtain ⟨sockid,hs⟩ := Option.ne_none_iff_exists'.mp hl.1
      have hsent := downloadSendFile_listening h p filename md5sum sfilename hopen hs hl
      simp only [upload,hsent.1,Option.map_eq_some_iff] at ht
      rcases ht with ⟨worker,hworker,rfl⟩
      have hclosed := downloadSendAccept_open hworker
      rw [Released,openAfter_append,hsent.2,Option.bind_some,hclosed]
      simp [hl]
    · rcases downloadSendFile_fails h p filename md5sum sfilename hopen hl with
        ⟨hnone,own,hown,hne⟩
      simp only [upload,hnone,Option.some.injEq] at ht
      subst t
      simp [Released,hown,hne,hl]

end Uploads

section Downloads
variable {sockfd filefd : ℕ} {c} (ad : SockAddr) (fullfile : List UInt8)

/-- The connection stands and the file is there. A descriptor 0 counts as a failure. -/
def Connected (c : Outcomes) (filefd : ℕ) : Prop :=
  c.connect = some 0 ∧ c.creat = some filefd ∧ 1 ≤ filefd

theorem downloadReply_connected (hs : c.socket = some sockfd) (hc : Connected c filefd) :
    (downloadReplyTransferwaiting c ad fullfile).1 =
        some ⟨⟨c.junk 0,c.junk 1⟩,sockfd,filefd⟩ ∧
      openAfter Call.effect (downloadReplyTransferwaiting c ad fullfile).2 0 =
        some (filefd ::ₘ {sockfd}) := by
  have hconnect : ¬ret c.connect ≠ 0 := by simpa using hc.1
  have hfile : ¬filefd < 1 := not_lt.mpr hc.2.2
  simp only [downloadReplyTransferwaiting,hs,if_neg hconnect,hc.2.1,if_neg hfile]
  exact ⟨trivial,rfl⟩

/-- Otherwise at least the socket stays open. -/
theorem downloadReply_fails (hs : c.socket = some sockfd) (hc : ∀ filefd, ¬Connected c filefd) :
    (downloadReplyTransferwaiting c ad fullfile).1 = none ∧
      ∃ own, openAfter Call.effect (downloadReplyTransferwaiting c ad fullfile).2 0 = some own ∧
        own ≠ 0 := by
  by_cases hconnect : ret c.connect ≠ 0
  · simp only [downloadReplyTransferwaiting,hs,if_pos hconnect]
    exact ⟨trivial,{sockfd},rfl,by simp⟩
  · simp only [downloadReplyTransferwaiting,hs,if_neg hconnect]
    cases hcreat : c.creat with
    | none => exact ⟨rfl,{sockfd},rfl,by simp⟩
    | some filefd =>
      have hfile : filefd < 1 := by
        by_contra hge
        exact hc filefd ⟨by simpa using hconnect,hcreat,by omega⟩
      simp only [if_pos hfile]
      exact ⟨trivial,filefd ::ₘ {sockfd},rfl,by simp⟩

/-- The worker closes what it was handed unless a write fails. -/
theorem downloadRecvFetch_open {rounds : ℕ} {d : DownloadData} {t : Performed}
    (ht : downloadRecvFetch c rounds d = some t) :
    ∃ own, openAfter Call.effect t (d.fileid ::ₘ {d.listenid}) = some own ∧
      (own = 0 ↔ WritesSucceed c 0) := by
  simp only [downloadRecvFetch,bind,pure,Option.bind_eq_some_iff] at ht
  rcases ht with ⟨copied,hcopied,ht⟩
  have hidle := fetchLoop_idle c hcopied
  have hfst := fetchLoop_fst c hcopied
  rw [← hfst]
  split_ifs at ht with hdone
  · cases ht
    refine ⟨0,?_,by simp [hdone]⟩
    rw [hidle.openAfter_append,openAfter_closes (effect_close _),← Multiset.cons_zero d.listenid,
      openAfter_closes (effect_close _)]
    rfl
  · cases ht
    exact ⟨_,hidle.openAfter,by simp [hdone]⟩

/-- The outcomes for which a download gives back what it opens. -/
def DownloadClean (c : Outcomes) : Prop :=
  c.socket = none ∨ (∃ filefd, Connected c filefd) ∧ WritesSucceed c 0

theorem download_released_iff {rounds : ℕ} {t : Performed}
    (ht : download c rounds ad fullfile = some t) :
    Released Call.effect t ↔ DownloadClean c := by
  cases hs : c.socket with
  | none =>
    simp only [download,downloadReplyTransferwaiting,hs,Option.some.injEq] at ht
    subst t
    simp only [DownloadClean,hs,true_or,iff_true]
    rfl
  | some sockfd =>
    simp only [DownloadClean,hs,reduceCtorEq,false_or]
    by_cases hc : ∃ filefd, Connected c filefd
    · rcases hc with ⟨filefd,hc⟩
      have hwaiting := downloadReply_connected ad fullfile hs hc
      simp only [download,hwaiting.1,Option.map_eq_some_iff] at ht
      rcases ht with ⟨worker,hworker,rfl⟩
      obtain ⟨own,hown,hiff⟩ := downloadRecvFetch_open hworker
      rw [Released,openAfter_append,hwaiting.2,Option.bind_some,hown,Option.some.injEq,hiff]
      simp only [iff_and_self]
      exact fun _ => ⟨filefd,hc⟩
    · rcases downloadReply_fails ad fullfile hs (not_exists.mp hc) with ⟨hnone,own,hown,hne⟩
      simp only [download,hnone,Option.some.injEq] at ht
      subst t
      simp [Released,hown,hne,hc]

/-- A download ends when the other end stops sending. -/
theorem fetchLoop_returns {d : DownloadData} {n i : ℕ} (h : ret (c.read (i+n)) ≤ 0) :
    (fetchLoop c d (n+1) i).isSome := by
  induction n generalizing i with
  | zero =>
    have hread : ¬ret (c.read i) > 0 := not_lt.mpr h
    simp [fetchLoop,hread]
  | succ n ih =>
    have hrest := ih (i:=i+1) (by rwa [Nat.add_right_comm])
    rw [fetchLoop]
    simp only
    split_ifs
    · rfl
    · simpa using hrest
    · rfl

theorem downloadRecvFetch_returns {d : DownloadData} {n : ℕ} (h : ret (c.read n) ≤ 0) :
    (downloadRecvFetch c (n+1) d).isSome := by
  have hloop : (fetchLoop c d (n+1) 0).isSome := fetchLoop_returns (by rwa [Nat.zero_add])
  obtain ⟨copied,hcopied⟩ := Option.isSome_iff_exists.mp hloop
  simp only [downloadRecvFetch,hcopied,bind,pure,Option.bind_some]
  split_ifs <;> rfl

theorem download_returns {n : ℕ} (h : ret (c.read n) ≤ 0) :
    (download c (n+1) ad fullfile).isSome := by
  simp only [download]
  split
  · rfl
  · simpa using downloadRecvFetch_returns h

end Downloads

/-- Once handler and worker have returned, an upload has closed what it opened if and only
if the file could not be opened or everything up to `accept` went well, and a download if and
only if there was no socket or everything went well up to the last write. -/
theorem transfers_released_iff (c : Outcomes) (rounds : ℕ) (t : Performed) :
    (∀ h p filename md5sum sfilename, upload c rounds h p filename md5sum sfilename = some t →
      (Released Call.effect t ↔ UploadClean c)) ∧
    ∀ ad fullfile, download c rounds ad fullfile = some t →
      (Released Call.effect t ↔ DownloadClean c) :=
  ⟨fun h p filename md5sum sfilename ht => upload_released_iff h p filename md5sum sfilename ht,
    fun ad fullfile ht => download_released_iff ad fullfile ht⟩

/-- An upload of ten bytes in two writes. -/
def served : Outcomes where
  openFile := some 4
  socket := some 5
  setsockopt := some 0
  listen := some 0
  getsockname := some 0
  sendto := some 33
  accept := some 6
  connect := none
  creat := none
  read i := if i = 0 then some 10 else some 0
  write _ := some 5
  close _ := some 0
  port := ⟨0x12,0x34⟩
  junk _ := 0

theorem transfers_released_iff_served : ∃ t, upload served 3 (.initial .little []) firstSearch
    someFile.fullfilename someFile.md5sum someFile.filename = some t ∧
      Released Call.effect t :=
  ⟨_,rfl,((transfers_released_iff served 3 _).1 (.initial .little []) firstSearch
    someFile.fullfilename someFile.md5sum someFile.filename rfl).mpr
      (.inr (by simp [Listening,served]))⟩

/-- The socket is descriptor 5, and nobody listens at the other end. -/
def refused : Outcomes where
  openFile := none
  socket := some 5
  setsockopt := none
  listen := none
  getsockname := none
  sendto := none
  accept := none
  connect := none
  creat := none
  read _ := none
  write _ := none
  close _ := none
  port := ⟨0,0⟩
  junk _ := 0

/-- A refused connection leaves the socket open. -/
theorem transfers_leak : ∃ t, download refused 1 ⟨⟨10,0,0,2⟩,⟨0x12,0x34⟩⟩ [] = some t ∧
    ¬Released Call.effect t := by
  have hleft : openAfter Call.effect
      [(.socket,some 5),(.connect 5 ⟨⟨10,0,0,2⟩,⟨0x12,0x34⟩⟩,none)] 0 = some {5} := rfl
  refine ⟨_,rfl,?_⟩
  rw [Released]
  change openAfter Call.effect
    [(.socket,some 5),(.connect 5 ⟨⟨10,0,0,2⟩,⟨0x12,0x34⟩⟩,none)] 0 ≠ some 0
  simp [hleft]

/-! ### The handlers as one step -/

/-- What the rest of the model sees of a call. -/
def Call.action : Call → Option Action
  | sendto reply => some reply
  | connect _ addr => some (.connect addr)
  | creat fullfile => some (.creat fullfile)
  | _ => none

/-- What it sees of the results. -/
def Outcomes.calls (c : Outcomes) (time : ℤ) : Calls where
  time := time
  opened := c.openFile.isSome
  listenport :=
    if c.socket.isSome ∧ c.setsockopt.isSome ∧ c.listen.isSome ∧ c.getsockname.isSome
    then some c.port else none
  socketed := c.socket.isSome
  connected := c.connect = some 0
  created := decide (∃ filefd ∈ c.creat, 1 ≤ filefd)
  junk := c.junk

theorem downloadCreateSocket_actions (c : Outcomes) :
    ((downloadCreateSocket c).2.filterMap fun a => a.1.action) = [] := by
  unfold downloadCreateSocket
  cases c.socket with
  | none => rfl
  | some sockfd =>
    simp only
    split_ifs <;> rfl

/-- Nothing is sent before the port is known. -/
theorem downloadSendFile_quiet (c : Outcomes) (h : Host) (p : FullPacket) (filename : CString)
    (md5sum : List UInt8) (sfilename : CString)
    (hnone : (downloadSendFile c h p filename md5sum sfilename).1 = none) :
    ((downloadSendFile c h p filename md5sum sfilename).2.filterMap fun a => a.1.action) = [] := by
  have hquiet := downloadCreateSocket_actions c
  unfold downloadSendFile at hnone ⊢
  cases hopen : c.openFile with
  | none => rfl
  | some fileid =>
    rw [hopen] at hnone
    cases hsocket : (downloadCreateSocket c).1 with
    | none =>
      simp only
      rw [List.filterMap_cons_none rfl,hquiet]
    | some listenid =>
      simp only [hsocket] at hnone ⊢
      split_ifs at hnone ⊢ with hname
      rw [List.cons_append,List.filterMap_cons_none rfl,List.filterMap_append,hquiet]
      rfl

/-- With a request that is long enough, the handler of it makes these calls. -/
theorem downloadSendFile_actions (c : Outcomes) (time : ℤ) (h : Host) (p : FullPacket)
    (f : FileData) (hp : 16 ≤ p.data.length) :
    let sent := downloadSendFile c h p f.fullfilename (p.data.take 16) f.filename
    Pingu.downloadSendFile (c.calls time) h p f = .ok ((sent.2.filterMap fun a => a.1.action) ++
      [.downloadPool (sent.1.map fun _ => f.fullfilename)]) := by
  intro sent
  cases hopen : c.openFile with
  | none =>
    have hsent : sent = (none,[(.openFile f.fullfilename,none)]) :=
      downloadSendFile_noFile _ _ _ _ _ hopen
    rw [hsent]
    simp [Pingu.downloadSendFile,Outcomes.calls,hopen,Call.action,pure,Except.pure]
  | some fileid =>
    by_cases hl : Listening c
    · have hopened : (c.calls time).opened = true := by simp [Outcomes.calls,hopen]
      have hport : (c.calls time).listenport = some c.port := by
        simp [Outcomes.calls,Option.isSome_iff_ne_none,hl.1,hl.2.1,hl.2.2.1,hl.2.2.2]
      have hname : ¬ret c.getsockname < 0 := by simpa using hl.2.2.2
      obtain ⟨sockid,hs⟩ := Option.ne_none_iff_exists'.mp hl.1
      have hsocket := downloadCreateSocket_some hs hl.2.1 hl.2.2.1
      have hquiet := downloadCreateSocket_actions c
      rw [downloadSendFile_eq hopened hport hp]
      simp only [sent,downloadSendFile,hopen,hsocket,if_neg hname,List.cons_append,
        List.append_assoc]
      rw [List.filterMap_cons_none rfl,List.filterMap_append,hquiet]
      rfl
    · have hnone := (downloadSendFile_fails h p f.fullfilename (p.data.take 16) f.filename hopen hl).1
      have hquiet := downloadSendFile_quiet c h p f.fullfilename (p.data.take 16) f.filename hnone
      have hport : (c.calls time).listenport = none := by
        simp only [Outcomes.calls,Option.isSome_iff_ne_none]
        exact if_neg hl
      simp only [sent,hquiet,hnone]
      unfold Pingu.downloadSendFile
      rw [hport]
      split
      · contradiction
      · rfl

/-- With a payload that is long enough, the handler of an offer makes these calls. -/
theorem downloadReply_actions (c : Outcomes) (time : ℤ) (p : FullPacket)
    (hp : 22 ≤ p.data.length) :
    let waiting := downloadReplyTransferwaiting c ⟨p.addr.addr,p.port⟩ p.fullfile
    Pingu.downloadReplyTransferwaiting (c.calls time) p =
      .ok ((waiting.2.filterMap fun a => a.1.action) ++
        if waiting.1.isSome then [.uploadPool] else []) := by
  rw [downloadReplyTransferwaiting_eq hp]
  cases hs : c.socket with
  | none => simp [downloadReplyTransferwaiting,Outcomes.calls,hs,Call.action]
  | some sockfd =>
    by_cases hconnect : c.connect = some 0
    · cases hcreat : c.creat with
      | none =>
        simp [downloadReplyTransferwaiting,Outcomes.calls,hs,hconnect,hcreat,Call.action]
      | some filefd =>
        by_cases hfile : filefd = 0
        · simp [downloadReplyTransferwaiting,Outcomes.calls,hs,hconnect,hcreat,hfile,Call.action]
        · have hge : 1 ≤ filefd := Nat.one_le_iff_ne_zero.mpr hfile
          simp [downloadReplyTransferwaiting,Outcomes.calls,hs,hconnect,hcreat,hfile,hge,
            Call.action]
    · simp [downloadReplyTransferwaiting,Outcomes.calls,hs,hconnect,Call.action]

end Transfers
end Pingu
end MiscUniStuff
