import MiscUniStuff.Paths
import MiscUniStuff.Download

/-! Where `download.c` puts what it fetches. The name in the reply is joined to the
download directory as it is, so its components decide where the file goes. -/
namespace MiscUniStuff
namespace Pingu
open Paths

/-- A component of a path; an empty one and `.` move nowhere. -/
def component (c : List UInt8) : Option (Move (List UInt8)) :=
  if c = [] ∨ c = [46] then none
  else if c = [46,46] then some .up
  else some (.down c)

/-- The moves of a relative path, whose components stand between slashes. -/
def pathMoves (path : List UInt8) : List (Move (List UInt8)) :=
  (path.splitOn 47).filterMap component

/-- The path names the download directory or something below it. -/
def InDownloads (path : List UInt8) : Prop :=
  (resolve (pathMoves downloadDirectory)).Under (resolve (pathMoves path))

/-- The file name of a reply, up to the first zero byte. -/
def FullPacket.transferName (p : FullPacket) : List UInt8 := (cstring (p.data.drop 22)).bytes

/-- The name of the download directory in its parent. -/
def downloads : List UInt8 := [100,111,119,110,108,111,97,100,115]

theorem splitOn_downloadDirectory : downloadDirectory.splitOn 47 = [[46,46],downloads,[]] := by
  decide +kernel

theorem pathMoves_directory : pathMoves downloadDirectory = [.up,.down downloads] := by
  rw [pathMoves,splitOn_downloadDirectory]
  rfl

theorem pathMoves_join (name : List UInt8) :
    pathMoves (downloadDirectory ++ name) = [.up,.down downloads] ++ pathMoves name := by
  have hdir : downloadDirectory = ([46,46,47] ++ downloads) ++ [47] := by decide +kernel
  have hsplit : ([46,46,47] ++ downloads).splitOn (47 : UInt8) = [[46,46],downloads] := by decide
  rw [pathMoves,hdir,List.append_assoc,List.singleton_append,List.splitOn_append_cons_self,
    hsplit,List.filterMap_append]
  rfl

/-- What being under it means for the directories themselves, wherever the program runs. -/
theorem inDownloads_iff_follow (path : List UInt8) :
    InDownloads path ↔
      ∀ cwd, follow cwd (pathMoves downloadDirectory) <:+ follow cwd (pathMoves path) := by
  apply under_iff_follow
  simp [pathMoves_directory,resolve,Place.move]

theorem inDownloads_join (name : List UInt8) :
    InDownloads (downloadDirectory ++ name) ↔
      Within 0 (pathMoves name) ∨ ReturnsTo downloads (pathMoves name) := by
  have hdir : resolve (pathMoves downloadDirectory) = ⟨1,[downloads]⟩ := by
    rw [pathMoves_directory]
    rfl
  have hpath : resolve (pathMoves (downloadDirectory ++ name)) =
      walk ⟨1,[downloads]⟩ (pathMoves name) := by
    rw [pathMoves_join,resolve,walk_append]
    rfl
  rw [InDownloads,hdir,hpath]
  exact under_walk_iff

/-- The file goes into the download directory exactly when the name never climbs out
of it, or only to its parent and back in by name. -/
theorem creat_inDownloads_iff (calls : Calls) (p : FullPacket) (hp : 22 ≤ p.data.length)
    (acts : List Action) (h : downloadReplyTransferwaiting calls p = .ok acts)
    (path : List UInt8) (hpath : .creat path ∈ acts) :
    InDownloads path ↔
      Within 0 (pathMoves p.transferName) ∨ ReturnsTo downloads (pathMoves p.transferName) := by
  have hfull := ((creat_mem_iff hp h path).mp hpath).2.2
  rw [hfull]
  exact inDownloads_join p.transferName

/-- A reply that offers a file by this name, with the reserved bytes and the sum zero. -/
def transferOffer (name : List UInt8) (h : name.length < 65514) : FullPacket where
  packet := ⟨protocolMagic,protocolVersion,0,standardTtl,replyTransferwaiting,
    UInt16.ofNat (22+name.length)⟩
  data := List.replicate 22 0 ++ name
  addr := ⟨.zero,⟨0,0⟩⟩
  data_length := by
    have hlt : 22+name.length < 65536 := by omega
    rw [UInt16.toNat_ofNat_of_lt' hlt,List.length_append,List.length_replicate]

/-- Both calls on the way to `creat` succeed. -/
def connecting : Calls := { noCalls with socketed := true, connected := true }

theorem downloadReply_offer {name : List UInt8} (h : name.length < 65514) :
    downloadReplyTransferwaiting connecting (transferOffer name h) =
      .ok [.connect ⟨.zero,⟨0,0⟩⟩,.creat (downloadDirectory ++ (cstring name).bytes)] := by
  rw [downloadReplyTransferwaiting_eq (by simp [transferOffer])]
  simp [connecting,noCalls,transferOffer,FullPacket.fullfile,FullPacket.port,InPort.ofBytes]

/-- A plain name stays in the directory. -/
theorem creat_inDownloads_plain :
    InDownloads (downloadDirectory ++ [97]) ↔
      Within 0 (pathMoves [97]) ∨ ReturnsTo downloads (pathMoves [97]) :=
  creat_inDownloads_iff connecting (transferOffer [97] (by simp)) (by simp [transferOffer]) _
    (downloadReply_offer (by simp)) _ (by simp [cstring])

/-- The name `../x` puts the file beside the download directory. -/
theorem creat_outside : ¬∀ (calls : Calls) (p : FullPacket), 22 ≤ p.data.length → ∀ acts,
    downloadReplyTransferwaiting calls p = .ok acts → ∀ path, .creat path ∈ acts →
      InDownloads path := by
  intro h
  have hin := h connecting (transferOffer [46,46,47,120] (by simp)) (by simp [transferOffer]) _
    (downloadReply_offer (by simp)) (downloadDirectory ++ [46,46,47,120]) (by simp [cstring])
  have hplace : resolve (pathMoves (downloadDirectory ++ [46,46,47,120])) = ⟨1,[[120]]⟩ := by
    rw [pathMoves_join]
    decide
  have hdir : resolve (pathMoves downloadDirectory) = ⟨1,[downloads]⟩ := by
    rw [pathMoves_directory]
    rfl
  rw [InDownloads,hplace,hdir] at hin
  have hsuffix := hin.2
  revert hsuffix
  decide

end Pingu
end MiscUniStuff
