import MiscUniStuff.BrainfuckEval
import MiscUniStuff.BrainfuckReduce
import MiscUniStuff.BracketWords
import MiscUniStuff.BrainfuckFlat
import MiscUniStuff.RequestSpec
import MiscUniStuff.Runs
import MiscUniStuff.RequestRuns
import MiscUniStuff.Packet
import MiscUniStuff.Payload
import MiscUniStuff.Host
import MiscUniStuff.Servlets
import MiscUniStuff.FileSearch
import MiscUniStuff.Download
import MiscUniStuff.ApplyPacket
import MiscUniStuff.PacketSafety
import MiscUniStuff.SearchReplies
import MiscUniStuff.Bags
import MiscUniStuff.SearchNetwork
import MiscUniStuff.SearchFlood
import MiscUniStuff.SearchForwarding
import MiscUniStuff.SearchAnswers
import MiscUniStuff.SearchResults
import MiscUniStuff.BrainfuckPrint
import MiscUniStuff.BlockMachine
import MiscUniStuff.BrainfuckMachine
import MiscUniStuff.BrainfuckBytes
import MiscUniStuff.DownloadDirectory
import MiscUniStuff.DownloadRuns
import MiscUniStuff.ServletLists
import MiscUniStuff.PingGossip
import MiscUniStuff.Pingers
import MiscUniStuff.ActiveServers
import MiscUniStuff.Locks
import MiscUniStuff.Notebook
import MiscUniStuff.PingTimeouts
import MiscUniStuff.LockOrder
import MiscUniStuff.PacketFraming
import MiscUniStuff.DeclaredLength
import MiscUniStuff.Descriptors
import MiscUniStuff.ModelGslist
import MiscUniStuff.Transfers
import MiscUniStuff.DiplomacyMap
import MiscUniStuff.ConsistencyCheck
import MiscUniStuff.MapLoading
import MiscUniStuff.FleetMoves
import MiscUniStuff.PartialApplication
import MiscUniStuff.Gslist
import MiscUniStuff.PossibleServers
import MiscUniStuff.DirectoryScan
import MiscUniStuff.ModelIterators
import MiscUniStuff.SharedSeas
import MiscUniStuff.TransferBytes
import MiscUniStuff.BracketSplit
import MiscUniStuff.BrainfuckCanonical
import MiscUniStuff.FleetReturns
import MiscUniStuff.BadProvinces
import MiscUniStuff.CheckerWalk
import MiscUniStuff.ListFolds
import MiscUniStuff.Md5Stream
import MiscUniStuff.BrainfuckLogic
import MiscUniStuff.BrainfuckLoops
import MiscUniStuff.CopiedFiles
import MiscUniStuff.ProvinceClicks
import MiscUniStuff.PeerServers
import MiscUniStuff.PeerDelivery
import MiscUniStuff.TrafficStops
import MiscUniStuff.SearchComplete
